import Moqx.Holders

/-! The fetch coroutines of a world, step by step: where each one comes from, and which of them
keeps a writeback alive. -/
namespace Moqx

open Moxygen Maps FetchTask

variable [Moxygen]

/-- A fetch that waits for an upstream interval still has something to do behind it. -/
def AfterUpstream.GoesOn (after : AfterUpstream) (intervals : List Interval) : Prop :=
  intervals ≠ [] ∨ ∃ current pin, after = .boundary current pin

/-- Only an interval that is not the last one is waited for. -/
def FetchPc.WaitsInside : FetchPc → Prop
  | .upstreamFetch _ lastObject intervals after => lastObject = false → after.GoesOn intervals
  | .writebackComplete _ intervals after => after.GoesOn intervals
  | _ => True

theorem FetchPc.waitsInside_of_free {pc : FetchPc} (h : pc.heldWriteback = none) :
    pc.WaitsInside := by
  cases pc <;> trivial

namespace FetchTask

variable {task task' : FetchTask} {c c' : Cache} {t : CacheTrack}

variable {after : AfterUpstream} {intervals : List Interval}

/-- Behind an interval that is not the last one there is no error to make. -/
theorem nextInterval_of_goesOn (h : after.GoesOn intervals) (task : FetchTask) (t : CacheTrack)
    (ok : FetchOk) : ∃ task', task.nextInterval t intervals after ok = .ok task' := by
  unfold nextInterval
  cases intervals with
  | cons interval rest => exact ⟨_, rfl⟩
  | nil =>
    rcases h with h | ⟨current, pin, rfl⟩
    · exact absurd rfl h
    · exact ⟨_, rfl⟩

theorem afterComplete_of_goesOn (h : after.GoesOn intervals) (task : FetchTask) (c : Cache)
    (wb : FetchWriteback) (now : TimePoint) :
    ∃ task', task.afterComplete c wb intervals after now = .ok task' := by
  unfold afterComplete
  dsimp only
  split
  · exact ⟨_, rfl⟩
  · exact nextInterval_of_goesOn h _ _ _

theorem fetchUpstream_pc {id : WritebackId} {interval : Interval} {wb : FetchWriteback}
    (h : task.fetchUpstream c id interval intervals after = .ok (wb, task', c')) :
    task'.pc.heldWriteback = some id ∧ task'.pc.WaitsInside := by
  obtain ⟨stop, -, h⟩ := bind_eq_ok.mp h
  obtain ⟨⟨w, d⟩, -, h⟩ := bind_eq_ok.mp h
  cases h
  refine ⟨rfl, fun hlast => ?_⟩
  cases after with
  | boundary current pin => exact .inr ⟨current, pin, rfl⟩
  | tail =>
    refine .inl fun hnil => ?_
    rw [hnil] at hlast
    cases hlast

end FetchTask

namespace World

variable {w w' : World} {op : Op}

/-- What a step of a coroutine does to the writeback it keeps alive. -/
inductive HoldStep (w : World) (pc : FetchPc) (w' : World) (pc' : FetchPc) : Prop where
  | free (h : pc'.heldWriteback = none) (hwbs : w'.writebacks = w.writebacks)
      (hid : w'.nextId = w.nextId)
  | fetched {wb : FetchWriteback} (h : pc'.heldWriteback = some w.nextId) (hin : pc'.WaitsInside)
      (hwbs : w'.writebacks = w.writebacks.insert w.nextId wb) (hid : w'.nextId = w.nextId + 1)
  | waits {wb : WritebackId} {intervals : List Interval} {after : AfterUpstream}
      (h : pc = .upstreamFetch wb false intervals after)
      (h' : pc' = .writebackComplete wb intervals after) (hwbs : w'.writebacks = w.writebacks)
      (hid : w'.nextId = w.nextId)

theorem resumeTask_holds {id : ConsumerId} {task : FetchTask} {with_ : Resume}
    (h : w.resumeTask id task with_ = .ok w') :
    ∃ task', w'.tasks = w.tasks.insert id task' ∧ HoldStep w task.pc w' task'.pc := by
  unfold resumeTask at h
  split at h
  · cases h
    exact ⟨_, rfl, .free rfl rfl rfl⟩
  · obtain ⟨⟨task', calls, c⟩, hhead, h⟩ := bind_eq_ok.mp h
    cases h
    exact ⟨task', rfl, .free (head_goes hhead).free rfl rfl⟩
  · split at h
    · obtain ⟨⟨task', c⟩, hwait, h⟩ := bind_eq_ok.mp h
      cases h
      exact ⟨task', rfl, .free (afterWait_goes hwait).free rfl rfl⟩
    · cases h
  · obtain ⟨⟨wb, task', c⟩, hup, h⟩ := bind_eq_ok.mp h
    cases h
    obtain ⟨hheld, hin⟩ := fetchUpstream_pc hup
    exact ⟨task', rfl, .fetched hheld hin rfl rfl⟩
  · next wb lastObject intervals after answer hpc =>
    obtain ⟨⟨task', calls, c⟩, hanswer, h⟩ := bind_eq_ok.mp h
    cases h
    refine ⟨task', rfl, ?_⟩
    rcases (afterUpstreamFetch_goes hanswer).2 with hfree | ⟨rfl, hpc'⟩
    · exact .free hfree rfl rfl
    · exact .waits hpc hpc' rfl rfl
  · obtain ⟨wb, -, h⟩ := bind_eq_ok.mp h
    obtain ⟨task', hcomplete, h⟩ := bind_eq_ok.mp h
    cases h
    exact ⟨task', rfl, .free (afterComplete_goes hcomplete).free rfl rfl⟩
  · obtain ⟨⟨task', calls⟩, hpublish, h⟩ := bind_eq_ok.mp h
    cases h
    exact ⟨task', rfl, .free (publish_goes hpublish).free rfl rfl⟩
  · cases h
    exact ⟨_, rfl, .free rfl rfl rfl⟩
  · cases h

/-- Where a coroutine comes from: it was there, maybe cancelled in between, it was just started,
or it has made a step. -/
inductive TaskStep (w : World) (op : Op) (w' : World) (id : ConsumerId) (task' : FetchTask) :
    Prop where
  | kept {task : FetchTask} (h : w.tasks.lookup id = some task) (hpc : task'.pc = task.pc)
  | started (hid : id = w.nextId) (hpc : task'.pc = .start)
  | resumed {task : FetchTask} {with_ : Resume} (hop : op = .resume id with_)
      (h : w.tasks.lookup id = some task) (hr : w.resumeTask id task with_ = .ok w')

variable {k : ConsumerId}

theorem cancelTask_lookup {id : ConsumerId} {task task' : FetchTask}
    (ht : w.tasks.lookup id = some task) (h : (w.cancelTask id task).tasks.lookup k = some task') :
    ∃ task, w.tasks.lookup k = some task ∧ task'.pc = task.pc := by
  unfold cancelTask at h
  have hset : (w.tasks.insert id { task with cancelled := true }).lookup k = some task' →
      ∃ task, w.tasks.lookup k = some task ∧ task'.pc = task.pc := by
    intro h
    rcases lookup_insert_some h with ⟨rfl, rfl⟩ | ⟨-, h⟩
    · exact ⟨task, ht, rfl⟩
    · exact ⟨task', h, rfl⟩
  split at h
  · exact ⟨task', h, rfl⟩
  · exact ⟨task', h, rfl⟩
  · exact hset h
  · exact hset h

theorem step_task {id : ConsumerId} {task' : FetchTask} (h : w.step op = .ok w')
    (hl : w'.tasks.lookup id = some task') : TaskStep w op w' id task' := by
  have hkept : w'.tasks = w.tasks → TaskStep w op w' id task' := by
    intro heq
    rw [heq] at hl
    exact .kept hl rfl
  cases op with
  | fetch f =>
    obtain ⟨⟨started, d⟩, hf, h⟩ := bind_eq_ok.mp h
    unfold Cache.fetch at hf
    split at hf
    · obtain ⟨r, -, hf⟩ := bind_eq_ok.mp hf
      cases hf
      cases h
      exact hkept rfl
    · obtain ⟨task, hnew, hf⟩ := bind_eq_ok.mp hf
      cases hf
      cases h
      rcases lookup_insert_some hl with ⟨rfl, rfl⟩ | ⟨-, hl⟩
      · exact .started rfl (Cache.fetchCachedTrack_result hnew).2.2.2
      · exact .kept hl rfl
  | resume cid with_ =>
    obtain ⟨task, ht, hr⟩ := bind_eq_ok.mp h
    have ht := orNoCaller_eq_ok.mp ht
    obtain ⟨task₁, htasks, -⟩ := resumeTask_holds hr
    rw [htasks] at hl
    rcases lookup_insert_some hl with ⟨rfl, rfl⟩ | ⟨-, hl⟩
    · exact .resumed rfl ht hr
    · exact .kept hl rfl
  | cancel cid =>
    obtain ⟨task, ht, h⟩ := bind_eq_ok.mp h
    cases h
    obtain ⟨task₁, h1, h2⟩ := cancelTask_lookup (orNoCaller_eq_ok.mp ht) hl
    exact .kept h1 h2
  | tick | setTrackExtensions =>
    cases h
    exact hkept rfl
  | subscribe | closeSubgroup | purgeTrack | purgeNamespace | purgeAll =>
    obtain ⟨_, -, h⟩ := bind_eq_ok.mp h
    cases h
    exact hkept rfl
  | closeSubscribe | objectStream | datagram | writeSubgroup | deliver =>
    obtain ⟨_, -, h⟩ := bind_eq_ok.mp h
    obtain ⟨_, -, h⟩ := bind_eq_ok.mp h
    cases h
    exact hkept rfl
  | beginSubgroup =>
    obtain ⟨s, -, h⟩ := bind_eq_ok.mp h
    obtain ⟨r, -, h⟩ := bind_eq_ok.mp h
    split at h <;> cases h <;> exact hkept rfl
  | closeWriteback =>
    obtain ⟨wb, -, h⟩ := bind_eq_ok.mp h
    split at h
    · cases h
    · cases h
      exact hkept rfl

/-- Numbers are never given out twice. -/
theorem step_nextId_le (h : w.step op = .ok w') : w.nextId ≤ w'.nextId := by
  cases op with
  | tick | setTrackExtensions =>
    cases h
    exact Nat.le_refl _
  | closeSubgroup | purgeTrack | purgeNamespace | purgeAll =>
    obtain ⟨_, -, h⟩ := bind_eq_ok.mp h
    cases h
    exact Nat.le_refl _
  | closeSubscribe | objectStream | datagram | writeSubgroup | deliver =>
    obtain ⟨_, -, h⟩ := bind_eq_ok.mp h
    obtain ⟨_, -, h⟩ := bind_eq_ok.mp h
    cases h
    exact Nat.le_refl _
  | subscribe =>
    obtain ⟨_, -, h⟩ := bind_eq_ok.mp h
    cases h
    exact Nat.le_succ _
  | beginSubgroup =>
    obtain ⟨s, -, h⟩ := bind_eq_ok.mp h
    obtain ⟨r, -, h⟩ := bind_eq_ok.mp h
    split at h <;> cases h
    · exact Nat.le_succ _
    · exact Nat.le_refl _
  | closeWriteback =>
    obtain ⟨wb, -, h⟩ := bind_eq_ok.mp h
    split at h
    · cases h
    · cases h
      exact Nat.le_refl _
  | fetch =>
    obtain ⟨r, -, h⟩ := bind_eq_ok.mp h
    split at h <;> cases h <;> exact Nat.le_succ _
  | resume =>
    obtain ⟨task, -, hr⟩ := bind_eq_ok.mp h
    obtain ⟨task', -, hhold⟩ := resumeTask_holds hr
    cases hhold with
    | free _ _ hid => exact hid.ge
    | fetched _ _ _ hid =>
      rw [hid]
      exact Nat.le_succ _
    | waits _ _ _ hid => exact hid.ge
  | cancel =>
    obtain ⟨task, -, h⟩ := bind_eq_ok.mp h
    cases h
    unfold cancelTask
    split <;> exact Nat.le_refl _

/-- A writeback that a coroutine waits for is there, and no other coroutine keeps it alive. -/
structure HoldsOk (w : World) : Prop where
  alive : ∀ k task id, w.tasks.lookup k = some task → task.pc.heldWriteback = some id →
    w.writebacks.lookup id ≠ none
  unique : ∀ j k task task' id, w.tasks.lookup j = some task → w.tasks.lookup k = some task' →
    task.pc.heldWriteback = some id → task'.pc.heldWriteback = some id → j = k
  inside : ∀ k task, w.tasks.lookup k = some task → task.pc.WaitsInside

/-- A writeback stays until it is closed. -/
theorem step_keeps_writeback {id : WritebackId} (h : w.step op = .ok w')
    (hl : w.writebacks.lookup id ≠ none) (hop : op ≠ .closeWriteback id) :
    w'.writebacks.lookup id ≠ none := by
  have hinsert : ∀ (k : WritebackId) (wb : FetchWriteback),
      (w.writebacks.insert k wb).lookup id ≠ none := by
    intro k wb
    by_cases hk : id = k
    · subst hk
      simp
    · rwa [AList.lookup_insert_ne hk]
  cases hkeys : op.usesKeys with
  | false => rwa [step_writebacks hkeys h]
  | true =>
    cases op with
    | fetch f =>
      rcases fetch_cases h with ⟨-, hwbs⟩ | ⟨d, wb, -, -, -, hwbs⟩
      · rwa [hwbs]
      · rw [hwbs]
        exact hinsert _ _
    | resume cid with_ =>
      obtain ⟨task, -, hr⟩ := bind_eq_ok.mp h
      obtain ⟨task', -, hhold⟩ := resumeTask_holds hr
      cases hhold with
      | free _ hwbs => rwa [hwbs]
      | fetched _ _ hwbs =>
        rw [hwbs]
        exact hinsert _ _
      | waits _ _ hwbs => rwa [hwbs]
    | deliver wid delivery =>
      obtain ⟨wb, -, h⟩ := bind_eq_ok.mp h
      obtain ⟨r, -, h⟩ := bind_eq_ok.mp h
      cases h
      exact hinsert _ _
    | closeWriteback wid =>
      obtain ⟨wb, -, h⟩ := bind_eq_ok.mp h
      split at h
      · cases h
      · cases h
        have hne : id ≠ wid := fun heq => hop (by rw [heq])
        rwa [AList.lookup_erase_ne hne]
    | _ => simp [Op.usesKeys] at hkeys

/-- A writeback is held by the coroutine that held it before, or by the one that has just made
it. -/
theorem step_held {task' : FetchTask} {id : WritebackId} (h : w.step op = .ok w')
    (hl : w'.tasks.lookup k = some task') (hheld : task'.pc.heldWriteback = some id) :
    (∃ task, w.tasks.lookup k = some task ∧ task.pc.heldWriteback = some id) ∨
      (id = w.nextId ∧ w'.writebacks.lookup id ≠ none ∧ ∃ with_, op = .resume k with_) := by
  cases step_task h hl with
  | kept hl hpc =>
    rw [hpc] at hheld
    exact .inl ⟨_, hl, hheld⟩
  | started _ hpc =>
    rw [hpc] at hheld
    cases hheld
  | @resumed task with_ hop ht hr =>
    obtain ⟨task₁, htasks, hhold⟩ := resumeTask_holds hr
    rw [htasks, AList.lookup_insert] at hl
    cases hl
    cases hhold with
    | free hfree =>
      rw [hfree] at hheld
      cases hheld
    | fetched hnew _ hwbs =>
      rw [hnew] at hheld
      cases hheld
      refine .inr ⟨rfl, ?_, with_, hop⟩
      rw [hwbs, AList.lookup_insert]
      simp
    | waits hpc hpc' =>
      rw [hpc'] at hheld
      refine .inl ⟨task, ht, ?_⟩
      rw [hpc]
      exact hheld

theorem step_waitsInside (ho : w.HoldsOk) {task' : FetchTask} (h : w.step op = .ok w')
    (hl : w'.tasks.lookup k = some task') : task'.pc.WaitsInside := by
  cases step_task h hl with
  | kept hl hpc =>
    rw [hpc]
    exact ho.inside k _ hl
  | started _ hpc =>
    rw [hpc]
    trivial
  | resumed hop ht hr =>
    obtain ⟨task₁, htasks, hhold⟩ := resumeTask_holds hr
    rw [htasks, AList.lookup_insert] at hl
    cases hl
    cases hhold with
    | free hfree => exact FetchPc.waitsInside_of_free hfree
    | fetched _ hin => exact hin
    | waits hpc hpc' =>
      have hin := ho.inside k _ ht
      rw [hpc] at hin
      rw [hpc']
      exact hin rfl

theorem HoldsOk.step (hw : w.WF) (ho : w.HoldsOk) (h : w.step op = .ok w') : w'.HoldsOk := by
  -- What was held before the step is older than what the step makes.
  have hold : ∀ {k task id}, w.tasks.lookup k = some task → task.pc.heldWriteback = some id →
      id < w.nextId := by
    intro k task id hl hheld
    obtain ⟨wb, hwb⟩ := Option.ne_none_iff_exists'.mp (ho.alive k task id hl hheld)
    exact (hw.writebacks id wb hwb).2.2
  refine ⟨?_, ?_, fun k task hl => step_waitsInside ho h hl⟩
  · intro k task' id hl hheld
    rcases step_held h hl hheld with ⟨task, ht, hheld'⟩ | ⟨-, hwb, -⟩
    · refine step_keeps_writeback h (ho.alive k task id ht hheld') fun hop => ?_
      subst hop
      obtain ⟨wb, -, h⟩ := bind_eq_ok.mp h
      split at h
      · cases h
      · next hany =>
        refine hany ?_
        rw [List.any_eq_true]
        exact ⟨⟨k, task⟩, AList.mem_lookup_iff.mp ht, by simpa using hheld'⟩
    · exact hwb
  · intro j k task task' id hj hk hheld hheld'
    rcases step_held h hj hheld with ⟨t₁, h₁, hh₁⟩ | ⟨rfl, -, with_, rfl⟩
    · rcases step_held h hk hheld' with ⟨t₂, h₂, hh₂⟩ | ⟨rfl, -, with_, rfl⟩
      · exact ho.unique j k t₁ t₂ id h₁ h₂ hh₁ hh₂
      · exact absurd (hold h₁ hh₁) (Nat.lt_irrefl _)
    · rcases step_held h hk hheld' with ⟨t₂, h₂, hh₂⟩ | ⟨-, -, with_', hop⟩
      · exact absurd (hold h₂ hh₂) (Nat.lt_irrefl _)
      · cases hop
        rfl

theorem Reaches.holdsOk {Q : World → Op → Prop} (h : Reaches Q w) : w.HoldsOk := by
  refine h.keeps (I := HoldsOk) ?_ fun w op w' hw _ hstep ho => ho.step hw hstep
  intros
  exact ⟨by simp [ofCache], by simp [ofCache], by simp [ofCache]⟩

end World

end Moqx
