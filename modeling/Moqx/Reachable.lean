import Moqx.Owners

/-! Runs of the world, and what holds throughout every one of them. -/
namespace Moqx

open Moxygen Maps FetchTask

variable [Moxygen] {w w' : World} {op : Op}

/-- A new cache with its limits and durations. -/
def Cache.create (maxCachedTracks maxCachedGroupsPerTrack maxCachedBytes minEvictionBytes : Nat)
    (defaultMaxCacheDuration maxAllowedCacheDuration : Option Milliseconds) : Cache where
  maxCachedTracks := maxCachedTracks
  maxCachedGroupsPerTrack := maxCachedGroupsPerTrack
  maxCachedBytes := maxCachedBytes
  minEvictionBytes := minEvictionBytes
  defaultMaxCacheDuration := defaultMaxCacheDuration
  maxAllowedCacheDuration := maxAllowedCacheDuration

namespace World

/-- A cache that nothing holds on to. -/
def ofCache (c : Cache) : World := { cache := c }

/-- The states a new cache reaches through steps that all meet `Q`. -/
inductive Reaches (Q : World → Op → Prop) : World → Prop where
  | create (maxCachedTracks maxCachedGroupsPerTrack maxCachedBytes minEvictionBytes : Nat)
      (defaultMaxCacheDuration maxAllowedCacheDuration : Option Milliseconds) :
      Reaches Q (ofCache (.create maxCachedTracks maxCachedGroupsPerTrack maxCachedBytes
        minEvictionBytes defaultMaxCacheDuration maxAllowedCacheDuration))
  | step {w w' : World} {op : Op} (h : Reaches Q w) (hQ : Q w op) (hstep : w.step op = .ok w') :
      Reaches Q w'

/-- The worlds that some run leads to. -/
abbrev Reachable := { w : World // Reaches (fun _ _ => True) w }

/-- A sequence of steps. -/
def run (w : World) (ops : List Op) : Except Abort World := ops.foldlM step w

/-- A sequence of steps that all meet `Q`. -/
def runMeets (Q : World → Op → Prop) [∀ w op, Decidable (Q w op)] : World → List Op → Option World
  | w, [] => some w
  | w, op :: ops =>
    if Q w op then
      match w.step op with
      | .ok w' => runMeets Q w' ops
      | .error _ => none
    else none

theorem Reaches.of_runMeets {Q : World → Op → Prop} [∀ w op, Decidable (Q w op)]
    {ops : List Op} (h : Reaches Q w) (hr : runMeets Q w ops = some w') : Reaches Q w' := by
  induction ops generalizing w with
  | nil =>
    cases hr
    exact h
  | cons op ops ih =>
    simp only [runMeets] at hr
    split at hr
    · next hq =>
      split at hr
      · next hstep => exact ih (h.step hq hstep) hr
      · cases hr
    · cases hr

/-- A run that was evaluated ends in a state that has been reached. -/
theorem Reaches.of_elim {Q : World → Op → Prop} [∀ w op, Decidable (Q w op)] (h : Reaches Q w)
    (ops : List Op) (p : World → Bool) (hr : (runMeets Q w ops).elim false p = true) :
    ∃ w', Reaches Q w' ∧ runMeets Q w ops = some w' ∧ p w' = true := by
  cases hrun : runMeets Q w ops with
  | none =>
    rw [hrun] at hr
    cases hr
  | some w' =>
    rw [hrun] at hr
    exact ⟨w', h.of_runMeets hrun, rfl, hr⟩

theorem Reaches.mono {Q Q' : World → Op → Prop} (hQ : ∀ w op, Q w op → Q' w op)
    (h : Reaches Q w) : Reaches Q' w := by
  induction h with
  | create => exact .create _ _ _ _ _ _
  | step _ hq hstep ih => exact .step ih (hQ _ _ hq) hstep

def SubscriberOk (c : Cache) (next id : Nat) (s : SubscribeWriteback) : Prop :=
  c.Handle s.track s.ftn ∧ id < next

def SubgroupOk (c : Cache) (next id : Nat) (sub : SubgroupWriteback) : Prop :=
  c.Handle sub.track sub.ftn ∧ sub.groupRef < (c.tracks sub.track).nextGroupRef ∧ id < next

def WritebackOk (c : Cache) (next id : Nat) (wb : FetchWriteback) : Prop :=
  c.Handle wb.track wb.ftn ∧ wb.id = id ∧ id < next

def TaskOk (c : Cache) (next id : Nat) (task : FetchTask) : Prop :=
  c.Handle task.track task.fetch.fullTrackName ∧ task.consumer = id ∧ id < next

/-- Everything that holds on to the cache holds numbers in use. -/
structure WF (w : World) : Prop where
  cache : w.cache.WF
  subscribers : All w.subscribers (SubscriberOk w.cache w.nextId)
  subgroups : All w.subgroups (SubgroupOk w.cache w.nextId)
  writebacks : All w.writebacks (WritebackOk w.cache w.nextId)
  tasks : All w.tasks (TaskOk w.cache w.nextId)

theorem WF.refsKnown (hw : w.WF) : w.RefsKnown :=
  ⟨hw.cache.bounded, fun id sub h => (hw.subgroups id sub h).2.1⟩

theorem opActs_true (w : World) (op : Op) : OpActs (fun _ _ => True) w op := by
  have hgroup : ∀ tref ftn, GroupActs (fun _ _ => True) w.cache tref ftn := fun _ _ =>
    ⟨by simp, by simp, by simp, by simp, by simp, by simp⟩
  have hcreate : ∀ tref start, CreateActs (fun _ _ => True) tref start := fun _ _ =>
    ⟨by simp, by simp, by simp, by simp, by simp⟩
  cases op with
  | beginSubgroup => exact fun s _ => ⟨hgroup _ _, by simp⟩
  | objectStream => exact fun s _ => hgroup _ _
  | datagram => exact fun s _ => hgroup _ _
  | writeSubgroup => exact fun sub _ => ⟨by simp, by simp, by simp, by simp, by simp⟩
  | fetch f => exact fun _ => ⟨by simp, by simp, by simp, hcreate _ _⟩
  | resume => exact fun task _ => ⟨by simp, by simp, fun _ _ _ _ => ⟨hcreate _ _, trivial⟩⟩
  | deliver =>
    exact fun wb _ => ⟨hgroup _ _, ⟨by simp, by simp, by simp, by simp, by simp, by simp, by simp⟩⟩
  | _ => simp [OpActs, IdleActs]

/-- Every step runs through primitive acts. -/
theorem WF.steps (hw : w.WF) (h : w.step op = .ok w') :
    Steps (fun _ _ => True) w.cache w'.cache :=
  (step_spec hw.refsKnown (opActs_true w op)).steps h

section
variable {c c' : Cache} {next next' id : Nat} (hg : c.Grows c') (hn : next ≤ next')
include hg hn

theorem SubscriberOk.mono {s : SubscribeWriteback} (h : SubscriberOk c next id s) :
    SubscriberOk c' next' id s := ⟨hg.handle _ _ h.1, Nat.lt_of_lt_of_le h.2 hn⟩

theorem SubgroupOk.mono {sub : SubgroupWriteback} (h : SubgroupOk c next id sub) :
    SubgroupOk c' next' id sub :=
  ⟨hg.handle _ _ h.1, Nat.lt_of_lt_of_le h.2.1 (hg.refs _ h.1.lt), Nat.lt_of_lt_of_le h.2.2 hn⟩

theorem WritebackOk.mono {wb : FetchWriteback} (h : WritebackOk c next id wb) :
    WritebackOk c' next' id wb :=
  ⟨hg.handle _ _ h.1, h.2.1, Nat.lt_of_lt_of_le h.2.2 hn⟩

theorem TaskOk.mono {task : FetchTask} (h : TaskOk c next id task) : TaskOk c' next' id task :=
  ⟨hg.handle _ _ h.1, h.2.1, Nat.lt_of_lt_of_le h.2.2 hn⟩

end

/-- A step that leaves the holders as they are. -/
theorem WF.of_cache {c' : Cache} {next' : Nat} (hw : w.WF) (hg : w.cache.Grows c')
    (hn : w.nextId ≤ next') : { w with cache := c', nextId := next' }.WF :=
  ⟨hg.wf, hw.subscribers.mono fun _ _ => .mono hg hn, hw.subgroups.mono fun _ _ => .mono hg hn,
    hw.writebacks.mono fun _ _ => .mono hg hn, hw.tasks.mono fun _ _ => .mono hg hn⟩

theorem WF.setTask {id : ConsumerId} {task task' : FetchTask} (hw : w.WF)
    (ht : TaskOk w.cache w.nextId id task) (hsame : task.SameFetch task') :
    (w.setTask id task').WF := by
  refine ⟨hw.cache, hw.subscribers, hw.subgroups, hw.writebacks, hw.tasks.insert ⟨?_, ?_, ht.2.2⟩⟩
  · rw [hsame.track, hsame.fetch]
    exact ht.1
  · rw [hsame.consumer]
    exact ht.2.1

theorem WF.addCalls {consumer : ConsumerId} {calls : List FetchCall} (hw : w.WF) :
    (w.addCalls consumer calls).WF := ⟨hw.1, hw.2, hw.3, hw.4, hw.5⟩

omit [Moxygen] in
theorem orNoCaller_eq_ok {α : Type} {x : Option α} {a : α} :
    orNoCaller x = .ok a ↔ x = some a := by
  cases x <;> simp [orNoCaller]

theorem step_deliver {id : WritebackId} {delivery : Delivery}
    (h : w.step (.deliver id delivery) = .ok w') :
    ∃ wb res calls wb' d, w.writebacks.lookup id = some wb ∧
      wb.deliver w.cache w.now delivery = .ok (res, calls, wb', d) ∧
      w' = { w with cache := d, writebacks := w.writebacks.insert id wb' }.addCalls wb'.consumer
        calls := by
  obtain ⟨wb, hwb, h⟩ := bind_eq_ok.mp h
  obtain ⟨⟨res, calls, wb', d⟩, hd, h⟩ := bind_eq_ok.mp h
  cases h
  exact ⟨wb, res, calls, wb', d, orNoCaller_eq_ok.mp hwb, hd, rfl⟩

theorem step_closeWriteback {id : WritebackId} (h : w.step (.closeWriteback id) = .ok w') :
    ∃ wb, w.writebacks.lookup id = some wb ∧
      w' = { w with cache := wb.close w.cache, writebacks := w.writebacks.erase id } := by
  obtain ⟨wb, hwb, h⟩ := bind_eq_ok.mp h
  split at h
  · cases h
  · cases h
    exact ⟨wb, orNoCaller_eq_ok.mp hwb, rfl⟩

theorem WF.resumeTask {id : ConsumerId} {task : FetchTask} {with_ : Resume} (hw : w.WF)
    (ht : w.tasks.lookup id = some task) (hg : w.cache.Grows w'.cache)
    (h : w.resumeTask id task with_ = .ok w') : w'.WF := by
  have hok := hw.tasks id task ht
  have hput : ∀ {c' : Cache} {task' : FetchTask} {calls : List FetchCall}, w.cache.Grows c' →
      task.SameFetch task' → (({ w with cache := c' }.setTask id task').addCalls id calls).WF :=
    fun hg hsame => (WF.setTask (hw.of_cache hg (Nat.le_refl _)) (hok.mono hg (Nat.le_refl _))
      hsame).addCalls
  unfold World.resumeTask at h
  split at h
  · cases h
    exact hput hg ⟨rfl, rfl, rfl, rfl⟩
  · obtain ⟨⟨task', calls, d⟩, hhead, h⟩ := bind_eq_ok.mp h
    cases h
    exact hput hg (head_goes hhead).toSameFetch
  · split at h
    · obtain ⟨⟨task', d⟩, hwait, h⟩ := bind_eq_ok.mp h
      cases h
      exact (hw.of_cache hg (Nat.le_refl _)).setTask (hok.mono hg (Nat.le_refl _))
        (afterWait_goes hwait).toSameFetch
    · cases h
  · obtain ⟨⟨wb, task', d⟩, hup, h⟩ := bind_eq_ok.mp h
    cases h
    obtain ⟨hsame, hid, htrack, hftn⟩ := fetchUpstream_result hup
    have hn : w.nextId ≤ w.nextId + 1 := Nat.le_succ _
    have hnew : WritebackOk d (w.nextId + 1) w.nextId wb := by
      refine ⟨?_, hid, Nat.lt_succ_self _⟩
      rw [htrack, hftn]
      exact hg.handle _ _ hok.1
    have hbase := hw.of_cache hg hn
    have hins : { w with
        cache := d, writebacks := w.writebacks.insert w.nextId wb, nextId := w.nextId + 1 }.WF :=
      ⟨hbase.cache, hbase.subscribers, hbase.subgroups, hbase.writebacks.insert hnew, hbase.tasks⟩
    exact hins.setTask (hok.mono hg hn) hsame
  · obtain ⟨⟨task', calls, d⟩, hup, h⟩ := bind_eq_ok.mp h
    cases h
    exact hput hg (afterUpstreamFetch_goes hup).1
  · obtain ⟨wb, -, h⟩ := bind_eq_ok.mp h
    obtain ⟨task', hcomp, h⟩ := bind_eq_ok.mp h
    cases h
    exact hw.setTask hok (afterComplete_goes hcomp).toSameFetch
  · obtain ⟨⟨task', calls⟩, hpub, h⟩ := bind_eq_ok.mp h
    cases h
    exact hput hg (publish_goes hpub).toSameFetch
  · cases h
    exact hw.setTask hok ⟨rfl, rfl, rfl, rfl⟩
  · cases h

theorem WF.fetch {f : Fetch} (hw : w.WF) (hg : w.cache.Grows w'.cache)
    (h : w.step (.fetch f) = .ok w') : w'.WF := by
  have hn : w.nextId ≤ w.nextId + 1 := Nat.le_succ _
  simp only [step] at h
  obtain ⟨⟨started, d⟩, hf, h⟩ := bind_eq_ok.mp h
  unfold Cache.fetch at hf
  cases hl : w.cache.cache.lookup f.fullTrackName with
  | none =>
    simp only [hl] at hf
    obtain ⟨⟨wb, e⟩, hnew, hf⟩ := bind_eq_ok.mp hf
    cases hf
    cases h
    have hbase := hw.of_cache hg hn
    refine ⟨hbase.cache, hbase.subscribers, hbase.subgroups, hbase.writebacks.insert ?_,
      hbase.tasks⟩
    obtain ⟨hid, htrack, hftn⟩ := Cache.fetchNewTrack_result hnew
    refine ⟨?_, hid, Nat.lt_succ_self _⟩
    rw [htrack, hftn]
    have hname : (w.cache.emplaceTrack f.fullTrackName).WF := hw.cache.emplaceTrack hl
    have hspec : Spec (fun _ _ => True) (w.cache.emplaceTrack f.fullTrackName)
        (w.cache.fetchNewTrack f w.nextId w.nextId) Prod.snd :=
      Cache.fetchNewTrack_spec (by simp) (by simp) ⟨by simp, by simp, by simp, by simp, by simp⟩
    exact (Cache.Grows.of_steps (hspec.steps hnew) hname).handle _ _
      (hname.handle (Cache.emplaceTrack_lookup _ _))
  | some tref =>
    simp only [hl] at hf
    obtain ⟨task, htask, hf⟩ := bind_eq_ok.mp hf
    cases hf
    cases h
    obtain ⟨hcons, htrack, hftn, -⟩ := Cache.fetchCachedTrack_result htask
    have hbase := hw.of_cache hg hn
    have hrefl : task.SameFetch task := .refl task
    refine hbase.setTask ⟨?_, hcons, Nat.lt_succ_self _⟩ hrefl
    rw [htrack, hftn]
    exact hw.cache.handle hl

/-- A new subscriber holds the track under its name. -/
theorem WF.subscribe {ftn : FullTrackName} (hw : w.WF) (hg : w.cache.Grows w'.cache)
    (h : w.step (.subscribe ftn) = .ok w') : w'.WF := by
  obtain ⟨⟨s, d⟩, hs, h⟩ := bind_eq_ok.mp h
  cases h
  obtain ⟨hl, hf⟩ := Cache.getSubscribeWriteback_result hs
  have hbase := hw.of_cache hg (Nat.le_succ w.nextId)
  refine ⟨hbase.cache, hbase.subscribers.insert ⟨?_, Nat.lt_succ_self _⟩, hbase.subgroups,
    hbase.writebacks, hbase.tasks⟩
  rw [hf]
  exact hg.wf.handle hl

/-- A new subgroup writer holds the track of its subscriber and a group of it. -/
theorem WF.beginSubgroup {id groupID subgroupID : Nat} {downstream : Expected Unit} (hw : w.WF)
    (hg : w.cache.Grows w'.cache)
    (h : w.step (.beginSubgroup id groupID subgroupID downstream) = .ok w') : w'.WF := by
  obtain ⟨s, hs, h⟩ := bind_eq_ok.mp h
  obtain ⟨⟨res, d⟩, hb, h⟩ := bind_eq_ok.mp h
  have hsub := hw.subscribers id s (orNoCaller_eq_ok.mp hs)
  split at h
  · next sub e heq =>
    cases heq
    cases h
    obtain ⟨htrack, hftn, hgr, -, e, hget, hd⟩ := SubscribeWriteback.beginSubgroup_result hb
    have hlook := (Cache.getOrCreateGroupWithEviction_result hget).1
    rw [← (Cache.takeGroupFromLRU_maps e s.track s.track sub.groupRef).1, ← hd] at hlook
    have hbase := hw.of_cache hg (Nat.le_succ w.nextId)
    refine ⟨hbase.cache, hbase.subscribers, hbase.subgroups.insert ⟨?_, ?_, Nat.lt_succ_self _⟩,
      hbase.writebacks, hbase.tasks⟩
    · rw [htrack, hftn]
      exact hg.handle _ _ hsub.1
    · rw [htrack]
      exact hg.wf.bounded _ _ _ hlook
  · next e _ heq =>
    cases heq
    cases h
    exact hw.of_cache hg (Nat.le_refl _)

theorem WF.writeSubgroup {id : Nat} {write : SubgroupWrite} (hw : w.WF)
    (hg : w.cache.Grows w'.cache) (h : w.step (.writeSubgroup id write) = .ok w') : w'.WF := by
  obtain ⟨sub, hs, h⟩ := bind_eq_ok.mp h
  obtain ⟨⟨sub', d⟩, hp, h⟩ := bind_eq_ok.mp h
  cases h
  obtain ⟨-, htrack, hgr, hftn⟩ := SubgroupWriteback.perform_sameGroup hp
  have hold := (hw.subgroups id sub (orNoCaller_eq_ok.mp hs)).mono hg (Nat.le_refl _)
  have hbase := hw.of_cache hg (Nat.le_refl _)
  refine ⟨hbase.cache, hbase.subscribers, hbase.subgroups.insert ?_, hbase.writebacks,
    hbase.tasks⟩
  unfold SubgroupOk
  rw [htrack, hftn, hgr]
  exact hold

theorem WF.cancelTask {id : ConsumerId} {task : FetchTask} (hw : w.WF)
    (ht : w.tasks.lookup id = some task) : (w.cancelTask id task).WF := by
  have hok := hw.tasks id task ht
  unfold World.cancelTask
  split
  · exact hw
  · exact hw
  · exact hw.setTask hok ⟨rfl, rfl, rfl, rfl⟩
  · have hset : (w.setTask id { task with cancelled := true }).WF :=
      hw.setTask hok ⟨rfl, rfl, rfl, rfl⟩
    exact hset.addCalls

theorem WF.deliver {id : WritebackId} {delivery : Delivery} (hw : w.WF)
    (hg : w.cache.Grows w'.cache) (h : w.step (.deliver id delivery) = .ok w') : w'.WF := by
  obtain ⟨wb, res, calls, wb', d, hwb, hd, rfl⟩ := step_deliver h
  have hsame := (FetchWriteback.Shape.of_deliver (hw.cache.bounded _) hd).sameOwner
  have hold := (hw.writebacks id wb hwb).mono hg (Nat.le_refl _)
  have hbase := hw.of_cache hg (Nat.le_refl _)
  refine WF.addCalls ⟨hbase.cache, hbase.subscribers, hbase.subgroups,
    hbase.writebacks.insert ?_, hbase.tasks⟩
  unfold WritebackOk
  rw [hsame.track, hsame.ftn, hsame.id]
  exact hold

/-- Every step keeps the holders in order. -/
theorem WF.step (hw : w.WF) (h : w.step op = .ok w') : w'.WF := by
  have hg : w.cache.Grows w'.cache := .of_steps (hw.steps h) hw.cache
  have hself := fun c' (hg : w.cache.Grows c') => hw.of_cache hg (Nat.le_refl w.nextId)
  cases op with
  | tick ns =>
    cases h
    exact ⟨hw.1, hw.2, hw.3, hw.4, hw.5⟩
  | subscribe ftn => exact hw.subscribe hg h
  | closeSubscribe id =>
    obtain ⟨s, hs, h⟩ := bind_eq_ok.mp h
    obtain ⟨d, hd, h⟩ := bind_eq_ok.mp h
    cases h
    have hbase := hself d hg
    exact ⟨hbase.cache, hbase.subscribers.erase, hbase.subgroups, hbase.writebacks, hbase.tasks⟩
  | beginSubgroup id groupID subgroupID downstream => exact hw.beginSubgroup hg h
  | objectStream id header payload | datagram id header payload =>
    obtain ⟨s, hs, h⟩ := bind_eq_ok.mp h
    obtain ⟨⟨res, d⟩, hb, h⟩ := bind_eq_ok.mp h
    cases h
    exact hself d hg
  | writeSubgroup id write => exact hw.writeSubgroup hg h
  | closeSubgroup id =>
    obtain ⟨sub, hs, h⟩ := bind_eq_ok.mp h
    cases h
    have hbase := hself _ hg
    exact ⟨hbase.cache, hbase.subscribers, hbase.subgroups.erase, hbase.writebacks, hbase.tasks⟩
  | setTrackExtensions ftn ext =>
    cases h
    exact hself _ hg
  | purgeTrack ftn | purgeNamespace ns | purgeAll =>
    obtain ⟨d, hd, h⟩ := bind_eq_ok.mp h
    cases h
    exact hself d hg
  | fetch f => exact hw.fetch hg h
  | resume id with_ =>
    obtain ⟨task, ht, h⟩ := bind_eq_ok.mp h
    exact hw.resumeTask (orNoCaller_eq_ok.mp ht) hg h
  | cancel id =>
    obtain ⟨task, ht, h⟩ := bind_eq_ok.mp h
    cases h
    exact hw.cancelTask (orNoCaller_eq_ok.mp ht)
  | deliver id delivery => exact hw.deliver hg h
  | closeWriteback id =>
    obtain ⟨wb, hwb, rfl⟩ := step_closeWriteback h
    have hbase := hself _ hg
    exact ⟨hbase.cache, hbase.subscribers, hbase.subgroups, hbase.writebacks.erase, hbase.tasks⟩

theorem Reaches.wf {Q : World → Op → Prop} (h : Reaches Q w) : w.WF := by
  induction h with
  | create =>
    refine ⟨⟨?_, ?_, ?_, ?_, ?_⟩, all_empty, all_empty, all_empty, all_empty⟩
    · intro ftn tref h
      simp [ofCache, Cache.create] at h
    · intro ftn ftn' tref h
      simp [ofCache, Cache.create] at h
    · intro tref h
      simp [ofCache, Cache.create] at h
    · intro tref g ref h
      simp [ofCache, Cache.create] at h
    · intro tref g g' ref h
      simp [ofCache, Cache.create] at h
  | step _ _ hstep ih => exact ih.step hstep

/-- What holds of a new cache and is kept by every step that meets `Q` holds throughout. -/
theorem Reaches.keeps {Q : World → Op → Prop} {I : World → Prop}
    (hcreate : ∀ tracks groups bytes minBytes default_ allowed,
      I (ofCache (.create tracks groups bytes minBytes default_ allowed)))
    (hstep : ∀ w op w', w.WF → Q w op → w.step op = .ok w' → I w → I w')
    (h : Reaches Q w) : I w := by
  induction h with
  | create => exact hcreate _ _ _ _ _ _
  | step hreach hQ hs ih => exact hstep _ _ _ hreach.wf hQ hs ih

end World

end Moqx
