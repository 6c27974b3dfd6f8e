import Moqx.Accepted
import Moqx.Registration
import Moqx.TaskSteps

/-! The end of an upstream response: which last delivery posts the completion of its writeback,
and what then becomes of the fetches that are suspended on it. -/
namespace Moqx

open Moxygen Maps

section
variable [Moxygen]

namespace FetchWriteback

variable {w w' : FetchWriteback} {c c' : Cache}

theorem updateInProgress_complete (h : w.updateInProgress c = .ok (w', c')) :
    w'.complete = w.complete := by
  obtain ⟨_, _, _, rfl⟩ := updateInProgress_eq h
  rfl

theorem insertGaps_sameEnd (t : CacheTrack) (ranges : List Interval) :
    t.SameEnd (insertGaps t ranges) := by
  unfold insertGaps
  induction ranges generalizing t with
  | nil => exact ⟨rfl, rfl⟩
  | cons r rest ih =>
    have hone : t.SameEnd (t.insertGap r.1 r.2) := ⟨rfl, rfl⟩
    exact hone.trans (ih _)

/-- Marking moves the iterator and records gaps, nothing else. -/
theorem markNonExistentTo_frame {target : AbsoluteLocation}
    (h : w.markNonExistentTo c target = .ok (w', c')) :
    w'.complete = w.complete ∧ w'.track = w.track ∧
      (c.tracks w.track).SameEnd (c'.tracks w.track) := by
  unfold markNonExistentTo at h
  split at h
  · cases h
    exact ⟨rfl, rfl, rfl, rfl⟩
  · obtain ⟨ranges, -, h⟩ := bind_eq_ok.mp h
    cases h
    refine ⟨rfl, rfl, ?_⟩
    rw [Cache.setTrack_tracks]
    exact insertGaps_sameEnd _ _

theorem markNonExistentToEnd_complete (h : w.markNonExistentToEnd c = .ok (w', c')) :
    w'.complete = w.complete := by
  unfold markNonExistentToEnd at h
  dsimp only at h
  exact (markNonExistentTo_frame h).1

variable {fin : Bool} {l : AbsoluteLocation} {ow : ObjectWrite} {res : Expected Unit}

/-- Past the largest location nothing is refused any more, and a complete object that ends the
response posts its completion. -/
theorem finishCacheImpl_posts {cacheRes : Expected Unit}
    (h : w.finishCacheImpl c l.group l.object ow fin cacheRes = .ok (res, w', c')) :
    w'.complete = true ↔ w.complete = true ∨ (ow.complete = true ∧ fin = true ∧
      ¬ ((∃ e, cacheRes = .error e) ∨
        (c.tracks w.track).LargestRefused l (ow.status = .endOfTrack))) := by
  unfold finishCacheImpl at h
  cases cacheRes with
  | error e =>
    obtain ⟨⟨w₁, d₁⟩, hup, h⟩ := bind_eq_ok.mp h
    cases h
    rw [updateInProgress_complete hup]
    simp
  | ok _ =>
    dsimp only at h
    unfold Cache.updateLargest at h
    by_cases hl : (c.tracks w.track).LargestRefused l (ow.status = .endOfTrack)
    · obtain ⟨e, he⟩ := CacheTrack.updateLargest_refused hl
      simp only [he] at h
      obtain ⟨⟨w₁, d₁⟩, hup, h⟩ := bind_eq_ok.mp h
      cases h
      rw [updateInProgress_complete hup]
      simp [hl]
    · obtain ⟨t, ht⟩ : ∃ t, (c.tracks w.track).updateLargest l (ow.status = .endOfTrack) =
          (.ok (), t) := by
        rcases CacheTrack.updateLargest_passed hl with ⟨-, ht⟩ | ⟨-, ht⟩ <;> exact ⟨_, ht⟩
      simp only [ht] at h
      by_cases hcomplete : ow.complete = true
      · rw [if_pos hcomplete] at h
        obtain ⟨⟨w₁, d₁⟩, hup, h⟩ := bind_eq_ok.mp h
        have hw₁ := updateInProgress_complete hup
        dsimp only at h hw₁
        by_cases hfin : fin = true
        · rw [if_pos hfin] at h
          obtain ⟨⟨w₂, d₂⟩, -, h⟩ := bind_eq_ok.mp h
          cases h
          simp [hcomplete, hfin, hl]
        · rw [if_neg hfin] at h
          cases h
          rw [hw₁]
          simp [hfin]
      · rw [if_neg hcomplete] at h
        cases h
        simp [hcomplete]

/-- An object of the fetch posts the completion if it is complete, ends the response and is
accepted. -/
theorem cacheImpl_posts (hw : c.WF) (hc : c.ListsFresh)
    (h : w.cacheImpl c l.group l.object ow fin = .ok (res, w', c')) :
    w'.complete = true ↔ w.complete = true ∨
      (ow.complete = true ∧ fin = true ∧ ¬ c.FetchRefused w.track l ow) := by
  obtain ⟨⟨ref, d⟩, hget, h⟩ := bind_eq_ok.mp h
  obtain ⟨⟨cacheRes, d'⟩, hobject, h⟩ := bind_eq_ok.mp h
  obtain ⟨⟨w₁, d₁⟩, hmark, h⟩ := bind_eq_ok.mp h
  dsimp only at hobject hmark h
  obtain ⟨hbound, hend, hrefused⟩ := Cache.getOrCreateGroupWithEviction_refused_iff hw hc hget
  obtain ⟨hlook, -, -⟩ := Cache.getOrCreateGroupWithEviction_result hget
  obtain ⟨⟨t, hanswer⟩, hend'⟩ := Cache.cacheObjectAndUpdateBytes_answer hobject
  obtain ⟨hcomplete, htrack, hend''⟩ := markNonExistentTo_frame hmark
  have hsame := (hend.trans hend').trans hend''
  rw [finishCacheImpl_posts h, hcomplete, htrack,
    CacheTrack.cacheObject_refused_iff hbound hlook hanswer, hrefused]
  unfold Cache.FetchRefused CacheTrack.LargestRefused
  rw [hsame.largest, hsame.endOfTrack]

/-- The deliveries that post the completion of their writeback. A last chunk never does, and the
others that go through the cache only if the cache takes them. -/
def Posts (w : FetchWriteback) (c : Cache) (now : TimePoint) : Delivery → Prop
  | .object gID sgID objID payload ext fin isDatagram =>
    ¬ w.skipsCaching c = true ∧ fin = true ∧ ¬ c.FetchRefused w.track ⟨gID, objID⟩
      ⟨sgID, .normal, ext, some payload, true, isDatagram, now⟩
  | .beginObject .. => False
  | .objectPayload .. => False
  | .endOfGroup gID sgID objID fin =>
    ¬ w.skipsCaching c = true ∧ fin = true ∧ ¬ c.FetchRefused w.track ⟨gID, objID⟩
      ⟨sgID, .endOfGroup, noExtensions, none, true, false, now⟩
  | .endOfTrackAndGroup gID sgID objID =>
    ¬ w.skipsCaching c = true ∧ ¬ c.FetchRefused w.track ⟨gID, objID⟩
      ⟨sgID, .endOfTrack, noExtensions, none, true, false, now⟩
  | .endOfFetch => True
  | .endOfUnknownRange _ _ fin => fin = true
  | .reset _ => True
  | .awaitReadyToConsume => False

theorem forward_posts {call : FetchCall} {calls : List FetchCall} (hw : c.WF) (hc : c.ListsFresh)
    (h : forward call <$> w.cacheImpl c l.group l.object ow fin = .ok (res, calls, w', c')) :
    w'.complete = true ↔ w.complete = true ∨
      (ow.complete = true ∧ fin = true ∧ ¬ c.FetchRefused w.track l ow) := by
  obtain ⟨⟨r, v, d⟩, hr, h⟩ := map_eq_ok.mp h
  have hv := cacheImpl_posts hw hc hr
  cases r <;> cases h <;> exact hv

/-- After a delivery the completion is posted if it was before, or if the delivery posts it. -/
theorem deliver_posts {now : TimePoint} {delivery : Delivery} {calls : List FetchCall} (hw : c.WF)
    (hc : c.ListsFresh) (h : w.deliver c now delivery = .ok (res, calls, w', c')) :
    w'.complete = true ↔ w.complete = true ∨ w.Posts c now delivery := by
  cases delivery with
  | object gID sgID objID payload ext fin isDatagram =>
    simp only [deliver, object] at h
    unfold Posts
    split at h
    · next hskip =>
      cases h
      simp [hskip]
    · next hskip =>
      rw [forward_posts (l := ⟨gID, objID⟩) hw hc h]
      simp [hskip]
  | beginObject gID sgID objID len initPayload ext =>
    simp only [deliver, beginObject] at h
    unfold Posts
    rw [or_false]
    split at h
    · cases h
      rfl
    · obtain ⟨⟨r, v, d⟩, hr, h⟩ := bind_eq_ok.mp h
      have hv := cacheImpl_posts (l := ⟨gID, objID⟩) hw hc hr
      simp only [Bool.false_eq_true, false_and, or_false] at hv
      cases r with
      | error e =>
        cases h
        exact hv
      | ok _ =>
        obtain ⟨_, -, h⟩ := bind_eq_ok.mp h
        cases h
        exact hv
  | objectPayload payload finFetch =>
    simp only [deliver, objectPayload] at h
    unfold Posts
    rw [or_false]
    split at h
    · cases h
      rfl
    · obtain ⟨⟨ref, d⟩, -, h⟩ := bind_eq_ok.mp h
      obtain ⟨⟨left, d'⟩, -, h⟩ := bind_eq_ok.mp h
      dsimp only at h
      split at h
      · obtain ⟨⟨w₁, d₁⟩, hmark, h⟩ := bind_eq_ok.mp h
        obtain ⟨⟨w₂, d₂⟩, hup, h⟩ := bind_eq_ok.mp h
        cases h
        rw [updateInProgress_complete hup, markNonExistentToEnd_complete hmark]
      · cases h
        rfl
  | endOfGroup gID sgID objID fin =>
    simp only [deliver, endOfGroup] at h
    unfold Posts
    split at h
    · next hskip =>
      cases h
      simp [hskip]
    · next hskip =>
      rw [forward_posts (l := ⟨gID, objID⟩) hw hc h]
      simp [hskip]
  | endOfTrackAndGroup gID sgID objID =>
    simp only [deliver, endOfTrackAndGroup] at h
    unfold Posts
    split at h
    · next hskip =>
      cases h
      simp [hskip]
    · next hskip =>
      rw [forward_posts (l := ⟨gID, objID⟩) hw hc h]
      simp [hskip]
  | endOfFetch =>
    simp only [deliver, endOfFetch] at h
    obtain ⟨⟨w₁, d₁⟩, -, h⟩ := bind_eq_ok.mp h
    obtain ⟨⟨w₂, d₂⟩, -, h⟩ := bind_eq_ok.mp h
    cases h
    simp [Posts]
  | endOfUnknownRange groupId objectId finFetch =>
    simp only [deliver, endOfUnknownRange] at h
    obtain ⟨⟨w₁, d₁⟩, hup, h⟩ := bind_eq_ok.mp h
    cases h
    have hcomplete := updateInProgress_complete hup
    dsimp only at hcomplete ⊢
    rw [hcomplete]
    simp [Posts]
  | reset code =>
    simp only [deliver, reset] at h
    obtain ⟨⟨w₁, d₁⟩, hup, h⟩ := bind_eq_ok.mp h
    cases h
    rw [updateInProgress_complete hup]
    simp [Posts]
  | awaitReadyToConsume =>
    cases h
    simp [Posts]

end FetchWriteback

namespace World

variable {w w' : World} {op : Op} {id : WritebackId}

/-- The states that steps lead to, whatever they are. -/
def Follows : World → World → Prop :=
  Relation.ReflTransGen fun w w' => ∃ op, w.step op = .ok w'

variable {Q : World → Op → Prop}

theorem Reaches.follows (h : Reaches Q w) (hf : Follows w w') : Reaches (fun _ _ => True) w' := by
  induction hf with
  | refl => exact h.mono fun _ _ _ => trivial
  | tail _ hstep ih =>
    obtain ⟨op, hstep⟩ := hstep
    exact ih.step trivial hstep

/-- The completion of a writeback is posted. -/
def Posted (w : World) (id : WritebackId) : Prop :=
  ∃ wb, w.writebacks.lookup id = some wb ∧ wb.complete = true

/-- A posted completion stays posted, as long as the writeback is there. -/
theorem posted_step (hw : w.WF) (hc : w.cache.ListsFresh) (hold : id < w.nextId)
    (hposted : ∀ wb, w.writebacks.lookup id = some wb → wb.complete = true)
    (h : w.step op = .ok w') :
    ∀ wb, w'.writebacks.lookup id = some wb → wb.complete = true := by
  intro wb hl
  cases step_writeback h hl with
  | kept hl => exact hposted wb hl
  | delivered hop hl hd =>
    rw [FetchWriteback.deliver_posts hw.cache hc hd]
    exact .inl (hposted _ hl)
  | created hid =>
    rw [hid] at hold
    exact absurd hold (Nat.lt_irrefl _)

theorem Posted.follows (h : Reaches Q w) (hp : w.Posted id) (hf : Follows w w') :
    ∀ wb, w'.writebacks.lookup id = some wb → wb.complete = true := by
  obtain ⟨wb₀, hl₀, hcomplete₀⟩ := hp
  have hold : id < w.nextId := (h.wf.writebacks id wb₀ hl₀).2.2
  suffices hboth : id < w'.nextId ∧
      ∀ wb, w'.writebacks.lookup id = some wb → wb.complete = true from hboth.2
  induction hf with
  | refl =>
    refine ⟨hold, fun wb hl => ?_⟩
    rw [hl₀] at hl
    cases hl
    exact hcomplete₀
  | tail hf hstep ih =>
    obtain ⟨op, hstep⟩ := hstep
    have hreach := h.follows hf
    exact ⟨Nat.lt_of_lt_of_le ih.1 (step_nextId_le hstep),
      posted_step hreach.wf hreach.listsFresh ih.1 ih.2 hstep⟩

/-- From now on, a fetch that awaits the completion of the writeback can always go on. Then
nothing keeps the writeback alive, and its end is the end of every wait for it. -/
def Wakes (w : World) (id : WritebackId) : Prop :=
  ∀ v, Follows w v → ∀ k task intervals after, v.tasks.lookup k = some task →
    task.pc = .writebackComplete id intervals after →
    ∃ v₁ v₂, v.step (.resume k .run) = .ok v₁ ∧ v₁.step (.closeWriteback id) = .ok v₂ ∧
      ∀ loc, v₂.waitOver id loc = true

/-- The fetch behind a complete writeback goes on. -/
theorem resume_complete {k : ConsumerId} {task : FetchTask} {wb : FetchWriteback}
    {intervals : List Interval} {after : AfterUpstream} (ho : w.HoldsOk)
    (ht : w.tasks.lookup k = some task) (hpc : task.pc = .writebackComplete id intervals after)
    (hwb : w.writebacks.lookup id = some wb) (hcomplete : wb.complete = true) :
    ∃ task', task'.Free ∧ w.step (.resume k .run) = .ok (w.setTask k task') := by
  have hin := ho.inside k task ht
  rw [hpc] at hin
  obtain ⟨task', hafter⟩ :=
    FetchTask.afterComplete_of_goesOn hin task w.cache wb w.now
  refine ⟨task', (FetchTask.afterComplete_goes hafter).free, ?_⟩
  have hfilter : (w.writebacks.lookup id).filter (fun wb => wb.complete) = some wb := by
    rw [hwb, Option.filter_some, if_pos hcomplete]
  refine bind_eq_ok.mpr ⟨task, orNoCaller_eq_ok.mpr ht, ?_⟩
  simp only [resumeTask, hpc]
  refine bind_eq_ok.mpr ⟨wb, orNoCaller_eq_ok.mpr hfilter, ?_⟩
  exact bind_eq_ok.mpr ⟨task', hafter, rfl⟩

/-- A writeback that no coroutine keeps alive can be closed. -/
theorem close_unheld {wb : FetchWriteback} (hwb : w.writebacks.lookup id = some wb)
    (hheld : ∀ k task, w.tasks.lookup k = some task → task.pc.heldWriteback ≠ some id) :
    w.step (.closeWriteback id) =
      .ok { w with cache := wb.close w.cache, writebacks := w.writebacks.erase id } := by
  refine bind_eq_ok.mpr ⟨wb, orNoCaller_eq_ok.mpr hwb, if_neg fun hany => ?_⟩
  obtain ⟨e, he, heq⟩ := List.any_eq_true.mp hany
  exact hheld e.1 e.2 (AList.mem_lookup_iff.mpr he) (by simpa using heq)

theorem Posted.wakes (h : Reaches Q w) (hp : w.Posted id) : w.Wakes id := by
  intro v hf k task intervals after ht hpc
  have ho := (h.follows hf).holdsOk
  have hheld : task.pc.heldWriteback = some id := by rw [hpc]; rfl
  obtain ⟨wb, hwb⟩ := Option.ne_none_iff_exists'.mp (ho.alive k task id ht hheld)
  obtain ⟨task', hfree, hstep⟩ :=
    resume_complete ho ht hpc hwb (hp.follows h hf wb hwb)
  refine ⟨_, _, hstep, close_unheld hwb ?_, ?_⟩
  · intro j task₁ hj hheld₁
    rcases lookup_insert_some hj with ⟨rfl, rfl⟩ | ⟨hne, hj⟩
    · rw [hfree] at hheld₁
      cases hheld₁
    · exact hne (ho.unique j k task₁ task id hj ht hheld₁ hheld)
  · intro loc
    simp [waitOver, setTask, AList.lookup_erase]

/-- What a delivery leaves behind: the completion of its writeback is posted, and the fetches
that are suspended on the writeback are woken, in exactly these cases. -/
theorem delivery_wakes_iff {Q : World → Op → Prop} {wb : FetchWriteback} {delivery : Delivery}
    (h : Reaches Q w) (hwb : w.writebacks.lookup id = some wb)
    (hstep : w.step (.deliver id delivery) = .ok w') :
    w'.Posted id ∧ w'.Wakes id ↔ wb.complete = true ∨ wb.Posts w.cache w.now delivery := by
  have hreach : Reaches (fun _ _ => True) w' :=
    h.follows (.single ⟨_, hstep⟩)
  rw [and_iff_left_of_imp fun hp => hp.wakes hreach]
  obtain ⟨wb₁, hwb₁, hstep⟩ := bind_eq_ok.mp hstep
  have hwb₁ := orNoCaller_eq_ok.mp hwb₁
  rw [hwb] at hwb₁
  cases hwb₁
  obtain ⟨⟨res, calls, wb', c⟩, hd, hstep⟩ := bind_eq_ok.mp hstep
  cases hstep
  rw [← FetchWriteback.deliver_posts h.wf.cache h.listsFresh hd]
  simp [Posted, addCalls]

/-- A registration belongs to a live writeback that knows of it, so that none is left behind. The
writeback a coroutine holds from its own `fetchUpstream` is alive, and no other coroutine holds
it. -/
theorem registrations_owned (w : Reachable) :
    (∀ tref key id, (∃ e, (w.1.cache.tracks tref).fetchesInProgress.lookup key = some e ∧
        e.writeback = id) ↔
      ∃ wb, w.1.writebacks.lookup id = some wb ∧ wb.track = tref ∧
        wb.fetchInProgressIt = some key) ∧
    ∀ k task id, w.1.tasks.lookup k = some task → task.pc.heldWriteback = some id →
      w.1.writebacks.lookup id ≠ none ∧
      ∀ j task', w.1.tasks.lookup j = some task' → task'.pc.heldWriteback = some id → j = k := by
  have hk := w.2.keysOk
  have ho := w.2.holdsOk
  refine ⟨fun tref key id => ⟨?_, ?_⟩, fun k task id ht hheld => ⟨ho.alive k task id ht hheld, ?_⟩⟩
  · rintro ⟨e, he, rfl⟩
    exact hk.entries tref key e he
  · rintro ⟨wb, hwb, rfl, hkey⟩
    exact hk.own id wb hwb key hkey
  · intro j task' hj hheld'
    exact ho.unique j k task' task id hj ht hheld' hheld

end World

end

namespace World

/-- Object 0 of a group is missing, object 1 is there, and a fetch of both waits for the upstream
interval of the missing one. -/
def awaitsHole : List Op :=
  [.subscribe ⟨[], "track"⟩, .beginSubgroup 0 0 0 (.ok ()),
    .writeSubgroup 1 (.object 1 (some [1]) noExtensions),
    .fetch ⟨⟨[], "track"⟩, .oldestFirst, ⟨0, 0⟩, ⟨0, 2⟩⟩] ++ goUpstream 2 ++
  [.resume 2 (.upstream (some ⟨.oldestFirst, false, ⟨0, 1⟩, noExtensions⟩))]

/-- A response that ends without an object wakes the fetch. -/
theorem delivery_wakes_awaitsHole : ∃ w w',
    runMeets (fun _ _ => True) (ofCache (.create 100 3 1000 0 none none)) awaitsHole = some w ∧
      w.step (.deliver 3 .endOfFetch) = .ok w' ∧ w'.Posted 3 ∧ w'.Wakes 3 := by
  have hrun : (runMeets (fun _ _ => True) (ofCache (.create 100 3 1000 0 none none))
      awaitsHole).elim false (fun w => (w.writebacks.lookup 3).isSome &&
        (w.step (.deliver 3 .endOfFetch)).toOption.isSome) = true := by
    decide +kernel
  cases hw : runMeets (fun _ _ => True) (ofCache (.create 100 3 1000 0 none none)) awaitsHole with
  | none =>
    rw [hw] at hrun
    cases hrun
  | some w =>
    simp only [hw, Option.elim_some, Bool.and_eq_true] at hrun
    obtain ⟨wb, hwb⟩ := Option.isSome_iff_exists.mp hrun.1
    cases hstep : w.step (.deliver 3 .endOfFetch) with
    | error e =>
      rw [hstep] at hrun
      cases hrun.2
    | ok w' =>
      refine ⟨w, w', rfl, hstep, ?_⟩
      rw [delivery_wakes_iff (.of_runMeets (.create 100 3 1000 0 none none) hw) hwb hstep]
      exact .inr trivial

/-- A response that ends with the last chunk of its object leaves the fetch suspended. -/
theorem awaitsHole_lastChunk_sleeps :
    ((ofCache (.create 100 3 1000 0 none none)).run (awaitsHole ++
      [.deliver 3 (.beginObject 0 0 0 2 (some [1]) noExtensions),
        .deliver 3 (.objectPayload [2] true)])).map
      (fun w => ((w.tasks.lookup 2).bind (fun task => task.pc.heldWriteback),
        (w.writebacks.lookup 3).map (fun wb => wb.complete),
        ((w.step (.resume 2 .run)).toOption.map fun w => w.nextId))) =
      .ok (some 3, some false, none) := by
  decide +kernel

end World

end Moqx
