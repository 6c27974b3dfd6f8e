import Moqx.DeliveryShape

/-! Every step of the world as a sequence of primitive acts on its cache. -/
namespace Moqx

open Moxygen

variable [Moxygen] {P : Cache → Act → Prop} {w w' : World} {op : Op}

/-- The acts by which a new fetch writeback registers at `start`. -/
structure CreateActs (P : Cache → Act → Prop) (tref : TrackRef) (start : AbsoluteLocation) :
    Prop where
  evictGroup : ∀ d groupID, P d (.evictGroup tref groupID)
  removeTrack : ∀ d, d.TrackNode tref → P d (.removeTrack tref)
  emplaceGroup : ∀ d groupID, P d (.emplaceGroup tref groupID)
  pin : ∀ d ref, P d (.removeGroup tref ref)
  register : ∀ d entry, P d (.register tref start entry)

/-- The acts by which a name becomes evictable again. -/
def IdleActs (P : Cache → Act → Prop) (ftn : FullTrackName) : Prop :=
  ∀ d tref, d.cache.lookup ftn = some tref → (d.tracks tref).canEvict = true →
    P d (.addTrack ftn tref)

/-- What `P` has to allow for a step of the world to go through acts allowed by `P`. -/
def OpActs (P : Cache → Act → Prop) (w : World) : Op → Prop
  | .tick _ => True
  | .subscribe ftn =>
    (∀ d a, Act.MakesRoom a → P d a) ∧ (∀ d, P d (.emplaceTrack ftn)) ∧
      (∀ d tref, d.TrackNode tref → P d (.removeTrack tref)) ∧
      ∀ d tref, d.cache.lookup ftn = some tref → (d.tracks tref).lruIter = none →
        P d (.live tref ((d.tracks tref).liveWritebackCount + 1))
  | .closeSubscribe id => ∀ s, w.subscribers.lookup id = some s →
    (0 < (w.cache.tracks s.track).liveWritebackCount →
      P w.cache (.live s.track ((w.cache.tracks s.track).liveWritebackCount - 1))) ∧
      IdleActs P s.ftn
  | .beginSubgroup id _ _ _ => ∀ s, w.subscribers.lookup id = some s →
    GroupActs P w.cache s.track s.ftn ∧ ∀ d ref, P d (.removeGroup s.track ref)
  | .objectStream id _ _ =>
    ∀ s, w.subscribers.lookup id = some s → GroupActs P w.cache s.track s.ftn
  | .datagram id _ _ => ∀ s, w.subscribers.lookup id = some s → GroupActs P w.cache s.track s.ftn
  | .writeSubgroup id _ => ∀ sub, w.subgroups.lookup id = some sub → SubgroupActs P w.cache sub
  | .closeSubgroup id => ∀ sub, w.subgroups.lookup id = some sub →
    P w.cache (.addGroup sub.ftn sub.group sub.track sub.groupRef)
  | .setTrackExtensions ftn _ =>
    (∀ d, P d (.emplaceTrack ftn)) ∧ (∀ d tref, P d (.info tref)) ∧ IdleActs P ftn
  | .purgeTrack _ => ∀ d a, Act.Purges a → P d a
  | .purgeNamespace _ => ∀ d a, Act.Purges a → P d a
  | .purgeAll => ∀ d a, Act.Purges a → P d a
  | .fetch f => w.cache.cache.lookup f.fullTrackName = none →
    (∀ d, P d (.emplaceTrack f.fullTrackName)) ∧ (∀ d a, Act.MakesRoom a → P d a) ∧
      (∀ d, (d.tracks w.cache.nextTrackRef).canEvict = true →
        P d (.addTrack f.fullTrackName w.cache.nextTrackRef)) ∧
      CreateActs P w.cache.nextTrackRef f.start
  | .resume id _ => ∀ task, w.tasks.lookup id = some task →
    (∀ d ref l, P d (.expire task.track ref l)) ∧ (∀ d, P d (.info task.track)) ∧
      ∀ interval intervals after, task.pc = .fetchUpstream (interval :: intervals) after →
        CreateActs P task.track interval.1 ∧ P w.cache (.removeTrack task.track)
  | .cancel _ => True
  | .deliver id _ => ∀ wb, w.writebacks.lookup id = some wb →
    GroupActs P w.cache wb.track wb.ftn ∧ KeyActs P wb
  | .closeWriteback id => ∀ wb, w.writebacks.lookup id = some wb →
    (∀ d key, wb.fetchInProgressIt = some key → P d (.deregister wb.track key)) ∧
      (∀ d key ref, wb.fetchInProgressIt = some key → wb.pinnedGroup = some ref →
        (d.tracks wb.track).fetchesInProgress.lookup key = none →
        P d (.addGroup wb.ftn key.group wb.track ref)) ∧ IdleActs P wb.ftn

/-- Every group number a step may write to is in use. -/
structure World.RefsKnown (w : World) : Prop where
  tracks : ∀ tref, (w.cache.tracks tref).RefsBounded
  subgroups : ∀ id sub, w.subgroups.lookup id = some sub →
    sub.groupRef < (w.cache.tracks sub.track).nextGroupRef

/-- A fetch of a new name from the moment the name is there. -/
theorem Cache.fetchNewTrack_spec {c : Cache} {f : Fetch} {consumer : ConsumerId} {id : WritebackId}
    (hR : ∀ d a, Act.MakesRoom a → P d a)
    (hA : ∀ d, (d.tracks c.nextTrackRef).canEvict = true →
      P d (.addTrack f.fullTrackName c.nextTrackRef))
    (hC : CreateActs P c.nextTrackRef f.start) :
    Spec P (c.emplaceTrack f.fullTrackName) (c.fetchNewTrack f consumer id) Prod.snd := by
  refine (makeRoomForTrack_spec hR).bind fun d hd => ?_
  have hidle : (d.tracks c.nextTrackRef).canEvict = true := by
    rw [(makeRoomForTrack_canEvict hd).1, emplaceTrack_tracks]
    rfl
  have hnode : (d.addTrackToLRU f.fullTrackName c.nextTrackRef).TrackNode c.nextTrackRef := by
    refine addTrackToLRU_trackNode ?_
    rw [(makeRoomForTrack_canEvict hd).2, emplaceTrack_tracks]
  refine .after (.single (hA d hidle) (.addTrack d f.fullTrackName c.nextTrackRef)) ?_
  exact FetchWriteback.create_spec (hC.removeTrack _ hnode) hC.evictGroup
    (fun d => hC.emplaceGroup d _) hC.pin fun d => hC.register d _

namespace World

theorem orNoCaller_spec {α β : Type} {c : Cache} {x : Option α} {f : α → Except Abort β}
    {out : β → Cache} (h : ∀ a, x = some a → Spec P c (f a) out) :
    Spec P c (orNoCaller x >>= f) out := by
  cases x with
  | none => exact .error (.of_other (by decide))
  | some a => exact h a rfl

theorem fetch_spec {f : Fetch} (h : OpActs P w (.fetch f)) :
    Spec P w.cache (w.step (.fetch f)) World.cache := by
  simp only [step, Cache.fetch]
  cases hl : w.cache.cache.lookup f.fullTrackName with
  | some tref =>
    simp only
    simp only [bind_assoc]
    exact (w.cache.fetchCachedTrack_untracked f w.nextId tref).spec fun _ _ => .ok .refl
  | none =>
    obtain ⟨hN, hR, hA, hC⟩ := h hl
    simp only [bind_assoc]
    refine .after (.single (hN w.cache) (.emplaceTrack w.cache f.fullTrackName hl)) ?_
    exact (Cache.fetchNewTrack_spec hR hA hC).bind fun _ _ => .ok .refl

theorem resume_spec {id : ConsumerId} {with_ : Resume} (h : OpActs P w (.resume id with_)) :
    Spec P w.cache (w.step (.resume id with_)) World.cache := by
  refine orNoCaller_spec fun task htask => ?_
  obtain ⟨hX, hI, hC⟩ := h task htask
  unfold resumeTask
  split
  · exact .ok .refl
  · exact (FetchTask.head_spec hX).bind fun _ _ => .ok .refl
  · split
    · exact (FetchTask.afterWait_spec hX).bind fun _ _ => .ok .refl
    · exact .error (.of_other (by decide))
  · next interval intervals after hpc =>
    obtain ⟨hC, hT⟩ := hC interval intervals after hpc
    exact (FetchTask.fetchUpstream_spec hT hC.evictGroup
      (fun d => hC.emplaceGroup d _) hC.pin fun d => hC.register d).bind fun _ _ => .ok .refl
  · exact (FetchTask.afterUpstreamFetch_spec (hI _)).bind fun _ _ => .ok .refl
  · next wbId intervals after _ =>
    refine orNoCaller_spec fun wb _ => ?_
    exact (task.afterComplete_untracked w.cache wb intervals after w.now).spec fun _ _ => .ok .refl
  · next current pin answer _ =>
    exact (task.publish_untracked w.cache current pin answer).spec fun _ _ => .ok .refl
  · exact .ok .refl
  · exact .error (.of_other (by decide))

/-- Every step of the world runs through acts allowed by `P`, or aborts after such acts. -/
theorem step_spec (hrefs : w.RefsKnown) (h : OpActs P w op) :
    Spec P w.cache (w.step op) World.cache := by
  cases op with
  | tick ns => exact .ok .refl
  | subscribe ftn =>
    obtain ⟨hE, hN, hT, hL⟩ := h
    exact (Cache.getSubscribeWriteback_spec hE hN hT hL).bind fun _ _ => .ok .refl
  | closeSubscribe id =>
    refine orNoCaller_spec fun s hs => ?_
    exact (SubscribeWriteback.close_spec (h s hs).1 (h s hs).2).bind fun _ _ => .ok .refl
  | beginSubgroup id groupID subgroupID downstream =>
    refine orNoCaller_spec fun s hs => ?_
    refine (SubscribeWriteback.beginSubgroup_spec (h s hs).1 (h s hs).2).bind fun r _ => ?_
    obtain ⟨res, c⟩ := r
    split <;> next heq => cases heq; exact .ok .refl
  | objectStream id header payload | datagram id header payload =>
    refine orNoCaller_spec fun s hs => ?_
    exact (SubscribeWriteback.wholeObject_spec (h s hs) (hrefs.tracks _)).bind
      fun _ _ => .ok .refl
  | writeSubgroup id write =>
    refine orNoCaller_spec fun sub hsub => ?_
    exact (SubgroupWriteback.perform_spec (h sub hsub) (hrefs.subgroups id sub hsub) write).bind
      fun _ _ => .ok .refl
  | closeSubgroup id =>
    refine orNoCaller_spec fun sub hsub => .ok ?_
    exact SubgroupWriteback.close_steps (h sub hsub)
  | setTrackExtensions ftn ext =>
    obtain ⟨hN, hI, hA⟩ := h
    exact .ok (Cache.setTrackExtensions_steps hN hI hA ext)
  | purgeTrack ftn =>
    have hspec : Spec P w.cache (w.cache.evictTrack ftn) id :=
      Cache.evictTrack_spec .purge (fun _ _ => trivial) (fun _ _ => h _ _ rfl)
        (fun _ _ _ => h _ _ trivial) fun _ _ => h _ _ trivial
    exact hspec.bind fun _ _ => .ok .refl
  | purgeNamespace ns | purgeAll => exact (Cache.evictTracks_spec h _ _).bind fun _ _ => .ok .refl
  | fetch f => exact fetch_spec h
  | resume id with_ => exact resume_spec h
  | cancel id =>
    refine orNoCaller_spec fun task _ => .ok ?_
    unfold cancelTask
    split <;> exact .refl
  | deliver id delivery =>
    refine orNoCaller_spec fun wb hwb => ?_
    obtain ⟨hG, hK⟩ := h wb hwb
    exact (FetchWriteback.deliver_spec hG hK (hrefs.tracks _) delivery).bind fun _ _ => .ok .refl
  | closeWriteback id =>
    refine orNoCaller_spec fun wb hwb => ?_
    obtain ⟨hD, hR, hA⟩ := h wb hwb
    split
    · exact .error (.of_other (by decide))
    · exact .ok (FetchWriteback.close_steps hD hR hA)

end World

end Moqx
