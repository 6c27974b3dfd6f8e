import Moqx.Lib.Runs
import Moqx.Relay.MoqxRelay

/-! The callbacks of a forwarder that is no longer the one of its track. They look the track up by
its name and never ask whose forwarder calls. -/
namespace Moqx

open Maps Runs SubscriptionRegistry

namespace MoqxRelay

variable {w : MoqxRelay} {id : ForwarderId} {ftn : FullTrackName}

/-- A forwarder of a track that is not, or no longer, the forwarder of the track's entry. -/
structure Retired (w : MoqxRelay) (id : ForwarderId) (ftn : FullTrackName) : Prop where
  named : (w.forwarders.lookup id).map (fun forwarder => forwarder.fullTrackName) = some ftn
  replaced : ∀ rsub, w.registry.find ftn = some rsub → rsub.forwarder ≠ id

/-- A step that changes no entry and sends nothing to anyone. -/
def Spares (w : MoqxRelay) (op : Op) : Prop :=
  ∃ w', w.step op = .ok w' ∧ w'.registry = w.registry ∧ w'.outputs = w.outputs

theorem spares_of_eq {op : Op} (h : w.step op = .ok w) : w.Spares op := ⟨w, h, rfl, rfl⟩

theorem not_spares_of_send {op : Op} {output : Output} (h : w.step op = .ok (w.send output)) :
    ¬ w.Spares op := by
  rintro ⟨w', hstep, -, houtputs⟩
  rw [h] at hstep
  cases hstep
  simp [send] at houtputs

theorem not_spares_of_error {op : Op} {fault : Fault} (h : w.step op = .error fault) :
    ¬ w.Spares op := by
  rintro ⟨w', hstep, -⟩
  rw [h] at hstep
  cases hstep

theorem not_spares_of_remove {op : Op} {w' : MoqxRelay} {rsub : RelaySubscription}
    (hfind : w.registry.find ftn = some rsub) (h : w.step op = .ok w')
    (hremove : w'.registry = w.registry.remove ftn) : ¬ w.Spares op := by
  rintro ⟨w'', hstep, hregistry, -⟩
  rw [h] at hstep
  cases hstep
  rw [hremove] at hregistry
  have hgone : (w.registry.remove ftn).find ftn = none := by simp
  rw [hregistry, hfind] at hgone
  cases hgone

/-- `onEmpty` unsubscribes, updates or removes whatever entry the track has. -/
theorem onEmpty_spares_iff {forwarder : MoQForwarder}
    (h : w.forwarders.lookup id = some forwarder) :
    w.Spares (.onEmpty id) ↔ w.registry.find forwarder.fullTrackName = none := by
  have hstep : w.step (.onEmpty id) = w.onEmpty id := rfl
  unfold onEmpty at hstep
  rw [h] at hstep
  cases hfind : w.registry.find forwarder.fullTrackName with
  | none =>
    simp only [getUpstreamView, hfind, Option.map_none] at hstep
    exact ⟨fun _ => rfl, fun _ => spares_of_eq hstep⟩
  | some rsub =>
    simp only [getUpstreamView, hfind, Option.map_some] at hstep
    refine ⟨fun hspares => absurd hspares ?_, fun hnone => (by cases hnone)⟩
    cases hhandle : rsub.handle with
    | none =>
      simp only [hhandle] at hstep
      exact not_spares_of_remove hfind hstep rfl
    | some handle =>
      simp only [hhandle] at hstep
      split at hstep
      · split at hstep
        · exact not_spares_of_error hstep
        · exact not_spares_of_send hstep
      · exact not_spares_of_remove hfind hstep rfl

/-- `forwardChanged` updates any entry that is ready and has a handle. -/
theorem forwardChanged_spares_iff {forwarder : MoQForwarder} {forward : Bool}
    (h : w.forwarders.lookup id = some forwarder) :
    w.Spares (.forwardChanged id forward) ↔
      ∀ rsub, w.registry.find forwarder.fullTrackName = some rsub →
        w.registry.isFulfilled rsub.entry = false ∨ rsub.handle = none := by
  have hstep : w.step (.forwardChanged id forward) = w.forwardChanged id forward := rfl
  unfold forwardChanged at hstep
  rw [h] at hstep
  cases hfind : w.registry.find forwarder.fullTrackName with
  | none =>
    simp only [getUpstreamView, hfind, Option.map_none] at hstep
    exact ⟨fun _ _ hsome => (by cases hsome), fun _ => spares_of_eq hstep⟩
  | some rsub =>
    simp only [getUpstreamView, hfind, Option.map_some] at hstep
    simp only [Option.some.injEq, forall_eq']
    cases hready : w.registry.isFulfilled rsub.entry with
    | false =>
      simp only [hready, Bool.not_false, if_true] at hstep
      exact ⟨fun _ => .inl rfl, fun _ => spares_of_eq hstep⟩
    | true =>
      simp only [hready, Bool.not_true, Bool.false_eq_true, if_false] at hstep
      cases hhandle : rsub.handle with
      | none =>
        simp only [hhandle] at hstep
        exact ⟨fun _ => .inr rfl, fun _ => spares_of_eq hstep⟩
      | some handle =>
        simp only [hhandle] at hstep
        refine ⟨fun hspares => absurd hspares ?_, fun hcond => (by simp at hcond)⟩
        split at hstep
        · exact not_spares_of_error hstep
        · exact not_spares_of_send hstep

/-- `newGroupRequested` updates any entry that has a handle. -/
theorem newGroupRequested_spares_iff {forwarder : MoQForwarder} {group : Nat}
    (h : w.forwarders.lookup id = some forwarder) :
    w.Spares (.newGroupRequested id group) ↔
      ∀ rsub, w.registry.find forwarder.fullTrackName = some rsub → rsub.handle = none := by
  have hstep : w.step (.newGroupRequested id group) = w.newGroupRequested id group := rfl
  unfold newGroupRequested at hstep
  rw [h] at hstep
  cases hfind : w.registry.find forwarder.fullTrackName with
  | none =>
    simp only [getUpstreamView, hfind, Option.map_none] at hstep
    exact ⟨fun _ _ hsome => (by cases hsome), fun _ => spares_of_eq hstep⟩
  | some rsub =>
    simp only [getUpstreamView, hfind, Option.map_some] at hstep
    simp only [Option.some.injEq, forall_eq']
    cases hhandle : rsub.handle with
    | none =>
      simp only [hhandle] at hstep
      exact ⟨fun _ => rfl, fun _ => spares_of_eq hstep⟩
    | some handle =>
      simp only [hhandle] at hstep
      refine ⟨fun hspares => absurd hspares ?_, fun hcond => (by cases hcond)⟩
      split at hstep
      · exact not_spares_of_error hstep
      · exact not_spares_of_send hstep

/-- The callbacks of a retired forwarder are inert exactly while its track has no entry or, for
the two updates, while the entry has nothing to send them to. -/
theorem retired_callbacks_inert_iff (h : w.Retired id ftn) :
    (w.Spares (.onEmpty id) ↔ w.registry.find ftn = none) ∧
    (∀ forward, w.Spares (.forwardChanged id forward) ↔
      ∀ rsub, w.registry.find ftn = some rsub →
        w.registry.isFulfilled rsub.entry = false ∨ rsub.handle = none) ∧
    ∀ group, w.Spares (.newGroupRequested id group) ↔
      ∀ rsub, w.registry.find ftn = some rsub → rsub.handle = none := by
  obtain ⟨forwarder, hforwarder, hname⟩ := Option.map_eq_some_iff.mp h.named
  subst hname
  exact ⟨onEmpty_spares_iff hforwarder, fun _ => forwardChanged_spares_iff hforwarder,
    fun _ => newGroupRequested_spares_iff hforwarder⟩

/-- A second publisher takes a track over while the first one's forwarder has a subscriber. -/
def takenOver : List Op :=
  [.publish 1 ⟨["live"], "video"⟩ 0 10 fun _ => none,
    .subscribe 3 ⟨["live"], "video"⟩ true,
    .resumeLater 2 true,
    .publish 2 ⟨["live"], "video"⟩ 0 20 fun _ => none]

/-- The second publisher ends its track again. -/
theorem retired_callbacks_inert_iff_ended : ∃ w,
    runMeets step (fun _ _ => True) {} (takenOver ++ [.publishDone 4]) = some w ∧
      w.Retired 0 ⟨["live"], "video"⟩ ∧ w.Spares (.onEmpty 0) := by
  obtain ⟨w, -, hrun, hp⟩ := reaches_of_elim step (fun _ _ => True) {}
    (takenOver ++ [.publishDone 4])
    (fun w =>
      (w.forwarders.lookup 0).map (fun forwarder => forwarder.fullTrackName) =
        some ⟨["live"], "video"⟩ ∧ (w.registry.find ⟨["live"], "video"⟩).isNone)
    (by decide +kernel)
  simp only [decide_eq_true_eq, Option.isNone_iff_eq_none] at hp
  have hretired : w.Retired 0 ⟨["live"], "video"⟩ :=
    ⟨hp.1, fun rsub hfind => by rw [hp.2] at hfind; cases hfind⟩
  exact ⟨w, hrun, hretired, (retired_callbacks_inert_iff hretired).1.mpr hp.2⟩

/-- When the last subscriber leaves the first forwarder, the second publisher is told to stop
sending. -/
theorem takenOver_onEmpty :
    (runMeets step (fun _ _ => True) {} takenOver).map (fun w =>
      ((w.registry.find ⟨["live"], "video"⟩).map (fun rsub => (rsub.forwarder, rsub.handle)),
        w.outputs)) =
      some (some (3, some 20), [.publishOk 1 ⟨["live"], "video"⟩ false, .unsubscribe 10,
        .publishOk 2 ⟨["live"], "video"⟩ false]) ∧
    (runMeets step (fun _ _ => True) {} (takenOver ++ [.leave 0 3, .onEmpty 0])).map
      (fun w => w.outputs) =
      some [.publishOk 1 ⟨["live"], "video"⟩ false, .unsubscribe 10,
        .publishOk 2 ⟨["live"], "video"⟩ false, .subscribeUpdate 20 false] := by
  decide +kernel

end MoqxRelay

end Moqx
