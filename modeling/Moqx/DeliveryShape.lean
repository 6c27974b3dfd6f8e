import Moqx.Cache.WriterTraces

/-! The shape of a delivery: the cache is written to, then the registration of the writeback
moves at most once, then gaps are recorded at most. -/
namespace Moqx

open Moxygen

variable [Moxygen] {c c' : Cache} {tref : TrackRef} {ftn : FullTrackName}

/-- What happens to the cache in a delivery besides the registration. -/
inductive BodyAct (c : Cache) (tref : TrackRef) (ftn : FullTrackName) (d : Cache) : Act → Prop where
  | evicts {a : Act} (h : Act.Evicts a) : BodyAct c tref ftn d a
  | marks {a : Act} (h : Act.Marks tref a) : BodyAct c tref ftn d a
  | info : BodyAct c tref ftn d (.info tref)
  | addGroup {groupID : Nat} {ref : GroupRef}
      (hl : (d.tracks tref).groups.lookup groupID = some ref)
      (hfree : (c.tracks tref).groups.lookup groupID = none)
      (hev : (d.tracks tref).evicted = false) :
      BodyAct c tref ftn d (.addGroup ftn groupID tref ref)
  | store {ref : GroupRef} {l : AbsoluteLocation} {w : ObjectWrite}
      (hl : (d.tracks tref).groups.lookup l.group = some ref)
      (hev : (d.tracks tref).evicted = false) : BodyAct c tref ftn d (.store tref ref l w)
  | append {ref : GroupRef} {l : AbsoluteLocation}
      (hl : (d.tracks tref).groups.lookup l.group = some ref)
      (hev : (d.tracks tref).evicted = false) : BodyAct c tref ftn d (.append tref ref l)

theorem groupActs_bodyAct (c : Cache) (tref : TrackRef) (ftn : FullTrackName) :
    GroupActs (BodyAct c tref ftn) c tref ftn :=
  ⟨fun _ _ => .evicts, fun _ _ => .marks, fun _ => .info, fun _ _ _ => .addGroup,
    fun _ _ _ _ => .store, fun _ _ _ => .append⟩

namespace FetchWriteback

/-- What a delivery to `w` has done to the cache `c` before the registration moves. -/
abbrev Body (c : Cache) (w : FetchWriteback) (d : Cache) : Prop :=
  Steps (BodyAct c w.track w.ftn) c d

/-- The outcome of a delivery to `w` on the cache `c`. -/
inductive Shape (c : Cache) (w : FetchWriteback) : Except Abort (FetchWriteback × Cache) →
    Prop where
  | fails {d : Cache} {e : Abort} (hd : Acts (BodyAct c w.track w.ftn) c d)
      (he : Fails (BodyAct c w.track w.ftn) d e) : Shape c w (.error e)
  | stale {d : Cache} (hd : Body c w d) (hs : d.StaleTrack (BodyAct c w.track w.ftn)) :
      Shape c w (.error .staleIterator)
  | quiet {d : Cache} {w' : FetchWriteback} (hd : Body c w d)
      (hw : SameKey w w') : Shape c w (.ok (w', d))
  | updateFails {d : Cache} {w₁ : FetchWriteback} {e : Abort}
      (hd : Body c w d) (hw : SameKey w w₁)
      (hup : w₁.updateInProgress d = .error e) : Shape c w (.error e)
  | updated {d d₂ d' : Cache} {w₁ w₂ w' : FetchWriteback}
      (hd : Body c w d) (hw : SameKey w w₁)
      (hup : w₁.updateInProgress d = .ok (w₂, d₂))
      (hd' : Steps (fun _ a => a.Marks w.track) d₂ d') (hw' : SameKey w₂ w') :
      Shape c w (.ok (w', d'))
  | updatedFails {d d₂ : Cache} {w₁ w₂ : FetchWriteback} {e : Abort}
      (hd : Body c w d) (hw : SameKey w w₁)
      (hup : w₁.updateInProgress d = .ok (w₂, d₂))
      (he : ∀ (P : Cache → Act → Prop) (d : Cache), Fails P d e) : Shape c w (.error e)

variable {w w' : FetchWriteback}

/-- What follows may change the writeback elsewhere. -/
theorem Shape.sameKey {d : Cache} {v v' : FetchWriteback} (h : Shape c w (.ok (v, d)))
    (hv : SameKey v v') : Shape c w (.ok (v', d)) := by
  cases h with
  | quiet hd hw => exact .quiet hd (hw.trans hv)
  | updated hd hw hup hd' hw' => exact .updated hd hw hup hd' (hw'.trans hv)

theorem Shape.then_fails {d : Cache} {v : FetchWriteback} {e : Abort} (h : Shape c w (.ok (v, d)))
    (he : ∀ (P : Cache → Act → Prop) (d : Cache), Fails P d e) : Shape c w (.error e) := by
  cases h with
  | quiet hd hw => exact .fails hd.acts (he _ _)
  | updated hd hw hup hd' hw' => exact .updatedFails hd hw hup he

theorem markNonExistentTo_untracked (w : FetchWriteback) (target : AbsoluteLocation) :
    Untracked (w.markNonExistentTo c target) := by
  unfold markNonExistentTo
  split
  · exact .ok
  · exact (getGapRanges_untracked _ _ _ _ _).bind fun _ _ => .ok

theorem markNonExistentToEnd_steps (h : w.markNonExistentToEnd c = .ok (w', c')) :
    Steps (fun _ a => a.Marks w.track) c c' := by
  have hspec : Spec (fun _ a => a.Marks w.track) c (w.markNonExistentToEnd c) Prod.snd :=
    markNonExistentToEnd_spec fun _ _ h => h
  exact hspec.steps h

/-- Moving the registration with an answer for the caller. -/
theorem Shape.of_update_answer {d : Cache} {w₁ : FetchWriteback} {res : Expected Unit}
    (hd : Body c w d) (hw : SameKey w w₁) :
    Shape c w (Prod.snd <$> (do
      let (v, d) ← w₁.updateInProgress d
      .ok (res, v, d))) := by
  cases hup : w₁.updateInProgress d with
  | error e => exact .updateFails hd hw hup
  | ok r => exact .updated hd hw hup .refl (.refl _)

theorem finishCacheImpl_shape {d : Cache} {w₁ : FetchWriteback} {groupID objectID : Nat}
    {ow : ObjectWrite} {finFetch : Bool} {cacheRes : Expected Unit}
    (hd : Body c w d) (hw : SameKey w w₁) :
    Shape c w (Prod.snd <$> w₁.finishCacheImpl d groupID objectID ow finFetch cacheRes) := by
  unfold finishCacheImpl
  cases cacheRes with
  | error e => exact .of_update_answer hd hw
  | ok _ =>
    have hlarge : Steps (fun _ a => a = .info w.track) d (d.updateLargest w₁.track
        ⟨groupID, objectID⟩ (ow.status = .endOfTrack)).2 := Cache.updateLargest_steps (by
      rw [hw.track]
      exact fun _ => rfl)
    dsimp only
    generalize d.updateLargest w₁.track ⟨groupID, objectID⟩ (ow.status = .endOfTrack) = r at hlarge
    obtain ⟨res, d₁⟩ := r
    have hd₁ : Body c w d₁ := by
      refine hd.trans (hlarge.mono ?_)
      rintro _ _ rfl
      exact .info
    cases res with
    | error e => exact .of_update_answer hd₁ hw
    | ok _ =>
      dsimp only
      split
      · have hnext : SameKey w { w₁ with
            fetchRangeIt := w₁.fetchRangeIt.next (d₁.tracks w₁.track) } :=
          hw.trans (.of_it (FetchRangeIterator.next_sameRange _ _))
        generalize ({ w₁ with fetchRangeIt := w₁.fetchRangeIt.next (d₁.tracks w₁.track) } :
          FetchWriteback) = v at hnext ⊢
        cases hup : v.updateInProgress d₁ with
        | error e => exact .updateFails hd₁ hnext hup
        | ok r =>
          obtain ⟨w₂, d₂⟩ := r
          have htrack : w₂.track = w.track := 
            (updateInProgress_sameOwner hup).track.trans hnext.track
          simp only [bind, Except.bind]
          split
          · cases hend : w₂.markNonExistentToEnd d₂ with
            | error e =>
              exact .updatedFails hd₁ hnext hup fun P d =>
                .of_other (markNonExistentTo_untracked _ _ e hend)
            | ok r =>
              obtain ⟨w₃, d₃⟩ := r
              have hsteps := markNonExistentToEnd_steps hend
              rw [htrack] at hsteps
              exact .updated hd₁ hnext hup hsteps ((markNonExistentToEnd_sameKey hend).trans
                ⟨⟨rfl, rfl, rfl, rfl, rfl, rfl, .refl _⟩, rfl, rfl⟩)
          · exact .updated hd₁ hnext hup .refl (.refl _)
      · exact .quiet hd₁ hw

/-- An operation of the body that comes first. -/
theorem Shape.of_body {α : Type} {m : Except Abort α} {out : α → Cache}
    {f : α → Except Abort (FetchWriteback × Cache)} {d : Cache}
    (hd : Body c w d) (hm : Spec (BodyAct c w.track w.ftn) d m out)
    (hf : ∀ a, m = .ok a → Body c w (out a) → Shape c w (f a)) : Shape c w (m >>= f) := by
  cases m with
  | error e =>
    rcases hm with ⟨d', hd', he⟩ | ⟨rfl, d', hd', hs⟩
    · exact .fails (hd.acts.trans hd') he
    · exact .stale (hd.trans hd') hs
  | ok a => exact hf a rfl (hd.trans hm)

theorem cacheImpl_shape {groupID objectID : Nat} {ow : ObjectWrite} {finFetch : Bool}
    (hev : (c.tracks w.track).evicted = false) (href : (c.tracks w.track).RefsBounded) :
    Shape c w (Prod.snd <$> w.cacheImpl c groupID objectID ow finFetch) := by
  have hG := groupActs_bodyAct c w.track w.ftn
  simp only [cacheImpl, map_bind]
  refine .of_body .refl (hG.getOrCreate hev groupID) fun r hr hd => ?_
  obtain ⟨ref, d⟩ := r
  have hstore : Spec (BodyAct c w.track w.ftn) d
      (d.cacheObjectAndUpdateBytes w.track ref groupID objectID ow) Prod.snd :=
    hG.cacheObject hev href hr
  refine .of_body hd hstore fun r _ hd => ?_
  obtain ⟨cacheRes, d⟩ := r
  refine .of_body hd (markNonExistentTo_spec hG.marks) fun r hr hd => ?_
  obtain ⟨w', d'⟩ := r
  exact finishCacheImpl_shape hd (markNonExistentTo_sameKey hr)

section
variable (href : (c.tracks w.track).RefsBounded)
include href

theorem forward_shape {groupID objectID : Nat} {ow : ObjectWrite} {fin : Bool} {call : FetchCall}
    (hskip : ¬ w.skipsCaching c = true) :
    Shape c w ((fun r => r.2.2) <$> (forward call <$> w.cacheImpl c groupID objectID ow fin)) := by
  have hshape : Shape c w (Prod.snd <$> w.cacheImpl c groupID objectID ow fin) :=
    cacheImpl_shape (not_evicted_of_caches hskip) href
  cases hr : w.cacheImpl c groupID objectID ow fin with
  | error e =>
    rw [hr] at hshape
    exact hshape
  | ok r =>
    rw [hr] at hshape
    obtain ⟨res, v, d⟩ := r
    cases res <;> exact hshape

theorem beginObject_shape {gID sgID objID len : Nat} {initPayload : Option Payload}
    {ext : Extensions} {now : TimePoint} :
    Shape c w ((fun r => r.2.2) <$> w.beginObject c gID sgID objID len initPayload ext now) := by
  unfold beginObject
  dsimp only
  split
  · exact .quiet .refl (.refl w)
  · next hskip =>
    have hshape : Shape c w (Prod.snd <$> w.cacheImpl c gID objID
        ⟨sgID, .normal, ext, initPayload, false, false, now⟩ false) :=
      cacheImpl_shape (not_evicted_of_caches hskip) href
    cases hr : w.cacheImpl c gID objID ⟨sgID, .normal, ext, initPayload, false, false, now⟩
        false with
    | error e =>
      rw [hr] at hshape
      exact hshape
    | ok r =>
      rw [hr] at hshape
      obtain ⟨res, v, d⟩ := r
      cases res with
      | error e => exact hshape
      | ok _ =>
        by_cases h : initPayload.elim 0 List.length ≤ len
        · simp only [bind, Except.bind, xcheck, h, decide_true, if_true]
          exact Shape.sameKey hshape ⟨⟨rfl, rfl, rfl, rfl, rfl, rfl, .refl _⟩, rfl, rfl⟩
        · simp only [bind, Except.bind, xcheck, h, decide_false]
          exact Shape.then_fails hshape fun P d =>
            .of_other (by decide)

omit href in
theorem objectPayload_shape {payload : Payload} {finFetch : Bool} :
    Shape c w ((fun r => r.2.2) <$> w.objectPayload c payload finFetch) := by
  have hG := groupActs_bodyAct c w.track w.ftn
  unfold objectPayload
  dsimp only
  split
  · exact .quiet .refl (.refl w)
  · next hskip =>
    have hev := not_evicted_of_caches hskip
    simp only [map_bind]
    refine .of_body .refl (hG.getOrCreate hev _) fun r hr hd => ?_
    obtain ⟨ref, d⟩ := r
    obtain ⟨hlook, hevd, -⟩ := Cache.getOrCreateGroupWithEviction_result hr
    refine .of_body hd (Cache.appendPayload_spec (hG.append d ref _ hlook (hevd.trans hev))
      hG.evicts) fun r _ hd => ?_
    obtain ⟨left, d'⟩ := r
    dsimp only
    split
    · have hmove : SameKey w { w with
          currentLength := left
          fetchRangeIt := w.fetchRangeIt.next (d'.tracks w.track) } :=
        ⟨⟨rfl, rfl, rfl, rfl, rfl, rfl, FetchRangeIterator.next_sameRange _ _⟩, rfl, rfl⟩
      generalize ({ w with
        currentLength := left
        fetchRangeIt := w.fetchRangeIt.next (d'.tracks w.track) } : FetchWriteback) = v at hmove ⊢
      have hmark : Spec (BodyAct c w.track w.ftn) d' (v.markNonExistentToEnd d') Prod.snd :=
        markNonExistentToEnd_spec (by rw [hmove.track]; exact hG.marks)
      simp only [map_bind]
      refine .of_body hd hmark fun r hr hd => ?_
      obtain ⟨w₁, d₁⟩ := r
      have hsame := hmove.trans (markNonExistentToEnd_sameKey hr)
      cases hup : w₁.updateInProgress d₁ with
      | error e => exact .updateFails hd hsame hup
      | ok r => exact .updated hd hsame hup .refl (.refl _)
    · exact .quiet hd ⟨⟨rfl, rfl, rfl, rfl, rfl, rfl, .refl _⟩, rfl, rfl⟩

/-- Every delivery has this shape. -/
theorem deliver_shape {now : TimePoint} (delivery : Delivery) :
    Shape c w ((fun r => r.2.2) <$> w.deliver c now delivery) := by
  cases delivery with
  | object gID sgID objID payload ext fin isDatagram =>
    simp only [deliver, object]
    split
    · exact .quiet .refl (.refl w)
    · next h => exact forward_shape href h
  | beginObject gID sgID objID len initPayload ext => exact beginObject_shape href
  | objectPayload payload finFetch => exact objectPayload_shape
  | endOfGroup gID sgID objID fin =>
    simp only [deliver, endOfGroup]
    split
    · exact .quiet .refl (.refl w)
    · next h => exact forward_shape href h
  | endOfTrackAndGroup gID sgID objID =>
    simp only [deliver, endOfTrackAndGroup]
    split
    · exact .quiet .refl (.refl w)
    · next h => exact forward_shape href h
  | endOfFetch =>
    simp only [deliver, endOfFetch, map_bind]
    refine .of_body .refl (markNonExistentToEnd_spec fun _ _ => .marks) fun r hr hd => ?_
    obtain ⟨w₁, d₁⟩ := r
    cases hup : w₁.updateInProgress d₁ with
    | error e => exact .updateFails hd (markNonExistentToEnd_sameKey hr) hup
    | ok r =>
      exact .updated hd (markNonExistentToEnd_sameKey hr) hup .refl
        ⟨⟨rfl, rfl, rfl, rfl, rfl, rfl, .refl _⟩, rfl, rfl⟩
  | endOfUnknownRange groupId objectId finFetch =>
    have hsame : SameKey w { w with
        fetchRangeIt := (w.fetchRangeIt.advanceTo (c.tracks w.track) ⟨groupId, objectId⟩).next
          (c.tracks w.track) } :=
      .of_it ((FetchRangeIterator.advanceTo_sameRange _ _ _).trans
        (FetchRangeIterator.next_sameRange _ _))
    simp only [deliver, endOfUnknownRange]
    cases hup : ({ w with
        fetchRangeIt := (w.fetchRangeIt.advanceTo (c.tracks w.track) ⟨groupId, objectId⟩).next
          (c.tracks w.track) } : FetchWriteback).updateInProgress c with
    | error e => exact .updateFails .refl hsame hup
    | ok r =>
      exact .updated .refl hsame hup .refl ⟨⟨rfl, rfl, rfl, rfl, rfl, rfl, .refl _⟩, rfl, rfl⟩
  | reset code =>
    have hsame : SameKey w { w with
        wasReset := true, complete := true, start := w.end_
        fetchRangeIt := w.fetchRangeIt.invalidate } :=
      ⟨⟨rfl, rfl, rfl, rfl, rfl, rfl, ⟨rfl, rfl, rfl⟩⟩, rfl, rfl⟩
    simp only [deliver, reset]
    cases hup : ({ w with
        wasReset := true, complete := true, start := w.end_
        fetchRangeIt := w.fetchRangeIt.invalidate } : FetchWriteback).updateInProgress c with
    | error e => exact .updateFails .refl hsame hup
    | ok r => exact .updated .refl hsame hup .refl (.refl _)
  | awaitReadyToConsume => exact .quiet .refl (.refl w)

end

theorem Shape.of_deliver {now : TimePoint} {delivery : Delivery} {res : Expected Unit}
    {calls : List FetchCall} (href : (c.tracks w.track).RefsBounded)
    (h : w.deliver c now delivery = .ok (res, calls, w', c')) : Shape c w (.ok (w', c')) := by
  have hshape : Shape c w ((fun r => r.2.2) <$> w.deliver c now delivery) :=
    deliver_shape href delivery
  rw [h] at hshape
  exact hshape

theorem Shape.of_deliver_error {now : TimePoint} {delivery : Delivery} {e : Abort}
    (href : (c.tracks w.track).RefsBounded) (h : w.deliver c now delivery = .error e) :
    Shape c w (.error e) := by
  have hshape : Shape c w ((fun r => r.2.2) <$> w.deliver c now delivery) :=
    deliver_shape href delivery
  rw [h] at hshape
  exact hshape

/-- No delivery changes whose writeback it is. -/
theorem Shape.sameOwner (h : Shape c w (.ok (w', c'))) : SameOwner w w' := by
  cases h with
  | quiet hd hw => exact hw.toSameOwner
  | updated hd hw hup hd' hw' =>
    exact hw.toSameOwner.trans ((updateInProgress_sameOwner hup).trans hw'.toSameOwner)

/-- A delivery runs through the acts of its body and those that move the registration. -/
theorem Shape.spec {P : Cache → Act → Prop} {m : Except Abort (FetchWriteback × Cache)}
    (h : Shape c w m) (hG : GroupActs P c w.track w.ftn) (hK : KeyActs P w) :
    Spec P c m Prod.snd := by
  have hbody : ∀ d a, BodyAct c w.track w.ftn d a → P d a := by
    intro d a h
    cases h with
    | evicts h => exact hG.evicts d a h
    | marks h => exact hG.marks d a h
    | info => exact hG.info d
    | addGroup hl hfree hev => exact hG.addGroup d _ _ hl hfree hev
    | store hl hev => exact hG.store d _ _ _ hl hev
    | append hl hev => exact hG.append d _ _ hl hev
  have hup : ∀ {d : Cache} {w₁ : FetchWriteback}, Body c w d → SameKey w w₁ →
      Spec P c (w₁.updateInProgress d) Prod.snd := fun hd hw =>
    .after (hd.mono hbody) (updateInProgress_spec (keyActs_of_sameKey hK hw))
  cases h with
  | fails hd he => exact .inl ⟨_, hd.mono hbody, he.mono hbody⟩
  | stale hd hs =>
    obtain ⟨tref, hgone, hused⟩ := hs
    exact .inr ⟨rfl, _, hd.mono hbody, tref, hgone, hused.imp_right (hbody _ _)⟩
  | quiet hd hw => exact .ok (hd.mono hbody)
  | updateFails hd hw he =>
    rw [← he]
    exact hup hd hw
  | updated hd hw hok hd' hw' =>
    exact .ok (((hup hd hw).steps hok).trans (hd'.mono hG.marks))
  | updatedFails hd hw hok he => exact .inl ⟨_, ((hup hd hw).steps hok).acts, he P _⟩

theorem deliver_spec {P : Cache → Act → Prop} (hG : GroupActs P c w.track w.ftn)
    (hK : KeyActs P w) (href : (c.tracks w.track).RefsBounded) {now : TimePoint}
    (delivery : Delivery) : Spec P c (w.deliver c now delivery) fun r => r.2.2.2 := by
  cases h : w.deliver c now delivery with
  | error e => exact (Shape.of_deliver_error href h).spec hG hK
  | ok r => exact (Shape.of_deliver href h).spec hG hK

end FetchWriteback

end Moqx
