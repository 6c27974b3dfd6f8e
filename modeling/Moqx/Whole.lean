import Moqx.Wellformed

/-! Removing a track stamps it, evicts its groups and takes away its name; between operations
no track is stamped and still cached. -/
namespace Moqx

open Moxygen Maps

variable [Moxygen] {P : Cache → Act → Prop} {c c' : Cache} {a : Act}

namespace Cache

/-- No cached track is stamped as evicted. -/
def Whole (c : Cache) : Prop :=
  ∀ ftn tref, c.cache.lookup ftn = some tref → (c.tracks tref).evicted = false

theorem Whole.of_prim (h : Prim c a c') (ha : a.removes = false) (hc : c.Whole) : c'.Whole := by
  cases hs : a.isStructural with
  | false =>
    obtain ⟨h1, -, -, -, h5⟩ := h.sameSkeleton hs
    intro ftn tref hl
    rw [h1] at hl
    rw [h5]
    exact hc ftn tref hl
  | true =>
    cases h with
    | emplaceTrack ftn hl =>
      intro f tref hf
      rw [emplaceTrack_tracks_eq]
      split
      · rfl
      · next htr =>
        rcases lookup_emplaceTrack hf with ⟨-, h⟩ | ⟨-, hf⟩
        · exact absurd h htr
        · exact hc f tref hf
    | markEvicted => cases ha
    | eraseTrack => cases ha
    | emplaceGroup tref groupID =>
      intro f tr hf
      rw [setTrack_emplaceGroup_evicted]
      exact hc f tr hf
    | evictGroup tref groupID =>
      intro f tr hf
      rw [dropGroup_evicted]
      exact hc f tr hf
    | _ => simp [Act.isStructural] at hs

/-- A removal stamps one track, which has no name afterwards. -/
theorem Whole.of_removal (hw : c.WF) (hc : c.Whole) (h : Removal P c c') : c'.Whole := by
  obtain ⟨ftn, tref, cause, d, d', -, h, groups, -, h'⟩ := h
  cases h with | markEvicted _ _ _ hl =>
  have hkept : d'.cache = c.cache ∧
      ∀ tr, (d'.tracks tr).evicted = ((c.markEvicted tref).tracks tr).evicted := by
    refine groups.keeps (I := fun d => d.cache = c.cache ∧
      ∀ tr, (d.tracks tr).evicted = ((c.markEvicted tref).tracks tr).evicted) ?_
      ⟨rfl, fun _ => rfl⟩
    rintro e _ e' ⟨-, groupID, rfl⟩ hprim ⟨h1, h2⟩
    cases hprim
    exact ⟨h1, fun tr => (dropGroup_evicted _ _ _ _ _).trans (h2 tr)⟩
  obtain ⟨hcache, hev⟩ := hkept
  cases h' with | eraseTrack =>
  intro f tr hf
  obtain ⟨hne, hf⟩ := lookup_erase_some hf
  rw [hcache] at hf
  have htr : tr ≠ tref := by
    rintro rfl
    exact hne (hw.inj f ftn tr hf hl)
  change (d'.tracks tr).evicted = false
  rw [hev, markEvicted_evicted]
  exact ⟨htr, hc f tr hf⟩

/-- Between the steps of an operation, every removal of a track is complete. -/
theorem Whole.of_steps (hw : c.WF) (hc : c.Whole) (h : Steps P c c') : c'.Whole := by
  refine (h.between (I := fun d => d.WF ∧ d.Whole) ?_ ?_ ⟨hw, hc⟩).2
  · rintro d a d' ha - hprim ⟨hwd, hd⟩
    exact ⟨hwd.of_prim hprim, hd.of_prim hprim ha⟩
  · rintro d d' hrem ⟨hwd, hd⟩
    exact ⟨(Grows.of_acts hrem.acts hwd).wf, hd.of_removal hwd hrem⟩

end Cache

end Moqx
