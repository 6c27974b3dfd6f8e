import Moqx.Cache.Acts
import Moqx.Lib.Maps

/-! Each operation of the cache as a sequence of primitive acts. -/
namespace Moqx

open Moxygen Relation CacheTrack

variable {α β : Type}

/-- The aborts of the byte counters' subtractions and of the checks before them. -/
def Abort.ByteFailure (e : Abort) : Prop :=
  e = .underflow ∨ e = .xcheck "totalCachedBytes_ >= group.totalBytes" ∨
    e = .xcheck "totalCachedBytes_ >= oldGroupBytes - group.totalBytes"

/-- The aborts that an operation has to explain. -/
def Abort.Tracked (e : Abort) : Prop :=
  e.ByteFailure ∨ e = .diverges ∨ e = .xcheck "inserted" ∨ e = .staleIterator

instance (e : Abort) : Decidable e.Tracked := by
  unfold Abort.Tracked Abort.ByteFailure
  infer_instance

/-- A computation that leaves the cache alone and aborts for no tracked reason. -/
def Untracked (m : Except Abort α) : Prop := ∀ e, m = .error e → ¬ e.Tracked

namespace Untracked

variable {m : Except Abort α} {f : α → Except Abort β}

theorem ok {a : α} : Untracked (.ok a : Except Abort α) := nofun

theorem error {e : Abort} (h : ¬ e.Tracked) : Untracked (.error e : Except Abort α) := by
  rintro _ ⟨⟩
  exact h

theorem nullDeref : Untracked (.error .nullDeref : Except Abort α) := error (by decide)

theorem xcheck {b : Bool} {msg : String} (h : ¬ (Abort.xcheck msg).Tracked) :
    Untracked (Moqx.xcheck b msg) := by
  cases b with
  | false => exact error h
  | true => exact ok

theorem bind (hm : Untracked m) (hf : ∀ a, m = .ok a → Untracked (f a)) : Untracked (m >>= f) := by
  cases m with
  | error e => exact error (hm e rfl)
  | ok a => exact hf a rfl

end Untracked

variable [Moxygen] {P : Cache → Act → Prop} {c c' : Cache}

/-- A stored iterator whose node is in the list. -/
def NodeIn {α : Type} (l : List (NodeId × α)) (iter : Option NodeId) : Prop :=
  ∀ n ∈ iter, ∃ x, (n, x) ∈ l

omit [Moxygen] in
theorem useNode_cases {α : Type} (l : List (NodeId × α)) (iter : Option NodeId) :
    (NodeIn l iter ∧ useNode l iter = .ok ()) ∨
      (¬ NodeIn l iter ∧ useNode l iter = .error .staleIterator) := by
  have hiff : (iter.all fun n => l.any fun e => e.1 = n) = true ↔ NodeIn l iter := by
    cases iter with
    | none => simp [NodeIn]
    | some n => simp [NodeIn]
  by_cases h : NodeIn l iter
  · exact .inl ⟨h, if_pos (hiff.mpr h)⟩
  · exact .inr ⟨h, if_neg fun hall => h (hiff.mp hall)⟩

namespace Cache

/-- The track's iterator can be used. -/
def TrackNode (c : Cache) (tref : TrackRef) : Prop := NodeIn c.trackLRU (c.tracks tref).lruIter

/-- Both iterators of a group can be used. -/
def GroupNodes (c : Cache) (tref : TrackRef) (ref : GroupRef) : Prop :=
  NodeIn (c.tracks tref).groupLRU ((c.tracks tref).heap ref).lruIter ∧
    NodeIn c.globalGroupLRU ((c.tracks tref).heap ref).globalLruIter

end Cache

/-- What must have been wrong with `c` for an operation to abort with `e` there. -/
structure Fails (P : Cache → Act → Prop) (c : Cache) (e : Abort) : Prop where
  bytes : e.ByteFailure →
    (∃ tref ref object entry, ((c.tracks tref).heap ref).objects.lookup object = some entry ∧
      ((c.tracks tref).heap ref).totalBytes < entry.payloadSize) ∨
    (∃ tref groupID ref, (c.tracks tref).groups.lookup groupID = some ref ∧
      c.totalCachedBytes < ((c.tracks tref).heap ref).totalBytes) ∨
    ∃ tref ref l w, P c (.store tref ref l w) ∧
      c.totalCachedBytes < ((c.tracks tref).heap ref).totalBytes
  diverges : e = .diverges →
    c.evictForByteLimitIfNeeded = .error .diverges ∨
    ∃ tref, c.evictOldestGroupsIfNeeded tref = .error .diverges
  inserted : e = .xcheck "inserted" →
    ∃ tref loc entry, P c (.register tref loc entry) ∧
      (c.tracks tref).fetchesInProgress.lookup loc ≠ none
  stale : e = .staleIterator →
    ∃ tref groupID ref, (c.tracks tref).groups.lookup groupID = some ref ∧
      ¬ c.GroupNodes tref ref

/-- A track's iterator is used in `c` whose node is gone. -/
def Cache.StaleTrack (P : Cache → Act → Prop) (c : Cache) : Prop :=
  ∃ tref, ¬ c.TrackNode tref ∧
    ((∃ ftn, c.cache.lookup ftn = some tref) ∨ P c (.removeTrack tref))

/-- The operation `m` runs from `c` through acts allowed by `P`, to its result's cache or to
the place where it aborts. Iterators of tracks are used between removals only. -/
def Spec (P : Cache → Act → Prop) (c : Cache) (m : Except Abort α) (out : α → Cache) : Prop :=
  match m with
  | .ok r => Steps P c (out r)
  | .error e => (∃ c', Acts P c c' ∧ Fails P c' e) ∨
      (e = .staleIterator ∧ ∃ c', Steps P c c' ∧ c'.StaleTrack P)

namespace Acts

theorem refl : Acts P c c := ReflTransGen.refl

theorem single {a : Act} (hP : P c a) (h : Prim c a c') : Acts P c c' :=
  ReflTransGen.single ⟨a, hP, h⟩

theorem trans {c'' : Cache} (h : Acts P c c') (h' : Acts P c' c'') : Acts P c c'' :=
  ReflTransGen.trans h h'

theorem head {a : Act} {c'' : Cache} (h : Acts P c' c'') (hP : P c a) (h' : Prim c a c') :
    Acts P c c'' := (single hP h').trans h

theorem mono {Q : Cache → Act → Prop} (hPQ : ∀ c a, P c a → Q c a) (h : Acts P c c') :
    Acts Q c c' :=
  ReflTransGen.mono (fun _ _ ⟨a, hP, h⟩ => ⟨a, hPQ _ _ hP, h⟩) _ _ h

/-- A property that every allowed act keeps is kept by the whole sequence. -/
theorem keeps {I : Cache → Prop} (hI : ∀ c a c', P c a → Prim c a c' → I c → I c')
    (h : Acts P c c') (hc : I c) : I c' := by
  induction h with
  | refl => exact hc
  | tail _ hstep ih =>
    obtain ⟨a, hP, hprim⟩ := hstep
    exact hI _ a _ hP hprim ih

end Acts

theorem Removal.acts (h : Removal P c c') :
    Acts (fun d a => P d a ∧ a.clears = true) c c' := by
  obtain ⟨ftn, tref, cause, d, d', hP, h, groups, hP', h'⟩ := h
  have hgroups : Acts (fun d a => P d a ∧ a.clears = true) d d' := by
    refine groups.mono ?_
    rintro _ _ ⟨hP, groupID, rfl⟩
    exact ⟨hP, rfl⟩
  exact (hgroups.trans (.single ⟨hP', rfl⟩ h')).head ⟨hP, rfl⟩ h

theorem Removal.mono {Q : Cache → Act → Prop} (hPQ : ∀ c a, P c a → Q c a)
    (h : Removal P c c') : Removal Q c c' := by
  obtain ⟨ftn, tref, cause, d, d', hP, h, groups, hP', h'⟩ := h
  exact ⟨ftn, tref, cause, d, d', hPQ _ _ hP, h,
    groups.mono fun _ _ h => ⟨hPQ _ _ h.1, h.2⟩, hPQ _ _ hP', h'⟩

namespace Steps

theorem refl : Steps P c c := ReflTransGen.refl

theorem single {a : Act} (hP : P c a) (h : Prim c a c') (hr : a.removes = false := by rfl) :
    Steps P c c' :=
  ReflTransGen.single (.inl ⟨a, hr, hP, h⟩)

theorem removal (h : Removal P c c') : Steps P c c' := ReflTransGen.single (.inr h)

theorem trans {c'' : Cache} (h : Steps P c c') (h' : Steps P c' c'') : Steps P c c'' :=
  ReflTransGen.trans h h'

theorem acts (h : Steps P c c') : Acts P c c' := by
  induction h with
  | refl => exact .refl
  | tail _ hstep ih =>
    rcases hstep with ⟨a, -, hP, hprim⟩ | hrem
    · exact ih.trans (.single hP hprim)
    · exact ih.trans (hrem.acts.mono fun _ _ h => h.1)

theorem mono {Q : Cache → Act → Prop} (hPQ : ∀ c a, P c a → Q c a) (h : Steps P c c') :
    Steps Q c c' := by
  refine ReflTransGen.mono (fun _ _ h => ?_) _ _ h
  rcases h with ⟨a, hr, hP, h⟩ | h
  · exact .inl ⟨a, hr, hPQ _ _ hP, h⟩
  · exact .inr (h.mono hPQ)

theorem keeps {I : Cache → Prop} (hI : ∀ c a c', P c a → Prim c a c' → I c → I c')
    (h : Steps P c c') (hc : I c) : I c' := h.acts.keeps hI hc

/-- A property kept by every removal as a whole and by every other act. -/
theorem between {I : Cache → Prop}
    (hI : ∀ c a c', a.removes = false → P c a → Prim c a c' → I c → I c')
    (hR : ∀ c c', Removal P c c' → I c → I c') (h : Steps P c c') (hc : I c) : I c' := by
  induction h with
  | refl => exact hc
  | tail _ hstep ih =>
    rcases hstep with ⟨a, hr, hP, hprim⟩ | hrem
    · exact hI _ a _ hr hP hprim ih
    · exact hR _ _ hrem ih

end Steps

namespace Spec

variable {m : Except Abort α} {f : α → Except Abort β} {out : α → Cache} {out' : β → Cache}

theorem ok {r : α} (h : Steps P c (out r)) : Spec P c (.ok r) out := h

theorem error {e : Abort} (h : Fails P c e) : Spec P c (.error e : Except Abort α) out :=
  .inl ⟨c, .refl, h⟩

theorem stale (h : c.StaleTrack P) : Spec P c (.error .staleIterator : Except Abort α) out :=
  .inr ⟨rfl, c, .refl, h⟩

/-- Steps before an operation are part of it. -/
theorem after (h : Steps P c c') (hm : Spec P c' m out) : Spec P c m out := by
  cases m with
  | ok r => exact Steps.trans h hm
  | error e =>
    rcases hm with ⟨d, hd, he⟩ | ⟨he, d, hd, hs⟩
    · exact .inl ⟨d, h.acts.trans hd, he⟩
    · exact .inr ⟨he, d, h.trans hd, hs⟩

theorem bind (hm : Spec P c m out) (hf : ∀ a, m = .ok a → Spec P (out a) (f a) out') :
    Spec P c (m >>= f) out' := by
  cases m with
  | error e => exact hm
  | ok a => exact after hm (hf a rfl)

theorem steps {r : α} (h : Spec P c m out) (hm : m = .ok r) : Steps P c (out r) := by
  rw [hm] at h
  exact h

theorem fails {e : Abort} (h : Spec P c m out) (hm : m = .error e) (he : e ≠ .staleIterator) :
    ∃ c', Acts P c c' ∧ Fails P c' e := by
  rw [hm] at h
  rcases h with h | ⟨rfl, -⟩
  · exact h
  · exact absurd rfl he

end Spec

/-- An abort that is none of the tracked ones. -/
theorem Fails.of_other {e : Abort} (h : ¬ e.Tracked) : Fails P c e :=
  ⟨fun hb => absurd (.inl hb) h, fun hd => absurd (.inr (.inl hd)) h,
    fun hi => absurd (.inr (.inr (.inl hi))) h, fun hs => absurd (.inr (.inr (.inr hs))) h⟩

theorem Fails.mono {Q : Cache → Act → Prop} {e : Abort} (hPQ : ∀ c a, P c a → Q c a)
    (h : Fails P c e) : Fails Q c e := by
  refine ⟨fun hb => ?_, h.diverges, fun hi => ?_, h.stale⟩
  · rcases h.bytes hb with h | h | ⟨tref, ref, l, w, hp, hlt⟩
    · exact .inl h
    · exact .inr (.inl h)
    · exact .inr (.inr ⟨tref, ref, l, w, hPQ _ _ hp, hlt⟩)
  · obtain ⟨tref, loc, entry, hp, hne⟩ := h.inserted hi
    exact ⟨tref, loc, entry, hPQ _ _ hp, hne⟩

namespace Untracked

variable {m : Except Abort α} {f : α → Except Abort β} {out : β → Cache}

theorem spec (hm : Untracked m) (hf : ∀ a, m = .ok a → Spec P c (f a) out) :
    Spec P c (m >>= f) out := by
  cases m with
  | error e => exact .error (.of_other (hm e rfl))
  | ok a => exact hf a rfl

end Untracked

namespace Act

/-- The acts of group-count and byte-limit eviction. -/
def Evicts : Act → Prop
  | .evictGroup _ _ => True
  | .markEvicted _ _ cause => cause = .empty
  | .eraseTrack _ _ => True
  | .popGroup => True
  | _ => False

/-- The acts of track-count eviction. -/
def MakesRoom : Act → Prop
  | .evictGroup _ _ => True
  | .markEvicted _ _ cause => cause = .oldest
  | .eraseTrack _ _ => True
  | _ => False

/-- The acts of a purge. -/
def Purges : Act → Prop
  | .evictGroup _ _ => True
  | .markEvicted _ _ cause => cause = .purge
  | .eraseTrack _ _ => True
  | _ => False

/-- The acts by which `cacheObject` records gaps and end markers in the track `tref`. -/
def Marks (tref : TrackRef) : Act → Prop
  | .emplaceGroup tr _ => tr = tref
  | .groupInfo tr _ => tr = tref
  | .insertGap tr _ _ => tr = tref
  | _ => False

/-- The acts above: they list, register and store nothing. -/
inductive Upkeep : Act → Prop where
  | evictGroup {tref : TrackRef} {groupID : Nat} : Upkeep (.evictGroup tref groupID)
  | markEvicted {ftn : FullTrackName} {tref : TrackRef} {cause : EvictCause} :
      Upkeep (.markEvicted ftn tref cause)
  | eraseTrack {ftn : FullTrackName} {tref : TrackRef} : Upkeep (.eraseTrack ftn tref)
  | popGroup : Upkeep .popGroup
  | emplaceGroup {tref : TrackRef} {groupID : Nat} : Upkeep (.emplaceGroup tref groupID)
  | groupInfo {tref : TrackRef} {ref : GroupRef} : Upkeep (.groupInfo tref ref)
  | insertGap {tref : TrackRef} {a b : AbsoluteLocation} : Upkeep (.insertGap tref a b)

variable {a : Act}

theorem Evicts.upkeep (h : a.Evicts) : a.Upkeep := by
  cases a <;> first | exact False.elim h | constructor

theorem MakesRoom.upkeep (h : a.MakesRoom) : a.Upkeep := by
  cases a <;> first | exact False.elim h | constructor

theorem Purges.upkeep (h : a.Purges) : a.Upkeep := by
  cases a <;> first | exact False.elim h | constructor

theorem Marks.upkeep {tref : TrackRef} (h : a.Marks tref) : a.Upkeep := by
  cases a <;> first | exact False.elim h | constructor

end Act

namespace Cache

/-- `evictGroup` does nothing, drops the group, or fails one of its checks. -/
theorem evictGroup_cases (c : Cache) (tref : TrackRef) (groupID : Nat) :
    ((c.tracks tref).groups.lookup groupID = none ∧ c.evictGroup tref groupID = .ok c) ∨
    (∃ ref, (c.tracks tref).groups.lookup groupID = some ref ∧
      ((c.tracks tref).heap ref).totalBytes ≤ c.totalCachedBytes ∧
      c.evictGroup tref groupID = .ok (c.dropGroup tref groupID ref)) ∨
    (∃ ref e, (c.tracks tref).groups.lookup groupID = some ref ∧
      ((e = .xcheck "totalCachedBytes_ >= group.totalBytes" ∧
          c.totalCachedBytes < ((c.tracks tref).heap ref).totalBytes) ∨
        (e = .staleIterator ∧ ¬ c.GroupNodes tref ref)) ∧
      c.evictGroup tref groupID = .error e) := by
  cases href : (c.tracks tref).groups.lookup groupID with
  | none => exact .inl ⟨rfl, by simp [evictGroup, href]⟩
  | some ref =>
    rcases useNode_cases (c.tracks tref).groupLRU ((c.tracks tref).heap ref).lruIter with
      ⟨hin, hu⟩ | ⟨hout, hu⟩
    · rcases useNode_cases c.globalGroupLRU ((c.tracks tref).heap ref).globalLruIter with
        ⟨hin', hu'⟩ | ⟨hout, hu'⟩
      · by_cases hb : ((c.tracks tref).heap ref).totalBytes ≤ c.totalCachedBytes
        · refine .inr (.inl ⟨ref, rfl, hb, ?_⟩)
          simp [evictGroup, href, hu, hu', xcheck, hb, bind, Except.bind]
        · refine .inr (.inr ⟨ref, _, rfl, .inl ⟨rfl, by omega⟩, ?_⟩)
          simp [evictGroup, href, hu, hu', xcheck, hb, bind, Except.bind]
      · refine .inr (.inr ⟨ref, _, rfl, .inr ⟨rfl, fun h => hout h.2⟩, ?_⟩)
        simp [evictGroup, href, hu, hu', bind, Except.bind]
    · refine .inr (.inr ⟨ref, _, rfl, .inr ⟨rfl, fun h => hout h.1⟩, ?_⟩)
      simp [evictGroup, href, hu, bind, Except.bind]

variable {groupID : Nat} {ref : GroupRef} {ftn : FullTrackName}

variable {tref : TrackRef} {t : CacheTrack}

theorem evictGroup_fails {e : Abort} (hg : (c.tracks tref).groups.lookup groupID = some ref)
    (he : (e = .xcheck "totalCachedBytes_ >= group.totalBytes" ∧
        c.totalCachedBytes < ((c.tracks tref).heap ref).totalBytes) ∨
      (e = .staleIterator ∧ ¬ c.GroupNodes tref ref)) : Fails P c e := by
  rcases he with ⟨rfl, hlt⟩ | ⟨rfl, hgone⟩
  · exact ⟨fun _ => .inr (.inl ⟨tref, groupID, ref, hg, hlt⟩), by simp, by simp, by simp⟩
  · exact ⟨by simp [Abort.ByteFailure], by simp, by simp,
      fun _ => ⟨tref, groupID, ref, hg, hgone⟩⟩

theorem evictGroup_spec (named : c.GroupNamed tref groupID) (hP : P c (.evictGroup tref groupID)) :
    Spec P c (c.evictGroup tref groupID) id := by
  rcases c.evictGroup_cases tref groupID with ⟨_, h⟩ | ⟨ref, hg, hb, h⟩ | ⟨ref, e, hg, he, h⟩
  · rw [h]
    exact .ok .refl
  · rw [h]
    exact .ok (.single hP (.evictGroup c tref groupID ref hg hb named))
  · rw [h]
    exact .error (evictGroup_fails hg he)

theorem addTrackToLRU_trackNode (h : (c.tracks tref).lruIter = none) :
    (c.addTrackToLRU ftn tref).TrackNode tref := by
  intro n hn
  simp only [addTrackToLRU, h, Option.isSome_none, Bool.false_eq_true, if_false, setTrack,
    Function.update_self, Option.mem_some_iff] at hn ⊢
  subst hn
  exact ⟨ftn, List.mem_cons_self⟩

/-- Taking a track or a group out of its lists fails only on a stale iterator. -/
theorem removeTrackFromLRU_cases (c : Cache) (tref : TrackRef) :
    (c.TrackNode tref ∧ c.removeTrackFromLRU tref = .ok (c.takeTrackFromLRU tref)) ∨
      (¬ c.TrackNode tref ∧ c.removeTrackFromLRU tref = .error .staleIterator) := by
  rcases useNode_cases c.trackLRU (c.tracks tref).lruIter with ⟨hin, hu⟩ | ⟨hout, hu⟩
  · exact .inl ⟨hin, by simp [removeTrackFromLRU, hu, bind, Except.bind]⟩
  · exact .inr ⟨hout, by simp [removeTrackFromLRU, hu, bind, Except.bind]⟩

theorem removeGroupFromLRU_cases (c : Cache) (tref : TrackRef) (ref : GroupRef) :
    c.removeGroupFromLRU tref ref = .ok (c.takeGroupFromLRU tref ref) ∨
      (¬ c.GroupNodes tref ref ∧ c.removeGroupFromLRU tref ref = .error .staleIterator) := by
  unfold removeGroupFromLRU
  by_cases hm : ((c.tracks tref).heap ref).lruIter.isSome = true
  · rw [if_pos hm]
    rcases useNode_cases (c.tracks tref).groupLRU ((c.tracks tref).heap ref).lruIter with
      ⟨-, hu⟩ | ⟨hout, hu⟩
    · rcases useNode_cases c.globalGroupLRU ((c.tracks tref).heap ref).globalLruIter with
        ⟨-, hu'⟩ | ⟨hout, hu'⟩
      · exact .inl (by simp [hu, hu', bind, Except.bind])
      · exact .inr ⟨fun h => hout h.2, by simp [hu, hu', bind, Except.bind]⟩
    · exact .inr ⟨fun h => hout h.1, by simp [hu, bind, Except.bind]⟩
  · rw [if_neg hm]
    exact .inl (by simp [takeGroupFromLRU, hm])

theorem removeTrackFromLRU_ok (h : c.removeTrackFromLRU tref = .ok c') :
    c' = c.takeTrackFromLRU tref := by
  rcases c.removeTrackFromLRU_cases tref with ⟨-, h'⟩ | ⟨-, h'⟩ <;> rw [h'] at h <;> cases h
  rfl

theorem removeGroupFromLRU_ok (h : c.removeGroupFromLRU tref ref = .ok c') :
    c' = c.takeGroupFromLRU tref ref := by
  rcases c.removeGroupFromLRU_cases tref ref with h' | ⟨-, h'⟩ <;> rw [h'] at h <;> cases h
  rfl

theorem removeGroupFromLRU_spec (hl : (c.tracks tref).groups.lookup groupID = some ref)
    (hP : P c (.removeGroup tref ref)) : Spec P c (c.removeGroupFromLRU tref ref) id := by
  rcases c.removeGroupFromLRU_cases tref ref with h | ⟨hgone, h⟩
  · rw [h]
    exact .ok (.single hP (.removeGroup c tref groupID ref hl))
  · rw [h]
    exact .error ⟨by simp [Abort.ByteFailure], by simp, by simp,
      fun _ => ⟨tref, groupID, ref, hl, hgone⟩⟩

theorem evictOldestGroupsLoop_spec (hP : ∀ c groupID, P c (.evictGroup tref groupID)) (fuel : Nat)
    (c : Cache) (hd : evictOldestGroupsLoop tref fuel c ≠ .error .diverges) :
    Spec P c (evictOldestGroupsLoop tref fuel c) id := by
  induction fuel generalizing c with
  | zero => simp [evictOldestGroupsLoop] at hd
  | succ fuel ih =>
    by_cases hsize : c.maxCachedGroupsPerTrack < (c.tracks tref).groups.keys.length
    · cases hl : (c.tracks tref).groupLRU.getLast? with
      | none =>
        simp only [evictOldestGroupsLoop, if_pos hsize, hl]
        exact .ok .refl
      | some oldest =>
        simp only [evictOldestGroupsLoop, if_pos hsize, hl] at hd ⊢
        have named : c.GroupNamed tref oldest.2 :=
          .inr (.inl ⟨oldest.1, List.mem_of_getLast? hl⟩)
        refine (evictGroup_spec named (hP c _)).bind fun d hdok => ih d ?_
        rw [hdok] at hd
        exact hd
    · simp only [evictOldestGroupsLoop, if_neg hsize]
      exact .ok .refl

theorem evictOldestGroupsIfNeeded_spec (hP : ∀ c groupID, P c (.evictGroup tref groupID)) :
    Spec P c (c.evictOldestGroupsIfNeeded tref) id := by
  by_cases hd : c.evictOldestGroupsIfNeeded tref = .error .diverges
  · rw [hd]
    exact .error ⟨by simp [Abort.ByteFailure], fun _ => .inr ⟨tref, hd⟩, by simp, by simp⟩
  · by_cases hmax : c.maxCachedGroupsPerTrack = 0
    · rw [evictOldestGroupsIfNeeded, if_pos hmax]
      exact .ok .refl
    · rw [evictOldestGroupsIfNeeded, if_neg hmax] at hd ⊢
      exact evictOldestGroupsLoop_spec hP _ c hd

/-- Evicting groups of a track that is being removed. -/
theorem evictGroups_acts (hP : ∀ c groupID, P c (.evictGroup tref groupID)) (ids : List Nat)
    (c : Cache) (evicted : (c.tracks tref).evicted = true) :
    (∃ d, c.evictGroups tref ids = .ok d ∧
      Acts (fun d a => P d a ∧ ∃ groupID, a = .evictGroup tref groupID) c d) ∨
    ∃ e d, c.evictGroups tref ids = .error e ∧
      Acts (fun d a => P d a ∧ ∃ groupID, a = .evictGroup tref groupID) c d ∧ Fails P d e := by
  induction ids generalizing c with
  | nil => exact .inl ⟨c, rfl, .refl⟩
  | cons groupID rest ih =>
    rcases c.evictGroup_cases tref groupID with ⟨_, h⟩ | ⟨ref, hg, hb, h⟩ | ⟨ref, e, hg, he, h⟩
    · simpa only [evictGroups, h, bind, Except.bind] using ih c evicted
    · have hact : Acts (fun d a => P d a ∧ ∃ groupID, a = .evictGroup tref groupID) c
          (c.dropGroup tref groupID ref) :=
        .single ⟨hP c groupID, groupID, rfl⟩ (.evictGroup c tref groupID ref hg hb (.inl evicted))
      simp only [evictGroups, h, bind, Except.bind]
      rcases ih (c.dropGroup tref groupID ref) (by simpa using evicted) with
        ⟨d, hd, hacts⟩ | ⟨e, d, hd, hacts, hf⟩
      · exact .inl ⟨d, hd, hact.trans hacts⟩
      · exact .inr ⟨e, d, hd, hact.trans hacts, hf⟩
    · exact .inr ⟨e, c, by simp [evictGroups, h, bind, Except.bind], .refl,
        evictGroup_fails hg he⟩

/-- Once every group of the map is evicted, the map is empty. -/
theorem evictGroups_groups (ids : List Nat) (c : Cache) (h : c.evictGroups tref ids = .ok c')
    (groupID : Nat) :
    (c'.tracks tref).groups.lookup groupID =
      if groupID ∈ ids then none else (c.tracks tref).groups.lookup groupID := by
  induction ids generalizing c with
  | nil =>
    simp only [evictGroups, Except.ok.injEq] at h
    simp [h]
  | cons g rest ih =>
    rcases c.evictGroup_cases tref g with ⟨hg, h'⟩ | ⟨ref, hg, -, h'⟩ | ⟨_, _, _, _, h'⟩
    · simp only [evictGroups, h', bind, Except.bind] at h
      rw [ih c h]
      by_cases hgr : groupID = g
      · subst hgr
        simp [hg]
      · simp [hgr]
    · simp only [evictGroups, h', bind, Except.bind] at h
      rw [ih _ h]
      by_cases hgr : groupID = g
      · subst hgr
        simp
      · simp [hgr, AList.lookup_erase_ne hgr]
    · simp [evictGroups, h', bind, Except.bind] at h

theorem evictGroups_frame (ids : List Nat) (c : Cache) (h : c.evictGroups tref ids = .ok c') :
    c'.cache = c.cache ∧ (c'.tracks tref).evicted = (c.tracks tref).evicted := by
  induction ids generalizing c with
  | nil =>
    simp only [evictGroups, Except.ok.injEq] at h
    simp [h]
  | cons g rest ih =>
    rcases c.evictGroup_cases tref g with ⟨_, h'⟩ | ⟨ref, _, _, h'⟩ | ⟨_, _, _, _, h'⟩
    · simp only [evictGroups, h', bind, Except.bind] at h
      exact ih c h
    · simp only [evictGroups, h', bind, Except.bind] at h
      simpa using ih _ h
    · simp [evictGroups, h', bind, Except.bind] at h

/-- Removing a track is a stamp, the eviction of its groups, and the removal of its name. -/
theorem evictTrack_spec (cause : EvictCause)
    (named : ∀ tref, c.cache.lookup ftn = some tref → c.TrackNamed ftn tref cause)
    (hM : ∀ c tref, P c (.markEvicted ftn tref cause))
    (hG : ∀ c tref groupID, P c (.evictGroup tref groupID))
    (hE : ∀ c tref, P c (.eraseTrack ftn tref)) : Spec P c (c.evictTrack ftn) id := by
  cases hl : c.cache.lookup ftn with
  | none =>
    simp only [evictTrack, hl]
    exact .ok .refl
  | some tref =>
    simp only [evictTrack, hl]
    rcases useNode_cases c.trackLRU (c.tracks tref).lruIter with ⟨-, hu⟩ | ⟨hout, hu⟩
    swap
    · rw [hu]
      exact .stale ⟨tref, hout, .inl ⟨ftn, hl⟩⟩
    rw [hu]
    have hev : ((c.markEvicted tref).tracks tref).evicted = true := by
      simp [markEvicted, setTrack]
    have hmark := Prim.markEvicted c ftn tref cause hl (named tref hl)
    rcases evictGroups_acts (fun c g => hG c tref g) (c.tracks tref).groups.keys _ hev with
      ⟨d, hd, hacts⟩ | ⟨e, d, hd, hacts, hf⟩
    · obtain ⟨hcache, hevd⟩ := evictGroups_frame _ _ hd
      simp only [hd, bind, Except.bind]
      refine .ok (.removal ⟨ftn, tref, cause, _, d, hM c tref, hmark, hacts, hE d tref,
        .eraseTrack d ftn tref ?_ ?_ ?_⟩)
      · rw [hcache]
        exact hl
      · rw [hevd]
        exact hev
      · refine Maps.keys_eq_nil fun g => ?_
        rw [evictGroups_groups _ _ hd]
        split
        · rfl
        · next hg =>
          rw [AList.lookup_eq_none]
          simpa [markEvicted, setTrack, AList.mem_keys] using hg
    · simp only [hd, bind, Except.bind]
      exact .inl ⟨d, (Acts.single (hM c tref) hmark).trans (hacts.mono fun _ _ h => h.1), hf⟩

theorem evictOldestTrackIfNeeded_spec (hE : ∀ c a, Act.MakesRoom a → P c a) :
    Spec P c c.evictOldestTrackIfNeeded id := by
  unfold evictOldestTrackIfNeeded
  split
  · exact .ok .refl
  · split
    · next oldest hl =>
      exact evictTrack_spec .oldest (fun _ _ => ⟨oldest.1, List.mem_of_getLast? hl⟩)
        (fun _ _ => hE _ _ rfl) (fun _ _ _ => hE _ _ trivial) fun _ _ => hE _ _ trivial
    · exact .ok .refl

theorem evictByteRound_spec {n : NodeId} (hE : ∀ c a, Act.Evicts a → P c a)
    (hl : c.globalGroupLRU.getLast? = some (n, ftn, groupID)) :
    Spec P c (c.evictByteRound ftn groupID) id := by
  cases hc : c.cache.lookup ftn with
  | none =>
    simp only [evictByteRound, hc]
    exact .ok (.single (hE _ .popGroup trivial) (.popGroup c n ftn groupID hl hc))
  | some tref =>
    simp only [evictByteRound, hc]
    have named : c.GroupNamed tref groupID :=
      .inr (.inr ⟨n, ftn, List.mem_of_getLast? hl, hc⟩)
    refine (evictGroup_spec named (hE _ _ trivial)).bind fun d hd => ?_
    split
    · next hempty =>
      rw [Bool.and_eq_true, List.isEmpty_iff] at hempty
      refine evictTrack_spec .empty (fun tref' htref' => ?_) (fun _ _ => hE _ _ rfl)
        (fun _ _ _ => hE _ _ trivial) fun _ _ => hE _ _ trivial
      have : d.cache = c.cache := by
        rcases c.evictGroup_cases tref groupID with ⟨_, h⟩ | ⟨_, _, _, h⟩ | ⟨_, _, _, _, h⟩ <;>
          rw [h] at hd <;> cases hd <;> rfl
      rw [id, this, hc] at htref'
      cases htref'
      exact hempty
    · exact .ok .refl

theorem evictBytesLoop_spec {target : Nat} (hE : ∀ c a, Act.Evicts a → P c a) (fuel : Nat)
    (c : Cache) (hd : evictBytesLoop target fuel c ≠ .error .diverges) :
    Spec P c (evictBytesLoop target fuel c) id := by
  induction fuel generalizing c with
  | zero => simp [evictBytesLoop] at hd
  | succ fuel ih =>
    by_cases hb : target < c.totalCachedBytes
    · cases hl : c.globalGroupLRU.getLast? with
      | none =>
        simp only [evictBytesLoop, if_pos hb, hl]
        exact .ok .refl
      | some back =>
        simp only [evictBytesLoop, if_pos hb, hl] at hd ⊢
        refine (evictByteRound_spec hE hl).bind fun d hdok => ih d ?_
        rw [hdok] at hd
        exact hd
    · simp only [evictBytesLoop, if_neg hb]
      exact .ok .refl

theorem evictForByteLimitIfNeeded_spec (hE : ∀ c a, Act.Evicts a → P c a) :
    Spec P c c.evictForByteLimitIfNeeded id := by
  by_cases hd : c.evictForByteLimitIfNeeded = .error .diverges
  · rw [hd]
    exact .error ⟨by simp [Abort.ByteFailure], fun _ => .inl hd, by simp, by simp⟩
  · by_cases hmax : c.maxCachedBytes = 0 ∨ c.totalCachedBytes ≤ c.maxCachedBytes
    · rw [evictForByteLimitIfNeeded, if_pos hmax]
      exact .ok .refl
    · rw [evictForByteLimitIfNeeded, if_neg hmax] at hd ⊢
      exact evictBytesLoop_spec hE _ c hd

theorem evictTracks_spec (hE : ∀ c a, Act.Purges a → P c a) (names : List FullTrackName)
    (c : Cache) : Spec P c (c.evictTracks names) id := by
  induction names generalizing c with
  | nil => exact .ok .refl
  | cons ftn rest ih =>
    have h : Spec P c (c.evictTrack ftn) id :=
      evictTrack_spec .purge (fun _ _ => trivial) (fun _ _ => hE _ _ rfl)
        (fun _ _ _ => hE _ _ trivial) fun _ _ => hE _ _ trivial
    exact h.bind fun d _ => ih d

theorem steps_emplaceGroup (hP : ∀ c, P c (.emplaceGroup tref groupID))
    (h : t.groups.lookup groupID = none) :
    Steps P (c.setTrack tref t) (c.setTrack tref (t.emplaceGroup groupID)) := by
  have hprim := Prim.emplaceGroup (c.setTrack tref t) tref groupID (by simpa using h)
  simp only [setTrack_tracks, setTrack_setTrack] at hprim
  exact .single (hP _) hprim

theorem steps_insertGap {a b : AbsoluteLocation} (hP : ∀ c, P c (.insertGap tref a b)) :
    Steps P (c.setTrack tref t) (c.setTrack tref (t.insertGap a b)) := by
  have hprim := Prim.insertGap (c.setTrack tref t) tref a b
  simp only [setTrack_tracks, setTrack_setTrack] at hprim
  exact .single (hP _) hprim

theorem steps_groupInfo (hP : ∀ c, P c (.groupInfo tref ref)) (endOfGroup : Bool)
    (seen : Option Nat) :
    Steps P (c.setTrack tref t) (c.setTrack tref (t.setGroup ref { t.heap ref with
      endOfGroup := endOfGroup, seenPriorGroupIdGap := seen })) := by
  have hprim := Prim.groupInfo (c.setTrack tref t) tref ref endOfGroup seen
  simp only [setTrack_tracks, setTrack_setTrack] at hprim
  exact .single (hP _) hprim

section Marks
variable {tref : TrackRef} {t : CacheTrack}

theorem steps_getOrCreateGroup (hM : ∀ c a, Act.Marks tref a → P c a) (groupID : Nat) :
    Steps P (c.setTrack tref t) (c.setTrack tref (t.getOrCreateGroup groupID).2) := by
  cases hl : t.groups.lookup groupID with
  | some ref =>
    simp only [getOrCreateGroup, hl]
    exact .refl
  | none =>
    simp only [getOrCreateGroup, hl]
    exact steps_emplaceGroup (fun _ => hM _ _ rfl) hl

theorem steps_processPriorGroupGap (hM : ∀ c a, Act.Marks tref a → P c a) (groupID gap : Nat) :
    Steps P (c.setTrack tref t) (c.setTrack tref (t.processPriorGroupGap groupID gap).2) := by
  unfold processPriorGroupGap
  split
  · exact .refl
  · refine (steps_getOrCreateGroup hM groupID).trans ?_
    generalize t.getOrCreateGroup groupID = r
    obtain ⟨ref, t⟩ := r
    cases hseen : (t.heap ref).seenPriorGroupIdGap with
    | some seen =>
      simp only [hseen]
      split <;> exact .refl
    | none =>
      simp only [hseen]
      have hinfo : Steps P (c.setTrack tref t) _ :=
        steps_groupInfo (fun _ => hM _ (.groupInfo tref ref) rfl) (t.heap ref).endOfGroup (some gap)
      split
      · split
        · exact hinfo
        · exact hinfo.trans (steps_insertGap fun _ => hM _ _ rfl)
      · exact hinfo

theorem steps_processPriorObjectGap (hM : ∀ c a, Act.Marks tref a → P c a)
    (groupID objectID gap : Nat) :
    Steps P (c.setTrack tref t)
      (c.setTrack tref (t.processPriorObjectGap groupID objectID gap).2) := by
  unfold processPriorObjectGap
  split
  · exact .refl
  · split
    · refine (steps_getOrCreateGroup hM groupID).trans ?_
      generalize t.getOrCreateGroup groupID = r
      simp only
      split
      · exact .refl
      · exact steps_insertGap fun _ => hM _ _ rfl
    · exact .refl

theorem steps_processGapExtensions (hM : ∀ c a, Act.Marks tref a → P c a)
    (groupID objectID : Nat) (ext : Extensions) :
    Steps P (c.setTrack tref t)
      (c.setTrack tref (t.processGapExtensions groupID objectID ext).2) := by
  have hobject : ∀ t : CacheTrack, Steps P (c.setTrack tref t)
      (c.setTrack tref (t.processPriorObjectExtension groupID objectID ext).2) := by
    intro t
    unfold processPriorObjectExtension
    split
    · exact steps_processPriorObjectGap hM groupID objectID _
    · exact .refl
  unfold processGapExtensions
  cases hext : getIntExtension ext kPriorGroupIdGapExtensionType with
  | none => exact hobject t
  | some gap =>
    have hgroup : Steps P (c.setTrack tref t) _ := steps_processPriorGroupGap hM groupID gap
    simp only
    generalize t.processPriorGroupGap groupID gap = r at hgroup
    obtain ⟨res, t'⟩ := r
    cases res with
    | error e => exact hgroup
    | ok _ => exact hgroup.trans (hobject t')

theorem steps_markEnd (hM : ∀ c a, Act.Marks tref a → P c a) (ref : GroupRef)
    (groupID objectID : Nat) (status : ObjectStatus) :
    Steps P (c.setTrack tref t) (c.setTrack tref (t.markEnd ref groupID objectID status)) := by
  unfold markEnd
  split
  · exact .refl
  · have hinner : ∀ t : CacheTrack, Steps P (c.setTrack tref t)
        (c.setTrack tref (t.markGroupEnd groupID objectID)) := by
      intro t
      unfold markGroupEnd
      split
      · exact steps_insertGap fun _ => hM _ _ rfl
      · exact .refl
    have houter : ∀ t : CacheTrack, Steps P (c.setTrack tref t) (c.setTrack tref
        (if status = .endOfTrack then t.markTrackEnd groupID else t)) := by
      intro t
      unfold markTrackEnd
      split
      · split
        · exact steps_insertGap fun _ => hM _ _ rfl
        · exact .refl
      · exact .refl
    refine ((hinner t).trans (houter _)).trans ?_
    exact steps_groupInfo (fun _ => hM _ _ rfl) true _

end Marks

/-- What recording gaps leaves alone. -/
structure MarksFrame (tref : TrackRef) (c c' : Cache) : Prop where
  cache : c'.cache = c.cache
  total : c'.totalCachedBytes = c.totalCachedBytes
  evicted : (c'.tracks tref).evicted = (c.tracks tref).evicted
  refs : (c.tracks tref).nextGroupRef ≤ (c'.tracks tref).nextGroupRef
  lookup : ∀ groupID ref, (c.tracks tref).groups.lookup groupID = some ref →
    (c'.tracks tref).groups.lookup groupID = some ref
  objects : ∀ ref < (c.tracks tref).nextGroupRef,
    ((c'.tracks tref).heap ref).objects = ((c.tracks tref).heap ref).objects
  bytes : ∀ ref < (c.tracks tref).nextGroupRef,
    ((c'.tracks tref).heap ref).totalBytes = ((c.tracks tref).heap ref).totalBytes

theorem MarksFrame.of_prim {a : Act} {d : Cache} (ha : a.Marks tref) (h : Prim d a c')
    (hf : MarksFrame tref c d) : MarksFrame tref c c' := by
  cases h with
  | emplaceGroup tr groupID hg =>
    cases (show tr = tref from ha)
    refine ⟨hf.cache, hf.total, ?_, ?_, ?_, ?_, ?_⟩
    · simpa [emplaceGroup, setGroup] using hf.evicted
    · simpa [emplaceGroup, setGroup] using Nat.le_succ_of_le hf.refs
    · intro g ref hgr
      have := hf.lookup g ref hgr
      have hne : g ≠ groupID := by
        rintro rfl
        simp [hg] at this
      simpa [emplaceGroup, setGroup, AList.lookup_insert_ne hne] using this
    · intro ref href
      have hne : ref ≠ (d.tracks tref).nextGroupRef :=
        Nat.ne_of_lt (Nat.lt_of_lt_of_le href hf.refs)
      simpa [emplaceGroup, setGroup, hne] using hf.objects ref href
    · intro ref href
      have hne : ref ≠ (d.tracks tref).nextGroupRef :=
        Nat.ne_of_lt (Nat.lt_of_lt_of_le href hf.refs)
      simpa [emplaceGroup, setGroup, hne] using hf.bytes ref href
  | groupInfo tr r endOfGroup seen =>
    cases (show tr = tref from ha)
    refine ⟨hf.cache, hf.total, ?_, ?_, ?_, ?_, ?_⟩
    · simpa [setGroup] using hf.evicted
    · simpa [setGroup] using hf.refs
    · simpa [setGroup] using hf.lookup
    · intro ref href
      by_cases hr : ref = r
      · subst hr
        simpa [setGroup] using hf.objects ref href
      · simpa [setGroup, hr] using hf.objects ref href
    · intro ref href
      by_cases hr : ref = r
      · subst hr
        simpa [setGroup] using hf.bytes ref href
      · simpa [setGroup, hr] using hf.bytes ref href
  | insertGap tr x y =>
    cases (show tr = tref from ha)
    refine ⟨hf.cache, hf.total, ?_, ?_, ?_, ?_, ?_⟩
    · simpa [insertGap] using hf.evicted
    · simpa [insertGap] using hf.refs
    · simpa [insertGap] using hf.lookup
    · simpa [insertGap] using hf.objects
    · simpa [insertGap] using hf.bytes
  | _ => exact absurd ha (by simp [Act.Marks])

theorem MarksFrame.of_steps (h : Steps (fun _ a => a.Marks tref) c c') : MarksFrame tref c c' :=
  h.keeps (fun _ _ _ ha hprim hf => MarksFrame.of_prim ha hprim hf)
    ⟨rfl, rfl, rfl, le_refl _, fun _ _ h => h, fun _ _ => rfl, fun _ _ => rfl⟩

omit [Moxygen] in
theorem adjustTotal_cases (total old new : Nat) :
    (∃ total', adjustTotal total old new = .ok total' ∧ total' + old = total + new) ∨
    (total < old ∧ adjustTotal total old new =
      .error (.xcheck "totalCachedBytes_ >= oldGroupBytes - group.totalBytes")) := by
  by_cases hle : old ≤ new
  · exact .inl ⟨_, by rw [adjustTotal, if_pos hle], by omega⟩
  · by_cases hsub : old - new ≤ total
    · refine .inl ⟨total - (old - new), ?_, by omega⟩
      simp [adjustTotal, hle, xcheck, hsub, bind, Except.bind]
    · refine .inr ⟨by omega, ?_⟩
      simp only [adjustTotal, if_neg hle, xcheck, hsub, decide_false]
      rfl

omit [Moxygen] in
theorem subSize_cases (a b : Nat) :
    (b ≤ a ∧ subSize a b = .ok (a - b)) ∨ (a < b ∧ subSize a b = .error .underflow) := by
  by_cases h : b ≤ a
  · exact .inl ⟨h, by rw [subSize, if_pos h]⟩
  · exact .inr ⟨by omega, by rw [subSize, if_neg h]⟩

theorem putObject_error {g : CacheGroup} {objectID : Nat} {w : ObjectWrite} {e : Abort}
    (h : g.putObject objectID w = .error e) :
    e = .underflow ∧ ∃ entry, g.objects.lookup objectID = some entry ∧
      g.totalBytes < entry.payloadSize := by
  cases hl : g.objects.lookup objectID with
  | none => simp [CacheGroup.putObject, hl] at h
  | some entry =>
    simp only [CacheGroup.putObject, hl] at h
    split at h
    · cases h
    · rcases subSize_cases g.totalBytes entry.payloadSize with ⟨-, hs⟩ | ⟨hlt, hs⟩
      · simp [hs, bind, Except.bind] at h
      · simp only [hs, bind, Except.bind, Except.error.injEq] at h
        exact ⟨h.symm, entry, rfl, hlt⟩

/-- A write either stops with an error after recording gaps, or stores its object after
that. -/
theorem cacheObject_cases (c : Cache) (tref : TrackRef) (ref : GroupRef)
    (groupID objectID : Nat) (w : ObjectWrite) :
    ∃ t, Steps (fun _ a => a.Marks tref) c (c.setTrack tref t) ∧
      ((∃ e, (c.tracks tref).cacheObject ref groupID objectID w = .ok (.error e, t)) ∨
      (∃ g, (t.heap ref).putObject objectID w = .ok (.ok g) ∧
        (c.tracks tref).cacheObject ref groupID objectID w =
          .ok (.ok (), t.storeObject ref g ⟨groupID, objectID⟩ w.complete)) ∨
      (∃ entry, (t.heap ref).objects.lookup objectID = some entry ∧
        (t.heap ref).totalBytes < entry.payloadSize ∧
        (c.tracks tref).cacheObject ref groupID objectID w = .error .underflow)) := by
  by_cases hgap : contains (c.tracks tref).gaps ⟨groupID, objectID⟩
  · refine ⟨c.tracks tref, ?_, .inl ⟨⟨.malformedTrack, "Object in known gap"⟩, ?_⟩⟩
    · rw [setTrack_self]
      exact .refl
    · rw [cacheObject, if_pos hgap]
      rfl
  · have hext : Steps (fun _ a => a.Marks tref) (c.setTrack tref (c.tracks tref)) _ :=
      steps_processGapExtensions (fun _ _ h => h) groupID objectID w.extensions
    rw [setTrack_self] at hext
    rw [cacheObject, if_neg hgap]
    generalize (c.tracks tref).processGapExtensions groupID objectID w.extensions = r at hext
    obtain ⟨res, t⟩ := r
    cases res with
    | error e => exact ⟨t, hext, .inl ⟨e, rfl⟩⟩
    | ok _ =>
      refine ⟨t.markEnd ref groupID objectID w.status,
        hext.trans (steps_markEnd (fun _ _ h => h) ref groupID objectID w.status), ?_⟩
      cases hput : ((t.markEnd ref groupID objectID w.status).heap ref).putObject objectID w with
      | ok res =>
        cases res with
        | error e => exact .inl ⟨e, by simp [hput, bind, Except.bind]⟩
        | ok g => exact .inr (.inl ⟨g, rfl, by simp [hput, bind, Except.bind]⟩)
      | error e =>
        obtain ⟨rfl, entry, hl, hlt⟩ := putObject_error hput
        exact .inr (.inr ⟨entry, hl, hlt, by simp [hput, bind, Except.bind]⟩)

theorem cacheObjectAndUpdateBytes_spec {objectID : Nat} {w : ObjectWrite}
    (href : ref < (c.tracks tref).nextGroupRef) (hM : ∀ c a, Act.Marks tref a → P c a)
    (hS : ∀ d, MarksFrame tref c d → P d (.store tref ref ⟨groupID, objectID⟩ w))
    (hI : ∀ c, P c (.info tref)) (hE : ∀ c a, Act.Evicts a → P c a) :
    Spec P c (c.cacheObjectAndUpdateBytes tref ref groupID objectID w) Prod.snd := by
  obtain ⟨t, hmarks, hcases⟩ := c.cacheObject_cases tref ref groupID objectID w
  have hframe := MarksFrame.of_steps hmarks
  have hbytes := hframe.bytes ref href
  simp only [setTrack_tracks] at hbytes
  refine .after (hmarks.mono hM) ?_
  rcases hcases with ⟨e, h⟩ | ⟨g, hput, h⟩ | ⟨entry, hl, hlt, h⟩
  · simp only [cacheObjectAndUpdateBytes, h, bind, Except.bind]
    exact .ok .refl
  · have hg : ((t.storeObject ref g ⟨groupID, objectID⟩ w.complete).heap ref) = g := by
      simp [storeObject, setGroup]
    simp only [cacheObjectAndUpdateBytes, h, bind, Except.bind, hg]
    rcases adjustTotal_cases c.totalCachedBytes ((c.tracks tref).heap ref).totalBytes
      g.totalBytes with ⟨total, hadj, htotal⟩ | ⟨hlt, hadj⟩
    · rw [hadj]
      have hstore := Prim.store (c.setTrack tref t) tref ref ⟨groupID, objectID⟩ w g total
        (by simpa using hput) (by simpa [hbytes] using htotal)
      simp only [setTrack_tracks, setTrack_setTrack] at hstore
      refine .after (.single (hS _ hframe) hstore) ?_
      have hinfo := Prim.info
        ((c.setTrack tref (t.storeObject ref g ⟨groupID, objectID⟩ w.complete)).setTotal total)
        tref t.endOfTrack t.largestGroupAndObject t.maxCacheDuration t.extensions w.now
      simp only [setTotal_setTrack, setTotal_tracks, setTrack_tracks, setTrack_setTrack] at hinfo
      refine .after (.single (hI _) hinfo) ?_
      exact (evictForByteLimitIfNeeded_spec hE).bind fun d _ => .ok .refl
    · rw [hadj]
      refine .error
        ⟨fun _ => .inr (.inr ⟨tref, ref, _, w, hS _ hframe, ?_⟩), by simp, by simp, by simp⟩
      simpa [hbytes, setTrack] using hlt
  · simp only [cacheObjectAndUpdateBytes, h, bind, Except.bind]
    refine .error ⟨fun _ => .inl ⟨tref, ref, objectID, entry, ?_, ?_⟩, by simp, by simp, by simp⟩
    · simpa using hl
    · simpa using hlt

end Cache

end Moqx
