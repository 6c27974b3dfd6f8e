import Moqx.Relay.CurrentValues

/-! Rankings follow the values of their tracks. A ranking learns of a new value from the chain of
the track, which tells one ranking for each property. So two rankings by one property must not lie
on one path; a ranking that comes late gets the values of the PUBLISHes; and whatever comes through
the chain of a replaced publisher is taken for the track that has replaced it. -/
namespace Moqx

open Maps Runs NamespaceTree

namespace MoqxRelay

variable {w w' : MoqxRelay} {op : Op}

/-- The first two fields are what rankings are for. The others say that the chain of a published
track tells every ranking on the way to the root, and no other for the same property. -/
structure InStep (w : MoqxRelay) : Prop where
  ranked : ∀ ⦃p T id x⦄, w.tree.ranking p T = some id → p <:+ x.trackNamespace.reverse →
    (w.publisherOf x).isSome = true →
      (w.trackOf id x).map Prod.fst = some (w.currentValue T x)
  recorded : ∀ ⦃p T id x⦄, w.tree.ranking p T = some id → (w.trackOf id x).isSome = true →
    (w.publisherOf x).isSome = true
  wired : ∀ ⦃p T id x c filter⦄, w.tree.ranking p T = some id →
    p <:+ x.trackNamespace.reverse → (w.publisherOf x).isSome = true → w.chainOf x = some c →
    w.filters.lookup c = some filter → ∃ e, filter.observers.lookup T = some e ∧ e.ranking = id ∧
      ∀ u, e.lastSeenValue = some u → w.observedValue c T = some u
  running : ∀ ⦃x c filter⦄, (w.publisherOf x).isSome = true → w.chainOf x = some c →
    w.filters.lookup c = some filter → filter.ended = false
  typed : ∀ ⦃c filter T e p T'⦄, w.filters.lookup c = some filter →
    filter.observers.lookup T = some e → w.tree.ranking p T' = some e.ranking → T' = T
  fresh : ∀ ⦃c filter T e⦄, w.filters.lookup c = some filter →
    filter.observers.lookup T = some e → e.ranking < w.nextId
  seen : ∀ ⦃c⦄, (w.observed.lookup c).isSome = true → c < w.nextId
  lone : ∀ ⦃p p' T id id'⦄, w.tree.ranking p T = some id → w.tree.ranking p' T = some id' →
    p <:+ p' → p = p'

/-- A track whose publisher is replaced stays in a ranking only with the value it has there. What
comes through a chain is for the track that has the chain. A filter makes a ranking only where no
other ranks by its property above or below, and before objects have changed the value. -/
def FeedsRankings (w : MoqxRelay) (op : Op) : Prop :=
  match op with
  | .publish _ ftn _ _ extensions => ∀ e ∈ w.tree.rankingsFrom ftn.trackNamespace.reverse,
      ∀ track ∈ w.trackOf e.2 ftn, track.1 = (extensions e.1).getD 0
  | .object chain _ | .publishDone chain => ∀ filter ∈ w.filters.lookup chain,
      (w.publisherOf filter.ftn).isSome = true → w.chainOf filter.ftn = some chain
  | .subscribeNamespace _ subNs => ∀ filter ∈ subNs.trackFilter,
      w.tree.ranking subNs.trackNamespacePrefix.reverse filter.propertyType = none →
      (∀ e ∈ w.tree.nodes.entries, e.1 <:+ subNs.trackNamespacePrefix.reverse ∨
        subNs.trackNamespacePrefix.reverse <:+ e.1 →
          w.tree.ranking e.1 filter.propertyType = none) ∧
      ∀ e ∈ w.registry.subscriptions.entries, (w.publisherOf e.1).isSome = true →
        subNs.trackNamespacePrefix.reverse <:+ e.1.trackNamespace.reverse →
          w.currentValue filter.propertyType e.1 =
            (w.announcedValue filter.propertyType e.1).getD 0
  | _ => True

instance (w : MoqxRelay) (op : Op) : Decidable (w.FeedsRankings op) := by
  induction op using Op.casesOn <;> unfold FeedsRankings <;> infer_instance

theorem inStep_start (config : RelayConfig) : ({ config := config } : MoqxRelay).InStep := by
  have hnone : ∀ {p T id}, ({ config := config } : MoqxRelay).tree.ranking p T ≠ some id := by
    intro p T id hp
    rw [ranking_start] at hp
    cases hp
  refine ⟨fun _ _ _ _ hp => absurd hp hnone, fun _ _ _ _ hp => absurd hp hnone,
    fun _ _ _ _ _ _ hp => absurd hp hnone, ?_, ?_, ?_, ?_, fun _ _ _ _ _ hp => absurd hp hnone⟩
  · intro x c filter _ _ hfilter
    cases hfilter
  · intro c filter T e p T' hfilter
    cases hfilter
  · intro c filter T e hfilter
    cases hfilter
  · intro c hseen
    cases hseen

section Values

variable {x : FullTrackName} {c : FilterId} {T : Nat}

theorem observedValue_eq (h : w'.observed = w.observed) (c : FilterId) (T : Nat) :
    w'.observedValue c T = w.observedValue c T := by
  unfold observedValue
  rw [h]

theorem currentValue_eq (hchain : w'.chainOf x = w.chainOf x)
    (hannounced : w'.announcedValue T x = w.announcedValue T x)
    (hobserved : ∀ c, w.chainOf x = some c → w'.observedValue c T = w.observedValue c T) :
    w'.currentValue T x = w.currentValue T x := by
  unfold currentValue
  rw [hchain, hannounced]
  cases hc : w.chainOf x with
  | none => rfl
  | some c => rw [Option.bind_some, Option.bind_some, hobserved c hc]

theorem chain_lt_nextId (hw : w.Base) (h : w.chainOf x = some c) : c < w.nextId := by
  obtain ⟨rsub, hfind, hid⟩ := Option.bind_eq_some_iff.mp h
  exact hw.chain_lt hfind hid

theorem ftn_of_chainOf {filter : TopNFilter} (hw : w.Base) (h : w.chainOf x = some c)
    (hfilter : w.filters.lookup c = some filter) : filter.ftn = x := by
  obtain ⟨rsub, hfind, hid⟩ := Option.bind_eq_some_iff.mp h
  exact (hw.chain hfind hid hfilter).1

end Values

theorem InStep.unmoved (h : w.InStep) (hw : w.Base) (hun : w.Unmoved w') : w'.InStep := by
  -- a chain of a published track was there before
  have hold : ∀ {x c filter}, (w.publisherOf x).isSome = true → w'.chainOf x = some c →
      w'.filters.lookup c = some filter →
        w.chainOf x = some c ∧ w.filters.lookup c = some filter := by
    intro x c filter hx hc hfilter
    rw [hun.publishes.chain hx] at hc
    refine ⟨hc, (hun.filters hfilter).resolve_right fun hnew => ?_⟩
    exact absurd (chain_lt_nextId hw hc) (Nat.not_lt.mpr hnew.1)
  have hobserver : ∀ {c filter T e}, w'.filters.lookup c = some filter →
      filter.observers.lookup T = some e → w.filters.lookup c = some filter := by
    intro c filter T e hfilter he
    rcases hun.filters hfilter with hfilter | ⟨-, hnone⟩
    · exact hfilter
    · rw [hnone] at he
      cases he
  refine ⟨?_, ?_, ?_, ?_, ?_, ?_, ?_, ?_⟩
  · intro p T id x hp hsuffix hx
    rw [hun.publishes.publisher] at hx
    rw [hun.tracks.track, h.ranked (hun.tracks.ranking hp) hsuffix hx,
      currentValue_eq (hun.publishes.chain hx) (hun.publishes.announced hx T)
        fun c _ => observedValue_eq hun.observed c T]
  · intro p T id x hp hx
    rw [hun.tracks.track] at hx
    rw [hun.publishes.publisher]
    exact h.recorded (hun.tracks.ranking hp) hx
  · intro p T id x c filter hp hsuffix hx hc hfilter
    rw [hun.publishes.publisher] at hx
    obtain ⟨hc, hfilter⟩ := hold hx hc hfilter
    rw [observedValue_eq hun.observed]
    exact h.wired (hun.tracks.ranking hp) hsuffix hx hc hfilter
  · intro x c filter hx hc hfilter
    rw [hun.publishes.publisher] at hx
    obtain ⟨hc, hfilter⟩ := hold hx hc hfilter
    exact h.running hx hc hfilter
  · intro c filter T e p T' hfilter he hp
    exact h.typed (hobserver hfilter he) he (hun.tracks.ranking hp)
  · intro c filter T e hfilter he
    exact Nat.lt_of_lt_of_le (h.fresh (hobserver hfilter he) he) hun.nextId
  · intro c hc
    rw [hun.observed] at hc
    exact Nat.lt_of_lt_of_le (h.seen hc) hun.nextId
  · intro p p' T id id' hp hp'
    exact h.lone (hun.tracks.ranking hp) (hun.tracks.ranking hp')

theorem InStep.lone_of_path (h : w.InStep) {path : Path} {T : Nat} {id id' : RankingId}
    (hmem : (T, id) ∈ w.tree.rankingsFrom path) (hmem' : (T, id') ∈ w.tree.rankingsFrom path) :
    id = id' := by
  obtain ⟨p, hsuffix, hp⟩ := mem_rankingsFrom.mp hmem
  obtain ⟨p', hsuffix', hp'⟩ := mem_rankingsFrom.mp hmem'
  have hsame : p = p' := by
    rcases List.suffix_or_suffix_of_suffix hsuffix hsuffix' with hle | hle
    · exact h.lone hp hp' hle
    · exact (h.lone hp' hp hle).symm
  rw [hsame, hp'] at hp
  exact (Option.some.inj hp).symm

theorem InStep.publish {session : SessionId} {ftn : FullTrackName} {requestID : RequestID}
    {handle : HandleId} {extensions : IntExtensions} (h : w.InStep) (hw : w.Base)
    (hok : w.RankingsOk)
    (hfeeds : w.FeedsRankings (.publish session ftn requestID handle extensions))
    (hs : w.publish session ftn requestID handle extensions = .ok w') : w'.InStep := by
  rcases publish_publishes hw hs with rfl | hp
  · exact h
  rcases publish_tracks hw hok hs with rfl | ⟨hranking, -, htrack⟩
  · exact h
  have hchain : ∀ {x c filter}, x ≠ ftn → w'.chainOf x = some c →
      w'.filters.lookup c = some filter →
        w.chainOf x = some c ∧ w.filters.lookup c = some filter := by
    intro x c filter hne hc hfilter
    rw [hp.chain, if_neg hne] at hc
    have hlt := chain_lt_nextId hw hc
    exact ⟨hc, hp.filters (by lia) hfilter⟩
  have hunseen : ∀ T, w'.observedValue (w.nextId + 1) T = none := by
    intro T
    unfold observedValue
    rw [hp.observed]
    cases hlookup : w.observed.lookup (w.nextId + 1) with
    | none => rfl
    | some values =>
      have hlt := h.seen (by rw [hlookup]; rfl)
      exact absurd hlt (by lia)
  have hfrom : ∀ {e}, e ∈ w'.tree.rankingsFrom ftn.trackNamespace.reverse →
      e ∈ w.tree.rankingsFrom ftn.trackNamespace.reverse := by
    intro e he
    obtain ⟨p, hsuffix, hpe⟩ := mem_rankingsFrom.mp he
    exact mem_rankingsFrom.mpr ⟨p, hsuffix, hranking _ _ _ hpe⟩
  have hpublisher : ∀ {x}, (w.publisherOf x).isSome = true →
      (w'.publisherOf x).isSome = true := by
    intro x hx
    rw [hp.publisher]
    split
    · rfl
    · exact hx
  refine ⟨?_, ?_, ?_, ?_, ?_, ?_, ?_, ?_⟩
  · intro p T id x hp' hsuffix hx
    rw [htrack p T id x hp']
    by_cases hne : x = ftn
    · subst hne
      have hcurrent : w'.currentValue T x = (extensions T).getD 0 := by
        unfold currentValue
        rw [hp.chain, if_pos rfl, Option.bind_some, hunseen, Option.none_or, hp.announced,
          if_pos rfl]
      rw [if_pos ⟨rfl, hsuffix⟩, hcurrent]
      cases hold : w.trackOf id x with
      | none => rfl
      | some track =>
        have hmem := mem_rankingsFrom.mpr ⟨p, hsuffix, hranking _ _ _ hp'⟩
        exact congrArg some (hfeeds _ hmem track hold)
    · rw [if_neg fun hon => hne hon.1]
      rw [hp.publisher, if_neg hne] at hx
      have hsame : w'.currentValue T x = w.currentValue T x :=
        currentValue_eq ((hp.chain x).trans (if_neg hne)) ((hp.announced T x).trans (if_neg hne))
          fun c _ => observedValue_eq hp.observed c T
      rw [hsame]
      exact h.ranked (hranking _ _ _ hp') hsuffix hx
  · intro p T id x hp' hx
    rw [htrack p T id x hp'] at hx
    split at hx
    · next hon =>
      rw [hp.publisher, if_pos hon.1]
      rfl
    · exact hpublisher (h.recorded (hranking _ _ _ hp') hx)
  · intro p T id x c filter hp' hsuffix hx hc hfilter
    by_cases hne : x = ftn
    · subst hne
      rw [hp.chain, if_pos rfl] at hc
      cases hc
      have hmem := mem_rankingsFrom.mpr ⟨p, hsuffix, hp'⟩
      refine ⟨⟨none, id⟩, hp.observers ?_ hfilter (T, id) hmem, rfl, fun u hu => by cases hu⟩
      rintro ⟨T₁, id₁⟩ he ⟨T₂, id₂⟩ he' hT
      cases hT
      exact h.lone_of_path (hfrom he) (hfrom he')
    · obtain ⟨hc, hfilter⟩ := hchain hne hc hfilter
      rw [hp.publisher, if_neg hne] at hx
      rw [observedValue_eq hp.observed]
      exact h.wired (hranking _ _ _ hp') hsuffix hx hc hfilter
  · intro x c filter hx hc hfilter
    by_cases hne : x = ftn
    · subst hne
      rw [hp.chain, if_pos rfl] at hc
      cases hc
      exact hp.running hfilter
    · obtain ⟨hc, hfilter⟩ := hchain hne hc hfilter
      rw [hp.publisher, if_neg hne] at hx
      exact h.running hx hc hfilter
  · intro c filter T e p T' hfilter he hp'
    by_cases hc : c = w.nextId + 1
    · subst hc
      obtain ⟨p₁, -, hp₁⟩ := mem_rankingsFrom.mp (hfrom (hp.observing hfilter he))
      exact (hok.apart (hranking _ _ _ hp') hp₁).2
    · exact h.typed (hp.filters hc hfilter) he (hranking _ _ _ hp')
  · intro c filter T e hfilter he
    have hnext := hp.nextId
    by_cases hc : c = w.nextId + 1
    · subst hc
      obtain ⟨p₁, -, hp₁⟩ := mem_rankingsFrom.mp (hfrom (hp.observing hfilter he))
      obtain ⟨ranking, hlookup⟩ := hok.there hp₁
      have hlt := hok.ranking_lt hlookup
      lia
    · have hlt := h.fresh (hp.filters hc hfilter) he
      lia
  · intro c hc
    rw [hp.observed] at hc
    have hlt := h.seen hc
    have hnext := hp.nextId
    lia
  · intro p p' T id id' hp₁ hp₂
    exact h.lone (hranking _ _ _ hp₁) (hranking _ _ _ hp₂)

theorem InStep.publishDone {id : FilterId} (h : w.InStep) (hw : w.Base) (hok : w.RankingsOk)
    (hbacked : w.Backed) (hscoped : w.Scoped) (hfeeds : w.FeedsRankings (.publishDone id))
    (hs : w.publishDone id = .ok w') : w'.InStep := by
  obtain ⟨filter, hfilter, hranking, htracks⟩ := publishDone_tracks hw hok hs
  have hends := publishDone_ends hw hbacked hfilter hs
  have hother : ∀ {x}, (w'.publisherOf x).isSome = true →
      x ≠ filter.ftn ∧ (w.publisherOf x).isSome = true := by
    intro x hx
    rw [hends.publisher] at hx
    split at hx
    · cases hx
    · next hne => exact ⟨hne, hx⟩
  have hchain : ∀ {x c filter'}, x ≠ filter.ftn → w'.chainOf x = some c →
      w'.filters.lookup c = some filter' →
        w.chainOf x = some c ∧ w.filters.lookup c = some filter' := by
    intro x c filter' hne hc hfilter'
    rw [hends.chain hne] at hc
    obtain ⟨before, hbefore, -, hsame⟩ := hends.filters hfilter'
    refine ⟨hc, ?_⟩
    rw [hsame, hbefore]
    rintro rfl
    rw [hfilter] at hbefore
    cases hbefore
    exact hne (ftn_of_chainOf hw hc hfilter).symm
  refine ⟨?_, ?_, ?_, ?_, ?_, ?_, ?_, ?_⟩
  · intro p T ranking x hp hsuffix hx
    obtain ⟨hne, hx⟩ := hother hx
    rw [htracks, if_neg fun hon => hne hon.1, h.ranked (hranking _ _ _ hp) hsuffix hx,
      currentValue_eq (hends.chain hne) (hends.announced hne T)
        fun c _ => observedValue_eq hends.observed c T]
  · intro p T ranking x hp hx
    rw [htracks] at hx
    split at hx
    · cases hx
    · next hoff =>
      have hrecorded := h.recorded (hranking _ _ _ hp) hx
      rw [hends.publisher, if_neg]
      · exact hrecorded
      · -- the chain of the track is the one that ends, so it tells this ranking
        rintro rfl
        obtain ⟨e, he, hid, -⟩ := h.wired (hranking _ _ _ hp)
          (hscoped (hranking _ _ _ hp) hx) hrecorded (hfeeds filter hfilter hrecorded) hfilter
        exact hoff ⟨rfl, ⟨T, e⟩, List.of_mem_dlookup he, hid⟩
  · intro p T ranking x c filter' hp hsuffix hx hc hfilter'
    obtain ⟨hne, hx⟩ := hother hx
    obtain ⟨hc, hfilter'⟩ := hchain hne hc hfilter'
    rw [observedValue_eq hends.observed]
    exact h.wired (hranking _ _ _ hp) hsuffix hx hc hfilter'
  · intro x c filter' hx hc hfilter'
    obtain ⟨hne, hx⟩ := hother hx
    obtain ⟨hc, hfilter'⟩ := hchain hne hc hfilter'
    exact h.running hx hc hfilter'
  · intro c filter' T e p T' hfilter' he hp
    obtain ⟨before, hbefore, hobservers, -⟩ := hends.filters hfilter'
    rw [hobservers] at he
    exact h.typed hbefore he (hranking _ _ _ hp)
  · intro c filter' T e hfilter' he
    obtain ⟨before, hbefore, hobservers, -⟩ := hends.filters hfilter'
    rw [hobservers] at he
    exact Nat.lt_of_lt_of_le (h.fresh hbefore he) hends.nextId
  · intro c hc
    rw [hends.observed] at hc
    exact Nat.lt_of_lt_of_le (h.seen hc) hends.nextId
  · intro p p' T ranking ranking' hp hp'
    exact h.lone (hranking _ _ _ hp) (hranking _ _ _ hp')

theorem InStep.opens {path : Path} {T : Nat} {id : RankingId} (h : w.InStep) (hw : w.Base)
    (hopens : w.Opens w' path T id)
    (halone : ∀ {p}, p <:+ path ∨ path <:+ p → w.tree.ranking p T = none)
    (hvalues : ∀ {x}, (w.publisherOf x).isSome = true → path <:+ x.trackNamespace.reverse →
      w.currentValue T x = (w.announcedValue T x).getD 0) : w'.InStep := by
  have hcurrent : ∀ {x}, (w.publisherOf x).isSome = true → ∀ T',
      w'.currentValue T' x = w.currentValue T' x := by
    intro x hx T'
    exact currentValue_eq (hopens.publishes.chain hx) (hopens.publishes.announced hx T')
      fun c _ => observedValue_eq hopens.observed c T'
  have hnext := Nat.lt_of_le_of_lt hopens.new_lt.1 hopens.new_lt.2
  refine ⟨?_, ?_, ?_, ?_, ?_, ?_, ?_, ?_⟩
  · intro p T' id' x hp hsuffix hx
    rw [hopens.publishes.publisher] at hx
    rw [hcurrent hx]
    rcases hopens.ranking hp with ⟨rfl, rfl, rfl⟩ | ⟨hne, hold⟩
    · obtain ⟨publisher, hpublisher⟩ := Option.isSome_iff_exists.mp hx
      rw [hopens.new, if_pos hsuffix, show w.publishAt _ _ = some publisher from hpublisher,
        hvalues hx hsuffix]
      rfl
    · rw [hopens.old hne]
      exact h.ranked hold hsuffix hx
  · intro p T' id' x hp hx
    rw [hopens.publishes.publisher]
    rcases hopens.ranking hp with ⟨rfl, rfl, rfl⟩ | ⟨hne, hold⟩
    · rw [hopens.new] at hx
      split at hx
      · rwa [Option.isSome_map] at hx
      · cases hx
    · rw [hopens.old hne] at hx
      exact h.recorded hold hx
  · intro p T' id' x c filter' hp hsuffix hx hc hfilter'
    rw [hopens.publishes.publisher] at hx
    rw [hopens.publishes.chain hx] at hc
    rw [observedValue_eq hopens.observed]
    rcases hopens.ranking hp with ⟨rfl, rfl, rfl⟩ | ⟨hne, hold⟩
    · exact ⟨_, hopens.watches hx hsuffix hc filter' hfilter', rfl, fun u hu => by cases hu⟩
    · obtain ⟨filter, hfilter, -, hother, hT⟩ := hopens.filters hfilter'
      have hsame : filter'.observers.lookup T' = filter.observers.lookup T' := by
        by_cases hT' : T' = T
        · subst hT'
          refine hT.resolve_right ?_
          rintro ⟨-, hbelow⟩
          -- both rankings would lie on the way from the track to the root
          rw [ftn_of_chainOf hw hc hfilter] at hbelow
          rw [halone (List.suffix_or_suffix_of_suffix hsuffix hbelow)] at hold
          cases hold
        · exact hother T' hT'
      rw [hsame]
      exact h.wired hold hsuffix hx hc hfilter
  · intro x c filter' hx hc hfilter'
    rw [hopens.publishes.publisher] at hx
    rw [hopens.publishes.chain hx] at hc
    obtain ⟨filter, hfilter, hended, -⟩ := hopens.filters hfilter'
    rw [hended]
    exact h.running hx hc hfilter
  · intro c filter' T₁ e p T' hfilter' he hp
    obtain ⟨filter, hfilter, -, hother, hT⟩ := hopens.filters hfilter'
    have hcases : filter.observers.lookup T₁ = some e ∨ T₁ = T ∧ e = ⟨none, id⟩ := by
      by_cases hT₁ : T₁ = T
      · subst hT₁
        rcases hT with hsame | ⟨hnew, -⟩
        · exact .inl (hsame.symm.trans he)
        · rw [hnew] at he
          exact .inr ⟨rfl, (Option.some.inj he).symm⟩
      · exact .inl ((hother T₁ hT₁).symm.trans he)
    rcases hcases with hbefore | ⟨rfl, rfl⟩
    · rcases hopens.ranking hp with ⟨-, -, hid⟩ | ⟨-, hold⟩
      · have hlt := h.fresh hfilter hbefore
        rw [hid] at hlt
        exact absurd hopens.new_lt.1 (Nat.not_le.mpr hlt)
      · exact h.typed hfilter hbefore hold
    · rcases hopens.ranking hp with ⟨-, hT', -⟩ | ⟨hne, -⟩
      · exact hT'
      · exact absurd rfl hne
  · intro c filter' T₁ e hfilter' he
    obtain ⟨filter, hfilter, -, hother, hT⟩ := hopens.filters hfilter'
    have hold : ∀ {T₁ e}, filter.observers.lookup T₁ = some e → e.ranking < w'.nextId :=
      fun hbefore => Nat.lt_trans (h.fresh hfilter hbefore) hnext
    by_cases hT₁ : T₁ = T
    · subst hT₁
      rcases hT with hsame | ⟨hnew, -⟩
      · exact hold (hsame.symm.trans he)
      · rw [hnew] at he
        cases he
        exact hopens.new_lt.2
    · exact hold ((hother T₁ hT₁).symm.trans he)
  · intro c hc
    rw [hopens.observed] at hc
    exact Nat.lt_trans (h.seen hc) hnext
  · intro p p' T' id₁ id₂ hp hp' hsuffix
    rcases hopens.ranking hp with ⟨rfl, rfl, -⟩ | ⟨-, hold⟩
    · rcases hopens.ranking hp' with ⟨rfl, -, -⟩ | ⟨-, hold'⟩
      · rfl
      · rw [halone (.inr hsuffix)] at hold'
        cases hold'
    · rcases hopens.ranking hp' with ⟨rfl, rfl, -⟩ | ⟨-, hold'⟩
      · rw [halone (.inl hsuffix)] at hold
        cases hold
      · exact h.lone hold hold' hsuffix

theorem InStep.subscribeNamespace {session : SessionId} {subNs : SubscribeNamespace}
    (h : w.InStep) (hw : w.Base) (hok : w.RankingsOk) (hbacked : w.Backed)
    (hfeeds : w.FeedsRankings (.subscribeNamespace session subNs))
    (hs : w.subscribeNamespace session subNs = .ok w') : w'.InStep := by
  rcases subscribe_opens hw hok hbacked hs with hun | ⟨filter, id, hfilter, hopens⟩
  · exact h.unmoved hw hun
  · obtain ⟨halone, hvalues⟩ := hfeeds filter hfilter hopens.none_before
    refine h.opens hw hopens ?_ ?_
    · intro p hp
      cases hnode : w.tree.nodes.lookup p with
      | none =>
        unfold NamespaceTree.ranking NamespaceTree.lookup
        rw [hnode]
        rfl
      | some node => exact halone ⟨p, node⟩ (List.of_mem_dlookup hnode) hp
    · intro x hx hbelow
      obtain ⟨rsub, hfind, -⟩ := publisherOf_isSome hbacked hx
      exact hvalues ⟨x, rsub⟩ (List.of_mem_dlookup hfind) hx hbelow

/-- An object of a published track brings its value to the rankings on the way to the root. -/
theorem InStep.ranked_object {chain : FilterId} {filter : TopNFilter} {extensions : IntExtensions}
    {p : Path} {T : Nat} {id : RankingId} (h : w.InStep) (hok : w.RankingsOk)
    (hfilter : w.filters.lookup chain = some filter)
    (hbrings : w.Brings w' chain filter extensions)
    (hs : w.object chain extensions = .ok w') (hp : w.tree.ranking p T = some id)
    (hsuffix : p <:+ filter.ftn.trackNamespace.reverse)
    (hx : (w.publisherOf filter.ftn).isSome = true) (hc : w.chainOf filter.ftn = some chain) :
    (w'.trackOf id filter.ftn).map Prod.fst = some (w'.currentValue T filter.ftn) := by
  obtain ⟨e, he, hid, hseen⟩ := h.wired hp hsuffix hx hc hfilter
  have honly : ∀ T' e', filter.observers.lookup T' = some e' → e'.ranking = id → T' = T := by
    intro T' e' he' hid'
    exact (h.typed hfilter he' (hid'.symm ▸ hp)).symm
  have hold := h.ranked hp hsuffix hx
  have hbefore : w.currentValue T filter.ftn =
      ((w.observedValue chain T).or (w.announcedValue T filter.ftn)).getD 0 := by
    unfold currentValue
    rw [hc, Option.bind_some]
  have hafter : w'.currentValue T filter.ftn =
      (((extensions T).or (w.observedValue chain T)).or
        (w.announcedValue T filter.ftn)).getD 0 := by
    unfold currentValue
    rw [hbrings.publishes.chain hx, hc, Option.bind_some, hbrings.value,
      hbrings.publishes.announced hx]
  rw [trackOf_object hok hfilter hs honly he hid, hafter]
  cases hvalue : extensions T with
  | none =>
    rw [if_pos (.inl rfl), hold, hbefore, Option.none_or]
  | some value =>
    split
    · next hsame =>
      have hlast : e.lastSeenValue = some value := by
        rcases hsame with hnone | hsame
        · cases hnone
        · exact hsame.symm
      rw [hold, hbefore, hseen value hlast]
      rfl
    · obtain ⟨track, htrack, -⟩ := Option.map_eq_some_iff.mp hold
      rw [htrack]
      rfl

theorem InStep.object {chain : FilterId} {extensions : IntExtensions} (h : w.InStep) (hw : w.Base)
    (hok : w.RankingsOk) (hbacked : w.Backed)
    (hfeeds : w.FeedsRankings (.object chain extensions))
    (hs : w.object chain extensions = .ok w') : w'.InStep := by
  obtain ⟨filter, -, hfilter, -⟩ := works_object hs
  have hbrings := object_brings hok hbacked hfilter hs
  obtain ⟨⟨passed, hpassed, hended, hobservers⟩, hother⟩ := observers_object hfilter hs
  -- the chain of another track is another chain
  have hapart : ∀ {x c}, x ≠ filter.ftn → w.chainOf x = some c → c ≠ chain := by
    rintro x c hne hc rfl
    exact hne (ftn_of_chainOf hw hc hfilter).symm
  have hentry : ∀ {c filter' T e}, w'.filters.lookup c = some filter' →
      filter'.observers.lookup T = some e → ∃ before e', w.filters.lookup c = some before ∧
        before.observers.lookup T = some e' ∧ e.ranking = e'.ranking := by
    intro c filter' T e hfilter' he
    by_cases hc : c = chain
    · subst hc
      rw [hpassed] at hfilter'
      cases hfilter'
      rw [hobservers] at he
      obtain ⟨e', he', rfl⟩ := Option.map_eq_some_iff.mp he
      exact ⟨filter, e', hfilter, he', rfl⟩
    · rw [hother c hc] at hfilter'
      exact ⟨filter', e, hfilter', he, rfl⟩
  refine ⟨?_, ?_, ?_, ?_, ?_, ?_, ?_, ?_⟩
  · intro p T id x hp hsuffix hx
    rw [hbrings.tree] at hp
    rw [hbrings.publishes.publisher] at hx
    by_cases hne : x = filter.ftn
    · subst hne
      exact h.ranked_object hok hfilter hbrings hs hp hsuffix hx (hfeeds filter hfilter hx)
    · rw [hbrings.track id x hne, h.ranked hp hsuffix hx,
        currentValue_eq (hbrings.publishes.chain hx) (hbrings.publishes.announced hx T)
          fun c hc => hbrings.other c T (hapart hne hc)]
  · intro p T id x hp hx
    rw [hbrings.tree] at hp
    rw [isSome_object hok hs] at hx
    rw [hbrings.publishes.publisher]
    exact h.recorded hp hx
  · intro p T id x c filter' hp hsuffix hx hc hfilter'
    rw [hbrings.tree] at hp
    rw [hbrings.publishes.publisher] at hx
    rw [hbrings.publishes.chain hx] at hc
    by_cases hne : x = filter.ftn
    · subst hne
      rw [hfeeds filter hfilter hx] at hc
      cases hc
      rw [hpassed] at hfilter'
      cases hfilter'
      obtain ⟨e, he, hid, hseen⟩ := h.wired hp hsuffix hx (hfeeds filter hfilter hx) hfilter
      refine ⟨{ e with lastSeenValue := (extensions T).or e.lastSeenValue }, ?_, hid, ?_⟩
      · rw [hobservers, he]
        rfl
      · intro u hu
        rw [hbrings.value]
        cases hvalue : extensions T with
        | none =>
          rw [hvalue] at hu
          exact hseen u hu
        | some value =>
          rw [hvalue] at hu
          exact hu
    · have hcne := hapart hne hc
      rw [hother c hcne] at hfilter'
      rw [hbrings.other c T hcne]
      exact h.wired hp hsuffix hx hc hfilter'
  · intro x c filter' hx hc hfilter'
    rw [hbrings.publishes.publisher] at hx
    rw [hbrings.publishes.chain hx] at hc
    by_cases hcne : c = chain
    · subst hcne
      rw [hpassed] at hfilter'
      cases hfilter'
      rw [hended]
      exact h.running hx hc hfilter
    · rw [hother c hcne] at hfilter'
      exact h.running hx hc hfilter'
  · intro c filter' T e p T' hfilter' he hp
    rw [hbrings.tree] at hp
    obtain ⟨before, e', hbefore, he', hid⟩ := hentry hfilter' he
    rw [hid] at hp
    exact h.typed hbefore he' hp
  · intro c filter' T e hfilter' he
    obtain ⟨before, e', hbefore, he', hid⟩ := hentry hfilter' he
    rw [hid]
    exact Nat.lt_of_lt_of_le (h.fresh hbefore he') hbrings.nextId
  · intro c hc
    rcases hbrings.observed c hc with hc | rfl
    · exact Nat.lt_of_lt_of_le (h.seen hc) hbrings.nextId
    · exact Nat.lt_of_lt_of_le (hw.filter_lt hfilter) hbrings.nextId
  · intro p p' T id id' hp hp'
    rw [hbrings.tree] at hp hp'
    exact h.lone hp hp'

theorem InStep.step (h : w.InStep) (hw : w.Base) (hok : w.RankingsOk) (hbacked : w.Backed)
    (hscoped : w.Scoped) (hspares : w.SparesPublishes op) (hfeeds : w.FeedsRankings op)
    (hs : w.step op = .ok w') : w'.InStep := by
  by_cases hop : op.spares = true
  · exact h.unmoved hw (unmoved_step hw hok hbacked hspares hop hs)
  cases op with
  | publish session ftn requestID handle extensions => exact h.publish hw hok hfeeds hs
  | object chain extensions => exact h.object hw hok hbacked hfeeds hs
  | publishDone chain => exact h.publishDone hw hok hbacked hscoped hfeeds hs
  | subscribeNamespace session subNs => exact h.subscribeNamespace hw hok hbacked hfeeds hs
  | _ => exact absurd rfl hop

/-- Where every step feeds the rankings, each ranking on the way from a published track to the
root has it under its current value, and a track that is in a ranking is published and its chain
has not ended. -/
theorem rankings_stay_in_step
    (h : Reached (fun w op => w.SparesPublishes op ∧ w.FeedsRankings op) w) {p : Path} {T : Nat}
    {id : RankingId} (hp : w.tree.ranking p T = some id) (x : FullTrackName) :
    (p <:+ x.trackNamespace.reverse → (w.publisherOf x).isSome = true →
      (w.trackOf id x).map Prod.fst = some (w.currentValue T x)) ∧
    ((w.trackOf id x).isSome = true → (w.publisherOf x).isSome = true ∧
      ∀ c filter, w.chainOf x = some c → w.filters.lookup c = some filter →
        filter.ended = false) := by
  obtain ⟨-, -, -, -, hinStep⟩ := h.keeps
    (I := fun w => w.RankingsOk ∧ w.Backed ∧ w.Scoped ∧ w.InStep)
    (fun config => ⟨rankingsOk_start config, backed_start config, scoped_start config,
      inStep_start config⟩)
    fun _ _ _ hw hi hq hs => ⟨hi.1.step hw hs, hi.2.1.step hw hq.1 hs, hi.2.2.1.step hw hi.1 hs,
      hi.2.2.2.step hw hi.1 hi.2.1 hi.2.2.1 hq.1 hq.2 hs⟩
  refine ⟨fun hsuffix hx => hinStep.ranked hp hsuffix hx, fun hx => ?_⟩
  have hrecorded := hinStep.recorded hp hx
  exact ⟨hrecorded, fun c filter hc hfilter => hinStep.running hrecorded hc hfilter⟩

/-- A SUBSCRIBE_NAMESPACE for the tracks with the greatest value of property 7. -/
def loudest (ns : TrackNamespace) : SubscribeNamespace where
  trackNamespacePrefix := ns
  forward := true
  options := .publish
  trackFilter := some ⟨7, 1⟩
  hasHandle := false

def loudness (value : Nat) : IntExtensions := fun propertyType =>
  if propertyType = 7 then some value else none

/-- A track is published under a filter and then grows louder. -/
theorem rankings_stay_in_step_object : ∃ w id,
    runMeets step (fun w op => w.SparesPublishes op ∧ w.FeedsRankings op) {}
      [.subscribeNamespace 5 (loudest ["live"]),
        .publish 1 ⟨["live", "a"], "audio"⟩ 0 10 (loudness 3), .object 3 (loudness 9)] = some w ∧
      w.tree.ranking ["live"] 7 = some id ∧ w.currentValue 7 ⟨["live", "a"], "audio"⟩ = 9 ∧
      (w.trackOf id ⟨["live", "a"], "audio"⟩).map Prod.fst = some 9 := by
  obtain ⟨w, hreach, hrun, hp⟩ := reaches_of_elim step
    (fun w op => w.SparesPublishes op ∧ w.FeedsRankings op) {}
    [.subscribeNamespace 5 (loudest ["live"]),
      .publish 1 ⟨["live", "a"], "audio"⟩ 0 10 (loudness 3), .object 3 (loudness 9)]
    (fun w => (w.tree.ranking ["live"] 7).isSome ∧
      (w.publisherOf ⟨["live", "a"], "audio"⟩).isSome ∧
      w.currentValue 7 ⟨["live", "a"], "audio"⟩ = 9) (by decide +kernel)
  simp only [decide_eq_true_eq] at hp
  obtain ⟨id, hid⟩ := Option.isSome_iff_exists.mp hp.1
  have hranked := (rankings_stay_in_step ⟨{}, hreach⟩ hid ⟨["live", "a"], "audio"⟩).1
    (by decide) hp.2.1
  rw [hp.2.2] at hranked
  exact ⟨w, id, hrun, hid, hp.2.2, hranked⟩

/-- Two filters by the same property at nested prefixes: the chain tells the ranking nearer to the
root only. The other one misses the new value, and then the end of the track. -/
theorem nestedFilters_fall_behind :
    (runMeets step (fun _ _ => True) {}
      [.subscribeNamespace 5 (loudest ["live"]), .subscribeNamespace 6 (loudest ["live", "a"]),
        .publish 1 ⟨["live", "a"], "audio"⟩ 0 10 (loudness 3), .object 5 (loudness 9)]).map
      (fun w => (w.currentValue 7 ⟨["live", "a"], "audio"⟩,
        (w.tree.ranking ["live"] 7).bind fun id => w.trackOf id ⟨["live", "a"], "audio"⟩,
        (w.tree.ranking ["a", "live"] 7).bind fun id =>
          w.trackOf id ⟨["live", "a"], "audio"⟩)) = some (9, some (9, 1), some (3, 1)) ∧
    (runMeets step (fun _ _ => True) {}
      [.subscribeNamespace 5 (loudest ["live"]), .subscribeNamespace 6 (loudest ["live", "a"]),
        .publish 1 ⟨["live", "a"], "audio"⟩ 0 10 (loudness 3), .publishDone 5]).map
      (fun w => (w.publisherOf ⟨["live", "a"], "audio"⟩,
        (w.tree.ranking ["a", "live"] 7).bind fun id =>
          w.trackOf id ⟨["live", "a"], "audio"⟩)) = some (none, some (3, 1)) := by
  refine ⟨?_, ?_⟩
  · decide +kernel
  · decide +kernel

end MoqxRelay

end Moqx
