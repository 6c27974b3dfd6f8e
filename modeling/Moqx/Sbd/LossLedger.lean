import Moqx.Lib.Runs
import Moqx.Sbd.FeedbackLoss

/-! The ledger of losses against the reports it was given: every packet counts once, by its send
interval, and the order of reports does not matter. -/
namespace Moqx.Sbd

open OrderedMaps Runs Finset OrderedMap FeedbackLoss

inductive ReportKind where
  | acknowledged
  | declaredLost
  | spuriousLoss
deriving DecidableEq, Repr

structure Report where
  kind : ReportKind
  sentUs : Int
  packetNum : Nat
deriving DecidableEq, Repr

namespace Report

def interval (r : Report) : Int := r.sentUs.tdiv kIntervalUs

/-- What a report says of its packet. -/
def value (r : Report) : Outcome :=
  match r.kind with
  | .acknowledged => .acked
  | .declaredLost => .lost
  | .spuriousLoss => .acked

end Report

def FeedbackLoss.report (s : FeedbackLoss) (r : Report) : FeedbackLoss × Bool :=
  match r.kind with
  | .acknowledged => s.acknowledged r.sentUs r.packetNum
  | .declaredLost => s.declaredLost r.sentUs r.packetNum
  | .spuriousLoss => s.spuriousLoss r.sentUs r.packetNum

theorem report_eq (s : FeedbackLoss) (r : Report) :
    s.report r = s.outcome r.sentUs r.packetNum r.value := by
  unfold report Report.value
  cases r.kind with
  | acknowledged => rfl
  | declaredLost => rfl
  | spuriousLoss => rfl

/-- The packets sent in an interval that have been reported. -/
def sentIn (reports : List Report) (interval : Int) : Finset Nat :=
  ((reports.filter fun r => r.interval = interval).map Report.packetNum).toFinset

/-- Those of them that were ever acknowledged. -/
def ackedIn (reports : List Report) (interval : Int) : Finset Nat :=
  ((reports.filter fun r => r.interval = interval ∧ r.value = .acked).map
    Report.packetNum).toFinset

/-- A packet has one send time, and a larger packet number no earlier one. -/
def InOrder (reports : List Report) : Prop :=
  ∀ r ∈ reports, ∀ r' ∈ reports, r.packetNum ≤ r'.packetNum → r.sentUs ≤ r'.sentUs

/-- The intervals that are not expired. -/
def Retained (latest : Option Int) (interval : Int) : Prop :=
  ∀ l ∈ latest, l - 2 * kN < interval

instance (latest : Option Int) (interval : Int) : Decidable (Retained latest interval) :=
  inferInstanceAs (Decidable (∀ l ∈ latest, l - 2 * kN < interval))

theorem expired_iff {latest : Option Int} {interval : Int} :
    latest.any (fun l => decide (interval ≤ l - 2 * kN)) = true ↔ ¬ Retained latest interval := by
  unfold Retained
  cases latest with
  | none => simp
  | some l => simp

section Sets

variable {reports : List Report} {r : Report} {interval : Int} {packetNum : Nat}

theorem mem_packets {q : Report → Prop} [DecidablePred q] :
    packetNum ∈ ((reports.filter fun r => q r).map Report.packetNum).toFinset ↔
      ∃ r ∈ reports, r.packetNum = packetNum ∧ q r := by
  simp only [List.mem_toFinset, List.mem_map, List.mem_filter, decide_eq_true_eq]
  constructor
  · rintro ⟨r, ⟨hr, hq⟩, hp⟩
    exact ⟨r, hr, hp, hq⟩
  · rintro ⟨r, hr, hp, hq⟩
    exact ⟨r, ⟨hr, hq⟩, hp⟩

theorem mem_sentIn :
    packetNum ∈ sentIn reports interval ↔
      ∃ r ∈ reports, r.packetNum = packetNum ∧ r.interval = interval :=
  mem_packets

theorem mem_ackedIn :
    packetNum ∈ ackedIn reports interval ↔
      ∃ r ∈ reports, r.packetNum = packetNum ∧ r.interval = interval ∧ r.value = .acked :=
  mem_packets

theorem ackedIn_subset : ackedIn reports interval ⊆ sentIn reports interval := by
  intro p hp
  obtain ⟨r, hr, hpacket, hi, -⟩ := mem_ackedIn.mp hp
  exact mem_sentIn.mpr ⟨r, hr, hpacket, hi⟩

theorem sentIn_append :
    sentIn (reports ++ [r]) interval =
      if interval = r.interval then insert r.packetNum (sentIn reports interval)
      else sentIn reports interval := by
  unfold sentIn
  by_cases h : interval = r.interval
  · subst h
    simp [eq_comm]
  · simp [h, Ne.symm h]

theorem ackedIn_append :
    ackedIn (reports ++ [r]) interval =
      if interval = r.interval ∧ r.value = .acked then
        insert r.packetNum (ackedIn reports interval)
      else ackedIn reports interval := by
  unfold ackedIn
  by_cases h : interval = r.interval ∧ r.value = .acked
  · obtain ⟨rfl, hv⟩ := h
    simp [hv]
  · have hr : ¬ (r.interval = interval ∧ r.value = .acked) := fun hr => h ⟨hr.1.symm, hr.2⟩
    simp [h, hr]

theorem sentIn_append_ne (h : interval ≠ r.interval) :
    sentIn (reports ++ [r]) interval = sentIn reports interval := by
  rw [sentIn_append, if_neg h]

theorem ackedIn_append_ne (h : interval ≠ r.interval) :
    ackedIn (reports ++ [r]) interval = ackedIn reports interval := by
  rw [ackedIn_append, if_neg fun hr => h hr.1]

theorem InOrder.left (h : InOrder (reports ++ [r])) : InOrder reports :=
  fun r₁ h₁ r₂ h₂ => h r₁ (List.mem_append_left _ h₁) r₂ (List.mem_append_left _ h₂)

theorem InOrder.interval_le (h : InOrder reports) {r r' : Report} (hr : r ∈ reports)
    (hr' : r' ∈ reports) (hle : r.packetNum ≤ r'.packetNum) : r.interval ≤ r'.interval :=
  Int.tdiv_le_tdiv (by decide) (h r hr r' hr' hle)

/-- All reports of a packet are about the same interval. -/
theorem InOrder.interval_eq (h : InOrder reports) {r r' : Report} (hr : r ∈ reports)
    (hr' : r' ∈ reports) (heq : r.packetNum = r'.packetNum) : r.interval = r'.interval :=
  le_antisymm (h.interval_le hr hr' heq.le) (h.interval_le hr' hr heq.ge)

end Sets

/-- The ledger is exact for the intervals that are retained. -/
structure Counted (s : FeedbackLoss) (reports : List Report) : Prop where
  packets : ∀ packetNum packet, s.packets.find packetNum = some packet ↔
    Retained s.latestInterval packet.interval ∧ packetNum ∈ sentIn reports packet.interval ∧
      packet.outcome = if packetNum ∈ ackedIn reports packet.interval then .acked else .lost
  history : ∀ interval, s.history.find interval =
    if Retained s.latestInterval interval ∧ (sentIn reports interval).Nonempty then
      some ⟨interval, (ackedIn reports interval).card,
        (sentIn reports interval \ ackedIn reports interval).card⟩
    else none

section Expiry

variable {s : FeedbackLoss} {reports : List Report}

theorem retained_expire {interval i : Int} :
    Retained (s.expire interval).latestInterval i ↔
      Retained s.latestInterval i ∧ interval - 2 * kN < i := by
  unfold expire Retained
  cases s.latestInterval with
  | none => simp
  | some latest =>
    simp only [Option.getD_some, Option.mem_def, Option.some.injEq, forall_eq']
    omega

theorem expire_cutoff {interval i : Int} (h : Retained s.latestInterval i) :
    i ≤ max (s.latestInterval.getD interval) interval - 2 * kN ↔
      ¬ Retained (s.expire interval).latestInterval i := by
  rw [retained_expire, and_iff_right h, not_lt]
  cases hl : s.latestInterval with
  | none => simp
  | some latest =>
    have := h latest hl
    simp only [Option.getD_some]
    omega

/-- Expiry takes exactly what is not retained any more. -/
theorem Counted.expire (h : Counted s reports) (horder : InOrder reports) (interval : Int) :
    Counted (s.expire interval) reports := by
  constructor
  · intro packetNum packet
    have hfind : (s.expire interval).packets.find packetNum =
        (s.packets.find packetNum).filter fun packet =>
          !decide (packet.interval ≤
            max (s.latestInterval.getD interval) interval - 2 * kN) := by
      refine find_eraseWhile ?_
      rintro ⟨p₁, q₁⟩ h₁ ⟨p₂, q₂⟩ h₂ hlt hgone
      obtain ⟨-, hsent₁, -⟩ := (h.packets p₁ q₁).mp (find_eq_some.mpr h₁)
      obtain ⟨-, hsent₂, -⟩ := (h.packets p₂ q₂).mp (find_eq_some.mpr h₂)
      obtain ⟨r₁, hr₁, hp₁, hi₁⟩ := mem_sentIn.mp hsent₁
      obtain ⟨r₂, hr₂, hp₂, hi₂⟩ := mem_sentIn.mp hsent₂
      have hle := horder.interval_le hr₁ hr₂ (by omega)
      simp only [decide_eq_true_eq] at hgone ⊢
      omega
    rw [hfind, Option.filter_eq_some_iff, h.packets, retained_expire]
    simp only [Bool.not_eq_true', decide_eq_false_iff_not]
    constructor
    · rintro ⟨⟨hold, hsent, houtcome⟩, hkept⟩
      rw [expire_cutoff hold, not_not, retained_expire] at hkept
      exact ⟨hkept, hsent, houtcome⟩
    · rintro ⟨hkept, hsent, houtcome⟩
      refine ⟨⟨hkept.1, hsent, houtcome⟩, ?_⟩
      rw [expire_cutoff hkept.1, not_not, retained_expire]
      exact hkept
  · intro i
    have hfind : (s.expire interval).history.find i =
        (s.history.find i).filter fun _ =>
          !decide (i ≤ max (s.latestInterval.getD interval) interval - 2 * kN) := by
      refine find_eraseWhile ?_
      intro a _ b _ hlt hgone
      simp only [decide_eq_true_eq] at hgone ⊢
      omega
    rw [hfind, h.history]
    by_cases hold : Retained s.latestInterval i
    · by_cases hkept : Retained (s.expire interval).latestInterval i
      · have hnot : ¬ i ≤ max (s.latestInterval.getD interval) interval - 2 * kN := by
          rw [expire_cutoff hold, not_not]
          exact hkept
        simp only [hold, hkept, true_and]
        split <;> simp [hnot]
      · have hgone := (expire_cutoff hold).mpr hkept
        simp only [hold, hkept, true_and, false_and, if_false]
        split <;> simp [hgone]
    · have hgone : ¬ Retained (s.expire interval).latestInterval i := fun hkept =>
        hold (retained_expire.mp hkept).1
      simp [hold, hgone]

end Expiry

section Reporting

variable {s s' : FeedbackLoss} {reports : List Report} {r : Report}

/-- A report about an interval that is not retained does not count. -/
theorem Counted.ignore (h : Counted s reports)
    (hold : ¬ Retained s.latestInterval r.interval) : Counted s (reports ++ [r]) := by
  have hne : ∀ {i}, Retained s.latestInterval i → i ≠ r.interval := by
    rintro i hi rfl
    exact hold hi
  have hsame : ∀ {i}, Retained s.latestInterval i → sentIn (reports ++ [r]) i = sentIn reports i ∧
      ackedIn (reports ++ [r]) i = ackedIn reports i := by
    intro i hi
    exact ⟨sentIn_append_ne (hne hi), ackedIn_append_ne (hne hi)⟩
  constructor
  · intro packetNum packet
    rw [h.packets]
    refine and_congr_right fun hi => ?_
    rw [(hsame hi).1, (hsame hi).2]
  · intro i
    rw [h.history]
    by_cases hi : Retained s.latestInterval i
    · rw [(hsame hi).1, (hsame hi).2]
    · simp [hi]

/-- What a report about a retained interval has to change. -/
theorem Counted.extend (h : Counted s reports) (horder : InOrder (reports ++ [r]))
    (hretained : Retained s.latestInterval r.interval)
    (hlatest : s'.latestInterval = s.latestInterval)
    (hpackets : ∀ packetNum, s'.packets.find packetNum =
      if packetNum = r.packetNum then
        some ⟨r.interval, if r.packetNum ∈ ackedIn (reports ++ [r]) r.interval then .acked
          else .lost⟩
      else s.packets.find packetNum)
    (hhistory : ∀ interval, s'.history.find interval =
      if interval = r.interval then
        some ⟨r.interval, (ackedIn (reports ++ [r]) r.interval).card,
          (sentIn (reports ++ [r]) r.interval \ ackedIn (reports ++ [r]) r.interval).card⟩
      else s.history.find interval) : Counted s' (reports ++ [r]) := by
  have hself : r.packetNum ∈ sentIn (reports ++ [r]) r.interval := by
    rw [sentIn_append, if_pos rfl]
    exact mem_insert_self _ _
  constructor
  · intro packetNum packet
    rw [hpackets, hlatest]
    by_cases heq : packetNum = r.packetNum
    · subst heq
      rw [if_pos rfl]
      constructor
      · intro hpacket
        cases hpacket
        exact ⟨hretained, hself, rfl⟩
      · rintro ⟨-, hsent, houtcome⟩
        -- all reports of the packet are about one interval
        obtain ⟨r', hr', hp', hi'⟩ := mem_sentIn.mp hsent
        have hinterval : r.interval = packet.interval := by
          rw [← hi']
          exact horder.interval_eq (List.mem_append_right _ List.mem_cons_self) hr' hp'.symm
        obtain ⟨interval, outcome⟩ := packet
        simp only at hinterval houtcome
        rw [houtcome, hinterval]
    · rw [if_neg heq, h.packets]
      have hsent : packetNum ∈ sentIn (reports ++ [r]) packet.interval ↔
          packetNum ∈ sentIn reports packet.interval := by
        rw [sentIn_append]
        split_ifs
        · rw [mem_insert, or_iff_right heq]
        · rfl
      have hacked : packetNum ∈ ackedIn (reports ++ [r]) packet.interval ↔
          packetNum ∈ ackedIn reports packet.interval := by
        rw [ackedIn_append]
        split_ifs
        · rw [mem_insert, or_iff_right heq]
        · rfl
      simp only [hsent, hacked]
  · intro i
    rw [hhistory, hlatest]
    by_cases hi : i = r.interval
    · subst hi
      rw [if_pos rfl, if_pos ⟨hretained, _, hself⟩]
    · rw [if_neg hi, h.history, sentIn_append_ne hi, ackedIn_append_ne hi]

/-- The entry of an interval before the report is counted, where an absent one counts nothing. -/
theorem Counted.entry (h : Counted s reports) {interval : Int}
    (hretained : Retained s.latestInterval interval) :
    (s.history.find interval).getD ⟨interval, 0, 0⟩ =
      ⟨interval, (ackedIn reports interval).card,
        (sentIn reports interval \ ackedIn reports interval).card⟩ := by
  rw [h.history]
  by_cases hempty : (sentIn reports interval).Nonempty
  · rw [if_pos ⟨hretained, hempty⟩, Option.getD_some]
  · rw [if_neg fun hcounted => hempty hcounted.2, Option.getD_none]
    have hsent : sentIn reports interval = ∅ := not_nonempty_iff_eq_empty.mp hempty
    have hacked : ackedIn reports interval = ∅ :=
      subset_empty.mp (hsent ▸ ackedIn_subset)
    simp [hsent, hacked]

theorem Counted.entry_of_mem (h : Counted s reports) {interval : Int} {packetNum : Nat}
    (hretained : Retained s.latestInterval interval)
    (hsent : packetNum ∈ sentIn reports interval) :
    s.history.find interval = some ⟨interval, (ackedIn reports interval).card,
      (sentIn reports interval \ ackedIn reports interval).card⟩ := by
  rw [h.history, if_pos ⟨hretained, packetNum, hsent⟩]

theorem Counted.interval_eq (h : Counted s reports) (horder : InOrder (reports ++ [r]))
    {found : Packet} (hfound : s.packets.find r.packetNum = some found) :
    found.interval = r.interval := by
  obtain ⟨-, hsent, -⟩ := (h.packets _ _).mp hfound
  obtain ⟨r', hr', hp', hi'⟩ := mem_sentIn.mp hsent
  rw [← hi']
  exact horder.interval_eq (List.mem_append_left _ hr')
    (List.mem_append_right _ List.mem_cons_self) hp'

/-- A packet that is known and about which the report says nothing new. -/
theorem Counted.repeated (h : Counted s reports) (horder : InOrder (reports ++ [r]))
    {found : Packet}
    (hretained : Retained s.latestInterval r.interval)
    (hfound : s.packets.find r.packetNum = some found)
    (hknown : found.outcome = r.value ∨ found.outcome = .acked) : Counted s (reports ++ [r]) := by
  obtain ⟨-, hsent, houtcome⟩ := (h.packets _ _).mp hfound
  have hinterval := h.interval_eq horder hfound
  rw [hinterval] at hsent houtcome
  have hsent' : sentIn (reports ++ [r]) r.interval = sentIn reports r.interval := by
    rw [sentIn_append, if_pos rfl, insert_eq_of_mem hsent]
  have hacked' : ackedIn (reports ++ [r]) r.interval = ackedIn reports r.interval := by
    rw [ackedIn_append]
    split_ifs with hacks
    · refine insert_eq_of_mem ?_
      by_contra hnot
      rw [if_neg hnot] at houtcome
      rw [houtcome, hacks.2] at hknown
      simp at hknown
    · rfl
  refine h.extend horder hretained rfl ?_ ?_
  · intro packetNum
    by_cases heq : packetNum = r.packetNum
    · rw [if_pos heq, heq, hfound, hacked', ← houtcome, ← hinterval]
    · rw [if_neg heq]
  · intro interval
    split_ifs with heq
    · rw [heq, hsent', hacked']
      exact h.entry_of_mem hretained hsent
    · rfl

/-- A packet that was lost and is acknowledged. -/
theorem Counted.corrected (h : Counted s reports) (horder : InOrder (reports ++ [r]))
    {found : Packet} (hretained : Retained s.latestInterval r.interval)
    (hfound : s.packets.find r.packetNum = some found)
    (hnew : ¬ (found.outcome = r.value ∨ found.outcome = .acked)) :
    Counted { s with
      history := s.history.modify found.interval Entry.correct
      packets := s.packets.modify r.packetNum fun packet => { packet with outcome := .acked } }
      (reports ++ [r]) := by
  obtain ⟨-, hsent, houtcome⟩ := (h.packets _ _).mp hfound
  have hinterval := h.interval_eq horder hfound
  rw [hinterval] at hsent houtcome
  have hnotAcked : r.packetNum ∉ ackedIn reports r.interval := by
    intro hacked
    rw [if_pos hacked] at houtcome
    exact hnew (.inr houtcome)
  have hvalue : r.value = .acked := by
    cases hv : r.value with
    | acked => rfl
    | lost =>
      rw [houtcome, hv] at hnew
      simp at hnew
  have hsent' : sentIn (reports ++ [r]) r.interval = sentIn reports r.interval := by
    rw [sentIn_append, if_pos rfl, insert_eq_of_mem hsent]
  have hacked' : ackedIn (reports ++ [r]) r.interval =
      insert r.packetNum (ackedIn reports r.interval) := by
    rw [ackedIn_append, if_pos ⟨rfl, hvalue⟩]
  have hmem : r.packetNum ∈ sentIn reports r.interval \ ackedIn reports r.interval :=
    mem_sdiff.mpr ⟨hsent, hnotAcked⟩
  have hlost := card_erase_add_one hmem
  refine h.extend horder hretained rfl ?_ ?_
  · intro packetNum
    rw [find_modify, hacked', if_pos (mem_insert_self _ _), hfound,
      ← hinterval]
    rfl
  · intro interval
    rw [hinterval, find_modify, h.entry_of_mem hretained hsent, hsent', hacked',
      card_insert_of_notMem hnotAcked, sdiff_insert]
    refine if_congr Iff.rfl ?_ rfl
    have hpositive : ((sentIn reports r.interval \ ackedIn reports r.interval).card : Int) ≠ 0 := by
      omega
    rw [Option.map_some, Entry.correct, if_pos hpositive]
    congr 2
    push_cast
    omega

/-- A packet that is reported for the first time. -/
theorem Counted.first (h : Counted s reports) (horder : InOrder (reports ++ [r]))
    (hretained : Retained s.latestInterval r.interval)
    (hnew : s.packets.find r.packetNum = none) :
    Counted { s with
      packets := s.packets.tryEmplace r.packetNum ⟨r.interval, r.value⟩
      history := (s.history.tryEmplace r.interval ⟨r.interval, 0, 0⟩).modify r.interval
        (Entry.count r.value) } (reports ++ [r]) := by
  have hnotSent : r.packetNum ∉ sentIn reports r.interval := by
    intro hsent
    have hfound := (h.packets r.packetNum ⟨r.interval,
      if r.packetNum ∈ ackedIn reports r.interval then .acked else .lost⟩).mpr
      ⟨hretained, hsent, rfl⟩
    rw [hnew] at hfound
    cases hfound
  have hnotAcked : r.packetNum ∉ ackedIn reports r.interval := fun hacked =>
    hnotSent (ackedIn_subset hacked)
  refine h.extend horder hretained rfl ?_ ?_
  · intro packetNum
    rw [find_tryEmplace, hnew, Option.getD_none, ackedIn_append]
    cases hv : r.value with
    | acked => simp
    | lost => simp [hnotAcked]
  · intro interval
    rw [find_modify, find_tryEmplace, find_tryEmplace,
      if_pos rfl, h.entry hretained, sentIn_append, if_pos rfl, ackedIn_append]
    split_ifs with heq hacks
    · rw [Option.map_some, hacks.2, Entry.count, card_insert_of_notMem hnotAcked,
        insert_sdiff_insert, sdiff_insert_of_notMem hnotSent]
      rfl
    · have hlost : r.value = .lost := by
        cases hv : r.value with
        | acked => exact absurd ⟨rfl, hv⟩ hacks
        | lost => rfl
      have hnotIn : r.packetNum ∉ sentIn reports r.interval \ ackedIn reports r.interval :=
        fun hmem => hnotSent (mem_sdiff.mp hmem).1
      rw [Option.map_some, hlost, Entry.count, insert_sdiff_of_notMem _ hnotAcked,
        card_insert_of_notMem hnotIn]
      rfl
    · rfl

/-- The reported packets that are not expired. -/
def livePackets (reports : List Report) (latest : Option Int) : Finset Nat :=
  ((reports.filter fun r => Retained latest r.interval).map Report.packetNum).toFinset

theorem mem_livePackets {latest : Option Int} {packetNum : Nat} :
    packetNum ∈ livePackets reports latest ↔
      ∃ r ∈ reports, r.packetNum = packetNum ∧ Retained latest r.interval :=
  mem_packets

theorem Counted.find_isSome (h : Counted s reports) (packetNum : Nat) :
    (s.packets.find packetNum).isSome ↔ packetNum ∈ livePackets reports s.latestInterval := by
  rw [mem_livePackets]
  constructor
  · intro hsome
    obtain ⟨packet, hfound⟩ := Option.isSome_iff_exists.mp hsome
    obtain ⟨hretained, hsent, -⟩ := (h.packets _ _).mp hfound
    obtain ⟨r, hr, hp, hi⟩ := mem_sentIn.mp hsent
    exact ⟨r, hr, hp, hi ▸ hretained⟩
  · rintro ⟨r, hr, hp, hretained⟩
    have hfound := (h.packets packetNum ⟨r.interval,
      if packetNum ∈ ackedIn reports r.interval then .acked else .lost⟩).mpr
      ⟨hretained, mem_sentIn.mpr ⟨r, hr, hp, rfl⟩, rfl⟩
    rw [hfound, Option.isSome_some]

/-- The table of packets has room for a packet that is reported for the first time. -/
theorem Counted.size_lt (h : Counted s reports)
    (hretained : Retained s.latestInterval r.interval)
    (hnew : s.packets.find r.packetNum = none)
    (hlive : (livePackets (reports ++ [r]) s.latestInterval).card ≤ 65536) :
    s.packets.size < 65536 := by
  rw [size_eq_card h.find_isSome]
  refine lt_of_lt_of_le (card_lt_card ?_) hlive
  refine (ssubset_iff_of_subset ?_).mpr ⟨r.packetNum, ?_, ?_⟩
  · intro p hp
    obtain ⟨r', hr', hp', hi'⟩ := mem_livePackets.mp hp
    exact mem_livePackets.mpr ⟨r', List.mem_append_left _ hr', hp', hi'⟩
  · exact mem_livePackets.mpr ⟨r, List.mem_append_right _ List.mem_cons_self, rfl, hretained⟩
  · rw [← h.find_isSome, hnew]
    simp

/-- Every report is taken and counted. -/
theorem Counted.report (h : Counted s reports) (horder : InOrder (reports ++ [r]))
    (hlive : (livePackets (reports ++ [r]) (s.expire r.interval).latestInterval).card ≤ 65536) :
    Counted (s.report r).1 (reports ++ [r]) ∧ (s.report r).2 = true := by
  have hexpired := h.expire horder.left r.interval
  rw [report_eq]
  unfold outcome
  rw [show r.sentUs.tdiv kIntervalUs = r.interval from rfl]
  by_cases hretained : Retained (s.expire r.interval).latestInterval r.interval
  · rw [if_neg (by rw [expired_iff, not_not]; exact hretained)]
    cases hfind : (s.expire r.interval).packets.find r.packetNum with
    | some found =>
      dsimp only
      split_ifs with hknown
      · exact ⟨hexpired.repeated horder hretained hfind hknown, rfl⟩
      · exact ⟨hexpired.corrected horder hretained hfind hknown, rfl⟩
    | none =>
      rw [if_neg (not_le.mpr (hexpired.size_lt hretained hfind hlive))]
      exact ⟨hexpired.first horder hretained hfind, rfl⟩
  · rw [if_pos (expired_iff.mpr hretained)]
    exact ⟨hexpired.ignore hretained, rfl⟩

end Reporting

section Totals

variable {s : FeedbackLoss} {reports : List Report}

/-- The packets of the intervals from `low` to before `stop` that have been reported. -/
def sentBetween (reports : List Report) (low stop : Int) : Finset Nat :=
  ((reports.filter fun r => low ≤ r.interval ∧ r.interval < stop).map Report.packetNum).toFinset

/-- Those of them that were ever acknowledged. -/
def ackedBetween (reports : List Report) (low stop : Int) : Finset Nat :=
  ((reports.filter fun r => (low ≤ r.interval ∧ r.interval < stop) ∧ r.value = .acked).map
    Report.packetNum).toFinset

theorem sentBetween_eq (low stop : Int) :
    sentBetween reports low stop = (Finset.Ico low stop).biUnion (sentIn reports) := by
  ext p
  simp only [sentBetween, mem_packets, mem_biUnion, mem_Ico, mem_sentIn]
  constructor
  · rintro ⟨r, hr, hp, hi⟩
    exact ⟨r.interval, hi, r, hr, hp, rfl⟩
  · rintro ⟨_, hi, r, hr, hp, rfl⟩
    exact ⟨r, hr, hp, hi⟩

theorem ackedBetween_eq (low stop : Int) :
    ackedBetween reports low stop = (Finset.Ico low stop).biUnion (ackedIn reports) := by
  ext p
  simp only [ackedBetween, mem_packets, mem_biUnion, mem_Ico, mem_ackedIn]
  constructor
  · rintro ⟨r, hr, hp, hi, hv⟩
    exact ⟨r.interval, hi, r, hr, hp, rfl, hv⟩
  · rintro ⟨_, hi, r, hr, hp, rfl, hv⟩
    exact ⟨r, hr, hp, hi, hv⟩

/-- The packets of different intervals are different. -/
theorem InOrder.disjoint (h : InOrder reports) {i j : Int} (hij : i ≠ j) :
    Disjoint (sentIn reports i) (sentIn reports j) := by
  rw [disjoint_left]
  intro p hi hj
  obtain ⟨r, hr, hp, rfl⟩ := mem_sentIn.mp hi
  obtain ⟨r', hr', hp', rfl⟩ := mem_sentIn.mp hj
  exact hij (h.interval_eq hr hr' (hp.trans hp'.symm))

theorem card_ackedBetween (h : InOrder reports) (low stop : Int) :
    (ackedBetween reports low stop).card =
      ∑ i ∈ Finset.Ico low stop, (ackedIn reports i).card := by
  rw [ackedBetween_eq, card_biUnion]
  intro i _ j _ hij
  exact (h.disjoint hij).mono ackedIn_subset ackedIn_subset

theorem card_lostBetween (h : InOrder reports) (low stop : Int) :
    (sentBetween reports low stop \ ackedBetween reports low stop).card =
      ∑ i ∈ Finset.Ico low stop, (sentIn reports i \ ackedIn reports i).card := by
  have hunion : sentBetween reports low stop \ ackedBetween reports low stop =
      (Finset.Ico low stop).biUnion fun i => sentIn reports i \ ackedIn reports i := by
    ext p
    simp only [sentBetween_eq, ackedBetween_eq, mem_sdiff, mem_biUnion, not_exists,
      not_and]
    constructor
    · rintro ⟨⟨i, hi, hsent⟩, hacked⟩
      exact ⟨i, hi, hsent, hacked i hi⟩
    · rintro ⟨i, hi, hsent, hnot⟩
      refine ⟨⟨i, hi, hsent⟩, fun j _ hacked => ?_⟩
      have hij : i = j := by
        by_contra hij
        exact disjoint_left.mp (h.disjoint hij) hsent (ackedIn_subset hacked)
      exact hnot (hij ▸ hacked)
  rw [hunion, card_biUnion]
  intro i _ j _ hij
  exact (h.disjoint hij).mono sdiff_subset sdiff_subset

theorem foldl_counts (stop : Int) (entries : List (Int × Entry)) (counts : Int × Int) :
    entries.foldl (fun counts entry =>
      if inWindow stop entry.2 then
        (counts.1 + entry.2.acked, counts.2 + entry.2.lost) else counts) counts =
      (counts.1 + ((entries.filter fun entry => inWindow stop entry.2).map
          fun entry => entry.2.acked).sum,
        counts.2 + ((entries.filter fun entry => inWindow stop entry.2).map
          fun entry => entry.2.lost).sum) := by
  induction entries generalizing counts with
  | nil => simp
  | cons entry entries ih =>
    rw [List.foldl_cons, ih]
    split_ifs with hin
    · simp [hin, add_assoc]
    · simp [hin]

/-- Every interval of a window that is newer than the retention limit is retained. -/
def Newer (latest : Option Int) (stop : Int) : Prop :=
  ∀ l ∈ latest, l - 2 * kN < stop - kN

theorem retained_of_newer {stop i : Int} (h : Newer s.latestInterval stop) (hi : stop - kN ≤ i) :
    Retained (s.expire stop).latestInterval i := by
  rw [retained_expire]
  refine ⟨fun l hl => lt_of_lt_of_le (h l hl) hi, ?_⟩
  unfold kN at *
  omega

theorem Counted.window_entries (h : Counted s reports) (stop : Int) :
    s.history.entries.filter (fun entry => inWindow stop entry.2) =
      s.history.entries.filter fun entry => entry.1 ∈ Finset.Ico (stop - kN) stop := by
  refine List.filter_congr ?_
  rintro ⟨i, entry⟩ hmem
  have hfound := h.history i
  rw [find_eq_some.mpr hmem] at hfound
  split_ifs at hfound
  cases hfound
  simp [inWindow]

/-- A field of the entries, summed over a window that is retained. -/
theorem Counted.sum_window (h : Counted s reports) {low stop : Int} (f : Entry → Int)
    (hf : ∀ i, f ⟨i, 0, 0⟩ = 0) (hretained : ∀ i, low ≤ i → Retained s.latestInterval i) :
    ((s.history.entries.filter fun entry => entry.1 ∈ Finset.Ico low stop).map
      fun entry => f entry.2).sum =
      ∑ i ∈ Finset.Ico low stop, f ⟨i, (ackedIn reports i).card,
        (sentIn reports i \ ackedIn reports i).card⟩ := by
  rw [sum_entries]
  refine sum_congr rfl fun i hi => ?_
  rw [← h.entry (hretained i (mem_Ico.mp hi).1)]
  cases s.history.find i with
  | none => exact (hf i).symm
  | some entry => rfl

/-- The totals of a window count its packets. -/
theorem Counted.totals (h : Counted s reports) (horder : InOrder reports) {windowEndUs stop : Int}
    (hstop : stop = windowEndUs.tdiv kIntervalUs) (hnewer : Newer s.latestInterval stop)
    (summary : LossSummary) :
    (s.apply windowEndUs summary).2.acked = (ackedBetween reports (stop - kN) stop).card ∧
      (s.apply windowEndUs summary).2.lost =
        (sentBetween reports (stop - kN) stop \ ackedBetween reports (stop - kN) stop).card := by
  have hexpired := h.expire horder stop
  have hretained : ∀ i, stop - kN ≤ i → Retained (s.expire stop).latestInterval i :=
    fun i => retained_of_newer hnewer
  unfold apply
  rw [← hstop]
  simp only [foldl_counts, zero_add, hexpired.window_entries]
  constructor
  · rw [hexpired.sum_window Entry.acked (fun _ => rfl) hretained, card_ackedBetween horder]
    push_cast
    rfl
  · rw [hexpired.sum_window Entry.lost (fun _ => rfl) hretained, card_lostBetween horder]
    push_cast
    rfl

end Totals

/-- A ledger with the reports it was given and the intervals at which windows were applied. -/
structure LossRun where
  state : FeedbackLoss := {}
  reports : List Report := []
  windows : List Int := []

inductive LossCall where
  | report (r : Report)
  | apply (windowEndUs : Int) (summary : LossSummary)
deriving DecidableEq, Repr

namespace LossRun

def step (w : LossRun) : LossCall → Except Fault LossRun
  | .report r => .ok { w with state := (w.state.report r).1, reports := w.reports ++ [r] }
  | .apply windowEndUs summary =>
    .ok { w with
      state := (w.state.apply windowEndUs summary).1
      windows := w.windows ++ [windowEndUs.tdiv kIntervalUs] }

/-- The intervals of all calls. -/
def intervals (w : LossRun) : List Int := w.reports.map Report.interval ++ w.windows

/-- The send times of the reports are in order, and at most 65536 packets are live. -/
def Admissible (w : LossRun) : LossCall → Prop
  | .report r =>
    (∀ r' ∈ w.reports, (r.packetNum ≤ r'.packetNum → r.sentUs ≤ r'.sentUs) ∧
      (r'.packetNum ≤ r.packetNum → r'.sentUs ≤ r.sentUs)) ∧
    (livePackets (w.reports ++ [r]) (w.state.expire r.interval).latestInterval).card ≤ 65536
  | .apply _ _ => True

instance (w : LossRun) (call : LossCall) : Decidable (w.Admissible call) := by
  induction call using LossCall.casesOn <;> unfold Admissible <;> infer_instance

end LossRun

section Runs

open LossRun

theorem InOrder.append {reports : List Report} {r : Report} (h : InOrder reports)
    (hr : ∀ r' ∈ reports, (r.packetNum ≤ r'.packetNum → r.sentUs ≤ r'.sentUs) ∧
      (r'.packetNum ≤ r.packetNum → r'.sentUs ≤ r.sentUs)) : InOrder (reports ++ [r]) := by
  intro r₁ h₁ r₂ h₂ hle
  rcases List.mem_append.mp h₁ with h₁ | h₁
  · rcases List.mem_append.mp h₂ with h₂ | h₂
    · exact h r₁ h₁ r₂ h₂ hle
    · cases List.mem_singleton.mp h₂
      exact (hr r₁ h₁).2 hle
  · cases List.mem_singleton.mp h₁
    rcases List.mem_append.mp h₂ with h₂ | h₂
    · exact (hr r₂ h₂).1 hle
    · cases List.mem_singleton.mp h₂
      exact le_rfl

theorem counted_start : Counted {} [] := by
  constructor
  · intro packetNum packet
    simp [OrderedMap.find, OrderedMap.empty, sentIn]
  · intro interval
    simp [OrderedMap.find, OrderedMap.empty, sentIn]

theorem counted_of_reaches {w : LossRun} (h : Reaches step Admissible {} w) :
    Counted w.state w.reports ∧ InOrder w.reports := by
  refine h.keeps (I := fun w => Counted w.state w.reports ∧ InOrder w.reports)
    ⟨counted_start, by simp [InOrder]⟩ ?_
  rintro w call w' ⟨hcounted, horder⟩ hadmissible hstep
  cases call with
  | report r =>
    cases hstep
    have horder' := horder.append hadmissible.1
    exact ⟨(hcounted.report horder' hadmissible.2).1, horder'⟩
  | apply windowEndUs summary =>
    cases hstep
    exact ⟨hcounted.expire horder _, horder⟩

theorem max?_of_mem_iff {a b : List Int} {j : Int} (h : ∀ i, i ∈ b ↔ i = j ∨ i ∈ a) :
    b.max? = some (max (a.max?.getD j) j) := by
  rw [List.max?_eq_some_iff]
  cases hx : a.max? with
  | none =>
    rw [List.max?_eq_none_iff] at hx
    simp [h, hx]
  | some l =>
    obtain ⟨hl, hle⟩ := List.max?_eq_some_iff.mp hx
    rw [Option.getD_some]
    refine ⟨(h _).mpr ?_, fun i hi => ?_⟩
    · rcases max_choice l j with heq | heq <;> rw [heq]
      · exact .inr hl
      · exact .inl rfl
    · rcases (h i).mp hi with rfl | hi
      · exact le_max_right _ _
      · exact (hle i hi).trans (le_max_left _ _)

theorem report_latest (s : FeedbackLoss) (r : Report) :
    (s.report r).1.latestInterval = (s.expire r.interval).latestInterval := by
  rw [report_eq]
  unfold outcome
  dsimp only
  split
  · rfl
  · split <;> split <;> rfl

theorem latest_of_reaches {w : LossRun} (h : Reaches step Admissible {} w) :
    w.state.latestInterval = w.intervals.max? := by
  refine h.keeps (I := fun w => w.state.latestInterval = w.intervals.max?) rfl ?_
  rintro w call w' hlatest - hstep
  cases call with
  | report r =>
    cases hstep
    rw [max?_of_mem_iff (a := w.intervals) (j := r.interval), ← hlatest]
    · exact report_latest w.state r
    · intro i
      simp only [intervals, List.map_append, List.map_cons, List.map_nil, List.mem_append,
        List.mem_singleton]
      tauto
  | apply windowEndUs summary =>
    cases hstep
    rw [max?_of_mem_iff (a := w.intervals) (j := windowEndUs.tdiv kIntervalUs), ← hlatest]
    · rfl
    · intro i
      simp only [intervals, List.mem_append, List.mem_singleton]
      tauto

theorem sentBetween_congr {reports reports' : List Report}
    (h : ∀ r, r ∈ reports ↔ r ∈ reports') (low stop : Int) :
    sentBetween reports low stop = sentBetween reports' low stop ∧
      ackedBetween reports low stop = ackedBetween reports' low stop := by
  constructor
  · ext p
    simp [sentBetween, h]
  · ext p
    simp [ackedBetween, h]

/-- Retention goes by the largest interval of all calls. The counts of each interval that is
retained are the numbers of its packets that were ever acknowledged and of the others. No count is
negative and every report is taken. The totals of a window that is newer than the retention limit
are those of the set of reports. -/
theorem loss_ledger_exact {w : LossRun} (h : Reaches step Admissible {} w) :
    w.state.latestInterval = w.intervals.max? ∧
    (∀ interval, w.state.history.find interval =
      if Retained w.state.latestInterval interval ∧ (sentIn w.reports interval).Nonempty then
        some ⟨interval, (ackedIn w.reports interval).card,
          (sentIn w.reports interval \ ackedIn w.reports interval).card⟩
      else none) ∧
    (∀ entry ∈ w.state.history.entries, 0 ≤ entry.2.acked ∧ 0 ≤ entry.2.lost) ∧
    (∀ r, w.Admissible (.report r) → (w.state.report r).2 = true) ∧
    (∀ (windowEndUs stop : Int) (summary : LossSummary), stop = windowEndUs.tdiv kIntervalUs →
      Newer w.state.latestInterval stop →
      (w.state.apply windowEndUs summary).2.acked =
          (ackedBetween w.reports (stop - kN) stop).card ∧
        (w.state.apply windowEndUs summary).2.lost =
          (sentBetween w.reports (stop - kN) stop \
            ackedBetween w.reports (stop - kN) stop).card) ∧
    ∀ w', Reaches step Admissible {} w' → (∀ r, r ∈ w.reports ↔ r ∈ w'.reports) →
      ∀ (windowEndUs : Int) (summary : LossSummary),
        Newer w.state.latestInterval (windowEndUs.tdiv kIntervalUs) →
        Newer w'.state.latestInterval (windowEndUs.tdiv kIntervalUs) →
        (w.state.apply windowEndUs summary).2.acked =
            (w'.state.apply windowEndUs summary).2.acked ∧
          (w.state.apply windowEndUs summary).2.lost =
            (w'.state.apply windowEndUs summary).2.lost := by
  obtain ⟨hcounted, horder⟩ := counted_of_reaches h
  refine ⟨latest_of_reaches h, hcounted.history, ?_, ?_, ?_, ?_⟩
  · rintro ⟨i, entry⟩ hmem
    have hfound := hcounted.history i
    rw [find_eq_some.mpr hmem] at hfound
    split_ifs at hfound
    cases hfound
    exact ⟨Int.natCast_nonneg _, Int.natCast_nonneg _⟩
  · intro r hadmissible
    exact (hcounted.report (horder.append hadmissible.1) hadmissible.2).2
  · intro windowEndUs stop summary hstop hnewer
    exact hcounted.totals horder hstop hnewer summary
  · intro w' h' hsame windowEndUs summary hnewer hnewer'
    obtain ⟨hcounted', horder'⟩ := counted_of_reaches h'
    obtain ⟨hacked, hlost⟩ := hcounted.totals horder rfl hnewer summary
    obtain ⟨hacked', hlost'⟩ := hcounted'.totals horder' rfl hnewer' summary
    have hsets := sentBetween_congr hsame (windowEndUs.tdiv kIntervalUs - kN)
      (windowEndUs.tdiv kIntervalUs)
    rw [hacked, hlost, hacked', hlost', hsets.1, hsets.2]
    exact ⟨rfl, rfl⟩

/-- A packet that is declared lost and then acknowledged. -/
def lostThenAcked : List LossCall :=
  [.report ⟨.declaredLost, 0, 7⟩, .report ⟨.spuriousLoss, 0, 7⟩]

def ackedThenLost : List LossCall :=
  [.report ⟨.spuriousLoss, 0, 7⟩, .report ⟨.declaredLost, 0, 7⟩]

theorem loss_ledger_exact_both_orders :
    ∃ w w' : LossRun, runMeets step Admissible {} lostThenAcked = some w ∧
      runMeets step Admissible {} ackedThenLost = some w' ∧
      w.state.history.find 0 = some ⟨0, 1, 0⟩ ∧ ∀ summary,
        (w.state.apply 350000 summary).2.acked = (w'.state.apply 350000 summary).2.acked := by
  obtain ⟨w, hreach, hmeets, hrun⟩ := reaches_of_elim step Admissible {} lostThenAcked
    (fun w => decide (w.reports = [⟨.declaredLost, 0, 7⟩, ⟨.spuriousLoss, 0, 7⟩] ∧
      w.state.latestInterval = some 0 ∧ w.state.history.find 0 = some ⟨0, 1, 0⟩))
    (by decide +kernel)
  obtain ⟨w', hreach', hmeets', hrun'⟩ := reaches_of_elim step Admissible {} ackedThenLost
    (fun w => decide (w.reports = [⟨.spuriousLoss, 0, 7⟩, ⟨.declaredLost, 0, 7⟩] ∧
      w.state.latestInterval = some 0)) (by decide +kernel)
  obtain ⟨hreports, hlatest, hcount⟩ := of_decide_eq_true hrun
  obtain ⟨hreports', hlatest'⟩ := of_decide_eq_true hrun'
  refine ⟨w, w', hmeets, hmeets', hcount, fun summary => ?_⟩
  have hnewer : Newer (some 0) (Int.tdiv 350000 kIntervalUs) := by
    rintro _ ⟨⟩
    decide
  refine ((loss_ledger_exact hreach).2.2.2.2.2 w' hreach' ?_ 350000 summary (hlatest ▸ hnewer)
    (hlatest' ▸ hnewer)).1
  rw [hreports, hreports']
  simp [or_comm]

end Runs

end Moqx.Sbd
