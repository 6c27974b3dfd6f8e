import Mathlib.Data.Nat.Bitwise
import Mathlib.Tactic.NormNum

/-! The cursor of the wire decoder, and the variable-length integers it reads. -/
namespace Moqx.Wire

/-- A read that fails, with the place it fails at. -/
structure ParseError where
  msg : String
  offset : Nat
deriving DecidableEq, Repr

structure Cursor where
  data : List UInt8
  pos : Nat := 0
deriving DecidableEq, Repr

namespace Cursor

def remaining (c : Cursor) : Nat := c.data.length - c.pos

/-- The byte at a place; the callers have checked that there is one. -/
def byte (c : Cursor) (i : Nat) : Nat := (c.data.getD i 0).toNat

def advance (c : Cursor) (n : Nat) : Cursor := { c with pos := c.pos + n }

/-- The value and where it starts. A read that fails leaves the cursor where it is. -/
def readVarint (c : Cursor) : Except ParseError (Nat × Nat) × Cursor :=
  if c.data.length ≤ c.pos then (.error ⟨"underflow reading varint", c.pos⟩, c)
  else
    let first := c.byte c.pos
    let kind := (first &&& 0xC0) >>> 6
    if kind = 0 then (.ok (first &&& 0x3F, c.pos), c.advance 1)
    else if kind = 1 then
      if c.remaining < 2 then (.error ⟨"underflow reading 2-byte varint", c.pos⟩, c)
      else (.ok (((first &&& 0x3F) <<< 8) ||| c.byte (c.pos + 1), c.pos), c.advance 2)
    else if kind = 2 then
      if c.remaining < 4 then (.error ⟨"underflow reading 4-byte varint", c.pos⟩, c)
      else
        (.ok ((((first &&& 0x3F) <<< 24) ||| (c.byte (c.pos + 1) <<< 16) |||
          (c.byte (c.pos + 2) <<< 8)) ||| c.byte (c.pos + 3), c.pos), c.advance 4)
    else if c.remaining < 8 then (.error ⟨"underflow reading 8-byte varint", c.pos⟩, c)
    else
      let val := (List.range 8).foldl (fun val i => (val <<< 8) ||| c.byte (c.pos + i)) 0
      (.ok (val &&& 0x00FFFFFFFFFFFFFF, c.pos), c.advance 8)

end Cursor

/-- The low bytes of a number, the highest one first. -/
def bigEndian : Nat → Nat → List UInt8
  | 0, _ => []
  | n + 1, x => UInt8.ofNat (x / 256 ^ n) :: bigEndian n x

/-- A value in `2 ^ k` bytes: the two highest bits say `k`. Every value that fits has an encoding
for this `k` and for all larger ones. -/
def encodeVarint (k : Nat) (v : Nat) : List UInt8 :=
  bigEndian (2 ^ k) (k * 2 ^ (8 * 2 ^ k - 2) + v)

@[simp]
theorem length_bigEndian (n x : Nat) : (bigEndian n x).length = n := by
  induction n with
  | zero => rfl
  | succ n ih => rw [bigEndian, List.length_cons, ih]

@[simp]
theorem length_encodeVarint (k : Nat) (v : Nat) : (encodeVarint k v).length = 2 ^ k :=
  length_bigEndian _ _

theorem getElem_bigEndian {n i : Nat} (x : Nat) (h : i < n) :
    (bigEndian n x)[i]? = some (UInt8.ofNat (x / 256 ^ (n - 1 - i))) := by
  induction n generalizing i with
  | zero => cases h
  | succ n ih =>
    cases i with
    | zero => rfl
    | succ i =>
      rw [bigEndian, List.getElem?_cons_succ, ih (Nat.lt_of_succ_lt_succ h)]
      congr 4
      omega

/-- Two bits of the first byte say which of the four cases it is. -/
theorem kind_eq : ∀ b < 256, (b &&& 0xC0) >>> 6 = b / 64 := by
  decide +kernel

theorem low_bits (b : Nat) : b &&& 0x3F = b % 64 :=
  Nat.and_two_pow_sub_one_eq_mod b 6

theorem shift_or (x : Nat) {b : Nat} (h : b < 256) : (x <<< 8) ||| b = x * 256 + b := by
  rw [← Nat.shiftLeft_add_eq_or_of_lt h, Nat.shiftLeft_eq]

/-- The shifts of four bytes as one shift after the other. -/
theorem shifts_nested (a b c d : Nat) : ((a <<< 24) ||| (b <<< 16) ||| (c <<< 8)) ||| d =
    ((((a <<< 8) ||| b) <<< 8 ||| c) <<< 8) ||| d := by
  simp only [Nat.shiftLeft_or_distrib, ← Nat.shiftLeft_add]

theorem byte_lt (c : Cursor) (i : Nat) : c.byte i < 256 := UInt8.toNat_lt _

variable (before : List UInt8) {part : List UInt8} {n x i k v : Nat}

/-- What the cursor sees of a number that begins at its place. -/
theorem byte_of_bigEndian (h : i < n) (hpart : part[i]? = (bigEndian n x)[i]?) :
    (Cursor.mk (before ++ part) before.length).byte (before.length + i) =
      x / 256 ^ (n - 1 - i) % 256 := by
  have hget : (before ++ part)[before.length + i]? =
      some (UInt8.ofNat (x / 256 ^ (n - 1 - i))) := by
    rw [List.getElem?_append_right (Nat.le_add_right _ _), Nat.add_sub_cancel_left, hpart,
      getElem_bigEndian x h]
  rw [Cursor.byte, List.getD_eq_getElem?_getD, hget]
  exact UInt8.toNat_ofNat'

/-- The first byte of an encoding tells its length. -/
theorem kind_of_encodeVarint (hk : k < 4) (hv : v < 2 ^ (8 * 2 ^ k - 2))
    (hpart : part[0]? = (encodeVarint k v)[0]?) :
    (Cursor.mk (before ++ part) before.length).byte before.length / 64 = k := by
  have hbyte := byte_of_bigEndian before (Nat.two_pow_pos k) hpart
  rw [Nat.add_zero] at hbyte
  rw [hbyte]
  obtain rfl | rfl | rfl | rfl : k = 0 ∨ k = 1 ∨ k = 2 ∨ k = 3 := by omega
  all_goals
    norm_num at hv ⊢
    omega

/-- The byte loop puts the bytes together again. -/
theorem foldl_bytes {c : Cursor} {p m : Nat}
    (hbyte : ∀ i < n, c.byte (p + i) = x / 256 ^ (n - 1 - i) % 256) (hm : m ≤ n) :
    (List.range m).foldl (fun val i => val * 256 + c.byte (p + i)) 0 =
      x / 256 ^ (n - m) % 256 ^ m := by
  induction m with
  | zero => simp [Nat.mod_one]
  | succ m ih =>
    have hsub : n - m = n - (m + 1) + 1 := by omega
    have hsub' : n - 1 - m = n - (m + 1) := by omega
    rw [List.range_succ, List.foldl_append, ih (Nat.le_of_succ_le hm), List.foldl_cons,
      List.foldl_nil, hbyte m hm, hsub', hsub, pow_succ, ← Nat.div_div_eq_div_mul, pow_succ',
      Nat.mod_mul, Nat.mul_comm]
    exact Nat.add_comm _ _

theorem readVarint_encodeVarint (hk : k < 4) (hv : v < 2 ^ (8 * 2 ^ k - 2)) (after : List UInt8) :
    (Cursor.mk (before ++ (encodeVarint k v ++ after)) before.length).readVarint =
      (.ok (v % 2 ^ 56, before.length),
        ⟨before ++ (encodeVarint k v ++ after), before.length + 2 ^ k⟩) := by
  have hpart : ∀ i < 2 ^ k, (encodeVarint k v ++ after)[i]? = (encodeVarint k v)[i]? :=
    fun i hi => List.getElem?_append_left (by rwa [length_encodeVarint])
  have hkind := kind_of_encodeVarint before hk hv (hpart 0 (Nat.two_pow_pos _))
  have hpos := Nat.two_pow_pos k
  have hbyte := fun i hi => byte_of_bigEndian before hi (hpart i hi)
  have hmask (val : Nat) : val &&& 0x00FFFFFFFFFFFFFF = val % 2 ^ 56 :=
    Nat.and_two_pow_sub_one_eq_mod val 56
  rw [Cursor.readVarint, if_neg (by simp only [List.length_append, length_encodeVarint]; omega)]
  -- the shifts and masks of the code in the arithmetic of numbers
  simp only [kind_eq _ (byte_lt _ _), hkind, low_bits, shifts_nested, shift_or _ (byte_lt _ _),
    hmask, Cursor.remaining, Cursor.advance, List.length_append, length_encodeVarint,
    Nat.add_sub_cancel_left]
  generalize Cursor.mk _ _ = c at hbyte ⊢
  have hroom : ¬ 2 ^ k + after.length < 2 ^ k := Nat.not_lt.mpr (Nat.le_add_right _ _)
  obtain rfl | rfl | rfl | rfl : k = 0 ∨ k = 1 ∨ k = 2 ∨ k = 3 := by omega
  · have hval : c.byte before.length % 64 = v % 2 ^ 56 := by
      have h0 := hbyte 0 (by decide)
      norm_num at hv h0 ⊢
      omega
    rw [← hval]
    exact if_pos rfl
  · have hval : c.byte before.length % 64 * 256 + c.byte (before.length + 1) = v % 2 ^ 56 := by
      have h0 := hbyte 0 (by decide)
      have h1 := hbyte 1 (by decide)
      norm_num at hv h0 h1 ⊢
      omega
    rw [if_neg Nat.one_ne_zero, if_pos rfl, ← hval]
    exact if_neg hroom
  · have hval : ((c.byte before.length % 64 * 256 + c.byte (before.length + 1)) * 256 +
        c.byte (before.length + 2)) * 256 + c.byte (before.length + 3) = v % 2 ^ 56 := by
      have h0 := hbyte 0 (by decide)
      have h1 := hbyte 1 (by decide)
      have h2 := hbyte 2 (by decide)
      have h3 := hbyte 3 (by decide)
      norm_num at hv h0 h1 h2 h3 ⊢
      omega
    rw [if_neg two_ne_zero, if_neg (by decide), if_pos rfl, ← hval]
    exact if_neg hroom
  · have hval : (List.range 8).foldl (fun val i => val * 256 + c.byte (before.length + i)) 0 %
        2 ^ 56 = v % 2 ^ 56 := by
      rw [foldl_bytes hbyte (m := 8) le_rfl]
      norm_num at hv ⊢
      omega
    rw [if_neg three_ne_zero, if_neg (by decide), if_neg (by decide), ← hval]
    exact if_neg hroom

/-- Every encoding of a value below `2 ^ 56` is read back, and no other one; what breaks off before
its end is refused, with the cursor left where it is. -/
theorem readVarint_exact_iff (k : Nat) (v : Nat) (before : List UInt8)
    (hk : k < 4) (hv : v < 2 ^ (8 * 2 ^ k - 2)) :
    ((∀ after, (Cursor.mk (before ++ (encodeVarint k v ++ after)) before.length).readVarint =
      (.ok (v, before.length),
        ⟨before ++ (encodeVarint k v ++ after), before.length + 2 ^ k⟩)) ↔ v < 2 ^ 56) ∧
    ∀ cut < 2 ^ k, ∃ error,
      (Cursor.mk (before ++ (encodeVarint k v).take cut) before.length).readVarint =
        (.error error, ⟨before ++ (encodeVarint k v).take cut, before.length⟩) := by
  constructor
  · simp only [readVarint_encodeVarint before hk hv, Prod.mk.injEq, Except.ok.injEq, and_true,
      forall_const]
    constructor
    · intro h
      rw [← h]
      exact Nat.mod_lt _ (Nat.two_pow_pos 56)
    · exact Nat.mod_eq_of_lt
  · intro cut hcut
    have hlen : ((encodeVarint k v).take cut).length = cut := by
      rw [List.length_take, length_encodeVarint, Nat.min_eq_left hcut.le]
    rcases Nat.eq_zero_or_pos cut with rfl | hpos
    · exact ⟨_, if_pos (by simp)⟩
    · have hkind := kind_of_encodeVarint before hk hv (List.getElem?_take_of_lt hpos)
      rw [Cursor.readVarint, if_neg (by simp [hlen]; omega)]
      simp only [kind_eq _ (byte_lt _ _), hkind, Cursor.remaining, List.length_append, hlen,
        Nat.add_sub_cancel_left]
      obtain rfl | rfl | rfl | rfl : k = 0 ∨ k = 1 ∨ k = 2 ∨ k = 3 := by omega
      · omega
      · exact ⟨_, if_pos hcut⟩
      · exact ⟨_, if_pos hcut⟩
      · exact ⟨_, if_pos hcut⟩

/-- One byte more than needed is fine. -/
theorem readVarint_exact_twoBytes :
    (Cursor.mk [0x40, 0x25, 0xFF] 0).readVarint = (.ok (37, 0), ⟨[0x40, 0x25, 0xFF], 2⟩) :=
  (readVarint_exact_iff 1 37 [] (by decide) (by decide)).1.mpr (by decide) [0xFF]

/-- Of the eight bytes of an encoding the first one is lost. -/
theorem high_byte_lost : encodeVarint 3 (2 ^ 56) = [0xC1, 0, 0, 0, 0, 0, 0, 0] ∧
    (Cursor.mk (encodeVarint 3 (2 ^ 56)) 0).readVarint =
      (.ok (0, 0), ⟨encodeVarint 3 (2 ^ 56), 8⟩) := by
  constructor <;> decide +kernel

end Moqx.Wire
