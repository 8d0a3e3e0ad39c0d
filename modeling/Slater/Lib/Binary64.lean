import Mathlib

/-!
# Binary64 images of 64-bit integers

A double is held as its 64 bits. `ofInt64` is the conversion of a signed integer to the nearest
double, ties to even; `totalCmp` is the IEEE total order, which orders bits after flipping the
payload of the negative ones; `eq` is IEEE equality.

Two facts carry what other modules need. `totalCmp` separates exactly different bits, and on images
of integers `eq` does too, so each of the two comparisons identifies two integers exactly when the
conversion does. The conversion keeps the order of the integers; it is injective up to 2 ^ 53 and not
beyond.

Arithmetic on doubles is not defined: no module here needs more of a double than where an integer falls and how two
of them compare.
-/

namespace Slater.Binary64

variable {m : Nat}

/-- The 53-bit significand of `m`, whose leading bit has weight `2 ^ e`: exact when the leading
bit lies in the significand's range, rounded to nearest with ties to even beyond. A carry out of
the top yields `2 ^ 53`. -/
def significand (m e : Nat) : Nat :=
  if e ≤ 52 then m * 2 ^ (52 - e)
  else
    let q := m / 2 ^ (e - 52)
    let r := m % 2 ^ (e - 52)
    if 2 ^ (e - 52) < 2 * r ∨ (2 * r = 2 ^ (e - 52) ∧ q % 2 = 1) then q + 1 else q

/-- The bits of the double nearest to `m`. The exponent field is added, not joined, so that the
carry of a significand `2 ^ 53` moves into it. -/
def ofNatBits (m : Nat) : Nat :=
  if m = 0 then 0 else (m.log2 + 1022) * 2 ^ 52 + significand m m.log2

variable (i : Int64)

/-- `i as f64`. -/
def ofInt64 : UInt64 :=
  if i.toInt < 0 then UInt64.ofNat (2 ^ 63 + ofNatBits i.toInt.natAbs)
  else UInt64.ofNat (ofNatBits i.toInt.natAbs)

variable (b : UInt64)

/-- The position of a double in the IEEE total order. -/
def totalKey : Int :=
  if b.toNat < 2 ^ 63 then b.toNat else 2 ^ 63 - 1 - b.toNat

/-- `f64::total_cmp`. -/
def totalCmp (a b : UInt64) : Ordering := compare (totalKey a) (totalKey b)

def isNaN : Bool := decide (2047 * 2 ^ 52 < b.toNat % 2 ^ 63)

def isZero : Bool := b.toNat % 2 ^ 63 == 0

/-- IEEE equality: a NaN equals nothing, the two zeros are equal. -/
def eq (a b : UInt64) : Bool := !isNaN a && !isNaN b && (a == b || (isZero a && isZero b))

/-! The same two comparisons on 32 bits. -/

def totalKey32 (b : UInt32) : Int :=
  if b.toNat < 2 ^ 31 then b.toNat else 2 ^ 31 - 1 - b.toNat

/-- `f32::total_cmp`. -/
def totalCmp32 (a b : UInt32) : Ordering := compare (totalKey32 a) (totalKey32 b)

def isNaN32 (b : UInt32) : Bool := decide (255 * 2 ^ 23 < b.toNat % 2 ^ 31)

def isZero32 (b : UInt32) : Bool := b.toNat % 2 ^ 31 == 0

def eq32 (a b : UInt32) : Bool :=
  !isNaN32 a && !isNaN32 b && (a == b || (isZero32 a && isZero32 b))

/-! The conversions to 32 bits. A carry out of the significand moves into the exponent field, as above. -/

/-- `m / 2 ^ s`, rounded to nearest with ties to even. -/
def roundShift (m s : Nat) : Nat :=
  let q := m / 2 ^ s
  let r := m % 2 ^ s
  if 2 ^ s < 2 * r ∨ (2 * r = 2 ^ s ∧ q % 2 = 1) then q + 1 else q

/-- `x as f32` for a double. A double below the normal range of 32 bits loses the more bits the
smaller it is; one above its range becomes infinite. -/
def toBinary32 : UInt32 :=
  let sign := b.toNat / 2 ^ 63 * 2 ^ 31
  let e := b.toNat / 2 ^ 52 % 2 ^ 11
  let fraction := b.toNat % 2 ^ 52
  if e = 2047 then
    UInt32.ofNat (sign + 255 * 2 ^ 23 + if fraction = 0 then 0 else 2 ^ 22 + fraction / 2 ^ 29 % 2 ^ 22)
  else
    let whole := if e = 0 then fraction else fraction + 2 ^ 52
    let bits :=
      if 897 ≤ e then (e - 897) * 2 ^ 23 + roundShift whole 29
      else roundShift whole (29 + (897 - max e 1))
    UInt32.ofNat (sign + min bits (255 * 2 ^ 23))

/-- `f32::is_finite`. -/
def isFinite32 (b : UInt32) : Bool := decide (b.toNat % 2 ^ 31 < 255 * 2 ^ 23)

/-! ## The total order -/

theorem totalKey_injective : Function.Injective totalKey := by
  intro a b h
  apply UInt64.toNat_inj.mp
  unfold totalKey at h
  split at h <;> split at h <;> omega

theorem totalCmp_eq_iff (a b : UInt64) : totalCmp a b = .eq ↔ a = b := by
  rw [totalCmp, compare_eq_iff_eq]
  exact ⟨fun h => totalKey_injective h, congrArg totalKey⟩

/-! ## The range of the conversion -/

/-- A rounded significand keeps its leading bit and carries at most to `2 ^ 53`. -/
theorem significand_bounds (hm : m ≠ 0) : 2 ^ 52 ≤ significand m m.log2 ∧ significand m m.log2 ≤ 2 ^ 53 := by
  have hlow : 2 ^ m.log2 ≤ m := Nat.log2_self_le hm
  have hhigh : m < 2 ^ (m.log2 + 1) := Nat.lt_log2_self
  unfold significand
  split
  next he =>
    constructor
    · calc 2 ^ 52 = 2 ^ m.log2 * 2 ^ (52 - m.log2) := by rw [← Nat.pow_add]; congr 1; omega
        _ ≤ m * 2 ^ (52 - m.log2) := Nat.mul_le_mul_right _ hlow
    · calc m * 2 ^ (52 - m.log2) ≤ 2 ^ (m.log2 + 1) * 2 ^ (52 - m.log2) :=
            Nat.mul_le_mul_right _ hhigh.le
        _ = 2 ^ 53 := by rw [← Nat.pow_add]; congr 1; omega
  next he =>
    have hpos : 0 < 2 ^ (m.log2 - 52) := Nat.two_pow_pos _
    have hq : 2 ^ 52 ≤ m / 2 ^ (m.log2 - 52) := by
      rw [Nat.le_div_iff_mul_le hpos, ← Nat.pow_add]
      exact le_trans (Nat.pow_le_pow_right (by omega) (by omega)) hlow
    have hq' : m / 2 ^ (m.log2 - 52) < 2 ^ 53 := by
      rw [Nat.div_lt_iff_lt_mul hpos, ← Nat.pow_add]
      exact lt_of_lt_of_le hhigh (Nat.pow_le_pow_right (by omega) (by omega))
    dsimp only
    split <;> omega

/-- The image of an integer of at most 64 bits is finite and, unless the integer is zero, not a
zero. -/
theorem ofNatBits_lt (h : m ≤ 2 ^ 63) : ofNatBits m ≤ 2047 * 2 ^ 52 := by
  unfold ofNatBits
  split
  · omega
  next hm =>
    have hlog : m.log2 < 64 := (Nat.log2_lt hm).mpr (by omega)
    have := (significand_bounds hm).2
    omega

theorem ofNatBits_pos (h : m ≠ 0) : 0 < ofNatBits m := by
  rw [ofNatBits, if_neg h]
  omega

theorem natAbs_toInt_le : i.toInt.natAbs ≤ 2 ^ 63 := by
  have h₁ := i.le_toInt
  have h₂ := i.toInt_lt
  omega

/-- The bits of a converted integer: the sign, then the magnitude's image. -/
theorem toNat_ofInt64 : (ofInt64 i).toNat =
      (if i.toInt < 0 then 2 ^ 63 else 0) + ofNatBits i.toInt.natAbs := by
  have h := ofNatBits_lt (natAbs_toInt_le i)
  unfold ofInt64
  split
  · rw [UInt64.toNat_ofNat']
    omega
  · rw [UInt64.toNat_ofNat']
    omega

theorem isNaN_ofInt64 : isNaN (ofInt64 i) = false := by
  have h := ofNatBits_lt (natAbs_toInt_le i)
  rw [isNaN, toNat_ofInt64]
  split <;> simp only [decide_eq_false_iff_not] <;> omega

/-- Only the integer zero has a zero as its image. -/
theorem isZero_ofInt64 : isZero (ofInt64 i) = true ↔ i = 0 := by
  have h := ofNatBits_lt (natAbs_toInt_le i)
  rw [isZero, toNat_ofInt64, beq_iff_eq]
  constructor
  · intro hz
    by_contra hne
    have hne' : i.toInt.natAbs ≠ 0 := by
      rw [Int.natAbs_ne_zero]
      intro h0
      exact hne (Int64.toInt_inj.mp h0)
    have := ofNatBits_pos hne'
    split at hz <;> omega
  · rintro rfl
    rfl

/-- **IEEE equality of two converted integers is equality of their images.** An image is never a
NaN and never a negative zero, the two cases in which IEEE equality and equality of bits
part. -/
theorem eq_ofInt64_iff (i j : Int64) : eq (ofInt64 i) (ofInt64 j) = true ↔ ofInt64 i = ofInt64 j := by
  simp only [eq, isNaN_ofInt64, Bool.not_false, Bool.true_and, Bool.or_eq_true, beq_iff_eq,
    Bool.and_eq_true, isZero_ofInt64, or_iff_left_iff_imp]
  rintro ⟨rfl, rfl⟩
  rfl

/-! ## Integers a double holds exactly -/

/-- Up to `2 ^ 53` the significand is the integer itself, shifted to full width. -/
theorem significand_exact (hm : m ≠ 0) (h : m ≤ 2 ^ 53) :
    significand m m.log2 < 2 ^ 53 ∧ significand m m.log2 * 2 ^ m.log2 = m * 2 ^ 52 := by
  by_cases htop : m = 2 ^ 53
  · subst htop
    decide
  · have hlog : m.log2 < 53 := (Nat.log2_lt hm).mpr (by omega)
    have hhigh : m < 2 ^ (m.log2 + 1) := Nat.lt_log2_self
    rw [significand, if_pos (by omega)]
    constructor
    · calc m * 2 ^ (52 - m.log2) < 2 ^ (m.log2 + 1) * 2 ^ (52 - m.log2) :=
            Nat.mul_lt_mul_of_pos_right hhigh (Nat.two_pow_pos _)
        _ = 2 ^ 53 := by rw [← Nat.pow_add]; congr 1; omega
    · rw [Nat.mul_assoc, ← Nat.pow_add]
      congr 2
      omega

/-- Below `2 ^ 53` nothing is rounded, and what is larger has a larger image. -/
theorem ofNatBits_strictMono {n : Nat} (hmn : m < n) (hm : m < 2 ^ 53) : ofNatBits m < ofNatBits n := by
  have hn0 : n ≠ 0 := Nat.ne_zero_of_lt hmn
  have hsig := (significand_bounds hn0).1
  rw [ofNatBits, ofNatBits]
  split
  · omega
  next hm0 =>
    obtain ⟨hsig', hvm⟩ := significand_exact hm0 hm.le
    rcases Nat.lt_or_ge m.log2 n.log2 with hlog | hlog
    · omega
    -- one exponent, so the significands are in the order of the integers
    · have hle : n.log2 < 53 := Nat.lt_of_le_of_lt hlog ((Nat.log2_lt hm0).mpr hm)
      have hn : n ≤ 2 ^ 53 := ((Nat.log2_lt hn0).mp hle).le
      have hvn := (significand_exact hn0 hn).2
      have heq : m.log2 = n.log2 := by
        refine Nat.le_antisymm ((Nat.le_log2 hn0).mpr ?_) hlog
        exact (Nat.log2_self_le hm0).trans hmn.le
      have hlt : significand m m.log2 * 2 ^ n.log2 < significand n n.log2 * 2 ^ n.log2 := by
        rw [← heq, hvm, heq, hvn]
        exact Nat.mul_lt_mul_of_pos_right hmn (by decide)
      have := Nat.lt_of_mul_lt_mul_right hlt
      omega

/-- The place of a converted integer in the total order. -/
theorem totalKey_ofInt64 : totalKey (ofInt64 i) =
    if i.toInt < 0 then -1 - (ofNatBits i.toInt.natAbs : Int) else ofNatBits i.toInt.natAbs := by
  have h := ofNatBits_lt (natAbs_toInt_le i)
  rw [totalKey, toNat_ofInt64]
  split <;> split <;> omega

/-- Rounding keeps the order of two integers whose leading bits have one weight. -/
theorem significand_mono {n e : Nat} (h : m ≤ n) : significand m e ≤ significand n e := by
  unfold significand
  split
  · exact Nat.mul_le_mul_right _ h
  · have hq : m / 2 ^ (e - 52) ≤ n / 2 ^ (e - 52) := Nat.div_le_div_right h
    have hm := Nat.div_add_mod m (2 ^ (e - 52))
    have hn := Nat.div_add_mod n (2 ^ (e - 52))
    dsimp only
    rcases hq.lt_or_eq with hlt | heq
    · split <;> split <;> omega
    · -- one quotient, so the remainders are in the order of the integers
      rw [heq] at hm ⊢
      split <;> split <;> omega

/-- The conversion keeps the order; beyond `2 ^ 53` it may identify neighbours. -/
theorem ofNatBits_mono {n : Nat} (h : m ≤ n) : ofNatBits m ≤ ofNatBits n := by
  unfold ofNatBits
  split
  · exact Nat.zero_le _
  next hm =>
    have hn : n ≠ 0 := by omega
    have hlog : m.log2 ≤ n.log2 := (Nat.le_log2 hn).mpr ((Nat.log2_self_le hm).trans h)
    rw [if_neg hn]
    rcases hlog.lt_or_eq with hlt | heq
    · -- a carry out of the smaller significand reaches the next exponent and no further
      have hsm := (significand_bounds hm).2
      have hsn := (significand_bounds hn).1
      omega
    · rw [heq]
      exact Nat.add_le_add_left (significand_mono h) _

section

variable {i j : Int64}

/-- The images are in the order of the integers, though not strictly. -/
theorem totalKey_ofInt64_mono (h : i.toInt ≤ j.toInt) : totalKey (ofInt64 i) ≤ totalKey (ofInt64 j) := by
  have hij := @ofNatBits_mono i.toInt.natAbs j.toInt.natAbs
  have hji := @ofNatBits_mono j.toInt.natAbs i.toInt.natAbs
  rw [totalKey_ofInt64, totalKey_ofInt64]
  split <;> split <;> omega

/-- An integer below `2 ^ 53` shares its image with no other integer. -/
theorem eq_of_ofInt64_eq (hi : i.toInt.natAbs < 2 ^ 53) (h : ofInt64 i = ofInt64 j) : i = j := by
  have hij := @ofNatBits_strictMono i.toInt.natAbs j.toInt.natAbs
  have hji := @ofNatBits_strictMono j.toInt.natAbs i.toInt.natAbs
  have hkey := congrArg totalKey h
  rw [totalKey_ofInt64, totalKey_ofInt64] at hkey
  apply Int64.toInt_inj.mp
  split at hkey <;> split at hkey <;> omega

end

/-- The first integer that is rounded away: `2 ^ 53 + 1` has the image of `2 ^ 53`. -/
example : ofInt64 9007199254740993 = ofInt64 9007199254740992 := by decide

end Slater.Binary64
