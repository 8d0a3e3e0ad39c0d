import Slater.Exec.ValOrder

/-!
# The order of the range indexes

`Value::cmp_key` (`graph-format/src/ids.rs`) orders the entries of the range indexes: by kind first, and inside
a kind by value. Two integers are compared exactly, an integer and a float after the integer has been converted
to a double. The conversion rounds beyond `2 ^ 53`, so two different integers may both equal one float, and then
the three comparisons do not fit together.

This is the only way in which they fail to. `clash` looks for it at the first place at which three values are not
all equal, and three values without a clash are ordered as a total preorder orders them (`cmpKey_preordered`).
Integers among themselves never clash, however large they are. For values that are not lists the converse holds
too. For lists it does not: what follows the clash may happen to order the three lists after all.
-/

namespace Slater

open Binary64 Val

namespace Value

/-- The rank of `cmp_key`. -/
def rank : Value → Nat
  | .null => 0
  | .bool _ => 1
  | .int _ | .float _ => 2
  | .str _ => 3
  | .list _ => 4
  | .vector _ => 5

mutual

/-- `Value::cmp_key`. Two integers are compared exactly, an integer and a float as doubles. -/
def cmpKey : Value → Value → Ordering
  | .null, .null => .eq
  | .bool a, .bool b => compare a b
  | .int a, .int b => compare a.toInt b.toInt
  | .float a, .float b => totalCmp a b
  | .int a, .float b => totalCmp (ofInt64 a) b
  | .float a, .int b => totalCmp a (ofInt64 b)
  | .str a, .str b => compare a b
  | .list a, .list b => cmpKeys a b
  | .vector a, .vector b => cmpLex totalCmp32 a b
  | a, b => compare a.rank b.rank

def cmpKeys : List Value → List Value → Ordering
  | [], [] => .eq
  | [], _ :: _ => .lt
  | _ :: _, [] => .gt
  | a :: as, b :: bs => (cmpKey a b).then (cmpKeys as bs)

end

variable {a b c : Value}

theorem cmpKey_of_rank_ne (h : a.rank ≠ b.rank) : cmpKey a b = compare a.rank b.rank := by
  cases a <;> cases b <;> first | exact absurd rfl h | rfl

/-! ## Orientation -/

mutual

theorem swap_cmpKey (a b : Value) : cmpKey b a = (cmpKey a b).swap := by
  by_cases h : a.rank = b.rank
  · cases a <;> cases b <;> first
      | exact absurd h (by simp only [rank]; decide)
      | simp only [cmpKey]
        first
          | rfl
          | exact swap_compare _ _
          | exact swap_totalCmp _ _
          | exact swap_cmpKeys _ _
          | exact swap_cmpLex swap_totalCmp32 _ _
  · rw [cmpKey_of_rank_ne h, cmpKey_of_rank_ne (Ne.symm h)]
    exact swap_compare _ _

theorem swap_cmpKeys : ∀ as bs : List Value, cmpKeys bs as = (cmpKeys as bs).swap
  | [], [] | [], _ :: _ | _ :: _, [] => rfl
  | a :: as, b :: bs => by
    rw [cmpKeys, cmpKeys, swap_cmpKey a b, swap_cmpKeys as bs, Ordering.swap_then]

end

theorem cmpKey_self (a : Value) : cmpKey a a = .eq := by
  have h := swap_cmpKey a a
  cases ha : cmpKey a a <;> rw [ha] at h <;> cases h

theorem cmpKey_eq_comm : cmpKey b a = .eq ↔ cmpKey a b = .eq := by
  rw [swap_cmpKey a b, Ordering.swap_eq_eq]

/-! ## Clashes -/

/-- Two different integers are converted to the one double. -/
def collide (i j : Int64) (f : UInt64) : Bool := i != j && ofInt64 i == f && ofInt64 j == f

theorem collide_comm (i j : Int64) (f : UInt64) : collide j i f = collide i j f := by
  rw [Bool.eq_iff_iff]
  simp only [collide, Bool.and_eq_true, bne_iff_ne, beq_iff_eq]
  exact ⟨fun h => ⟨⟨h.1.1.symm, h.2⟩, h.1.2⟩, fun h => ⟨⟨h.1.1.symm, h.2⟩, h.1.2⟩⟩

/-- Each of the three equals each. -/
def Alike (a b c : Value) : Prop := cmpKey a b = .eq ∧ cmpKey b c = .eq ∧ cmpKey a c = .eq

instance : Decidable (Alike a b c) := inferInstanceAs (Decidable (_ ∧ _ ∧ _))

mutual

/-- At the first place at which the three values are not all equal there are two different
integers and a float that both of them are converted to. -/
def clash : Value → Value → Value → Bool
  | .int i, .int j, .float f => collide i j f
  | .int i, .float f, .int j => collide i j f
  | .float f, .int i, .int j => collide i j f
  | .list as, .list bs, .list cs => clashIn as bs cs
  | _, _, _ => false

def clashIn : List Value → List Value → List Value → Bool
  | a :: as, b :: bs, c :: cs => if Alike a b c then clashIn as bs cs else clash a b c
  | _, _, _ => false

end

theorem Alike.swap (h : Alike a b c) : Alike b a c := ⟨cmpKey_eq_comm.mpr h.1, h.2.2, h.2.1⟩

theorem Alike.rotate (h : Alike a b c) : Alike b c a :=
  ⟨h.2.1, cmpKey_eq_comm.mpr h.2.2, cmpKey_eq_comm.mpr h.1⟩

/-! A clash does not depend on the order in which the three values are given. -/

mutual

theorem clash_swap (a b c : Value) : clash b a c = clash a b c := by
  cases a <;> cases b <;> cases c <;> simp only [clash, collide_comm, clashIn_swap]

theorem clashIn_swap : ∀ as bs cs : List Value, clashIn bs as cs = clashIn as bs cs
  | a :: as, b :: bs, c :: cs => by
    rw [clashIn, clashIn, clash_swap a b c, clashIn_swap as bs cs]
    exact if_congr ⟨Alike.swap, Alike.swap⟩ rfl rfl
  | [], [], _ | [], _ :: _, _ | _ :: _, [], _ | _ :: _, _ :: _, [] => by simp only [clashIn]

end

mutual

theorem clash_rotate (a b c : Value) : clash b c a = clash a b c := by
  cases a <;> cases b <;> cases c <;> simp only [clash, collide_comm, clashIn_rotate]

theorem clashIn_rotate : ∀ as bs cs : List Value, clashIn bs cs as = clashIn as bs cs
  | a :: as, b :: bs, c :: cs => by
    rw [clashIn, clashIn, clash_rotate a b c, clashIn_rotate as bs cs]
    exact if_congr ⟨fun h => h.rotate.rotate, Alike.rotate⟩ rfl rfl
  | [], [], [] | [], [], _ :: _ | [], _ :: _, [] | [], _ :: _, _ :: _ => by simp only [clashIn]
  | _ :: _, [], [] | _ :: _, [], _ :: _ | _ :: _, _ :: _, [] => by simp only [clashIn]

end

/-! ## Three values without a clash -/

theorem chain_then_of_ne {ab bc ac ab' bc' ac' : Ordering} (h : Chain ab bc ac)
    (hne : ¬ (ab = .eq ∧ bc = .eq ∧ ac = .eq)) : Chain (ab.then ab') (bc.then bc') (ac.then ac') := by
  revert h hne
  cases ab <;> cases bc <;> cases ac <;> simp [Chain]

/-- Numbers without a clash fit together: the conversion keeps the order, so the comparisons
could only part where it identifies two integers. -/
theorem chain_numbers {i j : Int64} {f : UInt64} (h : collide i j f = false) :
    Chain (cmpKey (.int i) (.int j)) (cmpKey (.int j) (.float f)) (cmpKey (.int i) (.float f)) ∧
      Chain (cmpKey (.int i) (.float f)) (cmpKey (.float f) (.int j)) (cmpKey (.int i) (.int j)) ∧
      Chain (cmpKey (.float f) (.int i)) (cmpKey (.int i) (.int j)) (cmpKey (.float f) (.int j)) := by
  have hij := @totalKey_ofInt64_mono i j
  have hji := @totalKey_ofInt64_mono j i
  have hne : totalKey (ofInt64 i) = totalKey f → totalKey (ofInt64 j) = totalKey f → i.toInt = j.toInt := by
    intro hi hj
    by_contra hneq
    have hi' := totalKey_injective hi
    have hj' := totalKey_injective hj
    have : i ≠ j := fun heq => hneq (congrArg _ heq)
    simp [collide, hi', hj', this] at h
  simp only [cmpKey, totalCmp, Chain, ne_eq, compare_gt_iff_gt, compare_eq_iff_eq]
  refine ⟨?_, ?_, ?_⟩ <;> omega

mutual

theorem chain_cmpKey (a b c : Value) (h : clash a b c = false) :
    Chain (cmpKey a b) (cmpKey b c) (cmpKey a c) := by
  by_cases hrank : a.rank = b.rank ∧ b.rank = c.rank
  · obtain ⟨hab, hbc⟩ := hrank
    cases a <;> cases b <;> first
      | exact absurd hab (by simp only [rank]; decide)
      | cases c <;> first
        | exact absurd hbc (by simp only [rank]; decide)
        | exact (chain_numbers h).1
        | exact (chain_numbers h).2.1
        | exact (chain_numbers h).2.2
        | simp only [cmpKey]
          first
            | exact chain_compare _ _ _
            | exact chain_totalCmp _ _ _
            | exact chain_cmpKeys _ _ _ h
            | exact chain_cmpLex (fun a b c => chain_compare (totalKey32 a) (totalKey32 b) _) _ _ _
            | simp [Chain]
  · exact chain_of_rank cmpKey_of_rank_ne hrank

theorem chain_cmpKeys : ∀ as bs cs : List Value, clashIn as bs cs = false →
    Chain (cmpKeys as bs) (cmpKeys bs cs) (cmpKeys as cs)
  | [], [], [], _ | [], [], _ :: _, _ | [], _ :: _, [], _ | [], _ :: _, _ :: _, _ => by simp [cmpKeys, Chain]
  | _ :: _, [], _, _ | _ :: _, _ :: _, [], _ => by simp [cmpKeys, Chain]
  | a :: as, b :: bs, c :: cs, h => by
    rw [clashIn] at h
    rw [cmpKeys, cmpKeys, cmpKeys]
    split at h
    · next halike =>
      rw [halike.1, halike.2.1, halike.2.2]
      exact chain_cmpKeys as bs cs h
    · next hdiffer => exact chain_then_of_ne (chain_cmpKey a b c h) hdiffer

end

/-- What a total preorder owes one triple. The laws are asked of every arrangement of the three
values by `Preordered`. -/
structure OrderedAt (a b c : Value) : Prop where
  refl : cmpKey a a = .eq
  swap : cmpKey b a = (cmpKey a b).swap
  trans : cmpKey a b ≠ .gt → cmpKey b c ≠ .gt → cmpKey a c ≠ .gt
  equal : cmpKey a b = .eq → cmpKey b c = .eq → cmpKey a c = .eq

/-- `cmp_key` is a total preorder on the three values, in whatever order they are taken. -/
def Preordered (a b c : Value) : Prop :=
  ∀ x ∈ [a, b, c], ∀ y ∈ [a, b, c], ∀ z ∈ [a, b, c], OrderedAt x y z

theorem orderedAt_of_chain (h : Chain (cmpKey a b) (cmpKey b c) (cmpKey a c)) : OrderedAt a b c where
  refl := cmpKey_self a
  swap := swap_cmpKey a b
  trans := fun hab hbc => (h hab hbc).1
  equal := fun hab hbc => (h (by rw [hab]; decide) (by rw [hbc]; decide)).2.mpr ⟨hab, hbc⟩

/-- A triple that names a value twice is ordered without further ado. -/
theorem chain_of_repeated (h : a = b ∨ b = c ∨ a = c) : Chain (cmpKey a b) (cmpKey b c) (cmpKey a c) := by
  rcases h with rfl | rfl | rfl
  · simp [Chain, cmpKey_self]
  · simp only [Chain, cmpKey_self, and_true]
    exact fun h _ => h
  · rw [cmpKey_self, swap_cmpKey a b]
    cases cmpKey a b <;> simp [Chain]

theorem preordered_of_clash_eq_false (h : clash a b c = false) : Preordered a b c := by
  have hclear : ∀ x ∈ [a, b, c], ∀ y ∈ [a, b, c], ∀ z ∈ [a, b, c],
      (x = y ∨ y = z ∨ x = z) ∨ clash x y z = false := by
    have hrotate := (clash_rotate a b c).trans h
    have hrotate' := (clash_rotate b c a).trans hrotate
    have hswap := (clash_swap a b c).trans h
    have hswap' := (clash_swap b c a).trans hrotate
    have hswap'' := (clash_swap c a b).trans hrotate'
    simp only [List.mem_cons, List.not_mem_nil, or_false]
    rintro x (rfl | rfl | rfl) y (rfl | rfl | rfl) z (rfl | rfl | rfl) <;> simp [*]
  intro x hx y hy z hz
  rcases hclear x hx y hy z hz with hrep | hclash
  · exact orderedAt_of_chain (chain_of_repeated hrep)
  · exact orderedAt_of_chain (chain_cmpKey x y z hclash)

/-- Two integers that both equal one float differ from each other. -/
theorem not_orderedAt_of_collide {i j : Int64} {f : UInt64} (h : collide i j f = true) :
    ¬ OrderedAt (.int i) (.float f) (.int j) := by
  simp only [collide, Bool.and_eq_true, bne_iff_ne, beq_iff_eq] at h
  obtain ⟨⟨hne, rfl⟩, hj⟩ := h
  intro hordered
  have heq := hordered.equal ((totalCmp_eq_iff _ _).mpr rfl) ((totalCmp_eq_iff _ _).mpr hj.symm)
  exact hne (Int64.toInt_inj.mp (compare_eq_iff_eq.mp heq))

/-- **`cmp_key` is a total preorder on every three values without a clash**, and on three values
that are not lists only if they have none. NaN needs no exception: floats are compared by their
total order. -/
theorem cmpKey_preordered (a b c : Value) :
    (clash a b c = false → Preordered a b c) ∧
      (Preordered a b c → (∀ items, a ≠ .list items) → clash a b c = false) := by
  refine ⟨preordered_of_clash_eq_false, fun h hscalar => ?_⟩
  by_contra hclash
  rw [Bool.not_eq_false] at hclash
  unfold clash at hclash
  split at hclash
  · exact not_orderedAt_of_collide hclash (h _ (by simp) _ (by simp) _ (by simp))
  · exact not_orderedAt_of_collide hclash (h _ (by simp) _ (by simp) _ (by simp))
  · exact not_orderedAt_of_collide hclash (h _ (by simp) _ (by simp) _ (by simp))
  · exact hscalar _ rfl
  · cases hclash

mutual

/-- No float inside is a NaN. -/
def nanFree : Value → Bool
  | .float x => !isNaN x
  | .list vs => nanFrees vs
  | .vector xs => xs.all (!isNaN32 ·)
  | .null | .bool _ | .int _ | .str _ => true

def nanFrees : List Value → Bool
  | [] => true
  | v :: vs => nanFree v && nanFrees vs

end

/-- `2 ^ 53` and the integer after it both equal the double of the first. -/
theorem cmpKey_not_preorder : ¬ ∀ a b c : Value, a.nanFree → b.nanFree → c.nanFree → OrderedAt a b c :=
  fun h => @not_orderedAt_of_collide 9007199254740992 9007199254740993 (ofInt64 9007199254740992) (by decide)
    (h _ _ _ (by decide) (by decide) (by decide))

end Value

end Slater
