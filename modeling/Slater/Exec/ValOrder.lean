import Slater.Exec.Val

/-!
# The runtime order

`cmpTotal` is a total preorder: it answers by rank between kinds and lexicographically inside one.
It identifies exactly the values of one `image`, which is the value with every integer replaced by
its double and every relationship by its id. So the classes that `DISTINCT` and grouping work with
are the fibres of `image`.

**What it does not establish.** The preorder is not the order of the range indexes, which compares integers exactly
(`Slater.Exec.KeyOrder`); where the two differ an index and an `ORDER BY` list the same values differently.
-/

namespace Slater

open Binary64 Val

namespace Val

variable {a b : Val} {α : Type}

mutual

/-- What `cmpTotal` sees of a value. -/
def image : Val → Val
  | .int i => .float (ofInt64 i)
  | .rel id .. => .rel id 0 0 0
  | .list items => .list (images items)
  | .map entries => .map (imageEntries entries)
  | .path nodes rels => .path nodes (images rels)
  | v => v

def images : List Val → List Val
  | [] => []
  | v :: vs => image v :: images vs

def imageEntries : List (String × Val) → List (String × Val)
  | [] => []
  | (k, v) :: es => (k, image v) :: imageEntries es

end

/-! ## Between kinds -/

/-- Two values of different rank are ordered by rank. -/
theorem cmpTotal_of_rank_ne (h : a.rank ≠ b.rank) : cmpTotal a b = compare a.rank b.rank := by
  cases a <;> cases b <;> first | exact absurd rfl h | rfl

/-! ## Equality -/

theorem cmpLex_eq_iff {cmp : α → α → Ordering} (h : ∀ a b, cmp a b = .eq ↔ a = b) :
    ∀ as bs, cmpLex cmp as bs = .eq ↔ as = bs
  | [], [] => by simp [cmpLex]
  | [], _ :: _ => by simp [cmpLex]
  | _ :: _, [] => by simp [cmpLex]
  | a :: as, b :: bs => by
    rw [cmpLex, Ordering.then_eq_eq, h, cmpLex_eq_iff h as bs, List.cons.injEq]

theorem totalCmp32_eq_iff (a b : UInt32) : totalCmp32 a b = .eq ↔ a = b := by
  rw [totalCmp32, compare_eq_iff_eq, ← UInt32.toNat_inj, totalKey32,
    totalKey32]
  split <;> split <;> omega

theorem rank_image (v : Val) : (image v).rank = v.rank := by
  cases v <;> rfl

/-- Values of different rank are neither equal nor of one image. -/
theorem cmpTotal_eq_iff_of_rank_ne (h : a.rank ≠ b.rank) : cmpTotal a b = .eq ↔ image a = image b := by
  refine iff_of_false ?_ ?_
  · rw [cmpTotal_of_rank_ne h, compare_eq_iff_eq]
    exact h
  · intro himage
    exact h (by rw [← rank_image a, ← rank_image b, himage])

mutual

/-- **`cmp_total` identifies exactly the values of one image.** The image forgets what no
comparison reads, so this is the exact account of what `DISTINCT` merges. -/
theorem cmpTotal_eq_iff (a b : Val) : cmpTotal a b = .eq ↔ image a = image b := by
  by_cases h : a.rank = b.rank
  · cases a <;> cases b <;> first
      | exact absurd h (by simp only [rank]; decide)
      | simp only [cmpTotal, cmpAcross, num, image, compare_eq_iff_eq, Int64.toInt_inj,
          totalCmp_eq_iff, Ordering.then_eq_eq, cmpLex_eq_iff totalCmp32_eq_iff,
          cmpLex_eq_iff fun _ _ : Nat => compare_eq_iff_eq, cmpItems_eq_iff, cmpEntries_eq_iff,
          float.injEq, bool.injEq, str.injEq, node.injEq, rel.injEq,
          list.injEq, vector.injEq, map.injEq, path.injEq, point.injEq,
          date.injEq, time.injEq, dateTime.injEq, duration.injEq, true_and,
          and_comm]
  · exact cmpTotal_eq_iff_of_rank_ne h

theorem cmpItems_eq_iff : ∀ as bs : List Val, cmpItems as bs = .eq ↔ images as = images bs
  | [], [] => by simp [cmpItems]
  | [], _ :: _ => by simp [cmpItems, images]
  | _ :: _, [] => by simp [cmpItems, images]
  | a :: as, b :: bs => by
    rw [cmpItems, Ordering.then_eq_eq, cmpTotal_eq_iff a b, cmpItems_eq_iff as bs, images, images,
      List.cons.injEq]

theorem cmpEntries_eq_iff : ∀ as bs : List (String × Val), cmpEntries as bs = .eq ↔ imageEntries as = imageEntries bs
  | [], [] => by simp [cmpEntries]
  | [], _ :: _ => by simp [cmpEntries, imageEntries]
  | _ :: _, [] => by simp [cmpEntries, imageEntries]
  | (k, a) :: as, (l, b) :: bs => by
    rw [cmpEntries, Ordering.then_eq_eq, Ordering.then_eq_eq, compare_eq_iff_eq,
      cmpTotal_eq_iff a b, cmpEntries_eq_iff as bs, imageEntries, imageEntries, List.cons.injEq,
      Prod.mk.injEq]

end

/-! ## Transitivity

A chain of three comparisons is stated at one triple, so that it can be carried through the
lexicographic arms: what is at most the next is at most the last, and equals it only if both steps
were equalities. -/

/-- The comparisons of `a` with `b`, `b` with `c` and `a` with `c` fit together. -/
def Chain (ab bc ac : Ordering) : Prop :=
  ab ≠ .gt → bc ≠ .gt → ac ≠ .gt ∧ (ac = .eq ↔ ab = .eq ∧ bc = .eq)

theorem chain_compare [Ord α] [Std.TransOrd α] (a b c : α) : Chain (compare a b) (compare b c) (compare a c) := by
  intro hab hbc
  rw [ne_eq, ← Ordering.isLE_iff_ne_gt] at hab hbc ⊢
  refine ⟨Std.TransCmp.isLE_trans hab hbc, fun hac => ?_, fun h => ?_⟩
  · rcases hx : compare a b with _ | _ | _
    · rw [Std.TransCmp.lt_of_lt_of_isLE hx hbc] at hac
      cases hac
    · rcases hy : compare b c with _ | _ | _
      · rw [Std.TransCmp.lt_of_isLE_of_lt hab hy] at hac
        cases hac
      · exact ⟨rfl, rfl⟩
      · rw [hy] at hbc
        cases hbc
    · rw [hx] at hab
      cases hab
  · exact Std.TransCmp.eq_trans h.1 h.2

theorem Chain.then {ab bc ac ab' bc' ac' : Ordering} (h : Chain ab bc ac) (h' : Chain ab' bc' ac') :
    Chain (ab.then ab') (bc.then bc') (ac.then ac') := by
  revert h h'
  cases ab <;> cases bc <;> cases ac <;> simp [Chain]

theorem chain_cmpLex {cmp : α → α → Ordering} (h : ∀ a b c, Chain (cmp a b) (cmp b c) (cmp a c)) :
    ∀ as bs cs, Chain (cmpLex cmp as bs) (cmpLex cmp bs cs) (cmpLex cmp as cs)
  | [], [], [] | [], [], _ :: _ | [], _ :: _, [] | [], _ :: _, _ :: _ => by simp [cmpLex, Chain]
  | _ :: _, [], _ | _ :: _, _ :: _, [] => by simp [cmpLex, Chain]
  | a :: as, b :: bs, c :: cs => (h a b c).then (chain_cmpLex h as bs cs)

/-- Where different ranks decide, a triple of more than one rank fits together. -/
theorem chain_of_rank {cmp : α → α → Ordering} {rank : α → Nat} {a b c : α}
    (hcmp : ∀ {x y}, rank x ≠ rank y → cmp x y = compare (rank x) (rank y))
    (h : ¬ (rank a = rank b ∧ rank b = rank c)) : Chain (cmp a b) (cmp b c) (cmp a c) := by
  intro hab hbc
  have le_of : ∀ {x y : α}, cmp x y ≠ .gt → rank x ≤ rank y := by
    intro x y hxy
    by_cases hr : rank x = rank y
    · exact hr.le
    · rw [hcmp hr, ne_eq, compare_gt_iff_gt, not_lt] at hxy
      exact hxy
  have eq_of : ∀ {x y : α}, cmp x y = .eq → rank x = rank y := by
    intro x y hxy
    by_contra hr
    rw [hcmp hr, compare_eq_iff_eq] at hxy
    exact hr hxy
  have hlt : rank a < rank c := by
    have := le_of hab
    have := le_of hbc
    omega
  rw [hcmp hlt.ne, compare_lt_iff_lt.mpr hlt]
  exact ⟨by decide, fun h => (by cases h), fun heq => absurd ⟨eq_of heq.1, eq_of heq.2⟩ h⟩

theorem chain_totalCmp (a b c : UInt64) : Chain (totalCmp a b) (totalCmp b c) (totalCmp a c) :=
  chain_compare (totalKey a) (totalKey b) (totalKey c)

mutual

theorem chain_cmpTotal (a b c : Val) : Chain (cmpTotal a b) (cmpTotal b c) (cmpTotal a c) := by
  by_cases h : a.rank = b.rank ∧ b.rank = c.rank
  · obtain ⟨hab, hbc⟩ := h
    cases a <;> cases b <;> first
      | exact absurd hab (by simp only [rank]; decide)
      | cases c <;> first
        | exact absurd hbc (by simp only [rank]; decide)
        | simp only [cmpTotal]
          first
            | exact chain_compare _ _ _
            | exact chain_totalCmp _ _ _
            | exact chain_cmpItems _ _ _
            | exact chain_cmpEntries _ _ _
            | exact chain_cmpLex (fun a b c => chain_compare (totalKey32 a) (totalKey32 b) _) _ _ _
            | exact (chain_cmpLex chain_compare _ _ _).then (chain_cmpItems _ _ _)
            | exact (chain_totalCmp _ _ _).then (chain_totalCmp _ _ _)
            | simp [Chain]
  · exact chain_of_rank cmpTotal_of_rank_ne h

theorem chain_cmpItems : ∀ as bs cs : List Val, Chain (cmpItems as bs) (cmpItems bs cs) (cmpItems as cs)
  | [], [], [] | [], [], _ :: _ | [], _ :: _, [] | [], _ :: _, _ :: _ => by simp [cmpItems, Chain]
  | _ :: _, [], _ | _ :: _, _ :: _, [] => by simp [cmpItems, Chain]
  | a :: as, b :: bs, c :: cs => (chain_cmpTotal a b c).then (chain_cmpItems as bs cs)

theorem chain_cmpEntries : ∀ as bs cs : List (String × Val),
    Chain (cmpEntries as bs) (cmpEntries bs cs) (cmpEntries as cs)
  | [], [], [] | [], [], _ :: _ | [], _ :: _, [] | [], _ :: _, _ :: _ => by
    simp [cmpEntries, Chain]
  | _ :: _, [], _ | _ :: _, _ :: _, [] => by simp [cmpEntries, Chain]
  | (k, a) :: as, (l, b) :: bs, (m, c) :: cs =>
    ((chain_compare k l m).then (chain_cmpTotal a b c)).then (chain_cmpEntries as bs cs)

end

/-! ## Orientation -/

theorem swap_cmpLex {cmp : α → α → Ordering} (h : ∀ a b, cmp b a = (cmp a b).swap) :
    ∀ as bs, cmpLex cmp bs as = (cmpLex cmp as bs).swap
  | [], [] | [], _ :: _ | _ :: _, [] => rfl
  | a :: as, b :: bs => by
    rw [cmpLex, cmpLex, h a b, swap_cmpLex h as bs, Ordering.swap_then]

theorem swap_compare [Ord α] [Std.OrientedOrd α] (a b : α) :
    compare b a = (compare a b).swap := Std.OrientedCmp.eq_swap

theorem swap_totalCmp (a b : UInt64) : totalCmp b a = (totalCmp a b).swap :=
  swap_compare (totalKey a) (totalKey b)

theorem swap_totalCmp32 (a b : UInt32) : totalCmp32 b a = (totalCmp32 a b).swap :=
  swap_compare (totalKey32 a) (totalKey32 b)

mutual

theorem swap_cmpTotal (a b : Val) : cmpTotal b a = (cmpTotal a b).swap := by
  by_cases h : a.rank = b.rank
  · cases a <;> cases b <;> first
      | exact absurd h (by simp only [rank]; decide)
      | simp only [cmpTotal, cmpAcross, num, Ordering.swap_then]
        first
          | rfl
          | exact swap_compare _ _
          | exact swap_totalCmp _ _
          | exact swap_cmpItems _ _
          | exact swap_cmpEntries _ _
          | exact swap_cmpLex swap_totalCmp32 _ _
          | rw [← swap_cmpLex swap_compare, ← swap_cmpItems]
          | rw [← swap_totalCmp, ← swap_totalCmp]
  · rw [cmpTotal_of_rank_ne h, cmpTotal_of_rank_ne (Ne.symm h)]
    exact swap_compare _ _

theorem swap_cmpItems : ∀ as bs : List Val, cmpItems bs as = (cmpItems as bs).swap
  | [], [] | [], _ :: _ | _ :: _, [] => rfl
  | a :: as, b :: bs => by
    rw [cmpItems, cmpItems, swap_cmpTotal a b, swap_cmpItems as bs, Ordering.swap_then]

theorem swap_cmpEntries : ∀ as bs : List (String × Val), cmpEntries bs as = (cmpEntries as bs).swap
  | [], [] | [], _ :: _ | _ :: _, [] => rfl
  | (k, a) :: as, (l, b) :: bs => by
    rw [cmpEntries, cmpEntries, swap_compare k l, swap_cmpTotal a b, swap_cmpEntries as bs,
      Ordering.swap_then, Ordering.swap_then]

end

/-! ## The comparisons as lawful orders -/

theorem transCmp_of_chain {cmp : α → α → Ordering} (hswap : ∀ a b, cmp b a = (cmp a b).swap)
    (hchain : ∀ a b c, Chain (cmp a b) (cmp b c) (cmp a c)) : Std.TransCmp cmp where
  eq_swap := hswap _ _
  isLE_trans := by
    intro a b c hab hbc
    rw [Ordering.isLE_iff_ne_gt] at hab hbc ⊢
    exact (hchain a b c hab hbc).1

instance : Std.TransCmp cmpTotal := transCmp_of_chain swap_cmpTotal chain_cmpTotal

instance : Std.TransCmp cmpItems := transCmp_of_chain swap_cmpItems chain_cmpItems

end Val

end Slater
