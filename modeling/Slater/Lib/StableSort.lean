import Mathlib

/-!
# A stable sort and a filter

Sorting by insertion is stable: it never reorders two elements that compare equal. So it makes no
difference whether the elements that fail a test are dropped before or after the sort.
-/

namespace Slater.StableSort

open List

universe u

variable {α : Type u} (r : α → α → Prop) [DecidableRel r] [IsTrans α r] (p : α → Bool)

theorem filter_orderedInsert {a : α} : ∀ {l : List α}, l.Pairwise r → (l.orderedInsert r a).filter p =
      if p a then (l.filter p).orderedInsert r a else l.filter p
  | [], _ => by by_cases h : p a <;> simp [h]
  | b :: l, hl => by
    obtain ⟨hb, hl⟩ := pairwise_cons.mp hl
    have ih := filter_orderedInsert (a := a) hl
    by_cases hab : r a b
    · rw [orderedInsert_cons_of_le _ _ hab, filter_cons]
      split
      next =>
        -- `a` stays in front of what is left of `b :: l`, all of which it precedes
        have hfirst : ∀ c ∈ (b :: l).filter p, r a c := by
          intro c hc
          rcases mem_cons.mp (mem_filter.mp hc).1 with rfl | hc
          · exact hab
          · exact trans_of r hab (hb c hc)
        cases hcs : (b :: l).filter p with
        | nil => rfl
        | cons c cs =>
          rw [orderedInsert_cons_of_le _ _ (hfirst c (hcs ▸ mem_cons_self))]
      next => rfl
    · rw [orderedInsert_of_not_le _ _ hab, filter_cons, ih]
      by_cases hpb : p b
      · rw [if_pos hpb, filter_cons_of_pos hpb]
        split
        next => rw [orderedInsert_of_not_le _ _ hab]
        next => rfl
      · rw [if_neg hpb, filter_cons_of_neg hpb]

/-- **A filter may be moved across a stable sort.** -/
theorem filter_insertionSort [Std.Total r] : ∀ l : List α, (l.insertionSort r).filter p = (l.filter p).insertionSort r
  | [] => rfl
  | a :: l => by
    rw [insertionSort_cons, filter_orderedInsert r p (pairwise_insertionSort r l),
      filter_insertionSort l, filter_cons]
    split <;> rfl

end Slater.StableSort
