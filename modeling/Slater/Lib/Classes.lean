import Mathlib

/-!
# Classes of a key

Two ways to reduce a list by the classes of a key function: the first element of each class
(`firsts`), and the groups of indices of each class (`Grouped`). Both are stated for an arbitrary
key, so a coarser and a finer key can be compared: reducing by the coarser one gives the result of
the finer one exactly when, on the list, the coarser one does not identify more.

Nothing is asked of the elements; the keys have decidable equality where a list is computed from them.
-/

namespace Slater.Classes

open List

universe u v w

variable {α : Type u} {κ : Type v} {μ : Type w} [DecidableEq κ] [DecidableEq μ] {key f : α → κ} {g : α → μ} {a : α}
  {as : List α}

/-- On these elements the key `f` identifies no more than `g` does. -/
def SeparatedBy (f : α → κ) (g : α → μ) (as : List α) : Prop :=
  ∀ a ∈ as, ∀ b ∈ as, f a = f b → g a = g b

instance (f : α → κ) (g : α → μ) (as : List α) : Decidable (SeparatedBy f g as) :=
  inferInstanceAs (Decidable (∀ a ∈ as, ∀ b ∈ as, f a = f b → g a = g b))

/-! ## First of each class -/

/-- The first element of each class, in the order of the list. -/
def firsts (key : α → κ) : List α → List α
  | [] => []
  | a :: as => a :: (firsts key as).filter (key · ≠ key a)

theorem mem_of_mem_firsts : ∀ {as : List α}, a ∈ firsts key as → a ∈ as
  | b :: as, h => by
    rcases mem_cons.mp h with rfl | h
    · exact (.head _)
    · exact .tail _ (mem_of_mem_firsts (mem_filter.mp h).1)

/-- Every class keeps an element. -/
theorem exists_mem_firsts (key : α → κ) : ∀ {as : List α}, a ∈ as → ∃ b ∈ firsts key as, key b = key a
  | c :: as, h => by
    by_cases hc : key a = key c
    · exact ⟨c, .head _, hc.symm⟩
    · rcases mem_cons.mp h with rfl | h
      · exact absurd rfl hc
      · obtain ⟨b, hb, hba⟩ := exists_mem_firsts key h
        refine ⟨b, .tail _ (mem_filter.mpr ⟨hb, ?_⟩), hba⟩
        simpa [hba] using hc

/-- No class keeps two. -/
theorem eq_of_mem_firsts {b : α} : ∀ {as : List α}, a ∈ firsts key as → b ∈ firsts key as → key a = key b → a = b
  | c :: as, ha, hb, h => by
    rcases mem_cons.mp ha with rfl | ha <;> rcases mem_cons.mp hb with rfl | hb
    · rfl
    · exact absurd h.symm (by simpa using (mem_filter.mp hb).2)
    · exact absurd h (by simpa using (mem_filter.mp ha).2)
    · exact eq_of_mem_firsts (mem_filter.mp ha).1 (mem_filter.mp hb).1 h

theorem firsts_congr : ∀ {as : List α}, (∀ a ∈ as, ∀ b ∈ as, f a = f b ↔ g a = g b) → firsts f as = firsts g as
  | [], _ => rfl
  | c :: as, h => by
    have ih : firsts f as = firsts g as := firsts_congr fun a ha b hb =>
      h a (.tail _ ha) b (.tail _ hb)
    rw [firsts, ih]
    refine congrArg (c :: ·) (filter_congr fun a ha => ?_)
    have hac := h a (.tail _ (mem_of_mem_firsts ha)) c (.head _)
    simp [hac]

/-- **A coarser key keeps what the finer one keeps exactly when it separates the list as well.**
One direction is immediate. For the other, two elements that only the coarser key identifies
leave one first element less. -/
theorem firsts_eq_iff (hfg : ∀ a b, g a = g b → f a = f b) (as : List α) :
    firsts f as = firsts g as ↔ SeparatedBy f g as := by
  constructor
  · intro h a ha b hb hab
    -- the representatives of the two finer classes are kept by the coarser key, hence one
    obtain ⟨a', ha', haa⟩ := exists_mem_firsts g ha
    obtain ⟨b', hb', hbb⟩ := exists_mem_firsts g hb
    have hf : f a' = f b' := by rw [hfg _ _ haa, hfg _ _ hbb, hab]
    have := eq_of_mem_firsts (h ▸ ha') (h ▸ hb') hf
    rw [← haa, ← hbb, this]
  · intro h
    exact firsts_congr fun a ha b hb => ⟨h a ha b hb, hfg a b⟩

/-! ## Groups of indices -/

/-- The indices of the elements of a class, in the order of the list. -/
def indicesOf (key : α → κ) (as : List α) (k : κ) : List Nat :=
  (List.range as.length).filter fun i => as[i]?.map key = some k

theorem mem_indicesOf {k : κ} {i : Nat} : i ∈ indicesOf key as k ↔ ∃ a, as[i]? = some a ∧ key a = k := by
  rw [indicesOf, mem_filter, mem_range, decide_eq_true_iff, Option.map_eq_some_iff]
  refine ⟨And.right, fun ⟨a, ha, hk⟩ => ⟨(List.getElem?_eq_some_iff.mp ha).1, a, ha, hk⟩⟩

theorem indicesOf_append (key : α → κ) (as : List α) (a : α) (k : κ) : indicesOf key (as ++ [a]) k =
      indicesOf key as k ++ if key a = k then [as.length] else [] := by
  rw [indicesOf, length_append, length_singleton, range_succ, filter_append]
  refine congrArg₂ _ (filter_congr fun i hi => ?_) ?_
  · rw [getElem?_append_left (mem_range.mp hi)]
  · by_cases h : key a = k <;> simp [h]

/-- **One group for each class**: the groups cover the list, share no index, and each holds all
of a class. A group without indices stands alone, over the empty list. -/
structure Grouped (key : α → κ) (as : List α) (groups : List (List Nat)) : Prop where
  covers : ∀ i < as.length, ∃ g ∈ groups, i ∈ g
  disjoint : groups.Pairwise List.Disjoint
  exact : ∀ g ∈ groups, ∀ i ∈ g, ∃ a, as[i]? = some a ∧ g = indicesOf key as (key a)
  empty : [] ∈ groups → groups = [[]]

/-- **Groups of a coarser key are the groups of the finer one exactly when it separates the list
as well.** -/
theorem Grouped.iff_separated (hfg : ∀ a b, g a = g b → f a = f b)
    {groups : List (List Nat)} (h : Grouped f as groups) : Grouped g as groups ↔ SeparatedBy f g as := by
  constructor
  · intro h' a ha b hb hab
    obtain ⟨i, hi, hia⟩ := mem_iff_getElem.mp ha
    obtain ⟨j, hj, hjb⟩ := mem_iff_getElem.mp hb
    have hia? : as[i]? = some a := List.getElem?_eq_some_iff.mpr ⟨hi, hia⟩
    have hjb? : as[j]? = some b := List.getElem?_eq_some_iff.mpr ⟨hj, hjb⟩
    obtain ⟨G, hG, hiG⟩ := h.covers i hi
    obtain ⟨a₁, ha₁, hf⟩ := h.exact G hG i hiG
    obtain ⟨a₂, ha₂, hg⟩ := h'.exact G hG i hiG
    cases Option.some.inj (hia?.symm.trans ha₁)
    cases Option.some.inj (hia?.symm.trans ha₂)
    have hjG : j ∈ G := by
      rw [hf]
      exact mem_indicesOf.mpr ⟨b, hjb?, hab.symm⟩
    rw [hg] at hjG
    obtain ⟨b', hb', hgb⟩ := mem_indicesOf.mp hjG
    cases Option.some.inj (hjb?.symm.trans hb')
    exact hgb.symm
  · intro hsep
    refine ⟨h.covers, h.disjoint, fun G hG i hi => ?_, h.empty⟩
    obtain ⟨a, ha, hf⟩ := h.exact G hG i hi
    refine ⟨a, ha, hf.trans (filter_congr fun j _ => ?_)⟩
    cases hj : as[j]? with
    | none => simp
    | some b =>
      have hba : f b = f a ↔ g b = g a :=
        ⟨hsep b (mem_of_getElem? hj) a (mem_of_getElem? ha), hfg b a⟩
      simp [hba]

end Slater.Classes
