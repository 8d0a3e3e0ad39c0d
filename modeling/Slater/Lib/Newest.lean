import Mathlib

/-!
# What a stack of levels answers

Levels are asked newest first, and each answers or passes. Either the newest level that answers decides
(`List.findSome?`), or the answers are folded from the oldest on (`foldPresent`).

Both forms are about a list of answers; that the levels agree with each other is not asked.
-/

namespace Slater

open List

variable {α β δ : Type}

/-- The loop that folds the answers of levels, oldest first, skipping the levels without one. -/
def foldPresent {α : Type} (f : α → α → α) (xs : List (Option α)) : Option α :=
  xs.foldl (fun acc x => x.elim acc fun a => some (acc.elim a (f · a))) none

theorem foldPresent_concat (f : α → α → α) (xs : List (Option α)) (x : Option α) :
    foldPresent f (xs ++ [x]) = x.elim (foldPresent f xs) fun a => some ((foldPresent f xs).elim a (f · a)) := by
  simp [foldPresent]

theorem foldPresent_isSome (f : α → α → α) (xs : List (Option α)) :
    (foldPresent f xs).isSome ↔ ∃ x ∈ xs, x.isSome := by
  induction xs using List.reverseRecOn with
  | nil => simp [foldPresent]
  | append_singleton xs x ih =>
    rw [foldPresent_concat]
    cases x with
    | none => simp [ih]
    | some a => simp

section Newest

variable {f : δ → δ → δ} {read : α → Option δ} {levels : List α}

theorem foldPresent_cons (l : α) : foldPresent f ((l :: levels).reverse.map read) =
    (read l).elim (foldPresent f (levels.reverse.map read)) fun d =>
      some ((foldPresent f (levels.reverse.map read)).elim d (f · d)) := by
  rw [reverse_cons, map_append, map_singleton, foldPresent_concat]

/-- What every answer has, and the fold keeps, the fold of the answers has. -/
theorem foldPresent_induction {p : δ → Prop} (hfold : ∀ older newer, p older → p newer → p (f older newer))
    (h : ∀ l ∈ levels, ∀ d, read l = some d → p d) {d : δ}
    (hd : foldPresent f (levels.reverse.map read) = some d) : p d := by
  induction levels generalizing d with
  | nil => cases hd
  | cons l levels ih =>
    obtain ⟨hl, hlevels⟩ := forall_mem_cons.mp h
    rw [foldPresent_cons] at hd
    cases hread : read l with
    | none =>
      rw [hread] at hd
      exact ih hlevels hd
    | some newer =>
      rw [hread, Option.elim_some, Option.some.injEq] at hd
      subst hd
      cases hrest : foldPresent f (levels.reverse.map read) with
      | none => exact hl newer hread
      | some older => exact hfold older newer (ih hlevels hrest) (hl newer hread)

/-- What the newer of two answers decides, the newest answer decides. -/
theorem foldPresent_map {g : δ → β} (hg : ∀ older newer, g (f older newer) = g newer) :
    (foldPresent f (levels.reverse.map read)).map g = (levels.findSome? read).map g := by
  induction levels with
  | nil => rfl
  | cons l levels ih =>
    rw [foldPresent_cons, findSome?_cons]
    cases read l with
    | none => exact ih
    | some newer =>
      cases foldPresent f (levels.reverse.map read) with
      | none => rfl
      | some older => exact congrArg some (hg older newer)

end Newest

theorem findSome?_congr {xs : List α} {f g : α → Option β} (h : ∀ x ∈ xs, f x = g x) :
    xs.findSome? f = xs.findSome? g := by
  induction xs with
  | nil => rfl
  | cons x xs ih =>
    obtain ⟨hx, hxs⟩ := forall_mem_cons.mp h
    rw [findSome?_cons, findSome?_cons, hx, ih hxs]

/-- An answer that names one value whatever level is asked is found wherever some level has
it. -/
theorem findSome?_eq_some {levels : List α} {g : α → Option β}
    (unique : ∀ l ∈ levels, ∀ l' ∈ levels, ∀ b b', g l = some b → g l' = some b' → b = b') {b : β} :
    levels.findSome? g = some b ↔ ∃ l ∈ levels, g l = some b := by
  refine ⟨exists_of_findSome?_eq_some, fun ⟨l, hl, hb⟩ => ?_⟩
  cases hfind : levels.findSome? g with
  | none => exact absurd (findSome?_eq_none_iff.mp hfind l hl) (by rw [hb]; nofun)
  | some b' =>
    obtain ⟨l', hl', hb'⟩ := exists_of_findSome?_eq_some hfind
    rw [unique l' hl' l hl b' b hb' hb]

end Slater
