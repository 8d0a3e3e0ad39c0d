import Mathlib

/-!
# Forests of parents

A forest gives every place a parent that is no greater than it; a place that is its own parent is a root.
Two updates are enough for union-find: `halve` moves a place up to its grandparent and changes no root, `set`
puts a root under a lesser one and joins their trees. Both are read off `root_unique`: the roots are the only
places that stay the same along the parents.

Ranks are not kept and no bound on the length of a way is shown; the parent of a place being no greater is what
makes every way end.
-/

namespace Slater

structure Forest (n : Nat) where
  parent : Fin n → Fin n
  le : ∀ x, parent x ≤ x

namespace Forest

variable {n : Nat}

/-- Every place is a root. -/
def singletons (n : Nat) : Forest n := ⟨id, fun _ => le_rfl⟩

variable (f : Forest n) {r s x : Fin n}

/-- A place gets another parent. -/
def set (x p : Fin n) (h : p ≤ x) : Forest n where
  parent := Function.update f.parent x p
  le y := by
    rw [Function.update_apply]
    split
    next heq => exact heq ▸ h
    next => exact f.le y

/-- A place moves up to its grandparent. -/
def halve (x : Fin n) : Forest n := f.set x (f.parent (f.parent x)) ((f.le _).trans (f.le x))

theorem parent_lt (h : f.parent x ≠ x) : f.parent x < x := lt_of_le_of_ne (f.le x) h

/-- The root above a place. -/
def root (x : Fin n) : Fin n := if _h : f.parent x = x then x else root (f.parent x)
termination_by x.val
decreasing_by exact f.parent_lt _h

theorem root_of_isRoot (h : f.parent x = x) : f.root x = x := by rw [root, dif_pos h]

theorem root_parent (x : Fin n) : f.root (f.parent x) = f.root x := by
  by_cases h : f.parent x = x
  · rw [h]
  · rw [root.eq_def f x, dif_neg h]

theorem parent_root (x : Fin n) : f.parent (f.root x) = f.root x := by
  fun_induction root f x with
  | case1 x h => exact h
  | case2 x h ih => exact ih

theorem root_le (x : Fin n) : f.root x ≤ x := by
  fun_induction root f x with
  | case1 x h => exact le_rfl
  | case2 x h ih => exact ih.trans (f.le x)

/-- What relates every place to its parent relates it to its root. -/
theorem rel_root {R : Fin n → Fin n → Prop} (refl : ∀ x, R x x) (trans : ∀ x y z, R x y → R y z → R x z)
    (hparent : ∀ x, R x (f.parent x)) (x : Fin n) : R x (f.root x) := by
  fun_induction root f x with
  | case1 x h => exact refl x
  | case2 x h ih => exact trans _ _ _ (hparent x) ih

variable {f}

/-- A map that stays the same along the parents and keeps the roots gives every place its
root. -/
theorem root_unique {g : Fin n → Fin n} (hparent : ∀ x, g (f.parent x) = g x)
    (hroot : ∀ x, f.parent x = x → g x = x) (x : Fin n) : f.root x = g x := by
  fun_induction root f x with
  | case1 x h => exact (hroot x h).symm
  | case2 x h ih => rw [ih, hparent]

theorem root_halve (x y : Fin n) : (f.halve x).root y = f.root y := by
  refine root_unique (fun y => ?_) (fun y hy => ?_) y
  · show f.root (Function.update f.parent x _ y) = _
    rw [Function.update_apply]
    split
    next heq => rw [root_parent, root_parent, heq]
    next => exact f.root_parent y
  · refine f.root_of_isRoot ?_
    change Function.update f.parent x _ y = y at hy
    rw [Function.update_apply] at hy
    split at hy
    next heq =>
      subst heq
      exact le_antisymm (f.le y) (hy.symm.le.trans (f.le _))
    next => exact hy

/-- A root put under a lesser root takes its tree along. -/
theorem root_set (hr : f.parent r = r) (hs : f.parent s = s) (hlt : r < s) (y : Fin n) :
    (f.set s r hlt.le).root y = if f.root y = s then r else f.root y := by
  refine root_unique (g := fun y => if f.root y = s then r else f.root y) (fun y => ?_) (fun y hy => ?_) y
  · show (if f.root (Function.update f.parent s r y) = s then r else f.root (Function.update f.parent s r y)) = _
    rw [Function.update_apply]
    split
    next heq => rw [heq, f.root_of_isRoot hr, f.root_of_isRoot hs, if_neg hlt.ne, if_pos rfl]
    next => rw [f.root_parent]
  · change Function.update f.parent s r y = y at hy
    rw [Function.update_apply] at hy
    split at hy
    next heq => exact absurd (hy.trans heq) hlt.ne
    next hne => rw [f.root_of_isRoot hy, if_neg hne]

end Forest

end Slater
