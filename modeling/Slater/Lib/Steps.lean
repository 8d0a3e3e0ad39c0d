import Mathlib

/-!
# Walks of a given length

`Steps R n a b` says that `n` steps of a relation lead from `a` to `b`. The distance from `a` to `b`
is the least such `n`, written with Mathlib's `IsLeast`. The lemmas are those a breadth-first search
is argued with: a shortest walk splits at any point into two shortest walks, and a node one further
out is one step from a node of the sphere before it.
-/

namespace Slater

open List

variable {α : Type*} {R S : α → α → Prop} {a b c : α} {m n : Nat}

/-- `n` steps of `R` lead from one point to the other. -/
def Steps (R : α → α → Prop) : Nat → α → α → Prop
  | 0, a, b => a = b
  | n + 1, a, c => ∃ b, Steps R n a b ∧ R b c

/-- `d` is the distance from `a` to `b`. -/
def IsDist (R : α → α → Prop) (a b : α) (d : Nat) : Prop := IsLeast {n | Steps R n a b} d

namespace Steps

@[simp] theorem zero_iff : Steps R 0 a b ↔ a = b := Iff.rfl

theorem single (h : R a b) : Steps R 1 a b := ⟨a, rfl, h⟩

theorem trans (hab : Steps R m a b) (hbc : Steps R n b c) : Steps R (m + n) a c := by
  induction n generalizing c with
  | zero => exact zero_iff.1 hbc ▸ hab
  | succ n ih =>
    obtain ⟨d, hbd, hdc⟩ := hbc
    exact ⟨d, ih hbd, hdc⟩

/-- A walk splits at any length. -/
theorem split (h : Steps R (m + n) a c) : ∃ b, Steps R m a b ∧ Steps R n b c := by
  induction n generalizing c with
  | zero => exact ⟨c, h, rfl⟩
  | succ n ih =>
    obtain ⟨d, had, hdc⟩ := h
    obtain ⟨b, hab, hbd⟩ := ih had
    exact ⟨b, hab, d, hbd, hdc⟩

/-- The walk back, along a relation that runs the other way. -/
theorem reverse (hRS : ∀ x y, R x y → S y x) (h : Steps R n a b) : Steps S n b a := by
  induction n generalizing b with
  | zero => exact (zero_iff.1 h).symm
  | succ n ih =>
    obtain ⟨d, had, hdb⟩ := h
    have back := (single (hRS d b hdb)).trans (ih had)
    rwa [Nat.add_comm] at back

end Steps

namespace IsDist

theorem steps (h : IsDist R a b n) : Steps R n a b := h.1

theorem le (h : IsDist R a b n) (hs : Steps R m a b) : n ≤ m := h.2 hs

theorem unique (h : IsDist R a b m) (h' : IsDist R a b n) : m = n := IsLeast.unique h h'

theorem self (a : α) : IsDist R a a 0 := ⟨rfl, fun _ _ => Nat.zero_le _⟩

theorem eq_of_zero (h : IsDist R a b 0) : a = b := h.steps

/-- Two points with a walk between them have a distance, no longer than the walk. -/
theorem exists_of_steps (h : Steps R n a b) : ∃ d ≤ n, IsDist R a b d := by
  classical
  have hex : ∃ d, Steps R d a b := ⟨n, h⟩
  exact ⟨Nat.find hex, Nat.find_min' hex h, Nat.find_spec hex, fun _ hk => Nat.find_min' hex hk⟩

theorem reverse (hRS : ∀ x y, R x y ↔ S y x) (h : IsDist R a b n) : IsDist S b a n :=
  ⟨h.steps.reverse fun x y => (hRS x y).1, fun _ hk => h.le (hk.reverse fun x y => (hRS y x).2)⟩

/-- A shortest walk splits into two shortest walks. -/
theorem split (h : IsDist R a c (m + n)) : ∃ b, IsDist R a b m ∧ IsDist R b c n := by
  obtain ⟨b, hab, hbc⟩ := h.steps.split
  refine ⟨b, ⟨hab, fun k hk => ?_⟩, hbc, fun k hk => ?_⟩
  · have := h.le (hk.trans hbc)
    omega
  · have := h.le (hab.trans hk)
    omega

/-- The point before the last on a shortest walk lies on the sphere before. -/
theorem exists_pred (h : IsDist R a c (n + 1)) : ∃ b, IsDist R a b n ∧ R b c := by
  obtain ⟨b, hab, hbc⟩ := h.split
  obtain ⟨_, rfl, hbc⟩ := hbc.steps
  exact ⟨b, hab, hbc⟩

end IsDist

/-! ## Chains of points -/

/-- Along a chain, the number of steps is the difference of the positions. -/
theorem Steps.of_isChain {l : List α} (hl : l.IsChain R) {i j : Nat} (hij : i ≤ j)
    {x y : α} (hx : l[i]? = some x) (hy : l[j]? = some y) : Steps R (j - i) x y := by
  induction j, hij using Nat.le_induction generalizing y with
  | base =>
    rw [Nat.sub_self]
    exact Option.some.inj (hx.symm.trans hy)
  | succ j hij ih =>
    obtain ⟨hj, rfl⟩ := List.getElem?_eq_some_iff.1 hy
    have hj' : j < l.length := by omega
    have hprev : l[j]? = some l[j] := List.getElem?_eq_getElem hj'
    rw [show j + 1 - i = (j - i) + 1 by omega]
    exact ⟨_, ih hprev, isChain_iff_getElem.1 hl j hj⟩

/-- **A shortest chain repeats no point**: between two occurrences it could be cut short. This
is why a search that keeps distances only, and not the nodes on the way, still finds a path
without repeats. -/
theorem IsDist.nodup_of_isChain {l : List α} (hl : l.IsChain R) (hfirst : l.head? = some a)
    (hlast : l.getLast? = some b) (hd : IsDist R a b n) (hlen : l.length = n + 1) : l.Nodup := by
  rw [nodup_iff_getElem?_ne_getElem?]
  intro i j hij hj heq
  have hi : i < l.length := by omega
  have hx : l[i]? = some l[i] := getElem?_eq_getElem hi
  have hy : l[j]? = some l[i] := heq ▸ hx
  rw [head?_eq_getElem?] at hfirst
  rw [getLast?_eq_getElem?] at hlast
  have hcut := (Steps.of_isChain hl (Nat.zero_le i) hfirst hx).trans
    (Steps.of_isChain hl (by omega : j ≤ l.length - 1) hy hlast)
  have := hd.le hcut
  omega

end Slater
