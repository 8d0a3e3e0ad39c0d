import Mathlib

/-!
# Ordered maps by a comparison

A tree map whose keys are compared by `cmp` is the list of its entries in ascending order: lookup
and update walk it and stop at the first key that is not below. Two keys that compare equal are one
key, and the one stored first stays. `Ascending` is the invariant every update keeps; under it a
lookup finds exactly the entry of the key's class.

The comparison has to be a total preorder for the laws; the definitions compute for any. Balance and cost are not
modelled.
-/

namespace Slater.OrdMap

open List

universe u v

variable {κ : Type u} {α : Type v} (cmp : κ → κ → Ordering)

/-- `BTreeMap::get`. -/
def find (k : κ) : List (κ × α) → Option α
  | [] => none
  | (j, a) :: m =>
    match cmp k j with
    | .lt => none
    | .eq => some a
    | .gt => find k m

/-- `BTreeMap::entry`: put `f` of the old value, if there is one, under the key. -/
def upsert (k : κ) (f : Option α → α) : List (κ × α) → List (κ × α)
  | [] => [(k, f none)]
  | (j, a) :: m =>
    match cmp k j with
    | .lt => (k, f none) :: (j, a) :: m
    | .eq => (j, f (some a)) :: m
    | .gt => (j, a) :: upsert k f m

/-- The keys ascend. -/
def Ascending (m : List (κ × α)) : Prop := m.Pairwise fun p q => cmp p.1 q.1 = .lt

variable {cmp}

theorem mem_keys_upsert {k : κ} {f : Option α → α} {m : List (κ × α)} {p : κ × α}
    (h : p ∈ upsert cmp k f m) : p.1 = k ∨ ∃ q ∈ m, p.1 = q.1 := by
  induction m with
  | nil =>
    rw [upsert, mem_singleton] at h
    exact .inl (by rw [h])
  | cons e m ih =>
    obtain ⟨j, a⟩ := e
    rw [upsert] at h
    split at h
    · rcases mem_cons.mp h with rfl | h
      · exact .inl rfl
      · exact .inr ⟨p, h, rfl⟩
    · rcases mem_cons.mp h with rfl | h
      · exact .inr ⟨(j, a), .head _, rfl⟩
      · exact .inr ⟨p, .tail _ h, rfl⟩
    · rcases mem_cons.mp h with rfl | h
      · exact .inr ⟨(j, a), .head _, rfl⟩
      · rcases ih h with h | ⟨q, hq, h⟩
        · exact .inl h
        · exact .inr ⟨q, .tail _ hq, h⟩

section Lawful

variable [Std.TransCmp cmp] {m : List (κ × α)} (h : Ascending cmp m)
include h

theorem Ascending.upsert (k : κ) (f : Option α → α) : Ascending cmp (upsert cmp k f m) := by
  induction m with
  | nil => exact pairwise_singleton _ _
  | cons e m ih =>
    obtain ⟨hj, hm⟩ := pairwise_cons.mp h
    rw [OrdMap.upsert]
    split
    next hlt =>
      refine pairwise_cons.mpr ⟨fun p hp => ?_, h⟩
      rcases mem_cons.mp hp with rfl | hp
      · exact hlt
      · exact Std.TransCmp.lt_trans hlt (hj p hp)
    next => exact pairwise_cons.mpr ⟨hj, hm⟩
    next hgt =>
      refine pairwise_cons.mpr ⟨fun p hp => ?_, ih hm⟩
      rcases mem_keys_upsert hp with hk | ⟨q, hq, hk⟩
      · rw [hk]
        exact Std.OrientedCmp.lt_of_gt hgt
      · rw [hk]
        exact hj q hq

/-- **Lookup after update.** Keys of one class share an entry, so the equation is by the
comparison and not by equality of keys. -/
theorem find_upsert (k j : κ) (f : Option α → α) : find cmp j (upsert cmp k f m) =
      if cmp j k = .eq then some (f (find cmp k m)) else find cmp j m := by
  induction m with
  | nil =>
    rw [upsert, find, find, find]
    rcases cmp j k with _ | _ | _ <;> rfl
  | cons e m ih =>
    obtain ⟨i, a⟩ := e
    obtain ⟨hi, hm⟩ := pairwise_cons.mp h
    rw [upsert]
    split
    next hlt =>
      -- the new key goes in front: what lies below it lies below the rest as well
      have hk : find cmp k ((i, a) :: m) = none := by rw [find, hlt]
      rw [find, hk]
      split
      next hjk => rw [if_neg (by rw [hjk]; decide), find, Std.TransCmp.lt_trans hjk hlt]
      next hjk => rw [if_pos hjk]
      next hjk => rw [if_neg (by rw [hjk]; decide)]
    next heq =>
      have hk : find cmp k ((i, a) :: m) = some a := by rw [find, heq]
      have hji : cmp j i = cmp j k := (Std.TransCmp.congr_right heq).symm
      rw [hk, find, find, hji]
      split
      next hjk => rw [if_neg (by rw [hjk]; decide)]
      next hjk => rw [if_pos hjk]
      next hjk => rw [if_neg (by rw [hjk]; decide)]
    next hgt =>
      have hk : find cmp k ((i, a) :: m) = find cmp k m := by rw [find, hgt]
      rw [hk, find, ih hm, find]
      split
      next hji =>
        have hjk : cmp j k = .lt := Std.TransCmp.lt_trans hji (Std.OrientedCmp.lt_of_gt hgt)
        rw [if_neg (by rw [hjk]; decide)]
      next hji =>
        have hjk : cmp j k = .lt := by
          rw [Std.TransCmp.congr_left hji]
          exact Std.OrientedCmp.lt_of_gt hgt
        rw [if_neg (by rw [hjk]; decide)]
      next => rfl

/-- An ascending map holds at most one entry of a class, and lookup finds it. -/
theorem find_eq_some_iff (k : κ) (a : α) : find cmp k m = some a ↔ ∃ p ∈ m, cmp k p.1 = .eq ∧ p.2 = a := by
  induction m with
  | nil => simp [find]
  | cons e m ih =>
    obtain ⟨j, b⟩ := e
    obtain ⟨hj, hm⟩ := pairwise_cons.mp h
    rw [find]
    split
    next hlt =>
      refine iff_of_false (by simp) ?_
      rintro ⟨p, hp, heq, -⟩
      rcases mem_cons.mp hp with rfl | hp
      · rw [hlt] at heq
        cases heq
      · rw [Std.TransCmp.lt_trans hlt (hj p hp)] at heq
        cases heq
    next heq =>
      constructor
      · intro h
        exact ⟨(j, b), .head _, heq, Option.some.inj h⟩
      · rintro ⟨p, hp, hkp, rfl⟩
        rcases mem_cons.mp hp with rfl | hp
        · rfl
        · rw [Std.TransCmp.congr_left heq, hj p hp] at hkp
          cases hkp
    next hgt =>
      rw [ih hm]
      constructor
      · rintro ⟨p, hp, hrest⟩
        exact ⟨p, .tail _ hp, hrest⟩
      · rintro ⟨p, hp, hkp, hpa⟩
        rcases mem_cons.mp hp with rfl | hp
        · rw [hgt] at hkp
          cases hkp
        · exact ⟨p, hp, hkp, hpa⟩

end Lawful

end Slater.OrdMap
