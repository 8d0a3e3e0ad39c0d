import Mathlib

/-!
# Folded entries and their enumerations

A collection folds what is known of each key into one optional entry and then lists the entries, in an order
that is left open. `Enumerates` says that a list of keys is such an order. Where an entry carries its key, the
listed entries are determined by their keys, and splitting and sorting them keeps them all.

The order is an argument wherever a source iterates over a hash map; a law that holds for every enumeration holds
for the one that happens.
-/

namespace Slater

open List

variable {α β κ : Type} {step : Option β → α → Option β} {xs : List α}

/-- A fold that starts from nothing and ends in something has met an item that changes it. -/
theorem exists_mem_of_foldl_isSome {p : α → Prop} (keeps : ∀ acc x, ¬ p x → step acc x = acc)
    (h : (xs.foldl step none).isSome) : ∃ x ∈ xs, p x := by
  by_contra hno
  have hnone : xs.foldl step none = none := by
    refine foldlRecOn (motive := (· = none)) xs step rfl fun acc hacc x hx => ?_
    exact (keeps acc x fun hp => hno ⟨x, hx, hp⟩).trans hacc
  rw [hnone] at h
  cases h

/-- A fold ends in something if one item gives something and none takes it back. -/
theorem foldl_isSome_of_mem {x : α} (hx : x ∈ xs) (gives : ∀ acc, (step acc x).isSome)
    (keeps : ∀ acc y, acc.isSome → (step acc y).isSome) (init : Option β) : (xs.foldl step init).isSome := by
  obtain ⟨ys, zs, rfl⟩ := append_of_mem hx
  rw [foldl_append]
  exact foldlRecOn zs step (gives _) fun acc hacc y _ => keeps acc y hacc

/-- The list enumerates the keys that have a folded entry, as iterating a hash map of them
does. -/
def Enumerates (order : List κ) (folded : κ → Option β) : Prop :=
  order.Nodup ∧ ∀ k, k ∈ order ↔ (folded k).isSome

section Keyed

variable {order : List κ} {folded : κ → Option β} {key : β → κ}

/-- That a list enumerates the entries is a question about the keys that the items store. -/
theorem enumerates_iff_stored {stored : α → Finset κ} (mem : ∀ k, (folded k).isSome → ∃ x ∈ xs, k ∈ stored x) :
    Enumerates order folded ↔ order.Nodup ∧ (∀ k ∈ order, (folded k).isSome) ∧
      ∀ x ∈ xs, ∀ k ∈ stored x, (folded k).isSome → k ∈ order := by
  constructor
  · exact fun h => ⟨h.1, fun k => (h.2 k).mp, fun _ _ k _ => (h.2 k).mpr⟩
  · rintro ⟨nodup, sound, complete⟩
    refine ⟨nodup, fun k => ⟨sound k, fun h => ?_⟩⟩
    obtain ⟨x, hx, hk⟩ := mem k h
    exact complete x hx k hk h

variable (hkey : ∀ k b, folded k = some b → key b = k)

include hkey

theorem Enumerates.mem_filterMap (h : Enumerates order folded) {b : β} :
    b ∈ order.filterMap folded ↔ folded (key b) = some b := by
  rw [List.mem_filterMap]
  constructor
  · rintro ⟨k, -, hb⟩
    rwa [hkey k b hb]
  · intro hb
    exact ⟨key b, (h.2 (key b)).mpr (by rw [hb]; rfl), hb⟩

/-- The entries are as apart as the keys they were listed by. -/
theorem nodup_map_filterMap (nodup : order.Nodup) : ((order.filterMap folded).map key).Nodup := by
  rw [map_filterMap]
  refine nodup.filterMap fun k k' a hk hk' => ?_
  obtain ⟨b, hb, rfl⟩ := Option.map_eq_some_iff.mp hk
  obtain ⟨b', hb', heq⟩ := Option.map_eq_some_iff.mp hk'
  rw [← hkey k b hb, ← heq, hkey k' b' hb']

end Keyed

/-- Splitting a list in two and sorting the parts keeps its items. -/
theorem insertionSort_filter_perm {p q : β → Bool} (hpq : ∀ b, q b = !p b) (r s : β → β → Prop) [DecidableRel r]
    [DecidableRel s] (bs : List β) : ((bs.filter p).insertionSort r ++ (bs.filter q).insertionSort s).Perm bs := by
  refine ((perm_insertionSort ..).append (perm_insertionSort ..)).trans ?_
  rw [funext hpq]
  exact filter_append_perm ..

/-- Entries sorted by an id, whose ids are those of an interval: the ids come in order, without
gaps. -/
theorem map_eq_range' {xs : List α} {id : α → Nat} {b n : Nat}
    (sorted : xs.Pairwise fun x y => id x ≤ id y) (nodup : (xs.map id).Nodup)
    (mem : ∀ d, d ∈ xs.map id ↔ b ≤ d ∧ d < b + n) : xs.map id = range' b n := by
  apply List.Perm.eq_of_pairwise (fun _ _ _ _ => Nat.le_antisymm)
  · exact pairwise_map.mpr sorted
  · exact (pairwise_lt_range').imp Nat.le_of_lt
  · refine (perm_ext_iff_of_nodup nodup nodup_range').mpr fun d => ?_
    rw [mem d, mem_range'_1]

end Slater
