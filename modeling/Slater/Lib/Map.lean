import Mathlib

/-!
# Finite maps

A hash map or a tree map of the source is a `Map`: Mathlib's `Finmap` at a constant fibre, so two
maps with the same lookups are one map and no iteration order is observable. This module gives the
lookup of every update as one equation with an `if`, the filtering of a map by its keys, bulk
insertion and removal, and the ascending enumeration of a finite set that stands for "collect and
sort".

`ascending` sorts by insertion rather than through `Finset.sort`, so that closed terms compute;
`ascending_eq_sort` is the bridge to Mathlib's sorted lists.
-/

namespace Slater

open List Option Finmap

universe u v

/-- A finite map from `κ` to `α`. Equality of maps is equality of lookups. -/
abbrev Map (κ : Type u) (α : Type v) := Finmap fun _ : κ => α

namespace Map

variable {κ : Type u} {α : Type v}

section Lookup

variable [DecidableEq κ] {m : Map κ α} {k j : κ} {v : α} {p : κ → α → Prop}

theorem lookup_insert_ite (m : Map κ α) (k j : κ) (v : α) :
    (m.insert k v).lookup j = if j = k then some v else m.lookup j := by
  split
  next h => subst h; exact lookup_insert m
  next h => exact lookup_insert_of_ne m h

theorem lookup_insert_eq_some {w : α} :
    (m.insert k v).lookup j = some w ↔ j = k ∧ w = v ∨ j ≠ k ∧ m.lookup j = some w := by
  rw [lookup_insert_ite]
  split
  next h => simp [h, eq_comm]
  next h => simp [h]

theorem exists_lookup_insert (h : ∃ w, m.lookup j = some w) : ∃ w, (m.insert k v).lookup j = some w := by
  rw [lookup_insert_ite]
  split
  next => exact ⟨v, rfl⟩
  next => exact h

theorem insert_of_lookup (h : m.lookup k = some v) : m.insert k v = m := by
  apply ext_lookup
  intro j
  rw [lookup_insert_ite]
  split
  next heq => rw [heq, h]
  next => rfl

/-- What holds of the entries of a map and of a new one holds of the entries after the
insertion. -/
theorem forall_lookup_insert (h : ∀ j w, m.lookup j = some w → p j w) (hv : p k v) :
    ∀ j w, (m.insert k v).lookup j = some w → p j w := by
  intro j w hw
  rcases lookup_insert_eq_some.mp hw with ⟨rfl, rfl⟩ | ⟨-, hw⟩
  · exact hv
  · exact h j w hw

theorem lookup_erase_ite (m : Map κ α) (k j : κ) : (m.erase k).lookup j = if j = k then none else m.lookup j := by
  split
  next h => subst h; exact lookup_erase j m
  next h => exact lookup_erase_ne h

theorem lookup_of_erase (h : (m.erase k).lookup j = some v) : m.lookup j = some v := by
  rw [lookup_erase_ite] at h
  split at h
  · cases h
  · exact h

theorem lookup_union_or (m n : Map κ α) (k : κ) : (m ∪ n).lookup k = (m.lookup k).or (n.lookup k) := by
  by_cases h : k ∈ m
  · obtain ⟨v, hv⟩ := mem_iff.mp h
    rw [lookup_union_left h, hv, some_or]
  · rw [lookup_union_right h, lookup_eq_none.mpr h, none_or]

theorem mem_keys_iff (m : Map κ α) (k : κ) : k ∈ m.keys ↔ ∃ v, m.lookup k = some v :=
  mem_keys.trans mem_iff

theorem eq_empty_iff (m : Map κ α) : m = ∅ ↔ ∀ k, m.lookup k = none := by
  constructor
  · rintro rfl k
    exact lookup_empty k
  · intro h
    apply ext_lookup
    intro k
    rw [h k, lookup_empty]

theorem keys_eq_empty_iff (m : Map κ α) : m.keys = ∅ ↔ m = ∅ := by
  rw [eq_empty_iff, Finset.eq_empty_iff_forall_notMem]
  exact forall_congr' fun k => by rw [Finmap.mem_keys, Finmap.lookup_eq_none]

/-- Every entry of `m` satisfies `p`; the quantifier runs over the keys, so that it can be
decided. -/
def All (p : κ → α → Prop) (m : Map κ α) : Prop := ∀ k ∈ m.keys, ∀ v ∈ m.lookup k, p k v

instance (p : κ → α → Prop) [∀ k v, Decidable (p k v)] (m : Map κ α) : Decidable (All p m) :=
  inferInstanceAs (Decidable (∀ k ∈ m.keys, ∀ v ∈ m.lookup k, p k v))

theorem all_iff : All p m ↔ ∀ k v, m.lookup k = some v → p k v := by
  constructor
  · intro h k v hv
    exact h k ((mem_keys_iff m k).mpr ⟨v, hv⟩) v hv
  · intro h k _ v hv
    exact h k v hv

end Lookup

/-! ## Filtering -/

/-- Rewrite or drop every entry of `m`. -/
def filterMap {β : Type v} (f : κ → α → Option β) (m : Map κ α) : Map κ β where
  entries := m.entries.filterMap fun e => (f e.1 e.2).map (Sigma.mk e.1)
  nodupKeys := by
    rcases m with ⟨⟨l⟩, h⟩
    refine List.Nodup.sublist ?_ h
    show ((l.filterMap _).map Sigma.fst).Sublist (l.map Sigma.fst)
    clear h
    induction l with
    | nil => exact .slnil
    | cons e l ih =>
      cases hf : f e.1 e.2 with
      | none => simpa [hf] using ih.cons e.1
      | some b => simpa [hf] using ih.cons_cons e.1

theorem lookup_filterMap [DecidableEq κ] {β : Type v} (f : κ → α → Option β) (m : Map κ α) (k : κ) :
    (filterMap f m).lookup k = (m.lookup k).bind (f k) := by
  apply Option.ext
  intro v
  rw [Finmap.lookup_eq_some_iff, bind_eq_some_iff]
  simp only [filterMap, Multiset.mem_filterMap, map_eq_some_iff]
  constructor
  · rintro ⟨⟨j, a⟩, hmem, b, hb, heq⟩
    cases heq
    exact ⟨a, lookup_eq_some_iff.mpr hmem, hb⟩
  · rintro ⟨a, ha, hb⟩
    exact ⟨⟨k, a⟩, lookup_eq_some_iff.mp ha, v, hb, rfl⟩

/-- The entries of `m` whose key passes `p`. -/
def restrict (p : κ → Bool) (m : Map κ α) : Map κ α :=
  filterMap (fun k v => bif p k then some v else none) m

theorem lookup_restrict [DecidableEq κ] (p : κ → Bool) (m : Map κ α) (k : κ) :
    (restrict p m).lookup k = if p k then m.lookup k else none := by
  rw [restrict, lookup_filterMap]
  cases p k <;> cases m.lookup k <;> rfl

/-! ## Bulk updates -/

section Bulk

variable [DecidableEq κ] {kvs : List (κ × α)} {k : κ} {v : α} (m : Map κ α)

/-- Insertions leave the keys there were and those inserted, whatever the values. -/
theorem isSome_lookup_foldl_insert {β : Type*} (key : β → κ) (value : Map κ α → β → α) (xs : List β) (k : κ) :
    ((xs.foldl (fun m x => m.insert (key x) (value m x)) m).lookup k).isSome ↔
      (m.lookup k).isSome ∨ k ∈ xs.map key := by
  induction xs generalizing m with
  | nil => simp
  | cons x xs ih =>
    rw [foldl_cons, ih, lookup_insert_ite]
    by_cases hk : k = key x <;> simp [hk]

/-- Insert the pairs in order, so that a later pair of one key wins. -/
def insertAll (kvs : List (κ × α)) : Map κ α :=
  kvs.foldl (fun m kv => m.insert kv.1 kv.2) m

@[simp] theorem insertAll_nil : insertAll m [] = m := rfl

@[simp] theorem insertAll_cons (kv : κ × α) (kvs : List (κ × α)) :
    insertAll m (kv :: kvs) = insertAll (m.insert kv.1 kv.2) kvs := rfl

theorem lookup_insertAll (kvs : List (κ × α)) (k : κ) :
    (insertAll m kvs).lookup k = ((insertAll (∅ : Map κ α) kvs).lookup k).or (m.lookup k) := by
  induction kvs generalizing m with
  | nil => simp only [insertAll_nil, lookup_empty, none_or]
  | cons kv kvs ih =>
    rw [insertAll_cons, insertAll_cons, ih (m.insert _ _), ih (insert _ _ ∅), Option.or_assoc]
    rw [lookup_insert_ite, lookup_insert_ite]
    split <;> simp only [some_or, lookup_empty, none_or]

theorem lookup_insertAll_isSome (kvs : List (κ × α)) (k : κ) :
    ((insertAll (∅ : Map κ α) kvs).lookup k).isSome ↔ k ∈ kvs.map Prod.fst := by
  rw [insertAll, isSome_lookup_foldl_insert, lookup_empty, isSome_none, Bool.false_eq_true, false_or]

theorem lookup_insertAll_of_notMem (h : k ∉ kvs.map Prod.fst) : (insertAll m kvs).lookup k = m.lookup k := by
  have hnone := not_isSome_iff_eq_none.mp (mt (lookup_insertAll_isSome kvs k).mp h)
  rw [lookup_insertAll, hnone, none_or]

/-- A listed key ends with the same value whatever map the insertion started from. -/
theorem exists_lookup_insertAll (h : k ∈ kvs.map Prod.fst) :
    ∃ v, ∀ m : Map κ α, (insertAll m kvs).lookup k = some v := by
  obtain ⟨v, hv⟩ := isSome_iff_exists.mp ((lookup_insertAll_isSome kvs k).mpr h)
  exact ⟨v, fun m => by rw [lookup_insertAll, hv, some_or]⟩

/-- What the map holds after the insertion was listed, or was there before. -/
theorem mem_or_lookup_of_insertAll {m : Map κ α}
    (h : (insertAll m kvs).lookup k = some v) : (k, v) ∈ kvs ∨ m.lookup k = some v := by
  induction kvs generalizing m with
  | nil => exact .inr h
  | cons kv kvs ih =>
    rcases ih h with hmem | hlook
    · exact .inl (.tail _ hmem)
    · rw [lookup_insert_ite] at hlook
      split at hlook
      next hk =>
        cases hlook
        exact .inl (hk ▸ mem_cons_self)
      next => exact .inr hlook

/-- Inserted from the last to the first, the first binding of a key is the one that stays. -/
theorem lookup_insertAll_reverse (kvs : List (κ × α)) (k : κ) :
    (insertAll (∅ : Map κ α) kvs.reverse).lookup k = kvs.lookup k := by
  induction kvs with
  | nil => rfl
  | cons kv kvs ih =>
    rw [reverse_cons, insertAll, foldl_append, foldl_cons, foldl_nil,
      lookup_insert_ite, lookup_cons]
    by_cases h : k = kv.1
    · rw [if_pos h, beq_iff_eq.mpr h]
    · rw [if_neg h, beq_eq_false_iff_ne.mpr h]
      exact ih

/-- With distinct keys, the map holds what was listed. -/
theorem lookup_insertAll_eq_some (nodup : (kvs.map Prod.fst).Nodup)
    : (insertAll (∅ : Map κ α) kvs).lookup k = some v ↔ (k, v) ∈ kvs := by
  induction kvs with
  | nil => simp
  | cons kv kvs ih =>
    rw [map_cons, nodup_cons] at nodup
    rw [insertAll_cons, lookup_insertAll, mem_cons, ← ih nodup.2]
    by_cases hk : k = kv.1
    · have hnone := not_isSome_iff_eq_none.mp (mt (lookup_insertAll_isSome kvs kv.1).mp nodup.1)
      rw [hk, hnone, Prod.ext_iff]
      simp [eq_comm]
    · rw [Prod.ext_iff]
      simp [hk]

/-- Remove every listed key. -/
def eraseAll (ks : List κ) : Map κ α :=
  ks.foldl (fun m k => m.erase k) m

@[simp] theorem eraseAll_nil : eraseAll m [] = m := rfl

@[simp] theorem eraseAll_cons (k : κ) (ks : List κ) :
    eraseAll m (k :: ks) = eraseAll (m.erase k) ks := rfl

theorem lookup_eraseAll (ks : List κ) (k : κ) :
    (eraseAll m ks).lookup k = if k ∈ ks then none else m.lookup k := by
  induction ks generalizing m with
  | nil => simp only [eraseAll_nil, not_mem_nil, if_false]
  | cons j ks ih =>
    rw [eraseAll_cons, ih, lookup_erase_ite]
    by_cases hk : k ∈ ks <;> by_cases hj : k = j <;> simp [hj]

/-! ## Filing and counting -/

/-- Append every list to what is filed under its key. -/
def extendAll (m : Map κ (List α)) (kvs : List (κ × List α)) : Map κ (List α) :=
  kvs.foldl (fun m kv => m.insert kv.1 ((m.lookup kv.1).getD [] ++ kv.2)) m

theorem getD_extendAll (m : Map κ (List α)) (kvs : List (κ × List α)) (k : κ) : ((extendAll m kvs).lookup k).getD [] =
      (m.lookup k).getD [] ++ (kvs.filter fun kv => kv.1 = k).flatMap Prod.snd := by
  induction kvs generalizing m with
  | nil => simp [extendAll]
  | cons kv kvs ih =>
    rw [extendAll, foldl_cons, ← extendAll, ih]
    by_cases hk : k = kv.1
    · subst hk; simp
    · simp [hk, Ne.symm hk]

theorem isSome_lookup_extendAll (m : Map κ (List α)) (kvs : List (κ × List α)) (k : κ) :
    ((extendAll m kvs).lookup k).isSome ↔ (m.lookup k).isSome ∨ k ∈ kvs.map Prod.fst :=
  isSome_lookup_foldl_insert m ..

/-- File `v` under `k`, after what is filed there. -/
def file (m : Map κ (List α)) (k : κ) (v : α) : Map κ (List α) :=
  m.insert k ((m.lookup k).getD [] ++ [v])

/-- File every pair, in order. -/
def fileAll (m : Map κ (List α)) (kvs : List (κ × α)) : Map κ (List α) :=
  kvs.foldl (fun m kv => file m kv.1 kv.2) m

theorem getD_fileAll (m : Map κ (List α)) (kvs : List (κ × α)) (k : κ) : ((fileAll m kvs).lookup k).getD [] =
      (m.lookup k).getD [] ++ (kvs.filter fun kv => kv.1 = k).map Prod.snd := by
  have h := getD_extendAll m (kvs.map fun kv => (kv.1, [kv.2])) k
  rwa [extendAll, foldl_map, List.filter_map, flatMap_map, ← map_eq_flatMap] at h

theorem isSome_lookup_fileAll (m : Map κ (List α)) (kvs : List (κ × α)) (k : κ) :
    ((fileAll m kvs).lookup k).isSome ↔ (m.lookup k).isSome ∨ k ∈ kvs.map Prod.fst :=
  isSome_lookup_foldl_insert m ..

/-- Count one more `k`. -/
def tally (m : Map κ Nat) (k : κ) : Map κ Nat := m.insert k ((m.lookup k).getD 0 + 1)

/-- Count every listed key. -/
def tallyAll (m : Map κ Nat) (ks : List κ) : Map κ Nat := ks.foldl tally m

theorem getD_tallyAll (m : Map κ Nat) (ks : List κ) (k : κ) :
    ((tallyAll m ks).lookup k).getD 0 = (m.lookup k).getD 0 + ks.count k := by
  induction ks generalizing m with
  | nil => simp [tallyAll]
  | cons j ks ih =>
    rw [tallyAll, foldl_cons, ← tallyAll, ih, tally]
    by_cases hk : k = j
    · subst hk; simp; omega
    · simp [hk, Ne.symm hk]

theorem isSome_lookup_tallyAll (m : Map κ Nat) (ks : List κ) (k : κ) :
    ((tallyAll m ks).lookup k).isSome ↔ (m.lookup k).isSome ∨ k ∈ ks := by
  have h := isSome_lookup_foldl_insert m id (fun m k => (m.lookup k).getD 0 + 1) ks k
  rwa [List.map_id] at h

end Bulk

end Map

/-! ## Keyed lists -/

section Keyed

variable {κ : Type u} {α : Type v} {ks : List κ} {f : κ → Option α}

/-- The listed keys that `f` gives a value, with it. -/
def keyed (ks : List κ) (f : κ → Option α) : List (κ × α) := ks.filterMap fun k => (f k).map (k, ·)

theorem mem_keyed {k : κ} {a : α} : (k, a) ∈ keyed ks f ↔ k ∈ ks ∧ f k = some a := by
  simp only [keyed, mem_filterMap, map_eq_some_iff, Prod.mk.injEq]
  constructor
  · rintro ⟨_, hk, _, ha, rfl, rfl⟩
    exact ⟨hk, ha⟩
  · rintro ⟨hk, ha⟩
    exact ⟨k, hk, a, ha, rfl, rfl⟩

theorem keyed_fst (ks : List κ) (f : κ → Option α) : (keyed ks f).map Prod.fst = ks.filter fun k => (f k).isSome := by
  induction ks with
  | nil => rfl
  | cons k ks ih =>
    cases hk : f k with
    | none | some a => simpa [keyed, hk] using ih

theorem keyed_nodup (h : ks.Nodup) (f : κ → Option α) : ((keyed ks f).map Prod.fst).Nodup := by
  rw [keyed_fst]
  exact h.filter _

/-- What a keyed list holds under one key. -/
theorem keyed_filter [DecidableEq κ] (h : ks.Nodup) (f : κ → Option α) (k : κ) :
    (keyed ks f).filter (fun kv => kv.1 = k) = if k ∈ ks then ((f k).map (k, ·)).toList else [] := by
  induction ks with
  | nil => simp [keyed]
  | cons j ks ih =>
    rw [nodup_cons] at h
    have ih := ih h.2
    by_cases hj : j = k
    · subst hj
      rw [if_neg h.1] at ih
      cases hf : f j <;> simp [keyed, hf] at ih ⊢ <;> simpa using ih
    · have hmem : k ∈ j :: ks ↔ k ∈ ks := by simp [Ne.symm hj]
      simp only [hmem]
      rw [← ih]
      cases hf : f j <;> simp [keyed, hf, hj]

end Keyed

/-! ## Ascending enumeration -/

section Ascending

variable {κ : Type u} [LinearOrder κ] {α : Type v} {m : Map κ α} {k : κ} {s : Finset κ} {v : α}

/-- The elements of a finite set in ascending order. -/
def ascending (s : Finset κ) : List κ :=
  Quot.liftOn s.1 (List.insertionSort (· ≤ ·)) fun _ _ h =>
    List.Perm.eq_of_pairwise (fun _ _ _ _ => le_antisymm)
      (pairwise_insertionSort _ _) (pairwise_insertionSort _ _)
      ((perm_insertionSort _ _).trans (h.trans (perm_insertionSort _ _).symm))

theorem ascending_eq_sort (s : Finset κ) : ascending s = s.sort (· ≤ ·) := by
  obtain ⟨⟨l⟩, hl⟩ := s
  apply List.Perm.eq_of_pairwise (fun _ _ _ _ => le_antisymm)
  · exact pairwise_insertionSort (· ≤ ·) l
  · exact Finset.pairwise_sort _ _
  · exact (perm_insertionSort _ l).trans (Multiset.coe_eq_coe.mp (Finset.sort_eq _ _)).symm

@[simp] theorem mem_ascending : k ∈ ascending s ↔ k ∈ s := by
  rw [ascending_eq_sort, Finset.mem_sort]

@[simp] theorem toFinset_ascending (s : Finset κ) : (ascending s).toFinset = s := by
  ext k
  rw [List.mem_toFinset, mem_ascending]

theorem ascending_nodup (s : Finset κ) : (ascending s).Nodup := by
  rw [ascending_eq_sort]
  exact Finset.sort_nodup _ _

theorem ascending_strict (s : Finset κ) : (ascending s).Pairwise (· < ·) := by
  rw [ascending_eq_sort]
  exact Finset.sortedLT_sort s |>.pairwise

/-- The entries of a map in key order, as iterating a tree map gives them. -/
def Map.pairs {α : Type v} (m : Map κ α) : List (κ × α) := keyed (ascending m.keys) (m.lookup ·)

theorem Map.mem_pairs : (k, v) ∈ m.pairs ↔ m.lookup k = some v := by
  rw [pairs, mem_keyed, mem_ascending, mem_keys_iff]
  exact ⟨And.right, fun h => ⟨⟨v, h⟩, h⟩⟩

theorem Map.pairs_nodup (m : Map κ α) : (m.pairs.map Prod.fst).Nodup :=
  keyed_nodup (ascending_nodup m.keys) _

theorem Map.pairs_strict (m : Map κ α) : (m.pairs.map Prod.fst).Pairwise (· < ·) := by
  rw [pairs, keyed_fst]
  exact (ascending_strict m.keys).filter _

/-- A strictly ascending list of a set's elements is the list of its elements. -/
theorem ascending_eq_of_strict {ks : List κ} (sorted : ks.Pairwise (· < ·))
    (mem : ∀ k, k ∈ ks ↔ k ∈ s) : ascending s = ks := by
  refine List.Perm.eq_of_pairwise (fun a b _ _ hab hba => absurd hab (lt_asymm hba)) (ascending_strict s) sorted ?_
  refine (perm_ext_iff_of_nodup (ascending_nodup s) (sorted.imp fun hlt => hlt.ne)).mpr fun k => ?_
  rw [mem_ascending, mem]

/-- A key above all others comes last. -/
theorem Map.ascending_keys_concat {m' : Map κ α}
    (hkeys : ∀ j, j ∈ m'.keys ↔ j ∈ m.keys ∨ j = k) (hmax : ∀ j ∈ m.keys, j < k) :
    ascending m'.keys = ascending m.keys ++ [k] := by
  refine ascending_eq_of_strict ?_ fun j => ?_
  · rw [pairwise_append]
    refine ⟨ascending_strict _, pairwise_singleton _ _, fun a ha b hb => ?_⟩
    rw [mem_singleton.mp hb]
    exact hmax a (mem_ascending.mp ha)
  · rw [List.mem_append, mem_ascending, List.mem_singleton, hkeys]

/-- The entry of the last key comes last. -/
theorem Map.pairs_eq_concat (hk : m.lookup k = some v)
    (hmax : ∀ j ∈ m.keys, j ≤ k) : m.pairs = pairs (m.erase k) ++ [(k, v)] := by
  have hkeys : ∀ j, j ∈ m.keys ↔ j ∈ (m.erase k).keys ∨ j = k := by
    intro j
    rw [mem_keys_iff, mem_keys_iff, lookup_erase_ite]
    split
    next heq => exact iff_of_true ⟨v, heq ▸ hk⟩ (.inr heq)
    next hne => simp [hne]
  have hlt : ∀ j ∈ (m.erase k).keys, j < k := by
    intro j hj
    refine lt_of_le_of_ne (hmax j ((hkeys j).mpr (.inl hj))) ?_
    rintro rfl
    simp at hj
  have hrest : keyed (ascending (m.erase k).keys) (m.lookup ·) = pairs (m.erase k) := by
    refine filterMap_congr fun j hj => ?_
    show _ = Option.map _ ((m.erase k).lookup j)
    rw [lookup_erase_ite, if_neg (hlt j (mem_ascending.mp hj)).ne]
  rw [pairs, ascending_keys_concat hkeys hlt, keyed, filterMap_append]
  refine congrArg₂ (· ++ ·) hrest ?_
  rw [filterMap_cons, hk]
  rfl

/-- Inserting a map's entries one by one gives the map back. -/
theorem Map.insertAll_pairs (m : Map κ α) : insertAll ∅ m.pairs = m := by
  apply ext_lookup
  intro k
  apply Option.ext
  intro v
  rw [lookup_insertAll_eq_some m.pairs_nodup, mem_pairs]

end Ascending

end Slater
