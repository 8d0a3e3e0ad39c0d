import Slater.Delta.Level

/-!
# The writable layer as a state machine

`DeltaState` is the writable layer over its life: the active memtable over the sealed levels, newest
first. A step applies one resolved operation to the active memtable or seals it (`flush_to_l0`), which
starts a fresh memtable with its two id spaces past every id in use.

What a reader's snapshot answers is folded over the levels. The folds of the snapshot are brought into
the forms the proofs use: the first edge of every merge key (`mem_keepFirst`), one property of an edge
(`edgePatchValue_eq`), the delta of a node (`snapshotOf_nodePatch`).

**What it does not model.** The levels sealed here are resident memtables. With a spill directory
`flush_to_l0` seals an off-heap segment instead; which memtables answer the same through one is the
subject of `Slater.Delta.Spill`.
-/

namespace Slater

open Map List Memtable

/-- The writable layer: the active memtable over the sealed levels, newest first. This is the
part of a writer that reads depend on; its log, its files and its counters are in
`Slater.Server.DeltaWriter`. -/
structure DeltaState where
  mem : Memtable
  l0 : List Memtable

/-- A step of the writer. A write is resolved by whoever makes it, and nothing is asked of the
ids it carries. -/
inductive DeltaStep where
  | write (op : ResolvedOp)
  | flush

namespace DeltaState

/-- A writer opened over a core with `nodeCount` nodes and `edgeCount` edges. Born ids start at
the two counts. -/
def start (nodeCount edgeCount : Nat) : DeltaState :=
  { mem := .withBases nodeCount edgeCount, l0 := [] }

variable (st : DeltaState)

/-- `flush_to_l0`: nothing to seal in an empty memtable; else it becomes the newest sealed
level. -/
def flush : DeltaState :=
  bif st.mem.isEmpty then st
  else
    { mem := .withBases (st.mem.syntheticBase + st.mem.born.length)
        (st.mem.edgeSyntheticBase + st.mem.bornEdges.length)
      l0 := st.mem :: st.l0 }

def step : DeltaStep → DeltaState
  | .write op => { st with mem := st.mem.apply op }
  | .flush => st.flush

/-- The state after a run of steps. -/
def run (steps : List DeltaStep) : DeltaState := steps.foldl step st

/-- The levels, newest first. -/
def levels : List Memtable := st.mem :: st.l0

/-- The snapshot a reader takes. -/
def snapshot : DeltaSnapshot := { mem := st.mem, l0 := st.l0.map level }

end DeltaState

/-! ## The first edge of every key -/

section KeepFirst

variable {seen : List (String × Nat × Bytes)} {xs : List DeltaEdge}

theorem mem_keepFirst {e : DeltaEdge} : e ∈ keepFirst seen xs ↔
      e.mergeKey ∉ seen ∧ xs.find? (fun x => x.mergeKey = e.mergeKey) = some e := by
  induction xs generalizing seen with
  | nil => simp [keepFirst]
  | cons x xs ih =>
    rw [keepFirst, find?_cons]
    by_cases hkey : x.mergeKey = e.mergeKey
    · -- the key is met here
      rw [decide_eq_true hkey]
      split
      next hseen =>
        rw [ih, hkey] at *
        simp [hseen]
      next hseen =>
        rw [mem_cons, ih]
        rw [hkey] at hseen ⊢
        constructor
        · rintro (rfl | ⟨hno, -⟩)
          · exact ⟨hseen, rfl⟩
          · exact absurd (.head _) hno
        · rintro ⟨-, heq⟩
          exact .inl (Option.some_inj.mp heq).symm
    · rw [decide_eq_false hkey]
      split
      next => exact ih
      next =>
        rw [mem_cons, ih, mem_cons, not_or]
        constructor
        · rintro (rfl | ⟨⟨-, hno⟩, hfind⟩)
          · exact absurd rfl hkey
          · exact ⟨hno, hfind⟩
        · rintro ⟨hno, hfind⟩
          exact .inr ⟨⟨Ne.symm hkey, hno⟩, hfind⟩

theorem keepFirst_nodup : (keepFirst seen xs).Nodup := by
  induction xs generalizing seen with
  | nil => exact .nil
  | cons x xs ih =>
    rw [keepFirst]
    split
    next => exact ih
    next =>
      refine nodup_cons.mpr ⟨fun hmem => ?_, ih⟩
      exact (mem_keepFirst.mp hmem).1 (.head _)

/-- Edges that differ in their merge keys are all kept. -/
theorem keepFirst_eq_self (h : (xs.map DeltaEdge.mergeKey).Nodup) (hseen : ∀ x ∈ xs, x.mergeKey ∉ seen) :
    keepFirst seen xs = xs := by
  induction xs generalizing seen with
  | nil => rfl
  | cons x xs ih =>
    rw [map_cons, nodup_cons] at h
    rw [keepFirst, if_neg (hseen x (.head _)), ih h.2]
    intro y hy hmem
    rcases mem_cons.mp hmem with heq | hmem
    · exact h.1 (heq ▸ mem_map_of_mem hy)
    · exact hseen y (.tail _ hy) hmem

theorem keepFirst_subset : keepFirst seen xs ⊆ xs := fun _ h => mem_of_find?_eq_some (mem_keepFirst.mp h).2

/-- An edge that a snapshot shows stems from one of its levels. -/
theorem DeltaSnapshot.mem_mergeEdges {s : DeltaSnapshot} {read : Level → List DeltaEdge} {e : DeltaEdge}
    (h : e ∈ s.mergeEdges read) : ∃ l ∈ s.levels, e ∈ read l := by
  unfold mergeEdges at h
  split at h
  next => exact ⟨s.mem.level, .head _, h⟩
  next => exact mem_flatMap.mp (keepFirst_subset h)

end KeepFirst

/-- A set-valued answer of a snapshot collects those of its levels. -/
theorem DeltaSnapshot.mem_union {α : Type} [DecidableEq α] {s : DeltaSnapshot} {ids : Level → Finset α} {a : α} :
    a ∈ s.union ids ↔ ∃ l ∈ s.levels, a ∈ ids l := by
  unfold union
  induction s.levels with
  | nil => simp
  | cons l levels ih => simp [ih]

/-! ## Reading one property of an edge -/

theorem edgePatchValue_eq (s : DeltaSnapshot) (edgeId : Nat) (prop : String) :
    s.edgePatchValue edgeId prop = (s.edgePatches edgeId).lookup prop := by
  have hgo : ∀ levels : List Level, DeltaSnapshot.edgePatchValue.go edgeId prop levels =
      ((levels.reverse.filterMap (·.edgeDelta edgeId)).foldl foldDeltaEdge
        ((∅ : Map String Value), false)).1.lookup prop := by
    intro levels
    induction levels with
    | nil => rfl
    | cons l levels ih =>
      rw [reverse_cons, filterMap_append, foldl_append,
        DeltaSnapshot.edgePatchValue.go]
      cases hd : l.edgeDelta edgeId with
      | none => simpa [hd] using ih
      | some d =>
        simp only [filterMap_cons, hd, filterMap_nil, foldl_cons, foldl_nil]
        cases ht : d.tombstoned with
        | true => simp [foldDeltaEdge, ht]
        | false =>
          cases hr : d.replaced with
          | true => cases hp : d.patches.lookup prop <;> simp [foldDeltaEdge, ht, hr, hp]
          | false =>
            simp only [foldDeltaEdge, ht, hr, cond_false, lookup_union_or]
            cases d.patches.lookup prop with
            | none => simpa using ih
            | some v => rfl
  exact hgo s.levels

/-! ## The delta of a node -/

/-- The fold of what the levels, newest first, hold under a dense id. -/
def nodeFold (levels : List Memtable) (d : Nat) : Option NodeDelta :=
  foldPresent NodeDelta.foldNewer (levels.reverse.map (·.nodePatch d))

theorem nodeFold_cons (l : Memtable) (levels : List Memtable) (d : Nat) : nodeFold (l :: levels) d =
      (l.nodePatch d).elim (nodeFold levels d) fun δ => some ((nodeFold levels d).elim δ (·.foldNewer δ)) :=
  foldPresent_cons l

theorem nodeFold_isSome {levels : List Memtable} {d : Nat} :
    (nodeFold levels d).isSome ↔ ∃ l ∈ levels, (l.nodePatch d).isSome := by
  simp [nodeFold, foldPresent_isSome]

/-! ## The answers -/

/-- The snapshot over a memtable and sealed resident levels. -/
def snapshotOf (mem : Memtable) (l0 : List Memtable) : DeltaSnapshot :=
  DeltaState.snapshot { mem, l0 }

section Snapshot

variable (mem : Memtable) (l0 : List Memtable)

theorem snapshotOf_levels : (snapshotOf mem l0).levels = (mem :: l0).map Memtable.level := rfl

theorem snapshotOf_nodePatch (d : Nat) : (snapshotOf mem l0).nodePatch d = nodeFold (mem :: l0) d := by
  cases l0 with
  | nil =>
    rw [nodeFold_cons]
    show mem.nodePatch d = _
    cases mem.nodePatch d <;> rfl
  | cons l l0 =>
    show foldPresent _ ((snapshotOf mem (l :: l0)).levels.reverse.map (·.nodePatch d)) = _
    rw [snapshotOf_levels, ← map_reverse, map_map]
    rfl

theorem findSome?_levels {β : Type} (g : Level → Option β) :
    (snapshotOf mem l0).levels.findSome? g = (mem :: l0).findSome? fun l => g l.level := by
  rw [snapshotOf_levels, findSome?_map]
  rfl

end Snapshot

end Slater
