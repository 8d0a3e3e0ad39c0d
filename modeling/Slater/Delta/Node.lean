import Slater.Lib.Map
import Slater.Value

/-!
# Node deltas

`NodeDelta` of `slater-delta/src/memtable.rs` is what one level of the writable layer remembers of a
node: the folded summary of the node writes it received. `NodeWrite` is the effect of each node
operation of the write-ahead log on that summary, and `foldNewer` puts a newer level's summary onto
an older one.

A summary keeps four promises, collected in `Consistent`: a property is not both patched and removed,
a replace-all needs no removals, a label is not both added and dropped, and a tombstone carries
nothing. Every write and every fold keeps them (`write_consistent`, `foldNewer_consistent`).

The central law is `foldNewer_writeAll`: folding the summary of a run of writes that holds no delete
onto an older summary is the same as applying the run to the older summary. A run with a delete in
it has no such law, since the summary of the writes after the delete does not remember it.

**What it does not establish.** A summary is what one level has folded under one key. That all writes to a node come
under one key, and what becomes of a summary once a delete is followed by other writes, is left to the modules that
use it.
-/

namespace Slater

open Map List Finset

/-- The folded delta of one node (`memtable.rs`, `NodeDelta`). What is absent from it the level
has not touched; only `replaced` and a tombstone say something of the properties below. -/
@[ext] structure NodeDelta where
  patches : Map String Value := ∅
  removed : Finset String := ∅
  replaced : Bool := false
  labelsAdded : Finset String := ∅
  labelsRemoved : Finset String := ∅
  tombstoned : Bool := false
  deriving DecidableEq

/-- What a node operation of the log does to the node's delta. It is the part of an operation
that is left once its key has been resolved. -/
inductive NodeWrite where
  | upsert (patches : List (String × Value))
  | removeProps (props : List String)
  | replace (patches : List (String × Value))
  | setLabels (added removed : List String)
  | delete
  deriving DecidableEq

namespace NodeDelta

variable {ws : List NodeWrite} {older a b : NodeDelta} {k : String} (d : NodeDelta)

/-! ## The effect of one write -/

/-- The delta `delete_node` leaves: the tombstone drops every patch. -/
def tombstone : NodeDelta := { tombstoned := true }

/-- The part of `touch_node_entry` that concerns the delta: a write resurrects. -/
def resurrect : NodeDelta := { d with tombstoned := false }

/-- The loop of `upsert_node`. -/
def upsert (patches : List (String × Value)) : NodeDelta :=
  { d with
    removed := d.removed \ (patches.map Prod.fst).toFinset
    patches := insertAll d.patches patches }

/-- The loop of `remove_node_props`: under a replace-all the core row is ignored already, so
only the patch is dropped. -/
def removeProps (props : List String) : NodeDelta :=
  { d with
    patches := eraseAll d.patches props
    removed := bif d.replaced then d.removed else d.removed ∪ props.toFinset }

/-- The body of `replace_node`. -/
def replaceProps (patches : List (String × Value)) : NodeDelta :=
  { d with replaced := true, removed := ∅, patches := insertAll ∅ patches }

/-- The two loops of `set_node_labels`, additions first. -/
def setLabels (added removed : List String) : NodeDelta :=
  { d with
    labelsAdded := (d.labelsAdded ∪ added.toFinset) \ removed.toFinset
    labelsRemoved := (d.labelsRemoved \ added.toFinset) ∪ removed.toFinset }

/-- One node operation on the delta. -/
def write : NodeWrite → NodeDelta
  | .upsert patches => d.resurrect.upsert patches
  | .removeProps props => d.resurrect.removeProps props
  | .replace patches => d.resurrect.replaceProps patches
  | .setLabels added removed => d.resurrect.setLabels added removed
  | .delete => tombstone

/-- A sequence of node operations on the delta, in order. -/
def writeAll (ws : List NodeWrite) : NodeDelta := ws.foldl write d

@[simp] theorem writeAll_nil : d.writeAll [] = d := rfl

variable (w : NodeWrite)

@[simp] theorem writeAll_cons (ws : List NodeWrite) :
    d.writeAll (w :: ws) = (d.write w).writeAll ws := rfl

theorem writeAll_append (ws us : List NodeWrite) : d.writeAll (ws ++ us) = (d.writeAll ws).writeAll us :=
  foldl_append

@[simp] theorem write_delete : d.write .delete = tombstone := rfl

theorem write_tombstoned : (d.write w).tombstoned = decide (w = .delete) := by
  cases w <;> rfl

/-- A write does not look at the tombstone it clears. -/
theorem write_resurrect : d.resurrect.write w = d.write w := by
  cases w <;> rfl

theorem writeAll_resurrect (h : ws ≠ []) : d.resurrect.writeAll ws = d.writeAll ws := by
  cases ws with
  | nil => exact absurd rfl h
  | cons w ws => rw [writeAll_cons, writeAll_cons, write_resurrect]

@[simp] theorem resurrect_patches : d.resurrect.patches = d.patches := rfl
@[simp] theorem resurrect_removed : d.resurrect.removed = d.removed := rfl
@[simp] theorem resurrect_replaced : d.resurrect.replaced = d.replaced := rfl
@[simp] theorem resurrect_labelsAdded : d.resurrect.labelsAdded = d.labelsAdded := rfl
@[simp] theorem resurrect_labelsRemoved : d.resurrect.labelsRemoved = d.labelsRemoved := rfl
@[simp] theorem resurrect_tombstoned : d.resurrect.tombstoned = false := rfl

theorem ext_lookup (patches : ∀ k, a.patches.lookup k = b.patches.lookup k)
    (removed : ∀ k, k ∈ a.removed ↔ k ∈ b.removed) (replaced : a.replaced = b.replaced)
    (added : ∀ l, l ∈ a.labelsAdded ↔ l ∈ b.labelsAdded) (dropped : ∀ l, l ∈ a.labelsRemoved ↔ l ∈ b.labelsRemoved)
    (tombstoned : a.tombstoned = b.tombstoned) : a = b :=
  NodeDelta.ext (Finmap.ext_lookup patches) (ext removed) replaced (ext added)
    (ext dropped) tombstoned

/-! ## What a delta hides -/

/-- Whether the delta hides the value that lies below it at property `k`. -/
def hides (k : String) : Bool := d.replaced || decide (k ∈ d.removed)

theorem hides_iff {d : NodeDelta} : d.hides k = true ↔ d.replaced = true ∨ k ∈ d.removed := by
  simp [hides]

@[simp] theorem hides_resurrect (k : String) : d.resurrect.hides k = d.hides k := rfl

@[simp] theorem hides_setLabels (added removed : List String) (k : String) :
    (d.setLabels added removed).hides k = d.hides k := rfl

theorem hides_upsert {patches : List (String × Value)}
    (h : k ∉ patches.map Prod.fst) : (d.upsert patches).hides k = d.hides k := by
  rw [Bool.eq_iff_iff, hides_iff, hides_iff]
  simp [upsert, h]

theorem hides_removeProps (props : List String) (k : String) :
    (d.removeProps props).hides k = (d.hides k || decide (k ∈ props)) := by
  rw [Bool.eq_iff_iff, Bool.or_eq_true, hides_iff, hides_iff]
  cases hr : d.replaced <;> simp [removeProps, hr]

variable {d}

/-! ## Consistency -/

/-- The promises every delta of a level keeps. -/
structure Consistent (d : NodeDelta) : Prop where
  patched : ∀ k ∈ d.removed, d.patches.lookup k = none
  replaced : d.replaced = true → d.removed = ∅
  labels : Disjoint d.labelsAdded d.labelsRemoved
  tombstoned : d.tombstoned = true → d = tombstone

theorem consistent_empty : ({} : NodeDelta).Consistent where
  patched := by simp
  replaced := nofun
  labels := disjoint_empty_left _
  tombstoned := nofun

theorem consistent_tombstone : tombstone.Consistent where
  patched := by simp [tombstone]
  replaced := nofun
  labels := disjoint_empty_left _
  tombstoned := fun _ => rfl

theorem upsert_consistent (h : d.Consistent) (patches : List (String × Value)) :
    (d.write (.upsert patches)).Consistent := by
  refine ⟨fun k hk => ?_, fun hr => ?_, h.labels, nofun⟩
  · simp only [write, upsert, resurrect_patches, mem_sdiff,
      mem_toFinset] at hk ⊢
    rw [lookup_insertAll_of_notMem _ hk.2, h.patched k hk.1]
  · simp only [write, upsert, resurrect_removed] at hr ⊢
    rw [h.replaced hr, empty_sdiff]

theorem removeProps_consistent (h : d.Consistent) (props : List String) :
    (d.write (.removeProps props)).Consistent := by
  refine ⟨fun k hk => ?_, fun hr => ?_, h.labels, nofun⟩
  · simp only [write, removeProps, resurrect_removed, resurrect_replaced] at hk ⊢
    rw [lookup_eraseAll]
    cases hr : d.replaced with
    | true =>
      rw [hr, h.replaced hr] at hk
      exact absurd hk (notMem_empty k)
    | false =>
      rw [hr] at hk
      rcases mem_union.mp hk with hk | hk
      · simp [h.patched k hk]
      · rw [if_pos (mem_toFinset.mp hk)]
  · simp only [write, removeProps, resurrect_removed] at hr ⊢
    rw [hr, cond_true, h.replaced hr]

/-- Every write keeps the promises. -/
theorem write_consistent (h : d.Consistent) (w : NodeWrite) : (d.write w).Consistent := by
  cases w with
  | upsert patches => exact upsert_consistent h patches
  | removeProps props => exact removeProps_consistent h props
  | replace patches =>
    exact ⟨fun k hk => absurd hk (notMem_empty k), fun _ => rfl, h.labels, nofun⟩
  | setLabels added removed =>
    refine ⟨h.patched, h.replaced, ?_, nofun⟩
    have hdisj := disjoint_left.mp h.labels
    simp only [write, setLabels, resurrect_labelsAdded, resurrect_labelsRemoved,
      Finset.disjoint_left]
    grind
  | delete => exact consistent_tombstone

theorem writeAll_consistent (h : d.Consistent) (ws : List NodeWrite) : (d.writeAll ws).Consistent := by
  induction ws generalizing d with
  | nil => exact h
  | cons w ws ih => exact ih (write_consistent h w)

/-! ## Folding a newer level -/

/-- `NodeDelta::fold_newer`: the newer level's delta put onto the older, accumulated one. -/
def foldNewer (older newer : NodeDelta) : NodeDelta :=
  bif newer.tombstoned then
    { patches := ∅, removed := ∅, replaced := false, labelsAdded := ∅, labelsRemoved := ∅,
      tombstoned := true }
  else
    let labelsAdded := (older.labelsAdded ∪ newer.labelsAdded) \ newer.labelsRemoved
    let labelsRemoved := (older.labelsRemoved \ newer.labelsAdded) ∪ newer.labelsRemoved
    bif newer.replaced then
      -- a newer replace-all wipes the property state below it
      { patches := newer.patches, removed := ∅, replaced := true, labelsAdded, labelsRemoved,
        tombstoned := false }
    else
      let patches := restrict (fun k => k ∉ newer.removed) older.patches
      let removed := bif older.replaced then older.removed else older.removed ∪ newer.removed
      { patches := newer.patches ∪ patches, removed := removed \ newer.patches.keys,
        replaced := older.replaced, labelsAdded, labelsRemoved, tombstoned := false }

section Fold

variable (older : NodeDelta) {newer : NodeDelta} (live : newer.tombstoned = false)
include live

theorem foldNewer_replaced : (older.foldNewer newer).replaced = (newer.replaced || older.replaced) := by
  cases hr : newer.replaced <;> simp [foldNewer, live, hr]

theorem foldNewer_lookup (k : String) : (older.foldNewer newer).patches.lookup k = (newer.patches.lookup k).or
        (bif newer.hides k then none else older.patches.lookup k) := by
  cases hr : newer.replaced
  · by_cases hk : k ∈ newer.removed <;>
      simp [foldNewer, live, hr, hides, hk, lookup_union_or, lookup_restrict]
  · simp [foldNewer, live, hr, hides]

theorem mem_foldNewer_removed (k : String) : k ∈ (older.foldNewer newer).removed ↔
      newer.replaced = false ∧ newer.patches.lookup k = none ∧
        (k ∈ older.removed ∨ older.replaced = false ∧ k ∈ newer.removed) := by
  cases hr : newer.replaced
  · cases ho : older.replaced <;>
      simp [foldNewer, live, hr, ho, Finmap.mem_keys, Finmap.lookup_eq_none, and_comm]
  · simp [foldNewer, live, hr]

theorem mem_foldNewer_labelsAdded (l : String) : l ∈ (older.foldNewer newer).labelsAdded ↔
      (l ∈ older.labelsAdded ∨ l ∈ newer.labelsAdded) ∧ l ∉ newer.labelsRemoved := by
  cases hr : newer.replaced <;> simp [foldNewer, live, hr]

theorem mem_foldNewer_labelsRemoved (l : String) : l ∈ (older.foldNewer newer).labelsRemoved ↔
      l ∈ older.labelsRemoved ∧ l ∉ newer.labelsAdded ∨ l ∈ newer.labelsRemoved := by
  cases hr : newer.replaced <;> simp [foldNewer, live, hr]

end Fold

theorem foldNewer_tombstoned (older newer : NodeDelta) : (older.foldNewer newer).tombstoned = newer.tombstoned := by
  unfold foldNewer
  cases newer.tombstoned with
  | true => rfl
  | false => cases newer.replaced <;> rfl

theorem foldNewer_of_tombstoned (older : NodeDelta) {newer : NodeDelta}
    (h : newer.tombstoned = true) : older.foldNewer newer = tombstone := by
  simp [foldNewer, h, tombstone]

/-- Folding keeps the promises. -/
theorem foldNewer_consistent (ho : older.Consistent) (newer : NodeDelta) : (older.foldNewer newer).Consistent := by
  cases live : newer.tombstoned with
  | true =>
    rw [foldNewer_of_tombstoned older live]
    exact consistent_tombstone
  | false =>
    refine ⟨fun k hk => ?_, fun hr => ?_, ?_, fun ht => ?_⟩
    · rw [mem_foldNewer_removed older live] at hk
      rw [foldNewer_lookup older live, hk.2.1]
      cases hh : newer.hides k with
      | true => rfl
      | false =>
        have hne : k ∉ newer.removed := fun h => by
          rw [hides_iff.mpr (.inr h)] at hh
          exact Bool.noConfusion hh
        exact ho.patched k (hk.2.2.resolve_right fun h => hne h.2)
    · ext k
      rw [mem_foldNewer_removed older live]
      rw [foldNewer_replaced older live] at hr
      have hor := ho.replaced
      grind
    · have hdisj := disjoint_left.mp ho.labels
      rw [Finset.disjoint_left]
      intro l
      rw [mem_foldNewer_labelsAdded older live, mem_foldNewer_labelsRemoved older live]
      grind
    · rw [foldNewer_tombstoned, live] at ht
      exact Bool.noConfusion ht

/-! ## Folding a run of writes -/

section FoldWrite

variable {older newer : NodeDelta} (live : newer.tombstoned = false) {w : NodeWrite}
include live

theorem foldNewer_write_lookup (hw : w ≠ .delete) (k : String) :
    (older.foldNewer (newer.write w)).patches.lookup k = ((older.foldNewer newer).write w).patches.lookup k := by
  have live' : (newer.write w).tombstoned = false := by simp [write_tombstoned, hw]
  rw [foldNewer_lookup older live']
  cases w with
  | delete => exact absurd rfl hw
  | upsert patches =>
    simp only [write]
    by_cases hk : k ∈ patches.map Prod.fst
    · obtain ⟨v, hv⟩ := exists_lookup_insertAll hk
      simp [upsert, hv]
    · rw [hides_upsert _ hk]
      simp [upsert, lookup_insertAll_of_notMem _ hk, foldNewer_lookup older live]
  | removeProps props =>
    simp only [write, hides_removeProps]
    simp only [removeProps, lookup_eraseAll, resurrect_patches, foldNewer_lookup older live]
    by_cases hk : k ∈ props <;> simp [hk]
  | replace patches => simp [write, replaceProps, hides]
  | setLabels added removed =>
    simp only [write, hides_setLabels]
    simp [setLabels, foldNewer_lookup older live]

theorem foldNewer_write_removed (ho : older.Consistent) (hw : w ≠ .delete) (k : String) :
    k ∈ (older.foldNewer (newer.write w)).removed ↔ k ∈ ((older.foldNewer newer).write w).removed := by
  have live' : (newer.write w).tombstoned = false := by simp [write_tombstoned, hw]
  rw [mem_foldNewer_removed older live']
  cases w with
  | delete => exact absurd rfl hw
  | upsert patches =>
    simp only [write, upsert, resurrect_removed,
      mem_sdiff, mem_foldNewer_removed older live]
    by_cases hk : k ∈ patches.map Prod.fst
    · obtain ⟨v, hv⟩ := exists_lookup_insertAll hk
      simp [hk, hv]
    · simp [hk, lookup_insertAll_of_notMem _ hk]
  | removeProps props =>
    simp only [write, removeProps, resurrect_replaced,
      foldNewer_replaced older live, lookup_eraseAll]
    have hmem := mem_foldNewer_removed older live k
    -- with a replace-all below, the older side holds no removal that the fold could keep
    have hor := ho.replaced
    cases hnr : newer.replaced <;> cases hr : older.replaced <;> by_cases hk : k ∈ props <;>
      simp_all
  | replace patches => simp [write, replaceProps]
  | setLabels added removed => simp [write, setLabels, mem_foldNewer_removed older live]

/-- **One write commutes with the fold**, as long as it is not a delete. -/
theorem foldNewer_write (ho : older.Consistent) (hw : w ≠ .delete) :
    older.foldNewer (newer.write w) = (older.foldNewer newer).write w := by
  have live' : (newer.write w).tombstoned = false := by simp [write_tombstoned, hw]
  apply ext_lookup
  · exact foldNewer_write_lookup live hw
  · exact foldNewer_write_removed live ho hw
  · rw [foldNewer_replaced older live']
    cases w <;> simp [write, upsert, removeProps, replaceProps, setLabels,
      foldNewer_replaced older live] at hw ⊢
  · intro l
    rw [mem_foldNewer_labelsAdded older live']
    cases w <;> simp [write, upsert, removeProps, replaceProps, setLabels,
      mem_foldNewer_labelsAdded older live] at hw ⊢
    grind
  · intro l
    rw [mem_foldNewer_labelsRemoved older live']
    cases w <;> simp [write, upsert, removeProps, replaceProps, setLabels,
      mem_foldNewer_labelsRemoved older live] at hw ⊢
    grind
  · rw [foldNewer_tombstoned, live', write_tombstoned, decide_eq_false hw]

end FoldWrite

theorem writeAll_tombstoned (hd : d.tombstoned = false) (h : .delete ∉ ws) : (d.writeAll ws).tombstoned = false := by
  induction ws generalizing d with
  | nil => exact hd
  | cons w ws ih =>
    refine ih ?_ (fun hm => h (.tail _ hm))
    rw [write_tombstoned, decide_eq_false_iff_not]
    rintro rfl
    exact h (.head _)

theorem foldNewer_empty (older : NodeDelta) : older.foldNewer {} = older.resurrect := by
  apply ext_lookup <;> simp [foldNewer, lookup_restrict]

/-- **The fold of a run without a delete is the run itself**, applied to the older delta. The
older delta loses its tombstone first, as every write that is not a delete takes it away. The
condition cannot be dropped: the summary of a delete and a write after it is that of the write
alone. -/
theorem foldNewer_writeAll (ho : older.Consistent) (h : .delete ∉ ws) :
    older.foldNewer (({} : NodeDelta).writeAll ws) = older.resurrect.writeAll ws := by
  induction ws using List.reverseRecOn with
  | nil => exact foldNewer_empty older
  | append_singleton ws w ih =>
    rw [List.mem_append, not_or, List.mem_singleton] at h
    rw [writeAll_append, writeAll_append, writeAll_cons, writeAll_cons, writeAll_nil, writeAll_nil,
      foldNewer_write (writeAll_tombstoned rfl h.1) ho (Ne.symm h.2), ih h.1]

/-! ## Folding three levels -/

end NodeDelta

end Slater
