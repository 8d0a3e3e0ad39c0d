import Slater.Delta.SegmentReads
import Slater.Delta.Stack

/-!
# Merging off-heap levels

`merge_run` of `slater-delta/src/l0_offheap.rs` writes one segment from a run of open off-heap levels.
The rows are folded through a snapshot whose active memtable is empty: node rows by dense id, adjacency
by merge key, edge rows by edge id. The resident indexes of the levels are not folded but concatenated,
oldest level first. What the writer files beside the rows it appends, it files from the folded rows.

**What it does not establish.** That the merged level answers as its run did is the subject of
`Slater.Delta.OffheapAnswers` and `Slater.Delta.OffheapCompaction`. The swap of the files of a run for the merged
ones is not modelled here.
-/

namespace Slater

open Map List Memtable SegmentData

/-- An open off-heap level: a reader all of whose records decode, and the answers they give. The
answers are carried along so that a level can be merged without asking again whether it
decodes. -/
structure OpenSegment where
  reader : L0Reader
  level : Level
  opened : reader.level = .ok level

/-- The entries of a reader's index of born identities, one for each identity. -/
def L0Reader.identityEntries (r : L0Reader) : List (Bytes × Nat) :=
  keyed (r.resident.secondaries.bornByIdentity.map Prod.fst).dedup (r.bornByIdentity.lookup ·)

/-- `sorted_union`. -/
def sortedUnion (columns : List (Finset Nat)) : List Nat := ascending (columns.foldr (· ∪ ·) ∅)

/-- The snapshot `merge_run` folds a run through, newest level first: the active memtable is
empty and carries the bases of the oldest level. -/
def runSnapshot (oldest : OpenSegment) (run : List OpenSegment) : DeltaSnapshot where
  mem := .withBases oldest.level.syntheticBase oldest.level.edgeSyntheticBase
  l0 := run.map (·.level)

namespace MergeRun

variable (oldest : OpenSegment) (run : List OpenSegment)

/-- The node section: every dense id of the run with its folded delta and its identity. -/
def nodes : List (Nat × NodeIdentity × NodeDelta) :=
  let snap := runSnapshot oldest run
  keyed (sortedUnion (run.map (·.level.nodeDenseIds))) fun d =>
    (snap.nodePatch d).bind fun delta => (snap.nodeIdentity d).map (·, delta)

/-- A list of merged edges as a row; an empty one is not written. -/
def adjRow (edges : List DeltaEdge) : Option (List DeltaEdge) :=
  if edges.isEmpty then none else some edges

def adjOut : List (Nat × List DeltaEdge) :=
  keyed (sortedUnion (run.map (·.level.adjOutNodes))) fun node =>
    adjRow ((runSnapshot oldest run).outEdges node)

def adjIn : List (Nat × List DeltaEdge) :=
  keyed (sortedUnion (run.map (·.reader.adjIn.keys.toFinset))) fun node =>
    adjRow ((runSnapshot oldest run).inEdges node)

/-- The edge section: properties folded over the run, the tombstone flag of the newest level. -/
def edges : List (Nat × EdgeDelta) :=
  let snap := runSnapshot oldest run
  keyed (sortedUnion (run.map (·.level.edgeIds))) fun id =>
    (run.findSome? (·.level.edgeDelta id)).map fun newest =>
      { patches := snap.edgePatches id, replaced := snap.edgeReplaced id
        tombstoned := newest.tombstoned }

/-- The born nodes of the run by label, oldest level first. -/
def bornByLabel : Map String (List Nat) :=
  run.reverse.foldl (fun acc r => extendAll acc r.reader.bornByLabel.pairs) ∅

/-- The endpoints of the patched core edges; a newer level's win. -/
def corePatchedEdges : Map Nat (Nat × Nat × String) :=
  run.reverse.foldl (fun acc r => insertAll acc r.reader.resident.corePatchedEdges) ∅

def secondaries : Secondaries where
  bornByLabel := (bornByLabel run).pairs
  bornIndex := run.reverse.flatMap (·.reader.resident.secondaries.bornIndex)
  corePatched := run.reverse.flatMap (·.reader.resident.secondaries.corePatched)
  bornByIdentity := run.reverse.flatMap (·.reader.identityEntries)

/-- What the writer is fed: the rows in the order it appends them, and what the setters
store. -/
def data : SegmentData :=
  let snap := runSnapshot oldest run
  { scalars :=
      { syntheticBase := snap.syntheticBase, edgeSyntheticBase := snap.edgeSyntheticBase
        nodeDeltaCount := (nodes oldest run).length, edgeDeltaCount := (edges oldest run).length
        bornCount := snap.bornCount, bornEdgeCount := snap.bornEdgeCount }
    nodes := nodes oldest run
    adjOut := adjOut oldest run
    adjIn := adjIn oldest run
    edges := edges oldest run
    corePatchedEdges := (corePatchedEdges run).pairs
    secondaries := secondaries run }

end MergeRun

/-- `merge_run`. The assertion that the run is not empty fails with `none`. -/
def mergeRun (run : List OpenSegment) (scope : Nat) : Option SegmentFiles :=
  run.getLast?.map fun oldest => writeSegment (MergeRun.data oldest run) scope

/-! ## The snapshot of a run -/

/-- A memtable without entries knows no edge. -/
theorem edgeDelta_withBases (nodeBase edgeBase id : Nat) :
    (withBases nodeBase edgeBase).level.edgeDelta id = none := by
  simp [level, edgeDeltaById, withBases]

section Snapshot

variable {oldest : OpenSegment} {run : List OpenSegment} {α : Type}

/-- The levels of a run, newest first. -/
def runLevels (run : List OpenSegment) : List Level := run.map (·.level)

/-- The fold of what levels, newest first, hold under a dense id. -/
def levelFold (levels : List Level) (d : Nat) : Option NodeDelta :=
  foldPresent NodeDelta.foldNewer (levels.map (·.nodePatch d)).reverse

@[simp] theorem runLevels_cons (r : OpenSegment) (run : List OpenSegment) :
    runLevels (r :: run) = r.level :: runLevels run := rfl

theorem runSnapshot_levels : (runSnapshot oldest run).levels =
    (withBases oldest.level.syntheticBase oldest.level.edgeSyntheticBase).level :: runLevels run := rfl

theorem runSnapshot_nodePatch (hne : run ≠ []) (d : Nat) :
    (runSnapshot oldest run).nodePatch d = levelFold (runLevels run) d := by
  cases run with
  | nil => exact absurd rfl hne
  | cons r run =>
    show foldPresent _ ((runSnapshot oldest (r :: run)).levels.reverse.map (·.nodePatch d)) = _
    rw [runSnapshot_levels, reverse_cons, map_append, map_singleton,
      foldPresent_concat, map_reverse]
    rfl

theorem runSnapshot_mergeEdges (hne : run ≠ []) (read : Level → List DeltaEdge)
    (hread : ∀ nodeBase edgeBase, read (withBases nodeBase edgeBase).level = []) :
    (runSnapshot oldest run).mergeEdges read = keepFirst [] ((runLevels run).flatMap read) := by
  cases run with
  | nil => exact absurd rfl hne
  | cons r run =>
    show keepFirst [] ((runSnapshot oldest (r :: run)).levels.flatMap read) = _
    rw [runSnapshot_levels, flatMap_cons, hread, nil_append]

theorem runSnapshot_outEdges (hne : run ≠ []) (node : Nat) : (runSnapshot oldest run).outEdges node =
      keepFirst [] ((runLevels run).flatMap (·.outEdges node)) :=
  runSnapshot_mergeEdges hne _ fun _ _ => rfl

theorem runSnapshot_inEdges (hne : run ≠ []) (node : Nat) : (runSnapshot oldest run).inEdges node =
      keepFirst [] ((runLevels run).flatMap (·.inEdges node)) :=
  runSnapshot_mergeEdges hne _ fun _ _ => rfl

/-- A set-valued answer of the snapshot collects the levels'. -/
theorem mem_runSnapshot_union [DecidableEq α] {ids : Level → Finset α}
    (hempty : ∀ nodeBase edgeBase, ids (withBases nodeBase edgeBase).level = ∅) {a : α} :
    a ∈ (runSnapshot oldest run).union ids ↔ ∃ l ∈ runLevels run, a ∈ ids l := by
  rw [DeltaSnapshot.mem_union, runSnapshot_levels]
  simp [hempty]

/-- An answer the newest level that has one gives. -/
theorem runSnapshot_findSome? {read : Level → Option α}
    (hempty : ∀ nodeBase edgeBase, read (withBases nodeBase edgeBase).level = none) :
    (runSnapshot oldest run).levels.findSome? read = (runLevels run).findSome? read := by
  rw [runSnapshot_levels, findSome?_cons, hempty]

end Snapshot

/-! ## The merged rows -/

theorem mem_sortedUnion {columns : List (Finset Nat)} {k : Nat} : k ∈ sortedUnion columns ↔ ∃ c ∈ columns, k ∈ c := by
  rw [sortedUnion, mem_ascending]
  induction columns with
  | nil => simp
  | cons c columns ih => simp [ih]

theorem sortedUnion_nodup (columns : List (Finset Nat)) : (sortedUnion columns).Nodup :=
  ascending_nodup _

/-- The answers of an open level come from its reader and its decoded records. -/
theorem OpenSegment.level_eq (s : OpenSegment) :
    ∃ nodes adjOut adjIn edges, s.level = s.reader.answers nodes adjOut adjIn edges := by
  have h := s.opened
  simp only [L0Reader.level, bind_eq_ok] at h
  obtain ⟨nodes, -, adjOut, -, adjIn, -, edges, -, hl⟩ := h
  exact ⟨nodes, adjOut, adjIn, edges, (Except.ok.inj hl).symm⟩

theorem OpenSegment.mem_adjIn (s : OpenSegment) {node : Nat} (h : s.level.inEdges node ≠ []) :
    node ∈ s.reader.adjIn.keys.toFinset := by
  obtain ⟨nodes, adjOut, adjIn, edges, heq⟩ := s.level_eq
  rw [heq] at h
  by_contra hnot
  apply h
  have hnone : s.reader.adjIn.keys.idxOf? node = none := by
    simpa using hnot
  simp [L0Reader.answers, rowAt, hnone]

variable {levels : List Level} {d : Nat}

theorem levelFold_isSome : (levelFold levels d).isSome ↔ ∃ l ∈ levels, (l.nodePatch d).isSome := by
  simp [levelFold, foldPresent_isSome]

theorem keepFirst_eq_nil {xs : List DeltaEdge} : keepFirst [] xs = [] ↔ xs = [] := by
  cases xs with
  | nil => simp [keepFirst]
  | cons x xs => simp [keepFirst]

section Rows

variable {oldest : OpenSegment} {run : List OpenSegment}

/-- A row of merged edges is written for every node that has one. -/
theorem getD_rowAt_adj {columns : List (Finset Nat)} {lists : Nat → List DeltaEdge}
    (hlisted : ∀ node, lists node ≠ [] → ∃ c ∈ columns, node ∈ c) (node : Nat) :
    (rowAt ((keyed (sortedUnion columns) fun n => MergeRun.adjRow (lists n)).map Prod.fst)
      ((keyed (sortedUnion columns) fun n => MergeRun.adjRow (lists n)).map Prod.snd) node).getD [] = lists node := by
  rw [rowAt_keyed (sortedUnion_nodup _)]
  by_cases hempty : lists node = []
  · rw [hempty]
    split <;> rfl
  · rw [if_pos (mem_sortedUnion.mpr (hlisted node hempty)), MergeRun.adjRow]
    simp [hempty]

theorem exists_of_flatMap_ne_nil {read : Level → List DeltaEdge}
    (h : keepFirst [] ((runLevels run).flatMap read) ≠ []) : ∃ r ∈ run, read r.level ≠ [] := by
  rw [ne_eq, keepFirst_eq_nil] at h
  simpa [runLevels] using h

/-- Where the fold of a run holds a delta, some level knows the identity. -/
theorem identity_isSome (hrows : ∀ r ∈ run, r.level.FromRows) (d : Nat) :
    ((runLevels run).findSome? (·.nodeIdentity d)).isSome = (levelFold (runLevels run) d).isSome := by
  rw [Bool.eq_iff_iff, levelFold_isSome, isSome_findSome?, any_eq_true]
  refine exists_congr fun l => and_congr_right fun hl => ?_
  obtain ⟨r, hr, rfl⟩ := mem_map.mp hl
  rw [(hrows r hr).nodeIdentity d]

theorem MergeRun.edgeRow_eq (hrows : ∀ r ∈ run, r.level.FromRows) (id : Nat) : (MergeRun.data oldest run).edgeRow id =
      ((runLevels run).findSome? (·.edgeDelta id)).map fun newest =>
        { patches := (runSnapshot oldest run).edgePatches id
          replaced := (runSnapshot oldest run).edgeReplaced id
          tombstoned := newest.tombstoned } := by
  rw [runLevels, findSome?_map]
  refine rowAt_keyed_of_mem (sortedUnion_nodup _) fun _ h => ?_
  obtain ⟨newest, hfind, -⟩ := Option.map_eq_some_iff.mp h
  obtain ⟨r, hr, hdelta⟩ := exists_of_findSome?_eq_some hfind
  refine mem_sortedUnion.mpr ⟨_, mem_map.mpr ⟨r, hr, rfl⟩, ((hrows r hr).edgeIds id).mpr ?_⟩
  rw [show r.level.edgeDelta id = some newest from hdelta]
  rfl

variable (hne : run ≠ []) (hrows : ∀ r ∈ run, r.level.FromRows)
include hne

theorem MergeRun.inRow_eq (node : Nat) :
    (MergeRun.data oldest run).inRow node = (runSnapshot oldest run).inEdges node := by
  refine getD_rowAt_adj (fun n hn => ?_) node
  rw [runSnapshot_inEdges hne] at hn
  obtain ⟨r, hr, hread⟩ := exists_of_flatMap_ne_nil hn
  exact ⟨_, mem_map.mpr ⟨r, hr, rfl⟩, r.mem_adjIn hread⟩

include hrows

theorem MergeRun.nodeRow_eq (d : Nat) : (MergeRun.data oldest run).nodeRow d =
      (levelFold (runLevels run) d).bind fun delta =>
        ((runLevels run).findSome? (·.nodeIdentity d)).map (·, delta) := by
  rw [← runSnapshot_nodePatch hne]
  refine rowAt_keyed_of_mem (sortedUnion_nodup _) fun _ h => ?_
  obtain ⟨delta, hfold, -⟩ := Option.bind_eq_some_iff.mp h
  rw [runSnapshot_nodePatch hne] at hfold
  obtain ⟨l, hl, hpatch⟩ := levelFold_isSome.mp (by rw [hfold]; rfl)
  obtain ⟨r, hr, rfl⟩ := mem_map.mp hl
  exact mem_sortedUnion.mpr ⟨_, mem_map.mpr ⟨r, hr, rfl⟩, ((hrows r hr).nodeDenseIds d).mpr hpatch⟩

theorem MergeRun.outRow_eq (node : Nat) :
    (MergeRun.data oldest run).outRow node = (runSnapshot oldest run).outEdges node := by
  refine getD_rowAt_adj (fun n hn => ?_) node
  rw [runSnapshot_outEdges hne] at hn
  obtain ⟨r, hr, hread⟩ := exists_of_flatMap_ne_nil hn
  exact ⟨_, mem_map.mpr ⟨r, hr, rfl⟩, ((hrows r hr).adjOutNodes n).mpr hread⟩

end Rows

/-! ## The concatenated indexes -/

section Indexes

theorem extendAll_pairs (m n : Map String (List Nat)) (label : String) : ((extendAll m n.pairs).lookup label).getD [] =
      (m.lookup label).getD [] ++ (n.lookup label).getD [] := by
  rw [getD_extendAll, pairs, keyed_filter (ascending_nodup _)]
  split
  next => cases n.lookup label <;> simp
  next hnot =>
    rw [mem_ascending, Finmap.mem_keys, ← Finmap.lookup_eq_none] at hnot
    rw [hnot]
    rfl

theorem MergeRun.bornByLabel_cons (r : OpenSegment) (run : List OpenSegment) :
    MergeRun.bornByLabel (r :: run) = extendAll (MergeRun.bornByLabel run) r.reader.bornByLabel.pairs := by
  rw [MergeRun.bornByLabel, reverse_cons, foldl_append]
  rfl

variable (s : OpenSegment)

theorem OpenSegment.bornIdsWithLabel_eq (label : String) :
    s.level.bornIdsWithLabel label = (s.reader.bornByLabel.lookup label).getD [] := by
  obtain ⟨_, _, _, _, heq⟩ := s.level_eq
  rw [heq]
  rfl

theorem OpenSegment.bornLabels_eq : s.level.bornLabels = s.reader.bornByLabel.keys := by
  obtain ⟨_, _, _, _, heq⟩ := s.level_eq
  rw [heq]
  rfl

variable (run : List OpenSegment)

theorem MergeRun.getD_bornByLabel (label : String) : ((MergeRun.bornByLabel run).lookup label).getD [] =
      (runLevels run).reverse.flatMap (·.bornIdsWithLabel label) := by
  induction run with
  | nil => rfl
  | cons r run ih =>
    rw [bornByLabel_cons, extendAll_pairs, ih, runLevels_cons, reverse_cons,
      flatMap_append, flatMap_singleton, r.bornIdsWithLabel_eq]

theorem MergeRun.mem_bornByLabel (label : String) :
    ((MergeRun.bornByLabel run).lookup label).isSome ↔ ∃ l ∈ runLevels run, label ∈ l.bornLabels := by
  induction run with
  | nil => simp [MergeRun.bornByLabel, runLevels]
  | cons r run ih =>
    have hpairs : label ∈ r.reader.bornByLabel.pairs.map Prod.fst ↔ label ∈ r.level.bornLabels := by
      rw [r.bornLabels_eq, mem_keys_iff, mem_map]
      constructor
      · rintro ⟨kv, hkv, rfl⟩
        exact ⟨kv.2, mem_pairs.mp hkv⟩
      · rintro ⟨ids, hids⟩
        exact ⟨(label, ids), mem_pairs.mpr hids, rfl⟩
    rw [bornByLabel_cons, isSome_lookup_extendAll, ih, hpairs]
    simp [or_comm]

/-- The map of a reader's identity entries is its index of born identities. -/
theorem insertAll_identityEntries (r : L0Reader) : insertAll ∅ r.identityEntries = r.bornByIdentity := by
  apply Finmap.ext_lookup
  intro key
  apply Option.ext
  intro id
  refine (lookup_insertAll_eq_some (keyed_nodup (nodup_dedup _) _)).trans (mem_keyed.trans ?_)
  refine ⟨And.right, fun h => ⟨?_, h⟩⟩
  rw [mem_dedup]
  exact (lookup_insertAll_isSome _ _).mp (Option.isSome_of_eq_some h)

theorem OpenSegment.bornSynthetic_eq (id : NodeIdentity) :
    s.level.bornSyntheticForIdentity id = s.reader.bornByIdentity.lookup (identityKeyBytes id) := by
  obtain ⟨_, _, _, _, heq⟩ := s.level_eq
  rw [heq]
  rfl

theorem OpenSegment.corePatchedEdges_eq :
    s.level.corePatchedEdges = insertAll ∅ s.reader.resident.corePatchedEdges := by
  obtain ⟨_, _, _, _, heq⟩ := s.level_eq
  rw [heq]
  rfl

theorem insertAll_append {κ α : Type} [DecidableEq κ] (m : Map κ α) (xs ys : List (κ × α)) :
    insertAll m (xs ++ ys) = insertAll (insertAll m xs) ys :=
  foldl_append

theorem MergeRun.lookup_bornByIdentity (id : NodeIdentity) :
    (insertAll ∅ (MergeRun.secondaries run).bornByIdentity : Map Bytes Nat).lookup
      (identityKeyBytes id) = (runLevels run).findSome? (·.bornSyntheticForIdentity id) := by
  induction run with
  | nil => exact Finmap.lookup_empty _
  | cons r run ih =>
    have hsplit : (MergeRun.secondaries (r :: run)).bornByIdentity =
        (MergeRun.secondaries run).bornByIdentity ++ r.reader.identityEntries := by
      simp [MergeRun.secondaries]
    rw [hsplit, insertAll_append, lookup_insertAll, insertAll_identityEntries, ih,
      runLevels_cons, findSome?_cons, r.bornSynthetic_eq]
    cases r.reader.bornByIdentity.lookup (identityKeyBytes id) <;> rfl

theorem MergeRun.corePatchedEdges_eq (run : List OpenSegment) : MergeRun.corePatchedEdges run =
      (runLevels run).foldr (fun l acc => l.corePatchedEdges ∪ acc) ∅ := by
  induction run with
  | nil => rfl
  | cons r run ih =>
    have hcons : MergeRun.corePatchedEdges (r :: run) =
        insertAll (MergeRun.corePatchedEdges run) r.reader.resident.corePatchedEdges := by
      rw [MergeRun.corePatchedEdges, reverse_cons, foldl_append]
      rfl
    rw [hcons, ih, runLevels_cons, foldr_cons, r.corePatchedEdges_eq]
    apply Finmap.ext_lookup
    intro cid
    rw [lookup_insertAll, lookup_union_or]

theorem OpenSegment.bornIdsInIndex_eq : s.level.bornIdsInIndex = s.reader.bornIdsInIndex := by
  obtain ⟨_, _, _, _, heq⟩ := s.level_eq
  rw [heq]
  rfl

theorem MergeRun.bornIdsInIndex_eq (run : List OpenSegment) (label prop : String) (pred : Value → Bool) :
    ((MergeRun.secondaries run).bornIndex.filter fun e =>
      e.label == label && ((e.props.find? (·.1 == prop)).map (·.2)).any pred).map (·.id) =
      (runLevels run).reverse.flatMap fun l => l.bornIdsInIndex label prop pred := by
  rw [MergeRun.secondaries, filter_flatMap, map_flatMap, runLevels, ← map_reverse,
    flatMap_map]
  exact flatMap_congr fun r _ => by rw [r.bornIdsInIndex_eq]; rfl

theorem OpenSegment.coreIdsPatched_eq (label prop : String) : s.level.coreIdsPatchedOnIndex label prop =
      ((s.reader.resident.secondaries.corePatched.filter fun e => e.1 == label && e.2.1 == prop).map
        (·.2.2)).toFinset := by
  obtain ⟨_, _, _, _, heq⟩ := s.level_eq
  rw [heq]
  rfl

theorem MergeRun.mem_corePatched (label prop : String) (d : Nat) :
    d ∈ (((MergeRun.secondaries run).corePatched.filter fun e => e.1 == label && e.2.1 == prop).map (·.2.2)).toFinset ↔
      ∃ l ∈ runLevels run, d ∈ l.coreIdsPatchedOnIndex label prop := by
  rw [MergeRun.secondaries]
  simp [runLevels, OpenSegment.coreIdsPatched_eq]

end Indexes

/-! ## The merged segment -/

/-- Every value the segment answers with is read back. -/
structure OpenSegment.Shallow (s : OpenSegment) : Prop where
  patches : ∀ d delta, s.level.nodePatch d = some delta → PropsShallow delta.patches.pairs
  identities : ∀ d id, s.level.nodeIdentity d = some id → id.value.Shallow
  outEdges : ∀ node, AdjShallow (s.level.outEdges node)
  inEdges : ∀ node, AdjShallow (s.level.inEdges node)
  edges : ∀ id delta, s.level.edgeDelta id = some delta → PropsShallow delta.patches.pairs
  bornIndex : ∀ e ∈ s.reader.resident.secondaries.bornIndex, PropsShallow e.props

/-- What an open level that the writer wrote is known to satisfy: its answers come from rows,
its node deltas are consistent, and the values in them are read back. -/
structure OpenSegment.Sound (s : OpenSegment) : Prop extends s.Shallow where
  rows : s.level.FromRows
  consistent : ∀ d delta, s.level.nodePatch d = some delta → delta.Consistent

/-- A segment that answers from shallow rows. -/
theorem OpenSegment.shallow_of_data {s : OpenSegment} {data : SegmentData} {scope : Nat} (h : data.Shallow)
    (hreader : s.reader = data.reader scope) (hlevel : s.level = data.answers scope) : s.Shallow where
  patches := by
    intro d delta hdelta
    rw [hlevel, answers_nodePatch] at hdelta
    obtain ⟨row, hrow, rfl⟩ := Option.map_eq_some_iff.mp hdelta
    exact (h.nodeRow hrow).2
  identities := by
    intro d id hid
    rw [hlevel, answers_nodeIdentity] at hid
    obtain ⟨row, hrow, rfl⟩ := Option.map_eq_some_iff.mp hid
    exact (h.nodeRow hrow).1
  outEdges := by
    intro node
    rw [hlevel, answers_outEdges]
    exact h.outRow node
  inEdges := by
    intro node
    rw [hlevel, answers_inEdges]
    exact h.inRow node
  edges := by
    intro id delta hdelta
    rw [hlevel, answers_edgeDelta] at hdelta
    exact h.edgeRow hdelta
  bornIndex := by
    rw [hreader]
    exact h.bornIndex

theorem propsShallow_iff {patches : Map String Value} :
    PropsShallow patches.pairs ↔ ∀ k v, patches.lookup k = some v → v.Shallow := by
  constructor
  · intro h k v hv
    exact h (k, v) (mem_pairs.mpr hv)
  · intro h p hp
    exact h p.1 p.2 (mem_pairs.mp hp)

/-- Folding brings in no value. -/
theorem foldNewer_shallow {older newer : NodeDelta} (ho : PropsShallow older.patches.pairs)
    (hn : PropsShallow newer.patches.pairs) : PropsShallow (older.foldNewer newer).patches.pairs := by
  rw [propsShallow_iff] at ho hn ⊢
  intro k v hv
  cases live : newer.tombstoned with
  | true =>
    rw [NodeDelta.foldNewer_of_tombstoned older live] at hv
    cases hv
  | false =>
    rw [NodeDelta.foldNewer_lookup older live, Option.or_eq_some_iff] at hv
    rcases hv with hv | ⟨-, hv⟩
    · exact hn k v hv
    · cases hh : newer.hides k with
      | true => rw [hh] at hv; cases hv
      | false => rw [hh] at hv; exact ho k v hv

theorem levelFold_eq (levels : List Level) (d : Nat) :
    levelFold levels d = foldPresent NodeDelta.foldNewer (levels.reverse.map (·.nodePatch d)) := by
  rw [levelFold, map_reverse]

theorem levelFold_cons (l : Level) (levels : List Level) (d : Nat) : levelFold (l :: levels) d =
      (l.nodePatch d).elim (levelFold levels d) fun delta =>
        some ((levelFold levels d).elim delta (·.foldNewer delta)) := by
  simp only [levelFold_eq, foldPresent_cons]

/-- What holds of every delta under a dense id, and is kept by folding, holds of the fold. -/
theorem levelFold_induction {p : NodeDelta → Prop}
    (hfold : ∀ older newer, p older → p newer → p (older.foldNewer newer))
    (h : ∀ l ∈ levels, ∀ delta, l.nodePatch d = some delta → p delta) {delta : NodeDelta}
    (hdelta : levelFold levels d = some delta) : p delta :=
  foldPresent_induction hfold h (levelFold_eq levels d ▸ hdelta)

section Merged

variable {oldest : OpenSegment} {run : List OpenSegment}

theorem MergeRun.data_keyed (hrows : ∀ r ∈ run, r.level.FromRows) : (MergeRun.data oldest run).Keyed where
  nodes := keyed_nodup (sortedUnion_nodup _) _
  adjOut := keyed_nodup (sortedUnion_nodup _) _
  listed := by
    rintro ⟨node, edges⟩ hrow
    obtain ⟨-, hrow⟩ := mem_keyed.mp hrow
    rw [MergeRun.adjRow] at hrow
    split at hrow
    next => cases hrow
    next hne => cases hrow; simpa using hne
  edges := keyed_nodup (sortedUnion_nodup _) _
  bornByLabel := pairs_nodup _
  labelled := by
    rintro ⟨label, ids⟩ he
    have hlookup : (MergeRun.bornByLabel run).lookup label = some ids := mem_pairs.mp he
    have hids := MergeRun.getD_bornByLabel run label
    rw [hlookup, Option.getD_some] at hids
    obtain ⟨l, hl, hmem⟩ := (MergeRun.mem_bornByLabel run label).mp (by rw [hlookup]; rfl)
    obtain ⟨r, hr, rfl⟩ := mem_map.mp hl
    rw [hids, ne_eq, flatMap_eq_nil_iff]
    intro h
    exact ((hrows r hr).bornLabels label).mp hmem (h _ (mem_reverse.mpr hl))

theorem foldDeltaEdge_shallow {acc : Map String Value × Bool} {d : EdgeDelta} (hacc : PropsShallow acc.1.pairs)
    (hd : PropsShallow d.patches.pairs) : PropsShallow (foldDeltaEdge acc d).1.pairs := by
  rw [propsShallow_iff] at hacc hd ⊢
  intro k v hv
  cases ht : d.tombstoned with
  | true => rw [foldDeltaEdge, ht] at hv; cases hv
  | false =>
    cases hr : d.replaced with
    | true => rw [foldDeltaEdge, ht, hr] at hv; exact hd k v hv
    | false =>
      rw [foldDeltaEdge, ht, hr] at hv
      simp only [cond_false, lookup_union_or, Option.or_eq_some_iff] at hv
      rcases hv with hv | ⟨-, hv⟩
      · exact hd k v hv
      · exact hacc k v hv

theorem edgeDelta_shallow (hshallow : ∀ r ∈ run, r.Shallow) (id : Nat) :
    PropsShallow ((runSnapshot oldest run).edgePatches id).pairs := by
  refine List.foldlRecOn (motive := fun acc : Map String Value × Bool => PropsShallow acc.1.pairs) _ _
    (by intro p hp; cases mem_pairs.mp hp) fun acc hacc d hd => foldDeltaEdge_shallow hacc ?_
  obtain ⟨l, hl, hread⟩ := mem_filterMap.mp hd
  rw [mem_reverse, runSnapshot_levels, mem_cons] at hl
  rcases hl with rfl | hl
  · rw [edgeDelta_withBases] at hread
    cases hread
  · obtain ⟨r, hr, rfl⟩ := mem_map.mp hl
    exact (hshallow r hr).edges id d hread

/-- Every value of the merged segment stems from a level of the run, so it is read back. -/
theorem MergeRun.data_shallow (hne : run ≠ []) (hshallow : ∀ r ∈ run, r.Shallow) :
    (MergeRun.data oldest run).Shallow where
  nodes := by
    rintro ⟨d, id, delta⟩ hrow
    obtain ⟨-, hrow⟩ := mem_keyed.mp hrow
    rw [runSnapshot_nodePatch hne, DeltaSnapshot.nodeIdentity,
      runSnapshot_findSome? fun _ _ => rfl] at hrow
    obtain ⟨delta', hfold, hid⟩ := Option.bind_eq_some_iff.mp hrow
    obtain ⟨id', hfind, heq⟩ := Option.map_eq_some_iff.mp hid
    obtain ⟨rfl, rfl⟩ := Prod.mk.inj heq
    obtain ⟨l, hl, hread⟩ := exists_of_findSome?_eq_some hfind
    obtain ⟨r, hr, rfl⟩ := mem_map.mp hl
    refine ⟨(hshallow r hr).identities d id' hread, levelFold_induction
      (p := fun delta => PropsShallow delta.patches.pairs) (fun _ _ => foldNewer_shallow) ?_ hfold⟩
    intro l hl
    obtain ⟨r, hr, rfl⟩ := mem_map.mp hl
    exact (hshallow r hr).patches d
  adjOut := by
    rintro ⟨node, edges⟩ hrow e he
    obtain ⟨-, hrow⟩ := mem_keyed.mp hrow
    rw [MergeRun.adjRow, runSnapshot_outEdges hne] at hrow
    split at hrow
    next => cases hrow
    next =>
      cases hrow
      obtain ⟨l, hl, he⟩ := mem_flatMap.mp (keepFirst_subset he)
      obtain ⟨r, hr, rfl⟩ := mem_map.mp hl
      exact (hshallow r hr).outEdges node e he
  adjIn := by
    rintro ⟨node, edges⟩ hrow e he
    obtain ⟨-, hrow⟩ := mem_keyed.mp hrow
    rw [MergeRun.adjRow, runSnapshot_inEdges hne] at hrow
    split at hrow
    next => cases hrow
    next =>
      cases hrow
      obtain ⟨l, hl, he⟩ := mem_flatMap.mp (keepFirst_subset he)
      obtain ⟨r, hr, rfl⟩ := mem_map.mp hl
      exact (hshallow r hr).inEdges node e he
  edges := by
    rintro ⟨id, delta⟩ hrow
    obtain ⟨-, hrow⟩ := mem_keyed.mp hrow
    obtain ⟨newest, -, rfl⟩ := Option.map_eq_some_iff.mp hrow
    exact edgeDelta_shallow hshallow id
  bornIndex := by
    intro e he
    obtain ⟨r, hr, he⟩ := mem_flatMap.mp he
    exact (hshallow r (mem_reverse.mp hr)).bornIndex e he

end Merged

end Slater
