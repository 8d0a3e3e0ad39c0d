import Slater.Delta.Memtable
import Slater.Lib.Newest
import Slater.Wire

/-!
# Levels and snapshots

`LevelRead` is the read surface of one level of the writable layer; `Level` is the record of its
answers, so that a resident memtable and an off-heap segment are levels in the same sense. Answers
that the source collects from a hash map, and that every caller sorts or puts into a set, are finite
sets here; answers in allocation or append order are lists.

`DeltaSnapshot` stacks the active memtable on the sealed levels, newest first, and folds their
answers.

**What it does not establish.** Nothing here asks that a level comes from a memtable, nor that two levels agree on
whose id is whose; the folds are those of the source for any records.
-/

namespace Slater

open Map

/-- One delta edge incident to a queried node, as the traversal overlay sees it. -/
structure DeltaEdge where
  other : Nat
  reltype : String
  edgeId : Option Nat
  key : Option (String × Value)
  tombstoned : Bool
  deriving DecidableEq

/-- The answers of one level (`LevelRead`). A record of answers and not a class, so that a level
computed from a memtable can be compared with one read back from a file by equality of its
fields. -/
@[ext] structure Level where
  isEmpty : Bool
  nodeDeltaCount : Nat
  edgeDeltaCount : Nat
  syntheticBase : Nat
  edgeSyntheticBase : Nat
  bornCount : Nat
  bornEdgeCount : Nat
  tombstonedIds : Finset Nat
  bornCountWithLabel : String → Nat
  hasEdgeTombstones : Bool
  bornEdgeCountWithReltype : String → Nat
  bornLabels : Finset String
  bornEdgeReltypes : Finset String
  nodePatch : Nat → Option NodeDelta
  nodeTombstoned : Nat → Option Bool
  nodeIdentity : Nat → Option NodeIdentity
  bornIdsWithLabel : String → List Nat
  idsWithAddedLabel : String → Finset Nat
  idsWithRemovedLabel : String → Finset Nat
  labelOverlayIds : Finset Nat
  hasLabelOverlay : Bool
  bornSyntheticForIdentity : NodeIdentity → Option Nat
  bornIdsInIndex : String → String → (Value → Bool) → List Nat
  coreIdsPatchedOnIndex : String → String → Finset Nat
  outEdges : Nat → List DeltaEdge
  inEdges : Nat → List DeltaEdge
  edgeDelta : Nat → Option EdgeDelta
  nodeDenseIds : Finset Nat
  adjOutNodes : Finset Nat
  edgeIds : Finset Nat
  corePatchedEdges : Map Nat (Nat × Nat × String)

/-! ## A memtable as a level -/

namespace Memtable

variable (m : Memtable)

def isEmpty : Bool := decide (m.nodes = ∅) && decide (m.edges = ∅)

/-- The delta of the node with a dense id (`node_patch`). -/
def nodePatch (dense : Nat) : Option NodeDelta :=
  (m.byDense.lookup dense).bind fun id => (m.nodes.lookup id).map (·.delta)

theorem nodePatch_eq {m : Memtable} {d : Nat} {id : NodeIdentity} (h : m.byDense.lookup d = some id) :
    m.nodePatch d = (m.nodes.lookup id).map (·.delta) := by
  simp [nodePatch, h]

/-- The identity of the node with a dense id (`node_identity_by_dense`). -/
def nodeIdentity (dense : Nat) : Option NodeIdentity :=
  (m.byDense.lookup dense).bind fun id => (m.nodes.lookup id).map fun _ => id

/-- The dense ids whose node delta passes `p`. -/
def idsWhere (p : NodeDelta → Bool) : Finset Nat :=
  m.byDense.keys.filter fun dense => (m.nodePatch dense).any p

/-- The born nodes with their entries, in allocation order; an entry the map lost is skipped. -/
def bornEntries : List (NodeIdentity × Nat × NodeDelta) :=
  m.born.filterMap fun id =>
    (m.nodes.lookup id).bind fun entry => entry.synthetic.map fun dense => (id, dense, entry.delta)

def bornIdsWithLabel (label : String) : List Nat :=
  (m.bornEntries.filter fun e => e.1.label == label).map fun e => e.2.1

/-- `born_index_value`: a patch wins over the business key. -/
def bornIndexValue (id : NodeIdentity) (delta : NodeDelta) (prop : String) : Option Value :=
  (delta.patches.lookup prop).or (if id.key = prop then some id.value else none)

def bornIdsInIndex (label prop : String) (pred : Value → Bool) : List Nat :=
  (m.bornEntries.filter fun e =>
    e.1.label == label && (bornIndexValue e.1 e.2.2 prop).any pred).map fun e => e.2.1

def coreIdsPatchedOnIndex (label prop : String) : Finset Nat :=
  m.byDense.keys.filter fun dense =>
    dense < m.syntheticBase ∧ (m.nodeIdentity dense).any (·.label == label) ∧
      (m.nodePatch dense).any fun d => (d.patches.lookup prop).isSome

def bornSyntheticForIdentity (id : NodeIdentity) : Option Nat :=
  (m.nodes.lookup id).bind (·.synthetic)

/-- What the traversal overlay sees of an edge entry, from its source or from its
destination. -/
def deltaEdge (outgoing : Bool) (id : EdgeIdentity) (entry : EdgeEntry) : DeltaEdge where
  other := bif outgoing then entry.dstDense else entry.srcDense
  reltype := id.reltype
  edgeId := entry.syntheticEdge
  key := id.key
  tombstoned := entry.delta.tombstoned

/-- `edges_for`. -/
def edgesFor (adj : Map Nat (List EdgeIdentity)) (node : Nat) (outgoing : Bool) : List DeltaEdge :=
  ((adj.lookup node).getD []).filterMap fun id => (m.edges.lookup id).map (deltaEdge outgoing id)

def outEdges (node : Nat) : List DeltaEdge := m.edgesFor m.outAdj node true

def inEdges (node : Nat) : List DeltaEdge := m.edgesFor m.inAdj node false

/-- `edge_delta_by_id`: below the base a core edge patched here, from the base on a born
edge. -/
def edgeDeltaById (edgeId : Nat) : Option EdgeDelta :=
  let id :=
    if edgeId < m.edgeSyntheticBase then m.byEdgeId.lookup edgeId
    else m.bornEdges[edgeId - m.edgeSyntheticBase]?
  id.bind fun id => (m.edges.lookup id).map (·.delta)

/-- Some entry of the edge map passes `p`. -/
def anyEdge (p : EdgeIdentity → EdgeEntry → Bool) : Bool :=
  decide (∃ id ∈ m.edges.keys, (m.edges.lookup id).any (p id))

/-- The identities of the edges born in this level and still stored. -/
def bornEdgeIds : Finset EdgeIdentity :=
  m.edges.keys.filter fun id => (m.edges.lookup id).any (·.syntheticEdge.isSome)

/-- The memtable's answers as a level. -/
def level : Level where
  isEmpty := m.isEmpty
  nodeDeltaCount := m.nodes.keys.card
  edgeDeltaCount := m.edges.keys.card
  syntheticBase := m.syntheticBase
  edgeSyntheticBase := m.edgeSyntheticBase
  bornCount := m.born.length
  bornEdgeCount := m.bornEdges.length
  tombstonedIds := m.tombstoned
  bornCountWithLabel := fun label => (m.bornLabelCounts.lookup label).getD 0
  hasEdgeTombstones := m.anyEdge fun _ entry => entry.delta.tombstoned
  bornEdgeCountWithReltype := fun reltype => (m.bornEdgeIds.filter (·.reltype = reltype)).card
  bornLabels := m.bornLabelCounts.keys
  bornEdgeReltypes := m.bornEdgeIds.image (·.reltype)
  nodePatch := m.nodePatch
  nodeTombstoned := fun dense => (m.nodePatch dense).map (·.tombstoned)
  nodeIdentity := m.nodeIdentity
  bornIdsWithLabel := m.bornIdsWithLabel
  idsWithAddedLabel := fun label => m.idsWhere fun d => decide (label ∈ d.labelsAdded)
  idsWithRemovedLabel := fun label => m.idsWhere fun d => decide (label ∈ d.labelsRemoved)
  labelOverlayIds := m.idsWhere fun d => !(decide (d.labelsAdded = ∅) && decide (d.labelsRemoved = ∅))
  hasLabelOverlay := decide (∃ id ∈ m.nodes.keys, (m.nodes.lookup id).any fun entry =>
    !(decide (entry.delta.labelsAdded = ∅) && decide (entry.delta.labelsRemoved = ∅)))
  bornSyntheticForIdentity := m.bornSyntheticForIdentity
  bornIdsInIndex := m.bornIdsInIndex
  coreIdsPatchedOnIndex := m.coreIdsPatchedOnIndex
  outEdges := m.outEdges
  inEdges := m.inEdges
  edgeDelta := m.edgeDeltaById
  nodeDenseIds := m.byDense.keys
  adjOutNodes := m.outAdj.keys
  edgeIds := (Finset.range m.bornEdges.length).image (m.edgeSyntheticBase + ·) ∪ m.byEdgeId.keys
  corePatchedEdges := filterMap
    (fun _ id => (m.edges.lookup id).map fun entry => (entry.srcDense, entry.dstDense, id.reltype))
    m.byEdgeId

end Memtable

/-! ## Snapshots -/

/-- An immutable read handle: the active memtable over the sealed levels, newest first. A level
that is published does not change any more, so a snapshot needs no account of time. -/
structure DeltaSnapshot where
  mem : Memtable
  l0 : List Level

/-- `DeltaSnapshot::from_memtable`. -/
def DeltaSnapshot.fromMemtable (mem : Memtable) : DeltaSnapshot := { mem, l0 := [] }

/-- `fold_delta_edge` on the property state: a newer tombstone clears it, a newer replace-all
clears what lies below. -/
def foldDeltaEdge (acc : Map String Value × Bool) (newer : EdgeDelta) : Map String Value × Bool :=
  bif newer.tombstoned then (∅, false)
  else bif newer.replaced then (newer.patches, true)
  else (newer.patches ∪ acc.1, acc.2)

/-- The key under which a snapshot merges the edges of its levels: type, neighbour, and the name
of the identifying property followed by its value's image. -/
def DeltaEdge.mergeKey (e : DeltaEdge) : String × Nat × Bytes :=
  (e.reltype, e.other, e.key.elim [] fun kv => stringBytes kv.1 ++ writeValue kv.2)

/-- Keep the first edge of every merge key not yet seen. -/
def keepFirst (seen : List (String × Nat × Bytes)) : List DeltaEdge → List DeltaEdge
  | [] => []
  | e :: es =>
    if e.mergeKey ∈ seen then keepFirst seen es else e :: keepFirst (e.mergeKey :: seen) es

namespace DeltaSnapshot

variable (s : DeltaSnapshot)

/-- `levels_newest_first`. -/
def levels : List Level := s.mem.level :: s.l0

def isEmpty : Bool := s.levels.all (·.isEmpty)

/-- `node_patch`: without sealed levels the memtable's own delta, else the fold over all
levels. -/
def nodePatch (dense : Nat) : Option NodeDelta :=
  match s.l0 with
  | [] => s.mem.nodePatch dense
  | _ => foldPresent NodeDelta.foldNewer (s.levels.reverse.map (·.nodePatch dense))

/-- `is_tombstoned`: the newest level that touches the node decides. -/
def isTombstoned (dense : Nat) : Bool := (s.levels.findSome? (·.nodeTombstoned dense)).getD false

def nodeIdentity (dense : Nat) : Option NodeIdentity := s.levels.findSome? (·.nodeIdentity dense)

def nodeDeltaCount : Nat := (s.levels.map (·.nodeDeltaCount)).sum

def edgeDeltaCount : Nat := (s.levels.map (·.edgeDeltaCount)).sum

def syntheticBase : Nat := (s.levels.map (·.syntheticBase)).min?.getD 0

def edgeSyntheticBase : Nat := (s.levels.map (·.edgeSyntheticBase)).min?.getD 0

def bornCount : Nat := (s.levels.map (·.bornCount)).sum

def bornEdgeCount : Nat := (s.levels.map (·.bornEdgeCount)).sum

def bornCountWithLabel (label : String) : Nat := (s.levels.map (·.bornCountWithLabel label)).sum

def bornEdgeCountWithReltype (reltype : String) : Nat :=
  (s.levels.map (·.bornEdgeCountWithReltype reltype)).sum

def hasTombstones : Bool := s.levels.any fun l => decide (l.tombstonedIds ≠ ∅)

def hasEdgeTombstones : Bool := s.levels.any (·.hasEdgeTombstones)

/-- The union over the levels of a set-valued answer. -/
def union {α : Type} [DecidableEq α] (ids : Level → Finset α) : Finset α :=
  s.levels.foldr (fun l acc => ids l ∪ acc) ∅

def bornLabels : Finset String := s.union (·.bornLabels)

def bornEdgeReltypes : Finset String := s.union (·.bornEdgeReltypes)

def nodeDenseIds : Finset Nat := s.union (·.nodeDenseIds)

def edgeDenseIds : Finset Nat := s.union (·.edgeIds)

def adjOutNodes : Finset Nat := s.union (·.adjOutNodes)

def idsWithAddedLabel (label : String) : Finset Nat := s.union (·.idsWithAddedLabel label)

def idsWithRemovedLabel (label : String) : Finset Nat := s.union (·.idsWithRemovedLabel label)

def labelOverlayIds : Finset Nat := s.union (·.labelOverlayIds)

def hasLabelOverlay : Bool := s.levels.any (·.hasLabelOverlay)

/-- `effective_tombstoned_ids`. -/
def effectiveTombstonedIds : Finset Nat := (s.union (·.tombstonedIds)).filter fun d => s.isTombstoned d

def bornIdsWithLabel (label : String) : List Nat :=
  s.levels.reverse.flatMap (·.bornIdsWithLabel label)

def bornSyntheticForIdentity (id : NodeIdentity) : Option Nat :=
  s.levels.findSome? (·.bornSyntheticForIdentity id)

def bornIdsInIndex (label prop : String) (pred : Value → Bool) : List Nat :=
  s.levels.reverse.flatMap (·.bornIdsInIndex label prop pred)

/-- `merge_edges`: without sealed levels the memtable's list as it is, else newest first, the
first edge of every merge key. -/
def mergeEdges (read : Level → List DeltaEdge) : List DeltaEdge :=
  match s.l0 with
  | [] => read s.mem.level
  | _ => keepFirst [] (s.levels.flatMap read)

def outEdges (node : Nat) : List DeltaEdge := s.mergeEdges (·.outEdges node)

def inEdges (node : Nat) : List DeltaEdge := s.mergeEdges (·.inEdges node)

variable (edgeId : Nat)

/-- `edge_patch_value`: the newest level that decides the property. -/
def edgePatchValue (prop : String) : Option Value :=
  go s.levels
where
  go : List Level → Option Value
    | [] => none
    | l :: ls =>
      match l.edgeDelta edgeId with
      | none => go ls
      | some d =>
        bif d.tombstoned then none
        else match d.patches.lookup prop with
          | some v => some v
          | none => bif d.replaced then none else go ls

/-- The loop of `edge_delta` over all levels, oldest first. -/
def edgeDelta (edgeId : Nat) : Map String Value × Bool :=
  (s.levels.reverse.filterMap (·.edgeDelta edgeId)).foldl foldDeltaEdge (∅, false)

def edgePatches : Map String Value := (s.edgeDelta edgeId).1

def edgeReplaced : Bool := (s.edgeDelta edgeId).2

/-- `core_patched_edges`: a newer level's endpoints win. -/
def corePatchedEdges : Map Nat (Nat × Nat × String) :=
  s.levels.foldr (fun l acc => l.corePatchedEdges ∪ acc) ∅

end DeltaSnapshot

end Slater
