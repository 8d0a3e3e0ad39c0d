import Slater.Delta.Level

/-!
# Merging levels

`Memtable::merge_levels` folds a contiguous run of resident levels into one. It folds every node and
every edge by business identity, oldest level first, and then rebuilds a memtable by replaying the
folded entries: born nodes and born edges in the order of their ids, so that a fresh allocation gives
them the same ids again, and the entries over the core after them.

The source collects the folded entries in hash maps and iterates those, so the order of entries with
equal sort keys is not determined. `mergeLevels` takes that order as an argument, and the laws hold
for every enumeration.

The two debug assertions about the tiling of born ids are not modelled. The one `expect` that survives in a release build is: `mergeLevels` returns `none`
where it panics.
-/

namespace Slater

open Map

/-- A node folded across the levels of a run. -/
structure FoldedNode where
  id : NodeIdentity
  delta : NodeDelta
  dense : Nat
  deriving DecidableEq

/-- An edge folded across the levels of a run. -/
structure FoldedEdge where
  id : EdgeIdentity
  delta : EdgeDelta
  srcDense : Nat
  dstDense : Nat
  bornEdgeId : Option Nat
  coreEdgeId : Option Nat
  deriving DecidableEq

/-- `fold_delta_edge`, with the tombstone it also folds. -/
def EdgeDelta.foldNewer (older newer : EdgeDelta) : EdgeDelta :=
  let folded := foldDeltaEdge (older.patches, older.replaced) newer
  { patches := folded.1, replaced := folded.2, tombstoned := newer.tombstoned }

/-- One level's contribution to the fold of `id`: each dense id it registers the identity
under. -/
def FoldedNode.step (id : NodeIdentity) (acc : Option FoldedNode) (seg : Memtable) : Option FoldedNode :=
  ((ascending seg.byDense.keys).filter fun d => seg.byDense.lookup d = some id).foldl
    (fun acc dense =>
      match seg.nodes.lookup id with
      | none => acc
      | some entry =>
        some { id, dense, delta := (acc.elim {} (·.delta)).foldNewer entry.delta }) acc

/-- One level's contribution to the fold of an edge: the newest endpoints, the oldest ids. -/
def FoldedEdge.step (id : EdgeIdentity) (acc : Option FoldedEdge) (seg : Memtable) : Option FoldedEdge :=
  match seg.edges.lookup id with
  | none => acc
  | some entry =>
    some {
      id
      delta := (acc.elim {} (·.delta)).foldNewer entry.delta
      srcDense := entry.srcDense
      dstDense := entry.dstDense
      bornEdgeId := (acc.bind (·.bornEdgeId)).or entry.syntheticEdge
      coreEdgeId := (acc.bind (·.coreEdgeId)).or entry.coreEdge }

/-- The fold of a node identity over a run, newest first. -/
def foldedNode (run : List Memtable) (id : NodeIdentity) : Option FoldedNode :=
  run.reverse.foldl (FoldedNode.step id) none

/-- The fold of an edge identity over a run, newest first. -/
def foldedEdge (run : List Memtable) (id : EdgeIdentity) : Option FoldedEdge :=
  run.reverse.foldl (FoldedEdge.step id) none

namespace Memtable

variable (m : Memtable) (f : FoldedNode)

/-- `replay_folded_node`. -/
def replayFoldedNode (resolved : Option Nat) : Memtable :=
  let d := f.delta
  bif d.tombstoned then m.deleteNode f.id resolved
  else
    let m :=
      bif d.replaced then m.replaceNode f.id resolved (pairs d.patches)
      else
        let m := m.upsertNode f.id resolved (pairs d.patches)
        if d.removed = ∅ then m else m.removeNodeProps f.id resolved (ascending d.removed)
    if d.labelsAdded = ∅ ∧ d.labelsRemoved = ∅ then m
    else m.setNodeLabels f.id resolved (ascending d.labelsAdded) (ascending d.labelsRemoved)

/-- A born node: allocate its id by an empty upsert, then replay its delta. -/
def replayBornNode : Memtable :=
  (m.upsertNode f.id none []).replayFoldedNode f none

/-- A node of the core. -/
def replayCoreNode : Memtable :=
  m.replayFoldedNode f (some f.dense)

/-- A born edge, and its delete if it was deleted. -/
def replayBornEdge (f : FoldedEdge) : Memtable :=
  let m := m.upsertEdgeKeyed f.id (some f.srcDense) (some f.dstDense) f.delta.replaced (pairs f.delta.patches)
  bif f.delta.tombstoned then m.deleteEdgeKeyed f.id (some f.srcDense) (some f.dstDense) else m

/-- An entry over a core edge: a tombstone, or a patch of the edge whose id it carries. -/
def replayCoreEdge (f : FoldedEdge) : Option Memtable :=
  bif f.delta.tombstoned then some (m.deleteEdgeKeyed f.id (some f.srcDense) (some f.dstDense))
  else f.coreEdgeId.map fun cid =>
    m.patchCoreEdgeKeyed f.id (some f.srcDense) (some f.dstDense) cid f.delta.replaced (pairs f.delta.patches)

end Memtable

/-- The order of entries over core edges: endpoints, then type. -/
def coreEdgeLe (a b : FoldedEdge) : Prop :=
  a.srcDense < b.srcDense ∨ a.srcDense = b.srcDense ∧
    (a.dstDense < b.dstDense ∨ a.dstDense = b.dstDense ∧ a.id.reltype ≤ b.id.reltype)

instance : DecidableRel coreEdgeLe := fun a b =>
  inferInstanceAs (Decidable (a.srcDense < b.srcDense ∨ a.srcDense = b.srcDense ∧
    (a.dstDense < b.dstDense ∨ a.dstDense = b.dstDense ∧ a.id.reltype ≤ b.id.reltype)))

/-- `Memtable::merge_levels` on a run, newest first; `none` is the panic of its `expect`. The
two lists are the orders in which its hash maps of folded entries iterate. -/
def mergeLevels (nodeOrder : List NodeIdentity) (edgeOrder : List EdgeIdentity)
    (run : List Memtable) : Option Memtable :=
  match run.getLast? with
  | none => some {}
  | some oldest =>
    let nodes := nodeOrder.filterMap (foldedNode run)
    let edges := edgeOrder.filterMap (foldedEdge run)
    let born := (nodes.filter fun f => oldest.syntheticBase ≤ f.dense).insertionSort fun a b => a.dense ≤ b.dense
    let core := (nodes.filter fun f => f.dense < oldest.syntheticBase).insertionSort fun a b => a.dense ≤ b.dense
    let bornE := (edges.filter fun f => f.bornEdgeId.isSome).insertionSort
      fun a b => a.bornEdgeId.getD 0 ≤ b.bornEdgeId.getD 0
    let coreE := (edges.filter fun f => f.bornEdgeId.isNone).insertionSort coreEdgeLe
    let m := Memtable.withBases oldest.syntheticBase oldest.edgeSyntheticBase
    let m := born.foldl Memtable.replayBornNode m
    let m := core.foldl Memtable.replayCoreNode m
    let m := bornE.foldl Memtable.replayBornEdge m
    coreE.foldlM Memtable.replayCoreEdge m

end Slater
