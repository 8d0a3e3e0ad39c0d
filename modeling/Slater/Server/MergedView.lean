import Slater.Delta.Stack
import Slater.Exec.CoreGraph
import Slater.Exec.NodeOverlay

/-!
# The delta over a generation

`MergedView` (`slater/src/read_view.rs`) lays a delta snapshot over a core generation. `Generation` is
the core with its segments: what the matcher reads of it through an empty delta, and the rows the
overlays start from. `Generation.merged` is the view with the snapshot on top: the delta's adjacency,
labels and deletions become those of the snapshot, the properties of nodes and edges go through the
overlays of `slater/src/exec/access.rs`, and the range indexes through the moved-value overlay of
`slater/src/exec/scan.rs`.

Property maps are listed by ascending name; the source lists them in the order they are stored.
The suppression of indexed embeddings is left out.

**What it does not establish.** For which snapshots the view is one of a graph is shown in
`Slater.Server.MergedGraph`; here the snapshot is any.
-/

namespace Slater

open Map

/-! ## Index hits under the delta -/

/-- `IndexState`: what a core node shows for an indexed property. -/
inductive IndexState where
  | core
  | patched (v : Value)
  | absent
  deriving DecidableEq

namespace DeltaSnapshot

variable (s : DeltaSnapshot)

/-- `effective_index_state`. The anchor key survives a replace-all and a removal. -/
def effectiveIndexState (dense : Nat) (prop : String) : IndexState :=
  match s.nodePatch dense with
  | none => .core
  | some d =>
    bif d.tombstoned then .core
    else match d.patches.lookup prop with
      | some v => .patched v
      | none =>
        bif d.hides prop then
          bif (s.nodeIdentity dense).any (·.key == prop) then .core else .absent
        else .core

/-- `core_hit_survives_eq` and `core_hit_survives_range`. -/
def coreHitSurvives (dense : Nat) (prop : String) (pred : Value → Bool) : Bool :=
  match s.effectiveIndexState dense prop with
  | .core => true
  | .patched v => pred v
  | .absent => false

/-- `moved_core_ids_in_index`, ascending. -/
def movedCoreIdsInIndex (label prop : String) (pred : Value → Bool) : List Nat :=
  (ascending (s.union (·.coreIdsPatchedOnIndex label prop))).filter fun dense =>
    match s.effectiveIndexState dense prop with
    | .patched v => pred v
    | _ => false

/-- The hits of an index probe on the core, corrected by the delta. -/
def overlayIndexHits (label prop : String) (pred : Value → Bool) (ids : List Nat) : List Nat :=
  bif s.isEmpty then ids
  else
    let kept := ids.filter fun dense => s.coreHitSurvives dense prop pred
    let moved := (s.movedCoreIdsInIndex label prop pred).foldl
      (fun ids id => if id ∈ ids then ids else ids.orderedInsert (· ≤ ·) id) kept
    moved ++ s.bornIdsInIndex label prop pred

/-- A range index of the core under the delta. -/
def overlayIndex (index : RangeIndex) : RangeIndex :=
  { index with
    lookupEq := fun key =>
      s.overlayIndexHits index.label index.property (fun v => v.cmpKey key == .eq) (index.lookupEq key)
    lookupRange := fun lo hi =>
      s.overlayIndexHits index.label index.property (CoreGraph.inRange lo hi)
        (index.lookupRange lo hi) }

/-- The delta's adjacency of a node, as the traversal overlay takes it. -/
def adjacency (node : Nat) (outgoing : Bool) : List DeltaAdj :=
  (bif outgoing then s.outEdges node else s.inEdges node).map fun e =>
    { reltype := e.reltype, other := e.other, edgeId := e.edgeId, tombstoned := e.tombstoned }

end DeltaSnapshot

/-! ## Generations -/

/-- A core generation with the segments above it. The reads below the delta are given as they
answer; `CoreGraph.generation` and `SegmentStack.graphBase` build them from stored records. -/
structure Generation where
  /-- The core and its segments, read through an empty delta. -/
  core : View
  empty : core.deltaEmpty = true
  coreEdgeCount : Nat
  /-- The properties of a node below the delta (`core_named_props`). -/
  nodeRow : Nat → Map String Value
  /-- The properties of an edge below the delta. -/
  edgeRow : Nat → Map String Value
  /-- Some segment carries a row for the edge (`resolve_edge_row`). -/
  edgeInStack : Nat → Bool
  /-- That row is a tombstone. -/
  edgeBuried : Nat → Bool := fun _ => false
  /-- The property keys of the manifest. -/
  propertyKeys : List String
  /-- Label, property and dimension of the vector indexes. -/
  vectorIndexes : List (String × String × Nat)

namespace Generation

variable (gen : Generation) (s : DeltaSnapshot) (id : Nat)

/-- The id lies past the base generation, and no segment has its row. -/
def unborn : Bool := (gen.core.stackRow id).isNone && decide (gen.core.coreNodeCount ≤ id)

variable (key : String)

/-- The business key of a node, as the delta's identity seeds it. -/
def seeded : Option Value :=
  (s.nodeIdentity id).bind fun ident => if ident.key = key then some ident.value else none

/-- `node_prop_raw`. -/
def nodeValue : Option Value :=
  let below :=
    bif !s.isEmpty && gen.unborn id then seeded s id key else (gen.nodeRow id).lookup key
  bif s.isEmpty then below
  else match s.nodePatch id with
    | none => below
    | some d =>
      match d.patches.lookup key with
      | some v => some v
      | none => bif d.hides key then seeded s id key else below

/-- The properties of `node_record`. -/
def nodeProps : Map String Value :=
  s.overlayNodeProps (decide (gen.core.coreNodeCount ≤ id)) id (gen.nodeRow id)

/-- `edge_prop_par`. -/
def edgeValue : Option Value :=
  let below :=
    bif !s.isEmpty && !gen.edgeInStack id && decide (gen.coreEdgeCount ≤ id) then none
    else (gen.edgeRow id).lookup key
  bif s.isEmpty then below
  else match s.edgePatchValue id key with
    | some v => some v
    | none => bif s.edgeReplaced id then none else below

/-- `core_named_edge_props`. Outside the segments a patch of a key the manifest does not know is
dropped, and under a tombstone of the segments every patch is. -/
def edgeProps : Map String Value :=
  let row := bif s.edgeReplaced id then ∅ else gen.edgeRow id
  let known := restrict (fun key => key ∈ gen.propertyKeys) (s.edgePatches id)
  bif s.isEmpty then gen.edgeRow id
  else bif gen.edgeInStack id then bif gen.edgeBuried id then ∅ else s.edgePatches id ∪ row
  else bif decide (gen.coreEdgeCount ≤ id) then known
  else known ∪ row

/-- `MergedView::new`: the generation under a snapshot of its delta. Whatever the snapshot holds
is overlaid; nothing is checked. -/
def merged : View :=
  { gen.core with
    nodeCount := gen.core.nodeCount + s.bornCount
    nodeProp := fun id key => (gen.nodeValue s id key).elim .null Val.fromValue
    edgeProp := fun id key => (gen.edgeValue s id key).elim .null Val.fromValue
    nodeProps := fun id => (gen.nodeProps s id).pairs.map fun kv => (kv.1, Val.fromValue kv.2)
    edgeProps := fun id => (gen.edgeProps s id).pairs.map fun kv => (kv.1, Val.fromValue kv.2)
    rangeIndexes := gen.core.rangeIndexes.map s.overlayIndex
    deltaEmpty := s.isEmpty
    deltaAdj := s.adjacency
    deltaTombstoned := s.isTombstoned
    deltaHasTombstones := s.hasTombstones
    deltaHasEdgeTombstones := s.hasEdgeTombstones
    deltaHasLabelOverlay := s.hasLabelOverlay
    deltaIdentityLabel := fun id => (s.nodeIdentity id).map (·.label)
    deltaLabels := fun id =>
      (s.nodePatch id).map fun d => (ascending d.labelsRemoved, ascending d.labelsAdded)
    deltaBornWithLabel := s.bornIdsWithLabel
    deltaAddedLabel := fun label => ascending (s.idsWithAddedLabel label)
    deltaBornEdges := s.bornEdgeCountWithReltype }

end Generation

/-- A generation without segments. -/
def CoreGraph.generation (g : CoreGraph) : Generation where
  core := g.view
  empty := rfl
  coreEdgeCount := g.edges.length
  nodeRow id := (g.nodes[id]?).elim ∅ fun n => insertAll ∅ n.props.reverse
  edgeRow id := (g.edges[id]?).elim ∅ fun e => insertAll ∅ e.props.reverse
  edgeInStack _ := false
  propertyKeys := g.nodes.flatMap (·.props.map Prod.fst) ++ g.edges.flatMap (·.props.map Prod.fst)
  vectorIndexes := []

namespace CoreGraph

variable {g : CoreGraph}

theorem stackLabelIds_core {s : DeltaSnapshot} {n : Nat} (h : n < g.nodes.length) :
    (g.generation.merged s).stackLabelIds n = (g.nodes[n]?).elim [] (·.labels) :=
  if_neg (Nat.not_le.mpr h)

theorem stackLabelIds_born {s : DeltaSnapshot} {n : Nat} (h : g.nodes.length ≤ n) :
    (g.generation.merged s).stackLabelIds n = (((s.nodeIdentity n).map (·.label)).bind g.labelId).toList :=
  if_pos h

end CoreGraph

/-- `has_incident_edge`. -/
def View.hasIncidentEdge (v : View) (id : Nat) : Bool :=
  !(v.adjOverlaid id true).isEmpty || !(v.adjOverlaid id false).isEmpty

end Slater
