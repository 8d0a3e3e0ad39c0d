import Slater.Exec.Expr

/-!
# The merged view

What the matcher reads of a graph (`ReadView`, `slater/src/read_view.rs`): a core generation, the
segments flushed above it and the live delta. Adjacency and labels are stored in those three parts,
and the folds over them are modelled, as every traversal and every scan goes through them. The
properties of a node or an edge and the hits of an index are given as the view answers them.

Storage failures are left out: a read of the model always answers.
-/

namespace Slater

/-- One entry of an adjacency list. -/
structure Adj where
  reltype : Nat
  neighbour : Nat
  edge : Nat
  deriving DecidableEq, Repr

/-- One entry of a segment's adjacency fragment. -/
structure SegmentAdj where
  reltype : String
  other : Nat
  edgeId : Nat
  removed : Bool := false
  deriving DecidableEq, Repr

/-- One entry of the delta's adjacency. A patch on a core edge has no id of its own. -/
structure DeltaAdj where
  reltype : String
  other : Nat
  edgeId : Option Nat
  tombstoned : Bool := false
  deriving DecidableEq, Repr

/-- `RelEndpointSide`. -/
inductive EndpointSide where
  | source
  | target
  | either
  deriving DecidableEq, Repr

/-- Why a maintained degree is not exact. -/
inductive DegreeNotExact where
  | nodeTombstone
  | edgeTombstone
  deriving DecidableEq, Repr

def DegreeNotExact.message : DegreeNotExact → Failure
  | .nodeTombstone =>
    "maintained degree is not exact while a node delete is live in the delta — the caller must " ++
      "decline this fast path (degree_terminal_dir)"
  | .edgeTombstone =>
    "maintained degree is not exact while an edge delete is live in the delta — a core-edge " ++
      "tombstone is identity-matched, so its multiplicity is unknown without reading the core " ++
      "adjacency; the caller must decline this fast path (degree_terminal_dir)"

/-- A range index over the nodes of one label. The lookups answer with the ids the core index,
the segments and the delta hold together, before deleted nodes are dropped. -/
structure RangeIndex where
  name : String
  label : String
  property : String
  lookupEq : Value → List Nat
  lookupRange : Option (Value × Bool) → Option (Value × Bool) → List Nat
  /-- `distinct_key_counts` of the core index. -/
  keyCounts : List (Value × Nat)

/-- A node row of the segments above the core: the whole row, or a deletion. -/
structure StackRow where
  tombstoned : Bool := false
  labels : List String := []
  deriving DecidableEq, Repr

/-- A merged view. Each field is an answer that the source computes from one of the three parts.
They are free here; what the parts owe each other is said by `GraphView` and `ScanView`. -/
structure View where
  /-- Bound of the dense id space: core, segment-born and delta-born nodes. -/
  nodeCount : Nat
  coreNodeCount : Nat
  labelId : String → Option Nat
  labelName : Nat → Option String
  reltypeId : String → Option Nat
  /-- The relationship types of the manifest. -/
  reltypes : List String
  /-- `node_prop`. -/
  nodeProp : Nat → String → Val
  /-- `edge_prop`. -/
  edgeProp : Nat → String → Val
  /-- `all_properties` of a node and of a relationship. -/
  nodeProps : Nat → List (String × Val)
  edgeProps : Nat → List (String × Val)
  /-- The node-label column of the core. -/
  coreLabels : Nat → List Nat
  /-- The core adjacency of a node, outgoing or incoming. -/
  coreAdj : Nat → Bool → List Adj
  /-- `label_node_count`, of the core. -/
  labelNodeCount : Nat → Nat
  rangeIndexes : List RangeIndex
  hasReltypePostings : Bool
  reltypeSourceCount : Nat → Nat
  reltypeTargetCount : Nat → Nat
  /-- The core nodes that carry an edge of one of the types on the side. -/
  endpointPostings : List Nat → EndpointSide → List Nat
  /-- The adjacency fragments of the upper segments, oldest first. -/
  segments : List (Nat → Bool → List SegmentAdj)
  /-- `resolve_node_row`. -/
  stackRow : Nat → Option StackRow
  /-- The ids the segments carry a row for. -/
  stackIds : List Nat
  /-- `membership_touches` of some segment. -/
  membershipTouches : String → Bool
  deltaEmpty : Bool
  deltaAdj : Nat → Bool → List DeltaAdj
  /-- A node deleted by the delta. -/
  deltaTombstoned : Nat → Bool
  /-- `has_tombstones` and `has_edge_tombstones` of the delta. -/
  deltaHasTombstones : Bool
  deltaHasEdgeTombstones : Bool
  /-- `has_label_overlay` of the delta. -/
  deltaHasLabelOverlay : Bool
  /-- The label of the identity a delta-born node was created under. -/
  deltaIdentityLabel : Nat → Option String
  /-- The labels a node's patch drops and adds. -/
  deltaLabels : Nat → Option (List String × List String)
  /-- `born_ids_with_label` and `ids_with_added_label` of the delta. -/
  deltaBornWithLabel : String → List Nat
  deltaAddedLabel : String → List Nat
  /-- `born_edge_count_with_reltype` of the delta. -/
  deltaBornEdges : String → Nat

namespace View

variable (v : View)

/-- `is_singleton`: no segment lies above the core. -/
def singleton : Bool := v.segments.isEmpty

/-- `suppress_tombstoned_in_place`, for one id: a node deleted by the delta or by a segment. -/
def suppressed (id : Nat) : Bool :=
  bif v.deltaEmpty && v.singleton then false
  else v.deltaTombstoned id || (!v.singleton && (v.stackRow id).any (·.tombstoned))

/-! ## Labels -/

/-- The labels of a node below the delta. -/
def stackLabelIds (id : Nat) : List Nat :=
  match v.stackRow id with
  | some row => bif row.tombstoned then [] else row.labels.filterMap v.labelId
  | none =>
    if v.coreNodeCount ≤ id then ((v.deltaIdentityLabel id).bind v.labelId).toList
    else v.coreLabels id

/-- `node_label_ids_par`: the delta's drops, then its additions. -/
def labelIds (id : Nat) : List Nat :=
  let ids := v.stackLabelIds id
  bif v.deltaEmpty then ids
  else match v.deltaLabels id with
    | none => ids
    | some (removed, added) =>
      let kept := ids.filter fun x => x ∉ removed.filterMap v.labelId
      added.foldl (fun ids l => match v.labelId l with
        | some lid => if lid ∈ ids then ids else ids ++ [lid]
        | none => ids) kept

/-- `label_scan_overlay`: the ids whose membership the segments decide, and those of them that
carry the label. -/
def labelScanOverlay (label : String) : Option (List Nat × List Nat) :=
  if v.segments.isEmpty || !v.membershipTouches label then none
  else some (v.stackIds, v.stackIds.filter fun id =>
    (v.stackRow id).any fun row => !row.tombstoned && label ∈ row.labels)

/-- The ids of the sources of a merge, ascending and each once. -/
def mergeIds (member : Nat → Bool) : List Nat := (List.range v.nodeCount).filter member

/-- The ids a label scan visits, before deleted nodes are dropped: the core column, less what
the segments decide, with what segments and delta add. -/
def labelScan (label : Nat) : List Nat :=
  let inColumn (id : Nat) : Bool := id < v.coreNodeCount && label ∈ v.coreLabels id
  bif v.singleton && v.deltaEmpty then v.mergeIds inColumn
  else match v.labelName label with
    | none => v.mergeIds inColumn
    | some name =>
      let (exclude, carriers) := (v.labelScanOverlay name).getD ([], [])
      let born := bif v.deltaEmpty then [] else v.deltaBornWithLabel name ++ v.deltaAddedLabel name
      v.mergeIds fun id => (inColumn id && id ∉ exclude) || id ∈ carriers || id ∈ born

/-! ## Adjacency -/

variable (node : Nat) (outgoing : Bool)

/-- The core record of a node; a node born later has none. -/
def coreEdges : List Adj :=
  bif decide (node < v.coreNodeCount) then v.coreAdj node outgoing else []

/-- The born entries of one fragment; a type the core does not know cannot be an `Adj`. -/
def fragmentBorn (frag : List SegmentAdj) : List Adj :=
  frag.filterMap fun e =>
    bif e.removed then none else (v.reltypeId e.reltype).map fun rt => ⟨rt, e.other, e.edgeId⟩

def fragmentRemoved (frag : List SegmentAdj) : List Nat :=
  frag.filterMap fun e => bif e.removed then some e.edgeId else none

/-- The fold over the fragments of a node, oldest first: what they remove below them, and the
born edges that survive. -/
def foldFragments (frags : List (List SegmentAdj)) : List Nat × List Adj :=
  frags.foldl (fun acc frag =>
    let removed := fragmentRemoved frag
    (acc.1 ++ removed, acc.2.filter (fun a => a.edge ∉ removed) ++ v.fragmentBorn frag)) ([], [])

def foldSegments : List Nat × List Adj :=
  v.foldFragments (v.segments.map fun seg => seg node outgoing)

/-- The `(type, neighbour)` pairs the delta suppresses. -/
def deltaSuppress : List (Nat × Nat) :=
  bif v.deltaEmpty then []
  else (v.deltaAdj node outgoing).filterMap fun e =>
    bif e.tombstoned then (v.reltypeId e.reltype).map fun rt => (rt, e.other) else none

/-- The edges born in the delta. -/
def deltaBorn : List Adj :=
  bif v.deltaEmpty then []
  else (v.deltaAdj node outgoing).filterMap fun e =>
    bif e.tombstoned then none
    else e.edgeId.bind fun id => (v.reltypeId e.reltype).map fun rt => ⟨rt, e.other, id⟩

/-- A neighbour the delta has deleted. -/
def deltaDead (n : Nat) : Bool := !v.deltaEmpty && v.deltaTombstoned n

/-- `for_each_adj_overlaid`, collected: surviving core edges, then segment-born ones, then
delta-born ones. A tombstone of the delta suppresses by type and neighbour what lies below
it. -/
def adjOverlaid : List Adj :=
  let segs := v.foldSegments node outgoing
  let suppress := v.deltaSuppress node outgoing
  let keep (a : Adj) : Bool := (a.reltype, a.neighbour) ∉ suppress && !v.deltaDead a.neighbour
  (v.coreEdges node outgoing).filter (fun a => a.edge ∉ segs.1 && keep a) ++ segs.2.filter keep ++
    (v.deltaBorn node outgoing).filter fun a => !v.deltaDead a.neighbour

/-- `degrees_not_exact`: why a maintained degree cannot be exact, if it cannot. -/
def degreesNotExact : Option DegreeNotExact :=
  if v.deltaHasTombstones then some .nodeTombstone
  else if v.deltaHasEdgeTombstones then some .edgeTombstone
  else none

/-- `directed_edge_count`: the degree of a node, composed from the counts of the three parts. It
is refused while the delta holds a deletion. -/
def directedEdgeCount : Except Failure Nat :=
  match v.degreesNotExact with
  | some why => .error why.message
  | none =>
    let core : Int := (v.coreEdges node outgoing).length
    let segs : Int := (v.segments.map fun seg =>
      ((seg node outgoing).map fun e => bif e.removed then (-1 : Int) else 1).sum).sum
    let born : Int :=
      bif v.deltaEmpty then 0
      else ((v.deltaAdj node outgoing).filter fun e => e.edgeId.isSome).length
    .ok (core + segs + born).toNat

/-- `effective_incident_count`. -/
def incidentCount : Direction → Except Failure Nat
  | .outgoing => v.directedEdgeCount node true
  | .incoming => v.directedEdgeCount node false
  | .undirected => do
    let o ← v.directedEdgeCount node true
    let i ← v.directedEdgeCount node false
    pure (o + i)

end View

/-! ## Hops -/

/-- One traversal step. `start` and `«end»` are the stored direction of the edge. From an
incoming side the neighbour is the start of the edge. -/
structure Hop where
  edge : Nat
  neighbour : Nat
  reltype : Nat
  start : Nat
  «end» : Nat
  deriving DecidableEq, Repr

namespace Hop

/-- `Hop::as_rel`. -/
def asRel (h : Hop) : Val := .rel h.edge h.start h.end h.reltype

/-- The step along an adjacency entry. -/
def ofAdj (node : Nat) (incoming : Bool) (a : Adj) : Hop where
  edge := a.edge
  neighbour := a.neighbour
  reltype := a.reltype
  start := bif incoming then a.neighbour else node
  «end» := bif incoming then node else a.neighbour

end Hop

/-- `make_path`. -/
def makePath (start : Nat) (hops : List Hop) : Val :=
  .path (start :: hops.map (·.neighbour)) (hops.map Hop.asRel)

namespace View

variable (v : View)

/-- `resolve_type_filter`, applied: a positive expression is a set of known types, any other is
evaluated over the type of the edge. -/
def typeOk (typeExpr : Option LabelExpr) (reltype : Nat) : Bool :=
  match typeExpr with
  | none => true
  | some e =>
    match e.positiveAtoms with
    | some names => reltype ∈ names.filterMap v.reltypeId
    | none => e.eval fun name => v.reltypeId name == some reltype

/-- The hops of one side that pass the type filter. -/
def hopsSide (node : Nat) (typeExpr : Option LabelExpr) (incoming : Bool) : List Hop :=
  ((v.adjOverlaid node !incoming).filter fun a => v.typeOk typeExpr a.reltype).map (Hop.ofAdj node incoming)

/-- `hops_par`, and `for_each_hop_overlaid` collected: outgoing before incoming. -/
def hops (node : Nat) (dir : Direction) (typeExpr : Option LabelExpr) : List Hop :=
  match dir with
  | .outgoing => v.hopsSide node typeExpr false
  | .incoming => v.hopsSide node typeExpr true
  | .undirected => v.hopsSide node typeExpr false ++ v.hopsSide node typeExpr true

end View

end Slater
