import Slater.Exec.GraphView
import Slater.Exec.KeyOrder

/-!
# A generation on its own

The view of a core generation with no segment above it and an empty delta, as the builder writes
one: nodes and edges are numbered in order, every edge stands in the adjacency of both its ends, and
the label, endpoint and range postings are the ones the stored records have. Such a view is a view
of a graph.

**What it does not establish.** That the builder writes such a generation is not shown. `Slater.Exec.SegmentStack`
and `Slater.Server.MergedGraph` go on from here to generations under segments and under a delta.
-/

namespace Slater

open List Binary64 Val

/-! ## The stored records -/

/-- A stored node: the ids of its labels, and its properties. -/
structure CoreNode where
  labels : List Nat := []
  props : List (String × Value) := []
  deriving DecidableEq, Repr

/-- A stored edge. -/
structure CoreEdge where
  reltype : Nat
  src : Nat
  dst : Nat
  props : List (String × Value) := []
  deriving DecidableEq, Repr

namespace CoreEdge

/-- The end of an edge that lists it as outgoing, or as incoming. -/
def near (e : CoreEdge) (outgoing : Bool) : Nat := bif outgoing then e.src else e.dst

def far (e : CoreEdge) (outgoing : Bool) : Nat := e.near !outgoing

end CoreEdge

/-- A core generation. Ids are positions. The only promise is that edges end at nodes of the
generation. -/
structure CoreGraph where
  labels : List String := []
  reltypes : List String := []
  nodes : List CoreNode
  edges : List CoreEdge
  /-- Name, label and property of the range indexes. -/
  indexes : List (String × String × String) := []
  hasReltypePostings : Bool := true
  ends : ∀ e ∈ edges, e.src < nodes.length ∧ e.dst < nodes.length

namespace CoreGraph

theorem ends_nil : ∀ e ∈ ([] : List CoreEdge), e.src < ([] : List CoreNode).length ∧
    e.dst < ([] : List CoreNode).length :=
  List.forall_mem_nil _

variable (g : CoreGraph)

def labelId (name : String) : Option Nat := g.labels.idxOf? name

def reltypeId (name : String) : Option Nat := g.reltypes.idxOf? name

def carries (label id : Nat) : Bool := (g.nodes[id]?).any (label ∈ ·.labels)

/-- The stored value of a property. -/
def nodeValue (id : Nat) (key : String) : Option Value := (g.nodes[id]?).bind (·.props.lookup key)

def edgeValue (id : Nat) (key : String) : Option Value := (g.edges[id]?).bind (·.props.lookup key)

variable (node : Nat) (outgoing : Bool)

/-- The adjacency record of a node. -/
def adj : List Adj :=
  (g.edges.zipIdx.filter fun e => e.1.near outgoing == node).map fun e =>
    ⟨e.1.reltype, e.1.far outgoing, e.2⟩

/-- What `emit_node_ranges` pushes for an index: an entry for each node of the label that has a
stored value, in the order of the nodes. -/
def rangeEntries (label property : String) : List (Value × Nat) :=
  (range g.nodes.length).filterMap fun id =>
    if (g.labelId label).any fun lid => g.carries lid id then
      (g.nodeValue id property).map (·, id)
    else none

/-- `write_isam` sorts by key, then by id. -/
def sortedEntries (label property : String) : List (Value × Nat) :=
  (g.rangeEntries label property).insertionSort fun a b =>
    (a.1.cmpKey b.1).then (compare a.2 b.2) ≠ .gt

/-- `distinct_key_counts`: the runs of equal keys, each under its first key. -/
def keyRuns (entries : List (Value × Nat)) : List (Value × Nat) :=
  entries.foldl (fun out e =>
    match out.getLast? with
    | some (key, n) => if key.cmpKey e.1 = .eq then out.dropLast ++ [(key, n + 1)] else out ++ [(e.1, 1)]
    | none => [(e.1, 1)]) []

/-- The bounds of `lookup_range`; a bound is included when its flag is set. -/
def inRange (lo hi : Option (Value × Bool)) (v : Value) : Bool :=
  (lo.all fun b => bif b.2 then (v.cmpKey b.1).isGE else (v.cmpKey b.1).isGT) &&
    hi.all fun b => bif b.2 then (v.cmpKey b.1).isLE else (v.cmpKey b.1).isLT

def rangeIndex (spec : String × String × String) : RangeIndex where
  name := spec.1
  label := spec.2.1
  property := spec.2.2
  lookupEq v := ((g.rangeEntries spec.2.1 spec.2.2).filter fun e => e.1.cmpKey v == .eq).map (·.2)
  lookupRange lo hi :=
    ((g.rangeEntries spec.2.1 spec.2.2).filter fun e => inRange lo hi e.1).map (·.2)
  keyCounts := keyRuns (g.sortedEntries spec.2.1 spec.2.2)

/-- The nodes with an edge of one of the types on the side. -/
def endpoints (reltypes : List Nat) (side : EndpointSide) : List Nat :=
  (range g.nodes.length).filter fun id => g.edges.any fun e =>
    e.reltype ∈ reltypes &&
      match side with
      | .source => e.src == id
      | .target => e.dst == id
      | .either => e.src == id || e.dst == id

/-- The view of the generation. -/
def view : View where
  nodeCount := g.nodes.length
  coreNodeCount := g.nodes.length
  labelId := g.labelId
  labelName id := g.labels[id]?
  reltypeId := g.reltypeId
  reltypes := g.reltypes
  nodeProp id key := (g.nodeValue id key).elim .null fromValue
  edgeProp id key := (g.edgeValue id key).elim .null fromValue
  nodeProps id := (g.nodes[id]?).elim [] fun n => n.props.map fun p => (p.1, fromValue p.2)
  edgeProps id := (g.edges[id]?).elim [] fun e => e.props.map fun p => (p.1, fromValue p.2)
  coreLabels id := (g.nodes[id]?).elim [] (·.labels)
  coreAdj := g.adj
  labelNodeCount label := (range g.nodes.length).countP (g.carries label)
  rangeIndexes := g.indexes.map g.rangeIndex
  hasReltypePostings := g.hasReltypePostings
  reltypeSourceCount t := (g.endpoints [t] .source).length
  reltypeTargetCount t := (g.endpoints [t] .target).length
  endpointPostings := g.endpoints
  segments := []
  stackRow _ := none
  stackIds := []
  membershipTouches _ := false
  deltaEmpty := true
  deltaAdj _ _ := []
  deltaTombstoned _ := false
  deltaHasTombstones := false
  deltaHasEdgeTombstones := false
  deltaHasLabelOverlay := false
  deltaIdentityLabel _ := none
  deltaLabels _ := none
  deltaBornWithLabel _ := []
  deltaAddedLabel _ := []
  deltaBornEdges _ := 0

/-! ## Names -/

theorem getElem?_of_idxOf? {names : List String} {name : String} {i : Nat}
    (h : names.idxOf? name = some i) : names[i]? = some name := by
  obtain ⟨hlt, heq, -⟩ := idxOf?_eq_some_iff.1 h
  rw [getElem?_eq_getElem hlt, heq]

theorem labelId_inj {g : CoreGraph} {a b : String} {lid : Nat} (ha : g.labelId a = some lid)
    (hb : g.labelId b = some lid) : a = b :=
  Option.some.inj ((getElem?_of_idxOf? ha).symm.trans (getElem?_of_idxOf? hb))

/-! ## It is a view of a graph -/

theorem mem_adj {node : Nat} {outgoing : Bool} {a : Adj} : a ∈ g.adj node outgoing ↔
    ∃ e, g.edges[a.edge]? = some e ∧ e.reltype = a.reltype ∧ e.near outgoing = node ∧
      e.far outgoing = a.neighbour := by
  simp only [adj, mem_map, mem_filter, beq_iff_eq, Prod.exists,
    mem_zipIdx_iff_getElem?]
  constructor
  · rintro ⟨e, i, ⟨hi, hnear⟩, rfl⟩
    exact ⟨e, hi, rfl, hnear, rfl⟩
  · rintro ⟨e, hi, hrt, hnear, hfar⟩
    exact ⟨e, a.edge, ⟨hi, hnear⟩, by rw [hrt, hfar]⟩

/-- An edge hangs on nodes of the generation. -/
theorem near_lt {i : Nat} {e : CoreEdge} (h : g.edges[i]? = some e) (outgoing : Bool) :
    e.near outgoing < g.nodes.length := by
  have hends := g.ends e (mem_of_getElem? h)
  cases outgoing
  · exact hends.2
  · exact hends.1

theorem coreEdges_view : g.view.coreEdges node outgoing = g.adj node outgoing := by
  unfold View.coreEdges
  by_cases hlt : node < g.nodes.length
  · simp [view, hlt]
  · have hnone : g.adj node outgoing = [] := by
      refine eq_nil_iff_forall_not_mem.2 fun a ha => ?_
      obtain ⟨e, he, -, hnear, -⟩ := g.mem_adj.1 ha
      exact hlt (hnear ▸ g.near_lt he outgoing)
    simp [view, hnone]

theorem adj_edges_nodup : ((g.adj node outgoing).map (·.edge)).Nodup := by
  rw [adj, map_map]
  refine List.Nodup.sublist (filter_sublist.map _) ?_
  have hids : g.edges.zipIdx.map Prod.snd = range' 0 g.edges.length := zipIdx_map_snd 0 _
  exact hids ▸ nodup_range'

theorem storedAdj_view : g.view.storedAdj node outgoing = g.adj node outgoing := by
  unfold View.storedAdj
  rw [coreEdges_view]
  simp [view, View.deltaBorn]

/-- **The graph of a generation.** -/
def graphView : GraphView where
  toView := g.view
  core_mirror n w rt e := by
    simp only [coreEdges_view, mem_adj]
    refine exists_congr fun edge => and_congr_right fun _ => and_congr_right fun _ => ?_
    exact and_comm
  segments_mirror _ h := absurd h not_mem_nil
  delta_mirror _ _ _ _ _ := iff_of_false not_mem_nil not_mem_nil
  removal_names _ h := absurd h not_mem_nil
  stored_once n outgoing := by
    rw [storedAdj_view]
    exact g.adj_edges_nodup n outgoing

/-- Every node of a generation is live. -/
theorem live_view {id : Nat} (h : id < g.nodes.length) : g.view.live id := ⟨h, rfl⟩

end CoreGraph

end Slater
