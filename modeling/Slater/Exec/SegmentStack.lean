import Slater.Exec.Anchors
import Slater.Lib.Map

/-!
# A generation under segments

A flush of the delta writes a segment, and a generation is served with its segments on top, oldest first
(`slater/src/segstack.rs`). A segment has rows for the nodes it changes, an adjacency fragment for each end of the
edges it adds or removes, and the set of labels whose members it changes. The newest row of a node wins
(`resolve_node_row`), and a label scan leaves the segments out when none of them touches the label
(`membership_touches`).

`SegmentStack` is a generation with segments that keep what their writers promise, and `SegmentStack.scanView` says
that such a stack is scanned and traversed as a graph. The promises are fields of the structure: edge ids are
allocated once, a removal names the ends of the edge it removes, and a label that a segment does not list has the
same members above it as below. That `flush_segment.rs` and `merge_segment.rs` keep them is not shown here.

Properties and range indexes are taken as the stack answers them (`PropertyReads`); no scan and no hop looks at
them. A segment written before the set of touched labels was recorded touches every label; it is not modelled.
-/

namespace Slater

open List Map View

/-! ## Segments -/

/-- An edge that a segment adds, or removes. -/
structure SegmentEdge where
  reltype : String
  src : Nat
  dst : Nat
  id : Nat
  removed : Bool := false
  deriving DecidableEq, Repr

namespace SegmentEdge

/-- The end of an edge that lists it as outgoing, or as incoming. -/
def near (e : SegmentEdge) (outgoing : Bool) : Nat := bif outgoing then e.src else e.dst

def far (e : SegmentEdge) (outgoing : Bool) : Nat := e.near !outgoing

end SegmentEdge

/-- A segment above a generation: node rows by id, edges, and the labels whose members it
changes. An edge stands in it once, with both of its ends; the fragments that a reader sees are
derived. -/
structure UpperSegment where
  rows : List (Nat × StackRow) := []
  edges : List SegmentEdge := []
  touched : List String := []

namespace UpperSegment

variable (seg : UpperSegment)

/-- The adjacency fragment of a node. -/
def fragment (node : Nat) (outgoing : Bool) : List SegmentAdj :=
  (seg.edges.filter fun e => e.near outgoing == node).map fun e => ⟨e.reltype, e.far outgoing, e.id, e.removed⟩

/-- The ids of the edges that the segment adds. -/
def bornIds : List Nat := (seg.edges.filter (!·.removed)).map (·.id)

variable {seg}

theorem mem_fragment {node : Nat} {outgoing : Bool} {x : SegmentAdj} : x ∈ seg.fragment node outgoing ↔
    ∃ e ∈ seg.edges, e.near outgoing = node ∧ ⟨e.reltype, e.far outgoing, e.id, e.removed⟩ = x := by
  simp only [fragment, mem_map, mem_filter, beq_iff_eq, and_assoc]

/-- An edge stands in the fragments of both of its ends. -/
theorem mem_fragment_mirror (n w : Nat) (reltype : String) (id : Nat) (removed : Bool) :
    ⟨reltype, w, id, removed⟩ ∈ seg.fragment n true ↔ ⟨reltype, n, id, removed⟩ ∈ seg.fragment w false := by
  rw [mem_fragment, mem_fragment]
  refine exists_congr fun e => and_congr_right fun _ => ?_
  simp only [SegmentEdge.near, SegmentEdge.far, cond_true, cond_false, Bool.not_true, Bool.not_false,
    SegmentAdj.mk.injEq]
  tauto

end UpperSegment

/-- `resolve_node_row`: the newest row of a node in segments that are listed oldest first. -/
def resolveNodeRow (segs : List UpperSegment) (id : Nat) : Option StackRow :=
  segs.reverse.findSome? fun seg => seg.rows.lookup id

theorem resolveNodeRow_concat (segs : List UpperSegment) (seg : UpperSegment) (id : Nat) :
    resolveNodeRow (segs ++ [seg]) id = (seg.rows.lookup id).or (resolveNodeRow segs id) := by
  rw [resolveNodeRow, reverse_append, reverse_singleton, singleton_append, findSome?_cons]
  cases seg.rows.lookup id <;> rfl

/-- The labels of a row; a deleted node has none. -/
def StackRow.effectiveLabels (row : StackRow) : List String := bif row.tombstoned then [] else row.labels

/-- The names of the labels of a node over a generation and segments. -/
def CoreGraph.labelsUnder (g : CoreGraph) (segs : List UpperSegment) (id : Nat) : List String :=
  match resolveNodeRow segs id with
  | some row => row.effectiveLabels
  | none => ((g.nodes[id]?).elim [] (·.labels)).filterMap (g.labels[·]?)

/-- What a stack answers about properties, and its range indexes. -/
structure PropertyReads where
  nodeProp : Nat → String → Val := fun _ _ => .null
  edgeProp : Nat → String → Val := fun _ _ => .null
  nodeProps : Nat → List (String × Val) := fun _ => []
  edgeProps : Nat → List (String × Val) := fun _ => []
  rangeIndexes : List RangeIndex := []

/-! ## Stacks -/

/-- **A generation with its segments.** The fields after the totals are what the writers of
segments promise; each is used by one of the two views below. -/
structure SegmentStack where
  base : CoreGraph
  segments : List UpperSegment
  reads : PropertyReads
  /-- One past the last node id and the last edge id of the stack. -/
  nodeTotal : Nat
  edgeTotal : Nat
  label_names : base.labels.Nodup
  label_ids : ∀ n ∈ base.nodes, ∀ l ∈ n.labels, l < base.labels.length
  nodes_le : base.nodes.length ≤ nodeTotal
  edges_le : base.edges.length ≤ edgeTotal
  rows_lt : ∀ seg ∈ segments, ∀ row ∈ seg.rows, row.1 < nodeTotal
  ids_lt : ∀ seg ∈ segments, ∀ e ∈ seg.edges, e.id < edgeTotal
  /-- An edge id is allocated once, past those of the generation. -/
  born_once : (segments.flatMap UpperSegment.bornIds).Nodup
  born_ge : ∀ seg ∈ segments, ∀ id ∈ seg.bornIds, base.edges.length ≤ id
  /-- A removal names the ends of the edge it removes. -/
  removes_core : ∀ seg ∈ segments, ∀ r ∈ seg.edges, r.removed → ∀ e ∈ base.edges[r.id]?,
    e.src = r.src ∧ e.dst = r.dst
  removes_born : ∀ seg ∈ segments, ∀ r ∈ seg.edges, r.removed → ∀ seg' ∈ segments, ∀ e ∈ seg'.edges,
    e.removed = false → e.id = r.id → e.src = r.src ∧ e.dst = r.dst
  /-- A label that a segment does not list has the members it had below. -/
  touches : ∀ older seg newer, segments = older ++ seg :: newer → ∀ id row, seg.rows.lookup id = some row →
    ∀ label ∉ seg.touched, label ∈ row.effectiveLabels ↔ label ∈ base.labelsUnder older id

namespace SegmentStack

variable (s : SegmentStack) {node : Nat} {outgoing : Bool} {a : Adj}

/-- The view of the stack, under an empty delta. -/
def view : View :=
  { s.base.view with
    nodeCount := s.nodeTotal
    nodeProp := s.reads.nodeProp
    edgeProp := s.reads.edgeProp
    nodeProps := s.reads.nodeProps
    edgeProps := s.reads.edgeProps
    rangeIndexes := s.reads.rangeIndexes
    segments := s.segments.map UpperSegment.fragment
    stackRow := resolveNodeRow s.segments
    stackIds := ascending (s.segments.flatMap fun seg => seg.rows.map Prod.fst).toFinset
    membershipTouches := fun label => s.segments.any (label ∈ ·.touched) }

theorem coreEdges_view (node : Nat) (outgoing : Bool) : s.view.coreEdges node outgoing = s.base.adj node outgoing :=
  s.base.coreEdges_view node outgoing

/-- What the stack stores for a node: the core's edges, and what the segments add. -/
theorem mem_storedAdj : a ∈ s.view.storedAdj node outgoing ↔ a ∈ s.base.adj node outgoing ∨
    ∃ seg ∈ s.segments, a ∈ s.view.fragmentBorn (seg.fragment node outgoing) := by
  have hempty : s.view.deltaBorn node outgoing = [] := rfl
  rw [View.storedAdj, hempty, append_nil, coreEdges_view, mem_append, mem_flatMap]
  simp only [view, mem_map, exists_exists_and_eq_and]

/-- An added edge of a fragment is an edge of its segment. -/
theorem exists_edge_of_born {seg : UpperSegment} (ha : a ∈ s.view.fragmentBorn (seg.fragment node outgoing)) :
    ∃ e ∈ seg.edges, e.removed = false ∧ e.near outgoing = node ∧ e.far outgoing = a.neighbour ∧ e.id = a.edge := by
  obtain ⟨name, -, hmem⟩ := mem_fragmentBorn.mp ha
  obtain ⟨e, he, hnear, heq⟩ := UpperSegment.mem_fragment.mp hmem
  obtain ⟨-, hfar, hid, hlive⟩ := SegmentAdj.mk.inj heq
  exact ⟨e, he, hlive, hnear, hfar, hid⟩

theorem bornIds_sublist (segs : List UpperSegment) (node : Nat) (outgoing : Bool) :
    ((segs.flatMap fun seg => s.view.fragmentBorn (seg.fragment node outgoing)).map (·.edge)).Sublist
      (segs.flatMap UpperSegment.bornIds) := by
  induction segs with
  | nil => exact .slnil
  | cons seg segs ih =>
    rw [flatMap_cons, map_append, flatMap_cons]
    refine List.Sublist.append ?_ ih
    -- the added edges at the node whose type is known
    have hpart : (s.view.fragmentBorn (seg.fragment node outgoing)).map (·.edge) =
        ((seg.edges.filter (!·.removed)).filter fun e =>
          e.near outgoing == node && (s.view.reltypeId e.reltype).isSome).map (·.id) := by
      rw [View.fragmentBorn, UpperSegment.fragment, map_filterMap, filterMap_map, filterMap_filter, ← filterMap_eq_map,
        filter_filter, filterMap_filter]
      refine filterMap_congr fun e _ => ?_
      cases hnear : e.near outgoing == node <;> cases hr : e.removed <;> cases ht : s.view.reltypeId e.reltype <;>
        simp [hr, ht]
    rw [hpart]
    exact filter_sublist.map _

theorem mem_coreEdges_mirror (n w rt e : Nat) :
    ⟨rt, w, e⟩ ∈ s.view.coreEdges n true ↔ ⟨rt, n, e⟩ ∈ s.view.coreEdges w false := by
  rw [coreEdges_view, coreEdges_view, ← s.base.coreEdges_view, ← s.base.coreEdges_view]
  exact s.base.graphView.core_mirror n w rt e

/-- A removal names the edge as the generation or the segment that added it has it. -/
theorem neighbour_of_removal {frag : Nat → Bool → List SegmentAdj} (hfrag : frag ∈ s.view.segments) (n : Nat)
    (outgoing : Bool) {x : SegmentAdj} (hx : x ∈ frag n outgoing) (hrem : x.removed) {a : Adj}
    (ha : a ∈ s.view.storedAdj n outgoing) (hedge : a.edge = x.edgeId) : a.neighbour = x.other := by
  obtain ⟨seg, hseg, rfl⟩ := mem_map.mp hfrag
  obtain ⟨r, hr, rfl, rfl⟩ := UpperSegment.mem_fragment.mp hx
  rcases s.mem_storedAdj.mp ha with hcore | ⟨seg', hseg', hborn⟩
  · obtain ⟨e, he, -, -, hfar⟩ := s.base.mem_adj.mp hcore
    rw [hedge] at he
    obtain ⟨hsrc, hdst⟩ := s.removes_core seg hseg r hr hrem e he
    rw [← hfar]
    cases outgoing <;> assumption
  · obtain ⟨e, he, hlive, -, hfar, hid⟩ := s.exists_edge_of_born hborn
    obtain ⟨hsrc, hdst⟩ := s.removes_born seg hseg r hr hrem seg' hseg' e he hlive (hid.trans hedge)
    rw [← hfar]
    cases outgoing <;> assumption

theorem storedAdj_edges_nodup (n : Nat) (outgoing : Bool) : ((s.view.storedAdj n outgoing).map (·.edge)).Nodup := by
  have hstored : s.view.storedAdj n outgoing = s.base.adj n outgoing ++
      s.segments.flatMap fun seg => s.view.fragmentBorn (seg.fragment n outgoing) := by
    have hempty : s.view.deltaBorn n outgoing = [] := rfl
    rw [View.storedAdj, hempty, append_nil, coreEdges_view]
    exact congrArg _ (flatMap_map ..)
  have hsub := s.bornIds_sublist s.segments n outgoing
  rw [hstored, map_append]
  refine (s.base.adj_edges_nodup n outgoing).append (s.born_once.sublist hsub) fun x hx hx' => ?_
  -- an added id lies past those of the generation
  obtain ⟨a, ha, rfl⟩ := mem_map.mp hx
  obtain ⟨e, he, -⟩ := s.base.mem_adj.mp ha
  obtain ⟨seg, hseg, hid⟩ := mem_flatMap.mp (hsub.mem hx')
  have hge := s.born_ge seg hseg a.edge hid
  have hlt := (List.getElem?_eq_some_iff.mp he).1
  omega

theorem mem_segments_mirror {frag : Nat → Bool → List SegmentAdj} (hfrag : frag ∈ s.view.segments) (n w : Nat)
    (rt : String) (e : Nat) (removed : Bool) :
    ⟨rt, w, e, removed⟩ ∈ frag n true ↔ ⟨rt, n, e, removed⟩ ∈ frag w false := by
  obtain ⟨seg, -, rfl⟩ := mem_map.mp hfrag
  exact UpperSegment.mem_fragment_mirror n w rt e removed

theorem mem_deltaAdj_mirror (n w : Nat) (rt : String) (e : Option Nat) (tombstoned : Bool) :
    ⟨rt, w, e, tombstoned⟩ ∈ s.view.deltaAdj n true ↔ ⟨rt, n, e, tombstoned⟩ ∈ s.view.deltaAdj w false :=
  iff_of_false not_mem_nil not_mem_nil

/-- **A stack is a graph**: what its view stores of an edge is the same from both ends, removals
name the edges they remove, and an edge id stands once. -/
def graphView : GraphView where
  toView := s.view
  core_mirror := s.mem_coreEdges_mirror
  segments_mirror _ hfrag := s.mem_segments_mirror hfrag
  delta_mirror := s.mem_deltaAdj_mirror
  removal_names _ hfrag n outgoing _ hx hrem _ ha := s.neighbour_of_removal hfrag n outgoing hx hrem ha
  stored_once := s.storedAdj_edges_nodup

/-! ### Scans -/

/-- A label that no segment lists has the members it has in the generation. -/
theorem mem_labelsUnder {label : String} (hlabel : ∀ seg ∈ s.segments, label ∉ seg.touched) (id : Nat) :
    label ∈ s.base.labelsUnder s.segments id ↔ label ∈ s.base.labelsUnder [] id := by
  -- along the segments, oldest first
  have hinit : ∀ segs newer, s.segments = segs ++ newer →
      (label ∈ s.base.labelsUnder segs id ↔ label ∈ s.base.labelsUnder [] id) := by
    intro segs
    induction segs using reverseRecOn with
    | nil => exact fun _ _ => Iff.rfl
    | append_singleton segs seg ih =>
      intro newer hsegs
      rw [append_assoc, singleton_append] at hsegs
      have hold := ih (seg :: newer) hsegs
      cases hrow : seg.rows.lookup id with
      | none =>
        have hsame : s.base.labelsUnder (segs ++ [seg]) id = s.base.labelsUnder segs id := by
          rw [CoreGraph.labelsUnder, resolveNodeRow_concat, hrow, Option.none_or, CoreGraph.labelsUnder]
        rw [hsame, hold]
      | some row =>
        have htop : s.base.labelsUnder (segs ++ [seg]) id = row.effectiveLabels := by
          rw [CoreGraph.labelsUnder, resolveNodeRow_concat, hrow, Option.some_or]
        have hmem : seg ∈ s.segments := hsegs ▸ mem_append_right _ (.head _)
        rw [htop, s.touches segs seg newer hsegs id row hrow label (hlabel seg hmem), hold]
  exact hinit s.segments [] (append_nil _).symm

theorem mem_stackIds (id : Nat) : id ∈ s.view.stackIds ↔ (s.view.stackRow id).isSome := by
  show id ∈ ascending (s.segments.flatMap fun seg => seg.rows.map Prod.fst).toFinset ↔
    (resolveNodeRow s.segments id).isSome
  rw [mem_ascending, mem_toFinset, mem_flatMap, resolveNodeRow, findSome?_isSome_iff]
  simp only [mem_reverse, mem_map, lookup_isSome_iff]
  refine exists_congr fun seg => and_congr_right fun _ => exists_congr fun row => and_congr_right fun _ => ?_
  rw [beq_iff_eq, eq_comm]

/-- A live row carries a label that no segment lists as the generation carries it. -/
theorem mem_labels_untouched {label : String} (hlabel : s.view.membershipTouches label = false) {id : Nat}
    {row : StackRow} (hrow : s.view.stackRow id = some row) (hlive : row.tombstoned = false) :
    label ∈ row.labels ↔ id < s.view.coreNodeCount ∧ ∃ l ∈ s.view.coreLabels id, s.view.labelId label = some l := by
  have hnot : ∀ seg ∈ s.segments, label ∉ seg.touched := fun seg hseg htouched =>
    absurd (decide_eq_true htouched) (any_eq_false.mp hlabel seg hseg)
  have hrow : resolveNodeRow s.segments id = some row := hrow
  have hlabels : s.base.labelsUnder s.segments id = row.labels := by
    rw [CoreGraph.labelsUnder, hrow]
    show row.effectiveLabels = row.labels
    rw [StackRow.effectiveLabels, hlive, cond_false]
  have hnames : ∀ l, s.base.labels[l]? = some label ↔ s.base.labelId label = some l := fun l =>
    (s.base.scanView s.label_names s.label_ids).label_names l label
  rw [← hlabels, s.mem_labelsUnder hnot]
  show label ∈ ((s.base.nodes[id]?).elim [] (·.labels)).filterMap (s.base.labels[·]?) ↔
    id < s.base.nodes.length ∧ ∃ l ∈ (s.base.nodes[id]?).elim [] (·.labels), s.base.labelId label = some l
  simp only [mem_filterMap, hnames]
  refine ⟨fun hmem => ⟨?_, hmem⟩, And.right⟩
  obtain ⟨l, hl, -⟩ := hmem
  by_contra hge
  rw [getElem?_eq_none (Nat.not_lt.mp hge)] at hl
  exact absurd hl not_mem_nil

/-- **A stack is scanned right.** A label that no segment lists is scanned from the generation
alone, which the last promise justifies. -/
def scanView : ScanView :=
  let core := s.base.scanView s.label_names s.label_ids
  { toGraphView := s.graphView
    label_names := core.label_names
    core_labels_named := core.core_labels_named
    stack_ids := s.mem_stackIds
    stack_segments := fun hsegs => by
      have hnil : s.segments = [] := map_eq_nil_iff.mp hsegs
      have hids : s.view.stackIds = [] := by
        unfold view
        rw [hnil]
        rfl
      exact hids
    untouched := fun _ hlabel _ _ hrow hlive => s.mem_labels_untouched hlabel hrow hlive
    identity_empty := fun _ _ => rfl
    born_labels := fun h => by cases h
    added_labels := fun h => by cases h
    no_overlay := fun _ => ⟨fun _ => rfl, fun _ _ _ h => by cases h⟩
    reltype_names := core.reltype_names
    posted := core.posted
    born_edges := fun _ _ _ _ e he => absurd he not_mem_nil }

end SegmentStack

/-! ## A relationship replaced by another -/

namespace SegmentStack

theorem knows_ends : ∀ e ∈ [(⟨0, 0, 1, []⟩ : CoreEdge)], e.src < 2 ∧ e.dst < 2 := by decide

/-- Two people, of whom the first knows the second. -/
def twoPeople : CoreGraph where
  labels := ["Person"]
  reltypes := ["KNOWS"]
  nodes := [⟨[0], []⟩, ⟨[0], []⟩]
  edges := [⟨0, 0, 1, []⟩]
  ends := knows_ends

/-- A segment replaces their relationship, and adds a third person whom the first one knows. -/
def thirdPerson : UpperSegment where
  rows := [(2, { labels := ["Person"] })]
  edges := [⟨"KNOWS", 0, 1, 0, true⟩, ⟨"KNOWS", 0, 2, 1, false⟩]
  touched := ["Person"]

/-- The two people under the segment. -/
def threePeople : SegmentStack where
  base := twoPeople
  segments := [thirdPerson]
  reads := {}
  nodeTotal := 3
  edgeTotal := 2
  label_names := by decide
  label_ids := by decide
  nodes_le := by decide
  edges_le := by decide
  rows_lt := by decide
  ids_lt := by decide
  born_once := by decide
  born_ge := by decide
  removes_core := by decide
  removes_born := by decide
  touches older seg newer hsegs id row hrow label hlabel := by
    obtain ⟨rfl, rfl, rfl⟩ : older = [] ∧ thirdPerson = seg ∧ newer = [] := by
      cases older with
      | nil => simpa using hsegs
      | cons a older => simp at hsegs
    -- the only row is a new node's, whose label is listed
    obtain ⟨rfl, rfl⟩ : id = 2 ∧ row = { labels := ["Person"] } := by
      by_cases hid : id = 2
      · subst hid
        exact ⟨rfl, (Option.some.inj hrow).symm⟩
      · rw [thirdPerson, List.lookup, beq_false_of_ne hid] at hrow
        cases hrow
    exact iff_of_false hlabel not_mem_nil

example : threePeople.view.adjOverlaid 0 true = [⟨0, 2, 1⟩] ∧ threePeople.view.labelScan 0 = [0, 1, 2] := by
  decide +kernel

end SegmentStack

end Slater
