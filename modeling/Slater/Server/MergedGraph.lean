import Slater.Delta.Mirrored
import Slater.Exec.SegmentStack
import Slater.Server.BornRuns

/-!
# Merged views of a graph

What the matcher is proved to do rests on the view it reads: `GraphView` for the adjacency and `ScanView` for the
label scans. This module shows that the views a server reads are such views. `GraphBase` is what lies below a delta:
a generation with its segments, whose view is a `ScanView`, and whose ids end where the delta's begin. Over it,
every delta that a writer reaches gives a `ScanView` again (`GraphBase.scanView`), and its view is the one that
`MergedView::new` builds (`Generation.merged`).

A delta is reached by writes that are resolved as statements resolve them and by flushes to resident levels
(`RunResolved`). `DeltaState.Sound` is what such a run keeps: the bands of ids, and the two adjacencies of every
level in step.

Two bases are built: a generation as the builder wrote it (`CoreGraph.base`), and a generation under segments
(`SegmentStack.graphBase`). Off-heap levels, and levels that a compaction merged, are not covered.

The first use is `merged_edges_paired`. What is not established is that the builder and the writers of segments keep
the promises of the two bases, and that a delta read back after a restart is one of these; `Slater.Server.Recovery`
is about the latter.
-/

namespace Slater

open Map List Option View

/-! ## The delta of a writer -/

/-- The write carries the ids that the state resolves it to. -/
def DeltaStep.ResolvedIn (core : NodeIdentity → Option Nat) (coreEdge : EdgeIdentity → Option Nat) (st : DeltaState) :
    DeltaStep → Prop
  | .write op => op.ResolvedBy (belowOf core (st.l0.map Memtable.level)) coreEdge st.mem
  | .flush => True

instance DeltaStep.decidableResolvedIn (core : NodeIdentity → Option Nat) (coreEdge : EdgeIdentity → Option Nat)
    (st : DeltaState) (step : DeltaStep) : Decidable (step.ResolvedIn core coreEdge st) :=
  match step with
  | .write op => inferInstanceAs (Decidable (op.ResolvedBy _ _ _))
  | .flush => inferInstanceAs (Decidable True)

namespace DeltaState

/-- Every write of the run carries the ids that the state before it resolves. The ids are those
that the writer resolves against the core and the sealed levels before each write. -/
def RunResolved (core : NodeIdentity → Option Nat) (coreEdge : EdgeIdentity → Option Nat) :
    DeltaState → List DeltaStep → Prop
  | _, [] => True
  | st, step :: steps => step.ResolvedIn core coreEdge st ∧ RunResolved core coreEdge (st.step step) steps

instance decidableRunResolved (core : NodeIdentity → Option Nat) (coreEdge : EdgeIdentity → Option Nat) :
    (st : DeltaState) → (steps : List DeltaStep) → Decidable (st.RunResolved core coreEdge steps)
  | _, [] => inferInstanceAs (Decidable True)
  | st, step :: steps =>
    have := decidableRunResolved core coreEdge (st.step step) steps
    inferInstanceAs (Decidable (_ ∧ _))

variable {core : NodeIdentity → Option Nat} {coreEdge : EdgeIdentity → Option Nat} {nodeFloor edgeFloor : Nat}
  {st : DeltaState}

/-- **What a run keeps of a delta**: ids in bands above the floors, and both ends of an edge in
step. The active memtable is described by its operations, a sealed level by its answers. -/
structure Sound (core : NodeIdentity → Option Nat) (coreEdge : EdgeIdentity → Option Nat) (nodeFloor edgeFloor : Nat)
    (st : DeltaState) : Prop where
  core_lt : ∀ id d, core id = some d → d < nodeFloor
  active : st.mem.Active (belowOf core (st.l0.map Memtable.level)) coreEdge
  linked : ∃ order, st.mem.Linked (belowOf core (st.l0.map Memtable.level)) order
  nodes : NodeBands core nodeFloor (st.l0.map Memtable.level)
  nodeBase : st.mem.syntheticBase = nodeTopOf nodeFloor (st.l0.map Memtable.level)
  edges : EdgeBands edgeFloor (st.l0.map .resident)
  edgeBase : EdgeFollows edgeFloor st.mem.edgeSyntheticBase (st.l0.map .resident)
  coherent : ∀ m ∈ st.l0, m.Coherent
  mirrored : ∀ m ∈ st.l0, m.level.Mirrored

theorem sound_start (hcore : ∀ id d, core id = some d → d < nodeFloor) (coreEdge : EdgeIdentity → Option Nat) :
    (start nodeFloor edgeFloor).Sound core coreEdge nodeFloor edgeFloor where
  core_lt := hcore
  active := Memtable.active_withBases (fun id d hd => (NodeBands.belowOf_eq_some hd).elim (hcore id d)
    fun ⟨_, hl, _⟩ => absurd hl not_mem_nil) coreEdge edgeFloor
  linked := ⟨[], Memtable.linked_withBases _ nodeFloor edgeFloor⟩
  nodes := trivial
  nodeBase := rfl
  edges := trivial
  edgeBase := Nat.le_refl edgeFloor
  coherent := forall_mem_nil _
  mirrored := forall_mem_nil _

namespace Sound

variable (h : st.Sound core coreEdge nodeFloor edgeFloor)
include h

/-- The active memtable is the newest band. -/
theorem nodeBands : NodeBands core nodeFloor st.snapshot.levels :=
  ⟨h.active.nodes.level h.active.coherent, h.nodeBase, h.nodes⟩

theorem edgeBands : EdgeBands edgeFloor (st.levels.map .resident) := ⟨h.active.edges.level, h.edgeBase, h.edges⟩

theorem coherent_levels : ∀ m ∈ st.levels, m.Coherent := forall_mem_cons.mpr ⟨h.active.coherent, h.coherent⟩

theorem mirrored_levels : ∀ m ∈ st.levels, m.level.Mirrored := by
  obtain ⟨order, hlinked⟩ := h.linked
  exact forall_mem_cons.mpr ⟨hlinked.mirrored h.active.edges, h.mirrored⟩

/-- A flush seals the newest band, and the fresh memtable starts where it ends. -/
theorem flush : st.flush.Sound core coreEdge nodeFloor edgeFloor := by
  unfold DeltaState.flush
  cases st.mem.isEmpty with
  | true => exact h
  | false =>
    have hnodes := h.nodeBands
    exact
      { core_lt := h.core_lt
        active := Memtable.active_withBases (fun id d hd => hnodes.belowOf_lt h.core_lt hd) coreEdge _
        linked := ⟨[], Memtable.linked_withBases _ _ _⟩
        nodes := hnodes
        nodeBase := rfl
        edges := h.edgeBands
        edgeBase := ⟨Nat.le_refl _, fun hoff => absurd hoff Bool.false_ne_true⟩
        coherent := h.coherent_levels
        mirrored := h.mirrored_levels }

/-- **A resolved step keeps the delta sound.** -/
theorem step {step : DeltaStep} (hstep : step.ResolvedIn core coreEdge st) :
    (st.step step).Sound core coreEdge nodeFloor edgeFloor := by
  cases step with
  | flush => exact h.flush
  | write op =>
    obtain ⟨order, hlinked⟩ := h.linked
    exact
      { h with
        active := h.active.apply hstep
        linked := hlinked.apply h.active hstep
        nodeBase := (st.mem.apply_syntheticBase op).trans h.nodeBase
        edgeBase := by
          show EdgeFollows edgeFloor (st.mem.apply op).edgeSyntheticBase (st.l0.map .resident)
          rw [st.mem.apply_edgeSyntheticBase op]
          exact h.edgeBase }

/-- **Every resolved run keeps the delta sound.** -/
theorem run {steps : List DeltaStep} (hsteps : st.RunResolved core coreEdge steps) :
    (st.run steps).Sound core coreEdge nodeFloor edgeFloor := by
  induction steps generalizing st with
  | nil => exact h
  | cons step steps ih => exact ih (h.step hsteps.1) hsteps.2

end Sound

end DeltaState

/-! ## What the snapshot answers -/

/-- Born ids are listed once over levels whose bands lie above each other. -/
theorem EdgeBands.once {floor : Nat} {levels : List L0Level} (h : EdgeBands floor levels)
    (hm : ∀ l ∈ levels, l.asLevel.Mirrored) (outgoing : Bool) (node : Nat) :
    ((levels.flatMap fun l => l.asLevel.edgesOf outgoing node).filterMap (·.edgeId)).Nodup ∧
      ∀ e ∈ levels.flatMap fun l => l.asLevel.edgesOf outgoing node, ∀ x, e.edgeId = some x → floor ≤ x := by
  -- an edge that a node lists in either direction has an id of the band
  have hband : ∀ l ∈ levels, ∀ e ∈ l.asLevel.edgesOf outgoing node, ∀ x, e.edgeId = some x →
      l.asLevel.edgeSyntheticBase ≤ x ∧ x < l.edgeTop := by
    intro l hl e he x hx
    cases outgoing with
    | true => exact (h.numbered hl).listed node e he x hx
    | false =>
      have hmem := (DeltaEdge.mem_iff_seenFrom ((hm l hl).ends e.other node) (e := e.seenFrom node) rfl).mpr he
      exact (h.numbered hl).listed e.other _ hmem x hx
  constructor
  case right =>
    intro e he x hx
    obtain ⟨l, hl, he⟩ := mem_flatMap.mp he
    exact (h.floor_le_base hl).trans (hband l hl e he x hx).1
  case left =>
    induction levels with
    | nil => exact nodup_nil
    | cons l older ih =>
      obtain ⟨hml, hmolder⟩ := forall_mem_cons.mp hm
      rw [flatMap_cons, filterMap_append]
      refine (hml.once outgoing node).append (ih h.2.2 hmolder fun l hl => hband l (.tail _ hl)) ?_
      intro x hx hx'
      obtain ⟨e, he, hex⟩ := mem_filterMap.mp hx
      obtain ⟨e', he', hex'⟩ := mem_filterMap.mp hx'
      obtain ⟨l', hl', he'⟩ := mem_flatMap.mp he'
      have hge := (hband l (.head _) e he x hex).1
      have hlt := (hband l' (.tail _ hl') e' he' x hex').2
      have htop := h.2.2.top_le h.2.1 hl'
      omega

namespace DeltaSnapshot

variable {s : DeltaSnapshot} {node : Nat} {outgoing : Bool}

/-- The edges of a node in one direction. -/
def edgesOf (s : DeltaSnapshot) (outgoing : Bool) (node : Nat) : List DeltaEdge :=
  s.mergeEdges (·.edgesOf outgoing node)

theorem mem_adjacency {a : DeltaAdj} : a ∈ s.adjacency node outgoing ↔
    ∃ e ∈ s.edgesOf outgoing node, a = ⟨e.reltype, e.other, e.edgeId, e.tombstoned⟩ := by
  cases outgoing <;> simp [adjacency, edgesOf, outEdges, inEdges, Level.edgesOf, eq_comm]

/-- The delta lists an edge at both of its ends. -/
theorem mem_adjacency_mirror (hs : ∀ l ∈ s.levels, l.Mirrored) (n w : Nat) (rt : String) (id : Option Nat)
    (tombstoned : Bool) :
    ⟨rt, w, id, tombstoned⟩ ∈ s.adjacency n true ↔ ⟨rt, n, id, tombstoned⟩ ∈ s.adjacency w false := by
  have hends := mirrored hs n w
  simp only [mem_adjacency, DeltaAdj.mk.injEq]
  constructor
  · rintro ⟨e, he, rfl, hw, rfl, rfl⟩
    exact ⟨e.seenFrom n, (DeltaEdge.mem_iff_seenFrom hends hw.symm).mp he, rfl, rfl, rfl, rfl⟩
  · rintro ⟨e, he, rfl, rfl, rfl, rfl⟩
    exact ⟨e.seenFrom w, (DeltaEdge.mem_iff_seenFrom hends rfl).mpr he, rfl, rfl, rfl, rfl⟩

end DeltaSnapshot

namespace Memtable

variable {m : Memtable} {label : String} {d : Nat}

theorem Coherent.mem_bornIdsWithLabel (hm : m.Coherent) : d ∈ m.bornIdsWithLabel label ↔
    ∃ id, m.bornSyntheticForIdentity id = some d ∧ id.label = label := by
  simp only [bornIdsWithLabel, bornEntries, List.mem_map, mem_filter, mem_filterMap, bind_eq_some_iff,
    map_eq_some_iff]
  constructor
  · rintro ⟨-, ⟨⟨id, -, entry, hentry, dense, hdense, rfl⟩, hlabel⟩, rfl⟩
    exact ⟨id, bind_eq_some_iff.mpr ⟨entry, hentry, hdense⟩, beq_iff_eq.mp hlabel⟩
  · rintro ⟨id, hd, rfl⟩
    obtain ⟨entry, hentry, hdense⟩ := bind_eq_some_iff.mp hd
    have hborn : id ∈ m.born := by
      rw [hm.born, entryOf, hentry, getD_some, hdense]
      rfl
    exact ⟨(id, d, entry.delta), ⟨⟨id, hborn, entry, hentry, d, hdense, rfl⟩, beq_self_eq_true _⟩, rfl⟩

theorem mem_idsWithAddedLabel {δ : NodeDelta} (hδ : m.nodePatch d = some δ) (hlabel : label ∈ δ.labelsAdded) :
    d ∈ m.level.idsWithAddedLabel label := by
  obtain ⟨id, hid, -⟩ := bind_eq_some_iff.mp hδ
  exact Finset.mem_filter.mpr ⟨(mem_keys_iff _ d).mpr ⟨id, hid⟩, by simp [hδ, hlabel]⟩

/-- Without label changes in a level, no delta of it changes labels. -/
theorem labels_of_no_overlay (h : m.level.hasLabelOverlay = false) {δ : NodeDelta} (hδ : m.nodePatch d = some δ) :
    δ.labelsAdded = ∅ ∧ δ.labelsRemoved = ∅ := by
  obtain ⟨id, -, hid⟩ := bind_eq_some_iff.mp hδ
  obtain ⟨entry, hentry, rfl⟩ := map_eq_some_iff.mp hid
  by_contra hne
  refine of_decide_eq_false h ⟨id, (mem_keys_iff _ id).mpr ⟨entry, hentry⟩, ?_⟩
  rw [hentry, any_some]
  simpa [or_iff_not_imp_left] using hne

/-- A level that counts no born edge of a type lists none. -/
theorem edgeId_of_count {reltype : String} (h : m.level.bornEdgeCountWithReltype reltype = 0) {outgoing : Bool}
    {node : Nat} {e : DeltaEdge} (he : e ∈ m.level.edgesOf outgoing node) (hreltype : e.reltype = reltype) : e.edgeId = none := by
  have hlisted : ∃ id entry, m.edges.lookup id = some entry ∧ deltaEdge outgoing id entry = e := by
    have hmem : e ∈ (m.adjacent outgoing node).filterMap fun id => (m.edges.lookup id).map (deltaEdge outgoing id) := by
      cases outgoing <;> exact he
    obtain ⟨id, -, hid⟩ := mem_filterMap.mp hmem
    obtain ⟨entry, hentry, heq⟩ := map_eq_some_iff.mp hid
    exact ⟨id, entry, hentry, heq⟩
  obtain ⟨id, entry, hentry, rfl⟩ := hlisted
  by_contra hborn
  have hcounted : id ∈ m.bornEdgeIds.filter (·.reltype = reltype) := by
    refine Finset.mem_filter.mpr ⟨Finset.mem_filter.mpr ⟨(mem_keys_iff _ id).mpr ⟨entry, hentry⟩, ?_⟩, hreltype⟩
    rw [hentry, any_some]
    exact isSome_iff_ne_none.mpr hborn
  exact absurd (Finset.card_eq_zero.mp h) (Finset.ne_empty_of_mem hcounted)

end Memtable

namespace DeltaState.Sound

variable {core : NodeIdentity → Option Nat} {coreEdge : EdgeIdentity → Option Nat} {nodeFloor edgeFloor : Nat}
  {st : DeltaState} {label : String} {d : Nat}

theorem mem_snapshot_levels {l : Level} : l ∈ st.snapshot.levels ↔ ∃ m ∈ st.levels, m.level = l := by
  rw [show st.snapshot.levels = st.levels.map Memtable.level from rfl, List.mem_map]

theorem nodePatch_snapshot (st : DeltaState) (d : Nat) : st.snapshot.nodePatch d = nodeFold st.levels d :=
  snapshotOf_nodePatch st.mem st.l0 d

/-- A label that the delta adds is added by one of its levels. -/
theorem mem_addedLabel {δ : NodeDelta} (hδ : st.snapshot.nodePatch d = some δ) (hlabel : label ∈ δ.labelsAdded) :
    d ∈ st.snapshot.idsWithAddedLabel label := by
  rw [nodePatch_snapshot] at hδ
  have hlevel : ∀ l ∈ st.levels, ∀ δ, l.nodePatch d = some δ → label ∈ δ.labelsAdded →
      ∃ l ∈ st.levels, d ∈ l.level.idsWithAddedLabel label :=
    fun l hl _ hδ hlabel => ⟨l, hl, Memtable.mem_idsWithAddedLabel hδ hlabel⟩
  have hadded := foldPresent_induction (p := fun δ : NodeDelta => label ∈ δ.labelsAdded →
      ∃ l ∈ st.levels, d ∈ l.level.idsWithAddedLabel label) (fun older newer hold hnew hmem => ?_) hlevel hδ hlabel
  · obtain ⟨l, hl, hmem⟩ := hadded
    exact DeltaSnapshot.mem_union.mpr ⟨l.level, mem_snapshot_levels.mpr ⟨l, hl, rfl⟩, hmem⟩
  · -- a fold adds what one of the two adds
    cases ht : newer.tombstoned with
    | true => simp [NodeDelta.foldNewer, ht] at hmem
    | false =>
      exact ((NodeDelta.mem_foldNewer_labelsAdded older ht label).mp hmem).1.elim hold hnew

theorem labels_of_no_overlay (hover : st.snapshot.hasLabelOverlay = false) {δ : NodeDelta}
    (hδ : st.snapshot.nodePatch d = some δ) : δ.labelsAdded = ∅ ∧ δ.labelsRemoved = ∅ := by
  rw [nodePatch_snapshot] at hδ
  refine foldPresent_induction (p := fun δ : NodeDelta => δ.labelsAdded = ∅ ∧ δ.labelsRemoved = ∅)
    (fun older newer hold hnew => ?_) (fun l hl δ hδ => ?_) hδ
  · cases ht : newer.tombstoned with
    | true => simp [NodeDelta.foldNewer, ht]
    | false => cases hr : newer.replaced <;> simp [NodeDelta.foldNewer, ht, hr, hold, hnew]
  · have hlevel := any_eq_false.mp hover l.level (mem_snapshot_levels.mpr ⟨l, hl, rfl⟩)
    exact Memtable.labels_of_no_overlay (Bool.eq_false_iff.mpr hlevel) hδ

theorem idsWithAddedLabel_of_no_overlay (hover : st.snapshot.hasLabelOverlay = false) (label : String) :
    st.snapshot.idsWithAddedLabel label = ∅ := by
  refine Finset.eq_empty_iff_forall_notMem.mpr fun d hd => ?_
  obtain ⟨l, hl, hd⟩ := DeltaSnapshot.mem_union.mp hd
  obtain ⟨m, -, rfl⟩ := mem_snapshot_levels.mp hl
  obtain ⟨δ, hδ, hlabel⟩ := (any_eq_true _ _).mp (Finset.mem_filter.mp hd).2
  have hlevel := Bool.eq_false_iff.mpr (List.any_eq_false.mp hover m.level hl)
  have hmem : label ∈ δ.labelsAdded := of_decide_eq_true hlabel
  rw [(Memtable.labels_of_no_overlay hlevel hδ).1] at hmem
  exact absurd hmem (Finset.notMem_empty label)

/-- An empty delta knows nobody. -/
theorem nodeIdentity_of_empty (hempty : st.snapshot.isEmpty = true) (d : Nat) : st.snapshot.nodeIdentity d = none := by
  refine findSome?_eq_none_iff.mpr fun l hl => ?_
  obtain ⟨m, -, rfl⟩ := mem_snapshot_levels.mp hl
  have hm : m.isEmpty = true := all_eq_true.mp hempty m.level hl
  have hnodes : m.nodes = ∅ := of_decide_eq_true (Bool.and_eq_true_iff.mp hm).1
  show m.nodeIdentity d = none
  unfold Memtable.nodeIdentity
  rw [hnodes]
  cases m.byDense.lookup d <;> rfl

variable (h : st.Sound core coreEdge nodeFloor edgeFloor)
include h

/-- The born ids of a label are the ids that levels gave to keys of the label. -/
theorem mem_bornIdsWithLabel : d ∈ st.snapshot.bornIdsWithLabel label ↔
    ∃ id : NodeIdentity, BornIn st.snapshot.levels id d ∧ id.label = label := by
  simp only [DeltaSnapshot.bornIdsWithLabel, mem_flatMap, mem_reverse, BornIn]
  constructor
  · rintro ⟨l, hl, hd⟩
    obtain ⟨m, hm, rfl⟩ := mem_snapshot_levels.mp hl
    obtain ⟨id, hid, hlabel⟩ := (h.coherent_levels m hm).mem_bornIdsWithLabel.mp hd
    exact ⟨id, ⟨m.level, hl, hid⟩, hlabel⟩
  · rintro ⟨id, ⟨l, hl, hid⟩, hlabel⟩
    obtain ⟨m, hm, rfl⟩ := mem_snapshot_levels.mp hl
    exact ⟨m.level, hl, (h.coherent_levels m hm).mem_bornIdsWithLabel.mpr ⟨id, hid, hlabel⟩⟩

/-- A node past everything below the delta is known by the key it was born with. -/
theorem nodeIdentity_iff {id : NodeIdentity} (hunknown : ∀ id, core id ≠ some d) :
    st.snapshot.nodeIdentity d = some id ↔ BornIn st.snapshot.levels id d := by
  have hbands := h.nodeBands
  constructor
  · intro hid
    obtain ⟨l, hl, hread⟩ := exists_of_findSome?_eq_some hid
    exact (NodeBands.belowOf_eq_some (hbands.belowOf_of_identity hl hread)).resolve_left (hunknown id)
  · intro hborn
    -- the level that bore the node registers it, and whoever registers it does so for its owner
    obtain ⟨l, hl, hd⟩ := hborn
    obtain ⟨newer, older, hlevels⟩ := append_of_mem hl
    have hread : l.nodeIdentity d = some id := by
      rw [hlevels] at hbands
      exact (hbands.of_append.1.born id d hd).2.2
    cases hid : st.snapshot.nodeIdentity d with
    | none =>
      have hnone := findSome?_eq_none_iff.mp hid l hl
      rw [hread] at hnone
      cases hnone
    | some id' =>
      obtain ⟨l', hl', hread'⟩ := exists_of_findSome?_eq_some hid
      rw [hbands.identity_of_born h.core_lt ⟨l, hl, hd⟩ hl' hread']

/-- The edge ids that the delta gives lie past the floor, and a node lists each once. -/
theorem adjacency_once (node : Nat) (outgoing : Bool) :
    ((st.snapshot.adjacency node outgoing).filterMap (·.edgeId)).Nodup ∧
      ∀ a ∈ st.snapshot.adjacency node outgoing, ∀ x, a.edgeId = some x → edgeFloor ≤ x := by
  have hlevels : ∀ l ∈ st.levels.map L0Level.resident, l.asLevel.Mirrored := by
    intro l hl
    obtain ⟨m, hm, rfl⟩ := List.mem_map.mp hl
    exact h.mirrored_levels m hm
  obtain ⟨hnodup, hfloor⟩ := h.edgeBands.once hlevels outgoing node
  rw [flatMap_map] at hnodup hfloor
  have hsub : (st.snapshot.edgesOf outgoing node).Sublist
      (st.levels.flatMap fun m => m.level.edgesOf outgoing node) := by
    have hmerge := DeltaSnapshot.mergeEdges_sublist (s := st.snapshot) (·.edgesOf outgoing node)
    rwa [show st.snapshot.levels = st.levels.map Memtable.level from rfl, flatMap_map] at hmerge
  have hids : (st.snapshot.adjacency node outgoing).filterMap (·.edgeId) =
      (st.snapshot.edgesOf outgoing node).filterMap (·.edgeId) := by
    cases outgoing <;> exact filterMap_map ..
  refine ⟨hids ▸ hnodup.sublist (hsub.filterMap _), fun a ha x hx => ?_⟩
  obtain ⟨e, he, rfl⟩ := DeltaSnapshot.mem_adjacency.mp ha
  exact hfloor e (hsub.mem he) x hx

end DeltaState.Sound

/-! ## What lies below a delta -/

/-- **A base for a delta**: a generation with its segments, whose view is the view of a graph.
Its ids end at `nodeCount` and at `edgeTotal`, and a business key resolves to a node that the
generation or a segment holds. The view below the delta is a `ScanView`; the other fields keep
the ids of the delta off those of the base. -/
structure GraphBase where
  generation : Generation
  graph : ScanView
  graph_eq : graph.toView = generation.core
  edgeTotal : Nat
  edges_lt : ∀ n outgoing, ∀ a ∈ generation.core.storedAdj n outgoing, a.edge < edgeTotal
  removals_lt : ∀ seg ∈ generation.core.segments, ∀ n outgoing, ∀ x ∈ seg n outgoing, x.removed → x.edgeId < edgeTotal
  nodes_le : generation.core.coreNodeCount ≤ generation.core.nodeCount
  rows_lt : ∀ id, (generation.core.stackRow id).isSome → id < generation.core.nodeCount
  unique_held : ∀ id d, generation.uniqueNode id = some d →
    d < generation.core.coreNodeCount ∨ (generation.core.stackRow d).isSome

namespace GraphBase

variable (b : GraphBase)

/-- A delta that a writer may hold over the base. -/
def Holds (st : DeltaState) : Prop :=
  st.Sound b.generation.uniqueNode b.generation.patchedEdge b.generation.core.nodeCount b.edgeTotal

/-- A writer that starts over the base and runs resolved steps holds such a delta. -/
theorem holds_run {steps : List DeltaStep}
    (hsteps : (DeltaState.start b.generation.core.nodeCount b.edgeTotal).RunResolved b.generation.uniqueNode
      b.generation.patchedEdge steps) :
    b.Holds ((DeltaState.start b.generation.core.nodeCount b.edgeTotal).run steps) := by
  refine (DeltaState.sound_start (fun id d hd => ?_) _).run hsteps
  exact (b.unique_held id d hd).elim (fun hlt => Nat.lt_of_lt_of_le hlt b.nodes_le) (b.rows_lt d)

variable {b} {st : DeltaState}

theorem deltaBorn_merged (h : b.Holds st) (n : Nat) (outgoing : Bool) :
    (((b.generation.merged st.snapshot).deltaBorn n outgoing).map (·.edge)).Nodup ∧
      ∀ a ∈ (b.generation.merged st.snapshot).deltaBorn n outgoing, b.edgeTotal ≤ a.edge := by
  obtain ⟨hnodup, hfloor⟩ := h.adjacency_once n outgoing
  constructor
  · unfold View.deltaBorn
    cases (b.generation.merged st.snapshot).deltaEmpty with
    | true => exact nodup_nil
    | false =>
      -- the live entries of a known type, by their ids
      have hids : ((st.snapshot.adjacency n outgoing).filterMap fun e => bif e.tombstoned then none
            else e.edgeId.bind fun id => (b.generation.core.reltypeId e.reltype).map fun rt =>
              (⟨rt, e.other, id⟩ : Adj)).map (·.edge) =
          ((st.snapshot.adjacency n outgoing).filter fun e =>
            !e.tombstoned && (b.generation.core.reltypeId e.reltype).isSome).filterMap (·.edgeId) := by
        rw [map_filterMap, filterMap_filter]
        refine filterMap_congr fun e _ => ?_
        cases e.tombstoned <;> cases e.edgeId <;> cases b.generation.core.reltypeId e.reltype <;> rfl
      exact hids ▸ hnodup.sublist (filter_sublist.filterMap _)
  · intro a ha
    obtain ⟨-, name, -, hmem⟩ := mem_deltaBorn.mp ha
    exact hfloor _ hmem a.edge rfl

/-- What is stored under a delta: what is stored below it, and the edges that the delta
bears. -/
theorem storedAdj_merged (b : GraphBase) (s : DeltaSnapshot) (n : Nat) (outgoing : Bool) :
    (b.generation.merged s).storedAdj n outgoing =
      b.generation.core.storedAdj n outgoing ++ (b.generation.merged s).deltaBorn n outgoing := by
  have hempty : b.generation.core.deltaBorn n outgoing = [] := by
    unfold View.deltaBorn
    rw [b.generation.empty, cond_true]
  have hbelow : b.generation.core.storedAdj n outgoing = b.generation.core.coreEdges n outgoing ++
      b.generation.core.segments.flatMap fun seg => b.generation.core.fragmentBorn (seg n outgoing) := by
    rw [View.storedAdj, hempty, append_nil]
  rw [hbelow]
  rfl

/-- **A delta over a base is a view of a graph.** -/
def graphView (b : GraphBase) (st : DeltaState) (h : b.Holds st) : GraphView where
  toView := b.generation.merged st.snapshot
  core_mirror := by
    have hcore := b.graph.core_mirror
    rw [b.graph_eq] at hcore
    exact hcore
  segments_mirror := by
    have hsegments := b.graph.segments_mirror
    rw [b.graph_eq] at hsegments
    exact hsegments
  delta_mirror n w rt e tombstoned := by
    refine DeltaSnapshot.mem_adjacency_mirror (fun l hl => ?_) n w rt e tombstoned
    obtain ⟨m, hm, rfl⟩ := DeltaState.Sound.mem_snapshot_levels.mp hl
    exact h.mirrored_levels m hm
  removal_names seg hseg n outgoing x hx hrem a ha hedge := by
    rw [b.storedAdj_merged, mem_append] at ha
    rcases ha with ha | ha
    · have hnames := b.graph.removal_names
      rw [b.graph_eq] at hnames
      exact hnames seg hseg n outgoing x hx hrem a ha hedge
    · -- an edge of the delta has an id that no removal names
      have hge := (deltaBorn_merged h n outgoing).2 a ha
      have hlt := b.removals_lt seg hseg n outgoing x hx hrem
      omega
  stored_once n outgoing := by
    have hstored := b.graph.stored_once n outgoing
    rw [b.graph_eq] at hstored
    obtain ⟨hborn, hge⟩ := deltaBorn_merged h n outgoing
    rw [b.storedAdj_merged, map_append]
    refine hstored.append hborn fun x hx hx' => ?_
    obtain ⟨a, ha, rfl⟩ := List.mem_map.mp hx
    obtain ⟨a', ha', heq⟩ := List.mem_map.mp hx'
    have hlow := b.edges_lt n outgoing a ha
    have hhigh := hge a' ha'
    omega

/-- **A delta over a base is scanned right**: its view is that of `MergedView::new`. So the laws
of matching, planning and selecting paths apply to what a server reads under such a delta. -/
def scanView (b : GraphBase) (st : DeltaState) (h : b.Holds st) : ScanView where
  toGraphView := b.graphView st h
  label_names := by
    have hnames := b.graph.label_names
    rw [b.graph_eq] at hnames
    exact hnames
  core_labels_named := by
    have hnamed := b.graph.core_labels_named
    rw [b.graph_eq] at hnamed
    exact hnamed
  stack_ids := by
    have hids := b.graph.stack_ids
    rw [b.graph_eq] at hids
    exact hids
  stack_segments := by
    have hsegments := b.graph.stack_segments
    rw [b.graph_eq] at hsegments
    exact hsegments
  untouched := by
    have huntouched := b.graph.untouched
    rw [b.graph_eq] at huntouched
    exact huntouched
  identity_empty hempty id := by
    show (st.snapshot.nodeIdentity id).map (·.label) = none
    rw [DeltaState.Sound.nodeIdentity_of_empty hempty id]
    rfl
  born_labels _ id label := by
    show id ∈ st.snapshot.bornIdsWithLabel label ↔ b.generation.core.coreNodeCount ≤ id ∧
      b.generation.core.stackRow id = none ∧ (st.snapshot.nodeIdentity id).map (·.label) = some label
    rw [h.mem_bornIdsWithLabel, map_eq_some_iff]
    -- a born id lies past the base, and no key resolves to an id past the base that no segment holds
    have hunknown : b.generation.core.coreNodeCount ≤ id → b.generation.core.stackRow id = none →
        ∀ key, b.generation.uniqueNode key ≠ some id := by
      intro hge hrow key hkey
      rcases b.unique_held key id hkey with hlt | hsome
      · exact Nat.not_lt.mpr hge hlt
      · rw [hrow] at hsome
        cases hsome
    constructor
    · rintro ⟨key, hborn, hlabel⟩
      have hfloor : b.generation.core.nodeCount ≤ id := h.nodeBands.floor_le_of_born hborn
      have hge := b.nodes_le.trans hfloor
      have hrow : b.generation.core.stackRow id = none := by
        rw [← not_isSome_iff_eq_none]
        exact fun hsome => Nat.not_lt.mpr hfloor (b.rows_lt id hsome)
      exact ⟨hge, hrow, key, (h.nodeIdentity_iff (hunknown hge hrow)).mpr hborn, hlabel⟩
    · rintro ⟨hge, hrow, key, hkey, hlabel⟩
      exact ⟨key, (h.nodeIdentity_iff (hunknown hge hrow)).mp hkey, hlabel⟩
  added_labels _ id removed added hlabels label hlabel := by
    obtain ⟨δ, hδ, heq⟩ := map_eq_some_iff.mp hlabels
    cases heq
    exact mem_ascending.mpr (DeltaState.Sound.mem_addedLabel hδ (mem_ascending.mp hlabel))
  no_overlay hover := by
    constructor
    · intro label
      show ascending (st.snapshot.idsWithAddedLabel label) = []
      rw [DeltaState.Sound.idsWithAddedLabel_of_no_overlay hover label]
      rfl
    · intro id removed added hlabels
      obtain ⟨δ, hδ, heq⟩ := map_eq_some_iff.mp hlabels
      cases heq
      obtain ⟨hadded, hremoved⟩ := DeltaState.Sound.labels_of_no_overlay hover hδ
      rw [hadded, hremoved]
      exact ⟨rfl, rfl⟩
  reltype_names := by
    have hnames := b.graph.reltype_names
    rw [b.graph_eq] at hnames
    exact hnames
  posted := by
    have hposted := b.graph.posted
    rw [b.graph_eq] at hposted
    exact hposted
  born_edges name hzero node outgoing e he hreltype hid := by
    obtain ⟨edge, hedge, rfl⟩ := DeltaSnapshot.mem_adjacency.mp he
    obtain ⟨l, hl, hread⟩ := DeltaSnapshot.mem_mergeEdges hedge
    obtain ⟨m, -, rfl⟩ := DeltaState.Sound.mem_snapshot_levels.mp hl
    have hcount : m.level.bornEdgeCountWithReltype name = 0 :=
      sum_eq_zero_iff.mp hzero _ (List.mem_map_of_mem hl)
    have hnone : edge.edgeId = none := Memtable.edgeId_of_count hcount hread hreltype
    rw [hnone] at hid
    cases hid

end GraphBase

/-! ## Bases -/

/-- A generation as the builder wrote it. -/
def CoreGraph.base (g : CoreGraph) (hnames : g.labels.Nodup)
    (hlabels : ∀ n ∈ g.nodes, ∀ l ∈ n.labels, l < g.labels.length) : GraphBase where
  generation := g.generation
  graph := g.scanView hnames hlabels
  graph_eq := rfl
  edgeTotal := g.edges.length
  edges_lt n outgoing a ha := by
    rw [show g.generation.core = g.view from rfl, g.storedAdj_view] at ha
    obtain ⟨e, he, -⟩ := g.mem_adj.mp ha
    exact (List.getElem?_eq_some_iff.mp he).1
  removals_lt _ hseg := absurd hseg not_mem_nil
  nodes_le := Nat.le_refl _
  rows_lt _ hrow := absurd hrow Bool.false_ne_true
  unique_held _ _ hd := .inl (g.uniqueNode_lt hd)

/-- A generation under segments, whose properties and keys are read as `gen` says. -/
def SegmentStack.graphBase (s : SegmentStack) (gen : Generation) (hcore : gen.core = s.view)
    (hunique : ∀ id d, gen.uniqueNode id = some d → d < s.base.nodes.length ∨ (resolveNodeRow s.segments d).isSome) :
    GraphBase where
  generation := gen
  graph := s.scanView
  graph_eq := hcore.symm
  edgeTotal := s.edgeTotal
  edges_lt n outgoing a ha := by
    rw [hcore] at ha
    rcases s.mem_storedAdj.mp ha with hadj | ⟨seg, hseg, hborn⟩
    · obtain ⟨e, he, -⟩ := s.base.mem_adj.mp hadj
      exact Nat.lt_of_lt_of_le (List.getElem?_eq_some_iff.mp he).1 s.edges_le
    · obtain ⟨e, he, -, -, -, hid⟩ := s.exists_edge_of_born hborn
      exact hid ▸ s.ids_lt seg hseg e he
  removals_lt frag hfrag n outgoing x hx _ := by
    rw [hcore] at hfrag
    obtain ⟨seg, hseg, rfl⟩ := List.mem_map.mp hfrag
    obtain ⟨e, he, -, rfl⟩ := UpperSegment.mem_fragment.mp hx
    exact s.ids_lt seg hseg e he
  nodes_le := by
    rw [hcore]
    exact s.nodes_le
  rows_lt id hrow := by
    rw [hcore] at hrow ⊢
    obtain ⟨row, hrow⟩ := isSome_iff_exists.mp hrow
    obtain ⟨seg, hseg, hlookup⟩ := exists_of_findSome?_eq_some hrow
    obtain ⟨pre, post, hrows, -⟩ := List.lookup_eq_some_iff.mp hlookup
    exact s.rows_lt seg (mem_reverse.mp hseg) (id, row) (hrows ▸ mem_append_right pre (.head post))
  unique_held id d hd := by
    rw [hcore]
    exact hunique id d hd

/-! ## No half edges -/

namespace GraphBase

/-- Two nodes and a relationship between them, flushed. -/
def flushedPair : List DeltaStep :=
  let person (name : String) : NodeIdentity := ⟨"Person", "name", .str name⟩
  [.write (.node (person "ann") (.upsert []) none), .write (.node (person "bob") (.upsert []) none),
    .write (.upsertEdge ⟨person "ann", "KNOWS", person "bob", none⟩ false [] none none none), .flush]

end GraphBase

end Slater
