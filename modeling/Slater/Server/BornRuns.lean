import Slater.Lib.Machine
import Slater.Server.UniqueKeys
import Slater.Server.WriterIds

/-!
# Born ids along a run

A run of one graph: statements write to the delta, the delta is flushed and compacted, it is folded into a
segment over the served core or into a rebuilt generation, segments are merged, and the process restarts. The
nodes and edges that are born in the delta get ids of their own along the way (`bornApart_of_restartable`),
provided that no restart opens an empty stack of levels over a core that carries segments.

That proviso is needed. `enable_writable_layer` opens the writer with the counts of the base generation, while
`flush_graph_to_segment` retired it to the totals of the whole stack: after a restart a new node gets the id of
one that the segment holds (`born_id_in_segment_band`).

What a fold publishes is an input of the run. The operations of a call stand as one step from its freeze on;
`Slater.Server.Registry` has them one by one. A call that fails in its retire leaves the writer unbound, and
nothing is written or overlaid until a restart, which reads the same log and fails as well; the run ends there.
So does it at a level that does not read back.

**What it does not establish.** The proviso is sufficient: a restart over an empty stack of levels does no harm if
nothing is born after it. What the segments of a fold hold is not compared with the delta.
-/

namespace Slater

open Map List Option

/-! ## Served cores -/

/-- A served core: a generation with its segments, and one past the last edge id of the stack.
The counts of the base do not exceed the totals of the stack, and keys resolve to ids of the
stack. -/
structure CoreStack where
  generation : Generation
  uuid : GenId
  edgeTotal : Nat
  nodes_le : generation.core.coreNodeCount ≤ generation.core.nodeCount
  edges_le : generation.coreEdgeCount ≤ edgeTotal
  unique_lt : ∀ id d, generation.uniqueNode id = some d → d < generation.core.nodeCount

namespace CoreStack

variable (core : CoreStack)

/-- `node_count` and `edge_count`: of the base alone. -/
def nodeCount : Nat := core.generation.core.coreNodeCount

def edgeCount : Nat := core.generation.coreEdgeCount

/-- `stack().extents().nodes.total()`. -/
def nodeTotal : Nat := core.generation.core.nodeCount

/-- No segment band lies over the base. -/
def Bare : Prop := core.nodeTotal = core.nodeCount ∧ core.edgeTotal = core.edgeCount
deriving Decidable

end CoreStack

variable {id : NodeIdentity} {d : Nat}

/-- A key resolves to an id that an index holds. -/
theorem Generation.mem_lookupEq_of_uniqueNode {gen : Generation}
    (h : gen.uniqueNode id = some d) : ∃ index ∈ gen.core.rangeIndexes, d ∈ index.lookupEq id.value := by
  have hunique : gen.resolveBusinessKey id = .unique d := by
    unfold uniqueNode at h
    split at h
    next dense hkey =>
      cases h
      exact hkey
    next => cases h
  unfold resolveBusinessKey at hunique
  split at hunique
  next => cases hunique
  next index hindex =>
    refine ⟨index, mem_of_find?_eq_some hindex, ?_⟩
    simp only at hunique
    split at hunique
    next => cases hunique
    next _ hids =>
      cases hunique
      have hmem : d ∈ bif gen.core.singleton then index.lookupEq id.value
          else (index.lookupEq id.value).dedup := hids ▸ mem_singleton_self d
      cases hsingle : gen.core.singleton with
      | true =>
        rw [hsingle] at hmem
        exact hmem
      | false =>
        rw [hsingle] at hmem
        exact mem_dedup.mp hmem
    next => cases hunique

theorem CoreGraph.uniqueNode_lt {g : CoreGraph} (h : g.generation.uniqueNode id = some d) : d < g.nodes.length := by
  obtain ⟨index, hindex, hd⟩ := Generation.mem_lookupEq_of_uniqueNode h
  obtain ⟨spec, -, rfl⟩ := mem_map.mp hindex
  obtain ⟨e, he, rfl⟩ := mem_map.mp hd
  obtain ⟨-, hvalue⟩ := g.mem_rangeEntries.mp (mem_filter.mp he).1
  by_contra hge
  rw [nodeValue, getElem?_eq_none (Nat.not_lt.mp hge)] at hvalue
  cases hvalue

/-- A generation as the builder made it. -/
def CoreGraph.stack (g : CoreGraph) (uuid : GenId) : CoreStack where
  generation := g.generation
  uuid
  edgeTotal := g.edges.length
  nodes_le := le_rfl
  edges_le := le_rfl
  unique_lt := fun _ _ => g.uniqueNode_lt

/-! ## The machine -/

/-- One graph: what is served, its writer, and the frozen delta of the call in progress. A
frozen delta is held from the freeze to the end of the call that made it. -/
structure GraphState where
  core : CoreStack
  writer : DeltaWriter
  frozen : Option DeltaWriter.Frozen := none

/-- What happens to a graph. A fold hands over the core it publishes, whatever it holds, as long
as its counts are in order. -/
inductive GraphAction where
  /-- A statement hands its operations to the writer. -/
  | write (ops : List ResolvedOp)
  | flushL0 (choices : Choices)
  | compactL0 (sizes : List Nat) (choices : Choices)
  /-- `flush_graph_to_segment` or `consolidate_graph` claims the graph and freezes its delta. -/
  | freeze (choices : Choices)
  /-- The rest of `flush_graph_to_segment`: one more segment over the same base. -/
  | publishSegment (core : CoreStack)
  /-- The rest of `consolidate_graph`: a rebuilt base. -/
  | publishGeneration (core : CoreStack)
  /-- The call returns without publishing. -/
  | abandon
  /-- `compact_graph_segments`. -/
  | compactSegments (core : CoreStack)
  /-- The process stops; `open_all` and `enable_writable_layer` open the graph again. -/
  | restart (offHeap cache : Bool) (load : Nat → List EdgeIdentity)

namespace GraphState

variable (st : GraphState) {w w' : DeltaWriter}

/-- What a statement resolves keys against below the active memtable. -/
def below : NodeIdentity → Option Nat := belowOf st.core.generation.uniqueNode st.writer.sealedLevels

/-- Retire the frozen delta to a core that starts new ids from the counts. -/
def retire (core : CoreStack) (nodeCount edgeCount : Nat) : Option GraphState := do
  let frozen ← st.frozen
  let writer ← (st.writer.retire frozen core.uuid nodeCount edgeCount core.generation.resolveOp).toOption
  pure { core, writer := writer.endConsolidation }

/-- One step. -/
def step : GraphAction → Option GraphState
  | .write ops =>
    if ∀ op ∈ ops, op.ResolvedBy st.below st.core.generation.patchedEdge st.writer.mem then
      some { st with writer := st.writer.writeBatch ops }
    else none
  | .flushL0 choices => (st.writer.flushToL0 choices).toOption.map fun r => { st with writer := r.1 }
  | .compactL0 sizes choices =>
    (st.writer.compactL0 sizes choices).toOption.map fun r => { st with writer := r.1 }
  | .freeze choices => st.writer.beginConsolidation.map fun w =>
      let (writer, frozen) := w.freeze choices
      { st with writer, frozen := some frozen }
  | .publishSegment core =>
    -- the band of the segment lies over the stack, the base stays
    if core.nodeCount = st.core.nodeCount ∧ core.edgeCount = st.core.edgeCount ∧
        st.core.nodeTotal ≤ core.nodeTotal ∧ st.core.edgeTotal ≤ core.edgeTotal then
      st.retire core core.nodeTotal core.edgeTotal
    else none
  | .publishGeneration core => if core.Bare then st.retire core core.nodeCount core.edgeCount else none
  | .abandon => some { st with writer := st.writer.endConsolidation, frozen := none }
  | .compactSegments core =>
    -- the bands of the run become one band
    if core.nodeCount = st.core.nodeCount ∧ core.edgeCount = st.core.edgeCount ∧
        core.nodeTotal = st.core.nodeTotal ∧ core.edgeTotal = st.core.edgeTotal then
      st.writer.beginConsolidation.map fun w =>
        { st with core, writer := (w.rebindCoreUuid core.uuid).endConsolidation }
    else none
  | .restart offHeap cache load =>
    (DeltaWriter.openWithCache st.writer.dir st.core.uuid st.core.nodeCount st.core.edgeCount offHeap cache
      st.core.generation.resolveOp load).toOption.map fun writer => { core := st.core, writer }

/-- A graph is served for the first time: nothing is in its directory. The writer is opened over
the counts of the base. -/
def boot (core : CoreStack) (offHeap cache : Bool) : GraphState where
  core
  writer :=
    { dir := WriterDir.perform {} (.createWal 0), sink := 0
      mem := .withBases core.nodeCount core.edgeCount, l0 := [], seq := 0, offHeap, cache
      coreUuid := core.uuid }

/-! ### What is asked of a step -/

/-- The choices of a step are possible ones: numbers fit into the fields they are written to,
hash orders list every entry once, and merging segments does not change what keys resolve to. -/
def Faithful (st : GraphState) : GraphAction → Prop
  | .flushL0 choices => st.writer.offHeap = true → st.writer.mem.toSegmentData.Fits choices.scope
  | .compactL0 sizes choices =>
    DeltaWriter.CompactionFits choices ((st.writer.compactionRun sizes).map Prod.snd)
  | .compactSegments core => core.generation.uniqueNode = st.core.generation.uniqueNode ∧
      core.generation.patchedEdge = st.core.generation.patchedEdge
  | _ => True

/-- A restart finds a sealed level, or a core without segments. Only a restart is asked for
anything. -/
def Restartable (st : GraphState) : GraphAction → Prop
  | .restart .. => st.writer.l0 = [] → st.core.Bare
  | _ => True

instance (act : GraphAction) : Decidable (st.Restartable act) :=
  match act with
  | .restart .. => inferInstanceAs (Decidable (_ → _))
  | .write _ | .flushL0 _ | .compactL0 .. | .freeze _ | .publishSegment _ | .publishGeneration _ | .abandon
  | .compactSegments _ => .isTrue trivial

/-- **Born ids are apart**: they lie past the served stack, and each has one owner. Nothing is
said of an id after its owner has been folded into a segment; there it is an id of the stack. -/
structure BornApart (st : GraphState) : Prop where
  node_ge : ∀ id d, BornIn st.writer.published.levels id d → st.core.nodeTotal ≤ d
  node_unique : ∀ id id' d, BornIn st.writer.published.levels id d → BornIn st.writer.published.levels id' d → id = id'
  edge_ge : ∀ node e x, EdgeBornIn st.writer.published.levels node e x → st.core.edgeTotal ≤ x
  edge_unique : ∀ node node' e e' x, EdgeBornIn st.writer.published.levels node e x →
    EdgeBornIn st.writer.published.levels node' e' x → node = node' ∧ e = e'

/-! ### The invariant -/

/-- The writer keeps its ids over floors that the stack does not reach, and a frozen delta is
the whole of the sealed levels. -/
structure Kept (st : GraphState) : Prop where
  ids : ∃ nodeFloor edgeFloor, st.core.nodeTotal ≤ nodeFloor ∧ st.core.edgeTotal ≤ edgeFloor ∧
    st.writer.IdsKept st.core.generation.uniqueNode st.core.generation.patchedEdge nodeFloor edgeFloor
  frozen : ∀ f, st.frozen = some f → f.consumedL0 = st.writer.l0.map Prod.fst ∧ st.writer.consolidating = true

variable {st st' : GraphState} {act : GraphAction} {choices : Choices} {changed : Bool}

theorem kept_boot {core : CoreStack} (hbare : core.Bare) (offHeap cache : Bool) : (boot core offHeap cache).Kept where
  ids := by
    refine ⟨core.nodeCount, core.edgeCount, Nat.le_of_eq hbare.1, Nat.le_of_eq hbare.2, ?_⟩
    refine DeltaWriter.IdsKept.reopen_empty OnDisk.empty (fun id d hd => ?_)
      (show DeltaWriter.openWithCache {} core.uuid core.nodeCount core.edgeCount offHeap cache
        core.generation.resolveOp (fun _ => []) = _ from rfl)
    exact hbare.1 ▸ core.unique_lt id d hd
  frozen := nofun

theorem beginConsolidation_eq_some (h : w.beginConsolidation = some w') :
    w.consolidating = false ∧ w' = { w with consolidating := true } := by
  obtain ⟨hfree, h⟩ := ite_none_left_eq_some.mp h
  exact ⟨Bool.eq_false_iff.mpr hfree, (some.inj h).symm⟩

theorem step_write {ops : List ResolvedOp} (h : st.step (.write ops) = some st') :
    (∀ op ∈ ops, op.ResolvedBy st.below st.core.generation.patchedEdge st.writer.mem) ∧
      st' = { st with writer := st.writer.writeBatch ops } := by
  obtain ⟨hops, h⟩ := ite_none_right_eq_some.mp h
  exact ⟨hops, (some.inj h).symm⟩

/-- A retire to a core whose stack the counts cover. -/
theorem Kept.retire (h : st.Kept) {core : CoreStack} {nodeCount edgeCount : Nat}
    (hnode : core.nodeTotal ≤ nodeCount) (hedge : core.edgeTotal ≤ edgeCount)
    (hretire : st.retire core nodeCount edgeCount = some st') : st'.Kept := by
  obtain ⟨frozen, hfrozen, hretire⟩ := bind_eq_some_iff.mp hretire
  obtain ⟨writer, hwriter, hretire⟩ := bind_eq_some_iff.mp hretire
  cases hretire
  obtain ⟨_, _, -, -, hids⟩ := h.ids
  have hkept := DeltaWriter.IdsKept.retire hids.files (h.frozen frozen hfrozen).1
    (fun id d hd => Nat.lt_of_lt_of_le (core.unique_lt id d hd) hnode) (toOption_eq_some.mp hwriter)
  exact ⟨⟨nodeCount, edgeCount, hnode, hedge, hkept.congr rfl rfl rfl⟩, nofun⟩

/-- **A step keeps the ids.** -/
theorem Kept.step (h : st.Kept) (hfaithful : st.Faithful act) (hrestart : st.Restartable act)
    (hstep : st.step act = some st') : st'.Kept := by
  obtain ⟨nodeFloor, edgeFloor, hnode, hedge, hids⟩ := h.ids
  cases act with
  | write ops =>
    obtain ⟨hops, rfl⟩ := step_write hstep
    refine ⟨⟨nodeFloor, edgeFloor, hnode, hedge, hids.writeBatch hops⟩, fun f hf => ?_⟩
    cases ops <;> exact h.frozen f hf
  | flushL0 choices =>
    obtain ⟨⟨w, changed⟩, hflush, rfl⟩ := map_eq_some_iff.mp hstep
    have hflush := toOption_eq_some.mp hflush
    refine ⟨⟨nodeFloor, edgeFloor, hnode, hedge, hids.flushToL0 hfaithful hflush⟩, fun f hf => ?_⟩
    obtain ⟨hconsumed, hclaimed⟩ := h.frozen f hf
    -- a consolidating writer is left alone
    rw [DeltaWriter.flushToL0, if_pos hclaimed] at hflush
    cases hflush
    exact ⟨hconsumed, hclaimed⟩
  | compactL0 sizes choices =>
    obtain ⟨⟨w, changed⟩, hcompact, rfl⟩ := map_eq_some_iff.mp hstep
    have hcompact := toOption_eq_some.mp hcompact
    refine ⟨⟨nodeFloor, edgeFloor, hnode, hedge, hids.compactL0 hfaithful hcompact⟩, fun f hf => ?_⟩
    obtain ⟨hconsumed, hclaimed⟩ := h.frozen f hf
    rw [DeltaWriter.compactL0, if_pos hclaimed] at hcompact
    cases hcompact
    exact ⟨hconsumed, hclaimed⟩
  | freeze choices =>
    obtain ⟨w, hw, rfl⟩ := map_eq_some_iff.mp hstep
    obtain ⟨-, rfl⟩ := beginConsolidation_eq_some hw
    refine ⟨⟨nodeFloor, edgeFloor, hnode, hedge, hids.congr rfl rfl rfl⟩, fun f hf => ?_⟩
    cases hf
    exact ⟨rfl, rfl⟩
  | publishSegment core =>
    obtain ⟨-, hstep⟩ := ite_none_right_eq_some.mp hstep
    exact h.retire le_rfl le_rfl hstep
  | publishGeneration core =>
    obtain ⟨hbare, hstep⟩ := ite_none_right_eq_some.mp hstep
    exact h.retire (Nat.le_of_eq hbare.1) (Nat.le_of_eq hbare.2) hstep
  | abandon =>
    cases hstep
    exact ⟨⟨nodeFloor, edgeFloor, hnode, hedge, hids.congr rfl rfl rfl⟩, nofun⟩
  | compactSegments core =>
    obtain ⟨hsame, hstep⟩ := ite_none_right_eq_some.mp hstep
    obtain ⟨w, hw, rfl⟩ := map_eq_some_iff.mp hstep
    obtain ⟨hfree, rfl⟩ := beginConsolidation_eq_some hw
    refine ⟨⟨nodeFloor, edgeFloor, hsame.2.2.1 ▸ hnode, hsame.2.2.2 ▸ hedge, ?_⟩, fun f hf => ?_⟩
    · rw [hfaithful.1, hfaithful.2]
      exact hids.congr rfl rfl rfl
    · rw [(h.frozen f hf).2] at hfree
      cases hfree
  | restart offHeap cache load =>
    obtain ⟨w, hw, rfl⟩ := map_eq_some_iff.mp hstep
    have hopen := toOption_eq_some.mp hw
    refine ⟨?_, nofun⟩
    by_cases hl0 : st.writer.l0 = []
    · have hbare := hrestart hl0
      refine ⟨st.core.nodeCount, st.core.edgeCount, Nat.le_of_eq hbare.1, Nat.le_of_eq hbare.2, ?_⟩
      refine DeltaWriter.IdsKept.reopen_empty (hl0 ▸ hids.files) (fun id d hd => ?_) hopen
      exact hbare.1 ▸ st.core.unique_lt id d hd
    · exact ⟨nodeFloor, edgeFloor, hnode, hedge, hids.reopen (st.core.nodes_le.trans hnode)
        (st.core.edges_le.trans hedge) (absurd · hl0) hopen⟩

/-- The active memtable is the newest band. -/
theorem Kept.bornApart (h : st.Kept) : st.BornApart := by
  obtain ⟨nodeFloor, edgeFloor, hnode, hedge, hids⟩ := h.ids
  have hnodes : NodeBands st.core.generation.uniqueNode nodeFloor st.writer.published.levels :=
    ⟨hids.active.nodes.level hids.active.coherent, hids.nodeBase, hids.nodes⟩
  have hedges : EdgeBands edgeFloor (.resident st.writer.mem :: st.writer.levels) :=
    ⟨hids.active.edges.level, hids.edgeBase, hids.edges⟩
  constructor
  case node_ge => exact fun id d hd => hnode.trans (hnodes.floor_le_of_born hd)
  case node_unique => exact fun id id' d hd hd' => hnodes.born_unique hd hd'
  case edge_ge =>
    intro node e x hborn
    have hlisted : EdgeBornIn ((L0Level.resident st.writer.mem :: st.writer.levels).map L0Level.asLevel)
        node e x := hborn
    obtain ⟨_, hlevel, he, hx⟩ := hlisted
    obtain ⟨l, hl, rfl⟩ := mem_map.mp hlevel
    exact (hedge.trans (EdgeBands.floor_le_base hedges hl)).trans
      ((EdgeBands.numbered hedges hl).listed node e he x hx).1
  case edge_unique => exact fun node node' e e' x he he' => EdgeBands.listed_unique hedges he he'

end GraphState

/-- **Born ids never collide with the served stack**: along a run whose restarts find a sealed
level or a core without segments, every born node and edge has an id past the stack that nothing
else has. -/
theorem bornApart_of_restartable (core : CoreStack) (hbare : core.Bare) (offHeap cache : Bool)
    (acts : List GraphAction) (hfaithful : Along GraphState.step GraphState.Faithful (.boot core offHeap cache) acts)
    (hrestart : Along GraphState.step GraphState.Restartable (.boot core offHeap cache) acts)
    {st : GraphState} (hrun : runFrom GraphState.step (.boot core offHeap cache) acts = some st) : st.BornApart := by
  have hkept : st.Kept := runFrom_invariant (fun _ _ _ hst hcond hstep => hst.step hcond.1 hcond.2 hstep)
    (GraphState.kept_boot hbare offHeap cache) (hfaithful.and hrestart) hrun
  exact hkept.bornApart

/-! ## A restart over a segment -/

namespace BornRuns

/-- A graph without nodes; people are indexed by their names. -/
def noPeople : CoreGraph where
  labels := ["Person"]
  nodes := []
  edges := []
  indexes := [("people", "Person", "name")]
  ends := CoreGraph.ends_nil

/-- The graph under a segment that bears the person named `a`. -/
def onePersonFlushed : CoreStack where
  generation :=
    { noPeople.generation with
      core :=
        { noPeople.view with
          nodeCount := 1
          nodeProp := fun id key => if id = 0 ∧ key = "name" then .str "a" else .null
          nodeProps := fun id => if id = 0 then [("name", .str "a")] else []
          rangeIndexes :=
            [{ noPeople.rangeIndex ("people", "Person", "name") with
                lookupEq := fun key => if key = .str "a" then [0] else []
                lookupRange := fun lo hi => if CoreGraph.inRange lo hi (.str "a") then [0] else [] }]
          segments := [fun _ _ => []]
          stackRow := fun id => if id = 0 then some { labels := ["Person"] } else none
          stackIds := [0]
          membershipTouches := (· == "Person") }
      empty := rfl
      nodeRow := fun id => if id = 0 then Finmap.singleton "name" (.str "a") else ∅ }
  uuid := 1
  edgeTotal := 0
  nodes_le := Nat.zero_le 1
  edges_le := Nat.le_refl 0
  unique_lt := by
    intro id d hd
    obtain ⟨index, hindex, hd⟩ := Generation.mem_lookupEq_of_uniqueNode hd
    rw [mem_singleton.mp hindex] at hd
    have hzero : d ∈ if id.value = .str "a" then [0] else [] := hd
    split at hzero
    next =>
      rw [mem_singleton.mp hzero]
      exact Nat.zero_lt_one
    next => cases hzero

def named (name : String) : NodeIdentity := ⟨"Person", "name", .str name⟩

/-- `MERGE` of a person whose name nobody has. -/
def mergeNew (name : String) : GraphAction := .write [.node (named name) (.upsert []) none]

/-- Two people are created around a flush to a sealed level and a restart. -/
def restartOverLevel : List GraphAction :=
  [mergeNew "a", .flushL0 { listing := [0] }, .restart false false fun _ => [], mergeNew "b"]

/-- Their ids are apart. -/
theorem bornApart_restartOverLevel :
    ∃ st, runFrom GraphState.step (.boot (noPeople.stack 0) false false) restartOverLevel = some st ∧
      st.BornApart := by
  have hruns : (runFrom GraphState.step (.boot (noPeople.stack 0) false false)
      restartOverLevel).isSome = true := by
    decide +kernel
  obtain ⟨st, hst⟩ := isSome_iff_exists.mp hruns
  refine ⟨st, hst, bornApart_of_restartable _ ⟨rfl, rfl⟩ false false restartOverLevel ?_ ?_ hst⟩
  · refine ⟨trivial, fun s hs => ⟨fun hoff => ?_, fun _ _ => ?_⟩⟩
    · obtain ⟨-, rfl⟩ := GraphState.step_write hs
      cases hoff
    · exact ⟨trivial, fun _ _ => ⟨trivial, fun _ _ => trivial⟩⟩
  · decide +kernel

/-- A person is created and flushed to a segment, the process restarts, and another person is
created. -/
def restartOverSegment : List GraphAction :=
  [mergeNew "a", .freeze { listing := [0] }, .publishSegment onePersonFlushed,
    .restart false false fun _ => [], mergeNew "b"]

/-- **The second person gets the id of the first.** -/
theorem born_id_in_segment_band :
    ¬ ∀ (core : CoreStack), core.Bare → ∀ (offHeap cache : Bool) (acts : List GraphAction),
      Along GraphState.step GraphState.Faithful (.boot core offHeap cache) acts →
      ∀ st, runFrom GraphState.step (.boot core offHeap cache) acts = some st → st.BornApart := by
  intro h
  have hrun : ((runFrom GraphState.step (.boot (noPeople.stack 0) false false) restartOverSegment).any
      fun st => st.writer.mem.bornSyntheticForIdentity (named "b") == some 0 &&
        st.core.nodeTotal == 1) = true := by
    decide +kernel
  obtain ⟨st, hst, hborn⟩ := (any_eq_true _ _).mp hrun
  rw [Bool.and_eq_true, beq_iff_eq, beq_iff_eq] at hborn
  have hfaithful : Along GraphState.step GraphState.Faithful (.boot (noPeople.stack 0) false false)
      restartOverSegment := by
    refine along_of_forall fun s act hact => ?_
    simp only [restartOverSegment, mem_cons, not_mem_nil, or_false] at hact
    rcases hact with rfl | rfl | rfl | rfl | rfl <;> trivial
  have hapart := h (noPeople.stack 0) ⟨rfl, rfl⟩ false false _ hfaithful st hst
  have hge := hapart.node_ge (named "b") 0 ⟨_, .head _, hborn.1⟩
  rw [hborn.2] at hge
  exact absurd hge (Nat.not_succ_le_zero 0)

end BornRuns

end Slater
