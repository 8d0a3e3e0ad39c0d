import Slater.Server.MergedBands
import Slater.Server.SegmentBands
import Slater.Server.WriterFiles

/-!
# The ids of a writer

`IdsKept` is what a writer keeps of its ids over a core: the bands of its levels lie above each other and above
the floors, the active memtable numbers on from the newest, and every level is on disk. Each operation of the
writer keeps it. Writes keep it when they are resolved as the statements resolve them (`ResolvedBy`); reopening
the directory keeps it when the counts the memtable starts from do not exceed the floors, and without sealed
levels starts from those counts alone.

That the numbers of an off-heap segment fit into the source's fields is a hypothesis of the operations that
write one, and that a resident compaction meets each folded entry once is one of those that merge.

**What it does not establish.** Ids are kept apart, not kept: a resident compaction may number an edge anew. Who
else holds an id, a reader or a client, is not part of the writer.
-/

namespace Slater

open Map List L0Level

variable {m : Memtable} {coreEdge : EdgeIdentity → Option Nat}

/-! ## Levels that give the same ids -/

namespace Level.SameIds

variable {below : NodeIdentity → Option Nat} {l l' : Level}

theorem nodesNumbered (h : l.SameIds l') (hl : l.NodesNumbered below) : l'.NodesNumbered below where
  born := by
    rw [h.born, h.nodeBase, h.nodeCount, h.identity]
    exact hl.born
  filled := by
    rw [h.born, h.nodeBase, h.nodeCount]
    exact hl.filled
  known := by
    rw [h.born, h.identity]
    exact hl.known
  unborn := by
    rw [h.born]
    exact hl.unborn

theorem edgesNumbered (h : l.SameIds l') (hl : l.EdgesNumbered) : l'.EdgesNumbered where
  listed := by
    rw [h.outEdges, h.edgeBase, h.edgeCount]
    exact hl.listed
  unique := by
    rw [h.outEdges]
    exact hl.unique

theorem nodeTop (h : l.SameIds l') : l'.syntheticBase + l'.bornCount = l.syntheticBase + l.bornCount := by
  rw [h.nodeBase, h.nodeCount]

theorem edgeTop (h : l.SameIds l') :
    l'.edgeSyntheticBase + l'.bornEdgeCount = l.edgeSyntheticBase + l.bornEdgeCount := by
  rw [h.edgeBase, h.edgeCount]

end Level.SameIds

namespace L0Level.SameIds

variable {core : NodeIdentity → Option Nat} {nodeFloor edgeFloor : Nat} {levels levels' : List L0Level}

variable (h : List.Forall₂ SameIds levels levels')
include h

theorem belowOf : Slater.belowOf core (levels'.map asLevel) = Slater.belowOf core (levels.map asLevel) := by
  funext id
  have hfind : (levels'.map asLevel).findSome? (·.bornSyntheticForIdentity id) =
      (levels.map asLevel).findSome? (·.bornSyntheticForIdentity id) := by
    induction h with
    | nil => rfl
    | cons hl _ ih =>
      rw [map_cons, map_cons, findSome?_cons, findSome?_cons, hl.ids.born, ih]
  rw [Slater.belowOf, Slater.belowOf, hfind]

theorem nodeTopOf :
    Slater.nodeTopOf nodeFloor (levels'.map asLevel) = Slater.nodeTopOf nodeFloor (levels.map asLevel) := by
  cases h with
  | nil => rfl
  | cons hl _ => exact hl.ids.nodeTop

theorem nodeBands (hbands : NodeBands core nodeFloor (levels.map asLevel)) :
    NodeBands core nodeFloor (levels'.map asLevel) := by
  induction h with
  | nil => trivial
  | cons hl hrest ih =>
    refine ⟨?_, ?_, ih hbands.2.2⟩
    · rw [belowOf hrest]
      exact hl.ids.nodesNumbered hbands.1
    · rw [nodeTopOf hrest, hl.ids.nodeBase]
      exact hbands.2.1

theorem follows {base : Nat} (hbase : EdgeFollows edgeFloor base levels) : EdgeFollows edgeFloor base levels' := by
  cases h with
  | nil => exact hbase
  | cons hl _ =>
    have htop : edgeTop _ = edgeTop _ := hl.ids.edgeTop
    exact ⟨htop.symm ▸ hbase.1, fun hoff => (hbase.2 (hl.offHeap ▸ hoff)).trans htop.symm⟩

theorem edgeBands (hbands : EdgeBands edgeFloor levels) : EdgeBands edgeFloor levels' := by
  induction h with
  | nil => trivial
  | cons hl hrest ih =>
    exact ⟨hl.ids.edgesNumbered hbands.1, hl.ids.edgeBase.symm ▸ follows hrest hbands.2.1, ih hbands.2.2⟩

end L0Level.SameIds

/-! ## What is known of a level -/

/-- A resident level is one that operations reach and numbers its edges; an off-heap level
answers from its rows. -/
def L0Level.Intact (coreEdge : EdgeIdentity → Option Nat) : L0Level → Prop
  | .resident m => m.Coherent ∧ m.EdgesNumbered coreEdge
  | .offHeap segment => segment.level.FromRows

/-- Only stored edges are collected. -/
theorem Memtable.stored_of_collectEdgeIds {order : List EdgeIdentity} {c : Nat} {id : EdgeIdentity}
    (h : (m.collectEdgeIds order).lookup c = some id) : ∃ e, m.edges.lookup id = some e := by
  rcases mem_or_lookup_of_insertAll h with hmem | hnone
  · obtain ⟨id', -, hid⟩ := mem_filterMap.mp hmem
    obtain ⟨c', hc', heq⟩ := Option.map_eq_some_iff.mp hid
    obtain ⟨e, he, -⟩ := Option.bind_eq_some_iff.mp hc'
    cases heq
    exact ⟨e, he⟩
  · cases hnone

theorem Memtable.sameIds_reloaded (m : Memtable) (order : List EdgeIdentity) :
    m.level.SameIds (m.reloaded order).level :=
  ⟨rfl, rfl, rfl, rfl, rfl, rfl, rfl⟩

/-- A coherent image is reloaded coherent. -/
theorem Memtable.Coherent.reloaded (h : m.Coherent) (order : List EdgeIdentity) : (m.reloaded order).Coherent := by
  have hlabels : m.collectLabelCounts = m.bornLabelCounts := by
    have hstored : m.born.filter (fun id => (m.nodes.lookup id).isSome) = m.born := by
      rw [filter_eq_self]
      intro id hid
      have hsome := (h.born id).mp hid
      unfold entryOf at hsome
      cases hst : m.nodes.lookup id with
      | none =>
        rw [hst] at hsome
        cases hsome
      | some e => rfl
    rw [collectLabelCounts, hstored, h.labels]
  exact { h with
    labels := hlabels.trans h.labels
    byEdgeId := fun c id hid => stored_of_collectEdgeIds hid }

/-- Another opening of an intact level's file is intact. -/
theorem L0Level.Intact.reopen {file : L0File} {l l' : L0Level}
    (h : l.Intact coreEdge) (hl : file.Opens l) (hl' : file.Opens l') : l'.Intact coreEdge := by
  rcases hl.two hl' with rfl | ⟨image, order, order', -, rfl, rfl⟩
  · exact h
  obtain ⟨hcoherent, hedges⟩ := h
  refine ⟨{ hcoherent with byEdgeId := fun c id hid => ?_ }, { hedges with }⟩
  exact Memtable.stored_of_collectEdgeIds (m := image) hid

/-- Other openings of the files of intact levels are intact. -/
theorem L0Level.intact_reopen {levels levels' : List L0Level}
    (hsame : List.Forall₂ (fun l l' => ∃ file : L0File, file.Opens l ∧ file.Opens l') levels levels')
    (h : ∀ l ∈ levels, l.Intact coreEdge) : ∀ l ∈ levels', l.Intact coreEdge := by
  induction hsame with
  | nil => exact nofun
  | cons hl _ ih =>
    obtain ⟨file, hl, hl'⟩ := hl
    rw [forall_mem_cons] at h ⊢
    exact ⟨h.1.reopen hl hl', ih h.2⟩

/-! ## Resolution at replay -/

/-- The operation with the ids that `below` and `coreEdge` find, as replay resolves it. -/
def WalOp.resolveBy (below : NodeIdentity → Option Nat) (coreEdge : EdgeIdentity → Option Nat) : WalOp → ResolvedOp
  | .node id w => .node id w (below id)
  | .upsertEdge id replace patches =>
    .upsertEdge id replace patches (below id.src) (below id.dst) (coreEdge id)
  | .deleteEdge id => .deleteEdge id (below id.src) (below id.dst)

theorem WalOp.resolvedBy_resolveBy (below : NodeIdentity → Option Nat) (coreEdge : EdgeIdentity → Option Nat)
    (m : Memtable) (op : WalOp) : (op.resolveBy below coreEdge).ResolvedBy below coreEdge m := by
  cases op with
  | node id w => exact .inl rfl
  | upsertEdge id replace patches => exact ⟨rfl, rfl, rfl⟩
  | deleteEdge id => exact ⟨rfl, rfl⟩

namespace Memtable

variable {below : NodeIdentity → Option Nat} {coreEdge : EdgeIdentity → Option Nat} {m : Memtable}

/-- **Replay resolves an operation to the same effect.** A node operation that carries the id of
a node born in the memtable finds its entry by the key, so the id it carried makes no
difference. -/
theorem Active.apply_resolveBy (h : m.Active below coreEdge) {op : ResolvedOp}
    (hop : op.ResolvedBy below coreEdge m) : m.apply (op.op.resolveBy below coreEdge) = m.apply op := by
  cases op with
  | node id w resolved =>
    rcases hop with rfl | ⟨hnone, hsome, hborn⟩
    · rfl
    · obtain ⟨d, rfl⟩ := Option.isSome_iff_exists.mp hsome
      show m.writeNode id (below id) w = m.writeNode id (some d) w
      rw [hnone, h.nodes.writeNode_born hborn.symm]
  | upsertEdge id replace patches src dst edgeId =>
    obtain ⟨rfl, rfl, rfl⟩ := hop
    rfl
  | deleteEdge id src dst =>
    obtain ⟨rfl, rfl⟩ := hop
    rfl

theorem Active.applyAll_resolveBy (h : m.Active below coreEdge) {ops : List ResolvedOp}
    (hops : ∀ op ∈ ops, op.ResolvedBy below coreEdge m) :
    m.applyAll (ops.map fun op => op.op.resolveBy below coreEdge) = m.applyAll ops := by
  induction ops generalizing m with
  | nil => rfl
  | cons op ops ih =>
    have hop := hops op (.head _)
    have hrest := ih (h.apply hop) fun op' hop' =>
      h.resolvedBy_apply hop (hops op' (mem_cons_of_mem op hop'))
    show (m.apply (op.op.resolveBy below coreEdge)).applyAll _ = (m.apply op).applyAll ops
    rw [h.apply_resolveBy hop, hrest]

end Memtable

/-! ## The writer -/

namespace DeltaWriter

/-! ### Replay -/

/-- **Replay resolves** against the core and the sealed levels. -/
theorem resolveWithL0_eq (gen : Generation) (l0 : List L0Level) (op : WalOp) : resolveWithL0 l0 (gen.resolveOp op) =
      op.resolveBy (belowOf gen.uniqueNode (l0.map asLevel)) gen.patchedEdge := by
  have hbelow : ∀ id, belowOf gen.uniqueNode (l0.map asLevel) id =
      (gen.uniqueNode id).or (bornInL0 l0 id) := by
    intro id
    rw [belowOf, findSome?_map]
    rfl
  cases op with
  | node id w =>
    rw [Generation.resolveOp, WalOp.resolveBy, hbelow]
    cases gen.uniqueNode id <;> rfl
  | upsertEdge id replace patches | deleteEdge id =>
    rw [WalOp.resolveBy, hbelow, hbelow]
    rfl

/-- Without sealed levels, against the core alone. -/
theorem resolveOp_eq (gen : Generation) (op : WalOp) :
    gen.resolveOp op = op.resolveBy (belowOf gen.uniqueNode []) gen.patchedEdge := by
  have hbelow : belowOf gen.uniqueNode [] = gen.uniqueNode := funext fun id => Option.or_none ..
  rw [hbelow]
  cases op <;> rfl

variable {coreEdge : EdgeIdentity → Option Nat}

theorem replayInto_active {below : NodeIdentity → Option Nat}
    {nodeBase : Nat} (hbelow : ∀ id d, below id = some d → d < nodeBase) {resolve : WalOp → ResolvedOp}
    (hresolve : ∀ m op, (resolve op).ResolvedBy below coreEdge m) (edgeBase : Nat) (recs : List WalRecord) :
    (replayInto (.withBases nodeBase edgeBase) resolve recs).Active below coreEdge := by
  refine (Memtable.active_withBases hbelow coreEdge edgeBase).applyAll fun op hop => ?_
  obtain ⟨rec, -, rfl⟩ := mem_map.mp hop
  exact hresolve _ _

theorem replayInto_bases (nodeBase edgeBase : Nat) (resolve : WalOp → ResolvedOp) (recs : List WalRecord) :
    (replayInto (.withBases nodeBase edgeBase) resolve recs).syntheticBase = nodeBase ∧
      (replayInto (.withBases nodeBase edgeBase) resolve recs).edgeSyntheticBase = edgeBase :=
  Memtable.applyAll_bases ..

theorem foldl_max_eq {α : Type} {f : α → Nat} {xs : List α} {b m : Nat} (hb : b ≤ m)
    (hle : ∀ x ∈ xs, f x ≤ m) (hmem : b = m ∨ ∃ x ∈ xs, f x = m) : xs.foldl (fun b x => max b (f x)) b = m := by
  induction xs generalizing b with
  | nil => exact hmem.resolve_right (by simp)
  | cons x xs ih =>
    have hx := hle x (.head _)
    refine ih (Nat.max_le.mpr ⟨hb, hx⟩) (fun y hy => hle y (.tail _ hy)) ?_
    rcases hmem with rfl | ⟨y, hy, hym⟩
    · exact .inl (Nat.max_eq_left hx)
    · rcases mem_cons.mp hy with rfl | hold
      · exact .inl (hym ▸ Nat.max_eq_right (hym ▸ hb))
      · exact .inr ⟨y, hold, hym⟩

/-! ### The invariant -/

/-- The answers of the sealed levels, newest first. -/
def sealedLevels (w : DeltaWriter) : List Level := w.levels.map asLevel

/-- What a writer keeps of its ids, over a core whose ids lie below the floors. The core is
given by what it resolves and by two floors, so the same promise serves a plain generation and
one under segments. -/
structure IdsKept (core : NodeIdentity → Option Nat) (coreEdge : EdgeIdentity → Option Nat)
    (nodeFloor edgeFloor : Nat) (w : DeltaWriter) : Prop where
  core_lt : ∀ id d, core id = some d → d < nodeFloor
  active : w.mem.Active (belowOf core w.sealedLevels) coreEdge
  nodes : NodeBands core nodeFloor w.sealedLevels
  nodeBase : w.mem.syntheticBase = nodeTopOf nodeFloor w.sealedLevels
  edges : EdgeBands edgeFloor w.levels
  edgeBase : EdgeFollows edgeFloor w.mem.edgeSyntheticBase w.levels
  intact : ∀ l ∈ w.levels, l.Intact coreEdge
  files : OnDisk w.dir.l0 w.l0

/-- The numbers of an off-heap run fit, and the orders in which a resident run is met list its
entries. -/
structure CompactionFits (choices : Choices) (run : List L0Level) : Prop where
  offHeap : ∀ segments oldest, run = segments.map .offHeap → segments.getLast? = some oldest →
    (MergeRun.data oldest segments).Fits choices.scope
  resident : ∀ mems, run = mems.map .resident →
    Enumerates choices.nodeOrder (foldedNode mems) ∧ Enumerates choices.edgeOrder (foldedEdge mems)

/-- A level stands for a run: it has the run's node ids, and its edges lie in the run's band. -/
structure TakesPlace (core : NodeIdentity → Option Nat) (coreEdge : EdgeIdentity → Option Nat)
    (nodeFloor edgeFloor : Nat) (newest : L0Level) (run older : List L0Level) (l : L0Level) : Prop where
  intact : l.Intact coreEdge
  nodes : l.asLevel.NodesNumbered (belowOf core (older.map asLevel))
  nodeBase : l.asLevel.syntheticBase = nodeTopOf nodeFloor (older.map asLevel)
  nodeTop : l.nodeTop = newest.nodeTop
  born : ∀ id, l.asLevel.bornSyntheticForIdentity id =
    ((newest :: run).map asLevel).findSome? (·.bornSyntheticForIdentity id)
  edges : l.asLevel.EdgesNumbered
  edgeBase : EdgeFollows edgeFloor l.asLevel.edgeSyntheticBase older
  edgeTop : l.edgeTop ≤ newest.edgeTop
  sealed : l.isOffHeap → newest.isOffHeap ∧ l.edgeTop = newest.edgeTop

/-- The level resolves what the run resolved. -/
theorem TakesPlace.belowOf_eq {core : NodeIdentity → Option Nat}
    {nodeFloor edgeFloor : Nat} {w w' : DeltaWriter} {above older run : List L0Level} {newest merged : L0Level}
    (h : TakesPlace core coreEdge nodeFloor edgeFloor newest run older merged)
    (hlevels : w.levels = above ++ (newest :: run ++ older)) (hlevels' : w'.levels = above ++ merged :: older) :
    belowOf core w'.sealedLevels = belowOf core w.sealedLevels := by
  funext id
  rw [sealedLevels, sealedLevels, hlevels, hlevels']
  simp only [belowOf, map_append, map_cons, findSome?_append, findSome?_cons, h.born]
  cases h : newest.asLevel.bornSyntheticForIdentity id with
  | some d => rfl
  | none => cases (run.map asLevel).findSome? (·.bornSyntheticForIdentity id) <;> rfl

namespace IdsKept

variable {core : NodeIdentity → Option Nat} {coreEdge : EdgeIdentity → Option Nat} {nodeFloor edgeFloor : Nat}
  {w w' : DeltaWriter} {choices : Choices}
variable {changed : Bool} {sizes : List Nat} {gen : Generation} {nodeCount edgeCount : Nat}

section

variable (h : w.IdsKept core coreEdge nodeFloor edgeFloor)
include h

/-- The log, the open segment and the flags are not about ids. -/
theorem congr (hmem : w'.mem = w.mem) (hl0 : w'.l0 = w.l0)
    (hdir : w'.dir.l0 = w.dir.l0) : w'.IdsKept core coreEdge nodeFloor edgeFloor := by
  have hlevels : w'.levels = w.levels := congrArg (map Prod.snd) hl0
  have hsealed : w'.sealedLevels = w.sealedLevels := congrArg (map asLevel) hlevels
  constructor
  case core_lt => exact h.core_lt
  case active =>
    rw [hmem, hsealed]
    exact h.active
  case nodes => exact hsealed ▸ h.nodes
  case nodeBase =>
    rw [hmem, hsealed]
    exact h.nodeBase
  case edges => exact hlevels ▸ h.edges
  case edgeBase =>
    rw [hmem, hlevels]
    exact h.edgeBase
  case intact => exact hlevels ▸ h.intact
  case files =>
    rw [hdir, hl0]
    exact h.files

/-- **A batch of writes.** -/
theorem writeBatch {ops : List ResolvedOp}
    (hops : ∀ op ∈ ops, op.ResolvedBy (belowOf core w.sealedLevels) coreEdge w.mem) :
    (w.writeBatch ops).IdsKept core coreEdge nodeFloor edgeFloor := by
  cases ops with
  | nil => exact h
  | cons op ops =>
    have hbases := w.mem.applyAll_bases (op :: ops)
    exact ⟨h.core_lt, h.active.applyAll hops, h.nodes, hbases.1.trans h.nodeBase, h.edges,
      hbases.2.symm ▸ h.edgeBase, h.intact, h.files⟩

/-! ### Flushing -/

/-- A new level on top, with the ids of the active memtable, which starts anew above it. -/
theorem push {level : L0Level} {file : L0File}
    (hopen : file.Opens level) (hintact : level.Intact coreEdge) (hids : w.mem.level.SameIds level.asLevel)
    (hl0 : w'.l0 = (nextNumber w.dir.l0, level) :: w.l0)
    (hdir : w'.dir.l0 = w.dir.l0.insert (nextNumber w.dir.l0) file)
    (hmem : w'.mem = .withBases (w.mem.syntheticBase + w.mem.born.length)
      (w.mem.edgeSyntheticBase + w.mem.bornEdges.length)) : w'.IdsKept core coreEdge nodeFloor edgeFloor := by
  have hlevels : w'.levels = level :: w.levels := congrArg (map Prod.snd) hl0
  have hsealed : w'.sealedLevels = level.asLevel :: w.sealedLevels :=
    congrArg (map asLevel) hlevels
  have hnodes := hids.nodesNumbered (h.active.nodes.level h.active.coherent)
  have hbands : NodeBands core nodeFloor w'.sealedLevels :=
    hsealed ▸ ⟨hnodes, hids.nodeBase.trans h.nodeBase, h.nodes⟩
  have htop : w.mem.syntheticBase + w.mem.born.length = nodeTopOf nodeFloor w'.sealedLevels := by
    rw [hsealed]
    exact hids.nodeTop.symm
  have hedgeTop : level.edgeTop = w.mem.edgeSyntheticBase + w.mem.bornEdges.length := hids.edgeTop
  constructor
  case core_lt => exact h.core_lt
  case active =>
    rw [hmem]
    exact Memtable.active_withBases (fun id d hd => htop ▸ hbands.belowOf_lt h.core_lt hd) coreEdge _
  case nodes => exact hbands
  case nodeBase =>
    rw [hmem]
    exact htop
  case edges =>
    exact hlevels ▸ ⟨hids.edgesNumbered h.active.edges.level, hids.edgeBase.symm ▸ h.edgeBase, h.edges⟩
  case edgeBase =>
    rw [hmem, hlevels]
    exact ⟨Nat.le_of_eq hedgeTop, fun _ => hedgeTop.symm⟩
  case intact =>
    rw [hlevels]
    exact forall_mem_cons.mpr ⟨hintact, h.intact⟩
  case files =>
    rw [hdir, hl0]
    exact h.files.flush hopen

/-- **A flush**, of numbers that fit. -/
theorem flushToL0 (hfits : w.offHeap = true → w.mem.toSegmentData.Fits choices.scope)
    (hflush : w.flushToL0 choices = .ok (w', changed)) : w'.IdsKept core coreEdge nodeFloor edgeFloor := by
  rcases flushToL0_cases hflush with rfl | ⟨level, hlevel, rfl⟩
  · exact h
  have hopen : (w.flushedFile choices).Opens level := ⟨_, _, hlevel⟩
  have hcoherent := h.active.coherent
  have hedges := h.active.edges
  cases hoff : w.offHeap with
  | false =>
    have hfile : w.flushedFile choices = .resident w.mem := by rw [flushedFile, hoff]; rfl
    obtain ⟨-, order, rfl⟩ := L0File.opens_resident.mp (hfile ▸ hopen)
    have hintact : (resident (w.mem.reloaded order)).Intact coreEdge :=
      ⟨hcoherent.reloaded order, { hedges with }⟩
    exact h.push hopen hintact (w.mem.sameIds_reloaded order) rfl (w.flushed_l0 choices _) rfl
  | true =>
    have hfile : w.flushedFile choices = .offHeap (writeSegment w.mem.toSegmentData choices.scope) := by
      rw [flushedFile, hoff]
      rfl
    obtain ⟨segment, hsegment, rfl⟩ := L0File.opens_offHeap.mp (hfile ▸ hopen)
    have hsealed : SealedAs w.mem segment := ⟨choices.scope, hfits hoff, openSegment_of_open hsegment⟩
    have hids : w.mem.level.SameIds segment.level := by
      obtain ⟨scope, -, -, hlevel⟩ := hsealed.level_eq
      rw [hlevel, hcoherent.answers_eq]
      exact ⟨rfl, rfl, rfl, rfl, rfl, rfl, rfl⟩
    exact h.push hopen (hsealed.sound hcoherent).rows hids rfl (w.flushed_l0 choices _) rfl

end

/-! ### Compacting -/

section Merged

variable {levels older : List L0Level} {merged : L0Level} (hcore : ∀ id d, core id = some d → d < nodeFloor)
  (hnodes : NodeBands core nodeFloor ((levels ++ older).map asLevel))
  (hedges : EdgeBands edgeFloor (levels ++ older)) (hintact : ∀ l ∈ levels, l.Intact coreEdge)
  (hfits : CompactionFits choices levels)
include hcore hnodes hedges hintact hfits

/-- **The merged image of a resident run** stands for it. -/
theorem takesPlace_resident {newest : Memtable} {run : List Memtable} {image : Memtable}
    (hlevels : levels = (newest :: run).map .resident)
    (hmerge : mergeLevels choices.nodeOrder choices.edgeOrder (newest :: run) = some image)
    (hopen : (L0File.resident image).Opens merged) :
    TakesPlace core coreEdge nodeFloor edgeFloor (.resident newest) (run.map .resident) older merged := by
  subst hlevels
  obtain ⟨oldest, holdest⟩ : ∃ oldest, (newest :: run).getLast? = some oldest :=
    ⟨_, getLast?_eq_some_getLast (cons_ne_nil newest run)⟩
  have hmem : ∀ m ∈ newest :: run, m.Coherent ∧ m.EdgesNumbered coreEdge := fun m hm =>
    hintact _ (mem_map_of_mem hm)
  obtain ⟨hnodeOrder, hedgeOrder⟩ := hfits.resident _ rfl
  have hlevels : ((newest :: run).map resident).map asLevel =
      (newest :: run).map Memtable.level := map_map
  rw [map_append, hlevels] at hnodes
  have hids := mergeLevels_mergesIds holdest hnodes hcore hedges (fun m hm => (hmem m hm).1)
    (fun m hm => (hmem m hm).2) hnodeOrder hedgeOrder.1 hmerge
  obtain ⟨-, order, rfl⟩ := L0File.opens_resident.mp hopen
  have hlast : ((newest :: run).map resident).getLast? = some (.resident oldest) := by
    rw [getLast?_map, holdest]
    rfl
  have hedgeNum : (image.reloaded order).EdgesNumbered coreEdge := { hids.edges with }
  constructor
  case intact => exact ⟨hids.coherent.reloaded order, hedgeNum⟩
  case nodes => exact (image.sameIds_reloaded order).nodesNumbered (hids.nodes.level hids.coherent)
  case nodeBase => exact hids.nodeBase
  case nodeTop => exact hids.nodeTop
  case born =>
    rw [map_cons, map_map]
    exact hids.born
  case edges => exact hedgeNum.level
  case edgeBase =>
    show EdgeFollows edgeFloor image.edgeSyntheticBase older
    rw [hids.edgeBase]
    exact hedges.oldest_follows hlast
  case edgeTop => exact hids.edgeTop
  case sealed => exact nofun

/-- **The merged segment of an off-heap run** stands for it. -/
theorem takesPlace_offHeap {newest : OpenSegment} {run : List OpenSegment} {files : SegmentFiles}
    (hlevels : levels = (newest :: run).map .offHeap) (hmerge : mergeRun (newest :: run) choices.scope = some files)
    (hopen : (L0File.offHeap files).Opens merged) :
    TakesPlace core coreEdge nodeFloor edgeFloor (.offHeap newest) (run.map .offHeap) older merged := by
  subst hlevels
  have hne := cons_ne_nil newest run
  obtain ⟨oldest, holdest⟩ : ∃ oldest, (newest :: run).getLast? = some oldest :=
    ⟨_, getLast?_eq_some_getLast hne⟩
  have hrows : ∀ s ∈ newest :: run, s.level.FromRows := fun s hs => hintact _ (mem_map_of_mem hs)
  obtain ⟨segment, hsegment, rfl⟩ := L0File.opens_offHeap.mp hopen
  rw [mergeRun, holdest, Option.map_some, Option.some.injEq] at hmerge
  have hlevel : segment.level = mergedLevel oldest (newest :: run) choices.scope := by
    have hread : (openSegment files >>= L0Reader.level) = .ok segment.level := by
      rw [openSegment_of_open hsegment]
      exact segment.opened
    rw [← hmerge] at hread
    exact ((writeSegment_level_eq_ok (hfits.offHeap _ _ rfl holdest)).mp hread).2
  have hanswers : RowsAnswer segment.level (runSnapshot oldest (newest :: run)) :=
    hlevel ▸ mergedLevel_rowsAnswer hne hrows choices.scope
  have hlevels : ((newest :: run).map L0Level.offHeap).map L0Level.asLevel = runLevels (newest :: run) :=
    map_map
  rw [map_append, hlevels] at hnodes
  constructor
  case intact => exact (hlevel ▸ mergedLevel_fromRows hrows choices.scope : segment.level.FromRows)
  case nodes => exact hanswers.nodesNumbered holdest hnodes hcore
  case nodeBase => exact hanswers.nodeBase holdest hnodes
  case nodeTop => exact hanswers.nodeTop holdest hnodes
  case born =>
    intro id
    rw [← map_cons, hlevels]
    exact (hanswers.bornSyntheticForIdentity id).trans (runSnapshot_bornSynthetic oldest _ id)
  case edges => exact hanswers.edgesNumbered holdest hedges
  case edgeBase =>
    show EdgeFollows edgeFloor segment.level.edgeSyntheticBase older
    rw [hanswers.edgeBase holdest hedges]
    exact hedges.oldest_follows (getLast?_offHeap holdest)
  case edgeTop => exact Nat.le_of_eq (hanswers.edgeTop holdest hedges)
  case sealed => exact fun _ => ⟨rfl, hanswers.edgeTop holdest hedges⟩

end Merged

section

variable (h : w.IdsKept core coreEdge nodeFloor edgeFloor)
include h

/-- Compaction puts a level in the place of a run. -/
theorem replace {above older : List L0Level}
    {newest merged : L0Level} {run : List L0Level} (hlevels : w.levels = above ++ (newest :: run ++ older))
    (hplace : TakesPlace core coreEdge nodeFloor edgeFloor newest run older merged)
    (hlevels' : w'.levels = above ++ merged :: older) (hmem : w'.mem = w.mem)
    (hfiles : OnDisk w'.dir.l0 w'.l0) : w'.IdsKept core coreEdge nodeFloor edgeFloor := by
  have hsealed : w.sealedLevels = above.map asLevel ++
      ((newest :: run).map asLevel ++ older.map asLevel) := by
    rw [sealedLevels, hlevels, map_append, map_append]
  have hsealed' : w'.sealedLevels = above.map asLevel ++ merged.asLevel :: older.map asLevel := by
    rw [sealedLevels, hlevels', map_append, map_cons]
  have hbelow := hplace.belowOf_eq hlevels hlevels'
  have htop : nodeTopOf nodeFloor w'.sealedLevels = nodeTopOf nodeFloor w.sealedLevels := by
    rw [hsealed, hsealed']
    cases above with
    | nil => exact hplace.nodeTop
    | cons a above => rfl
  constructor
  case core_lt => exact h.core_lt
  case active =>
    rw [hmem, hbelow]
    exact h.active
  case nodes =>
    rw [hsealed']
    exact (hsealed ▸ h.nodes).replace hplace.nodes hplace.nodeBase hplace.nodeTop hplace.born
  case nodeBase =>
    rw [hmem, htop]
    exact h.nodeBase
  case edges =>
    rw [hlevels']
    exact (hlevels ▸ h.edges).replace hplace.edges hplace.edgeBase hplace.edgeTop hplace.sealed
  case edgeBase =>
    rw [hmem, hlevels']
    exact EdgeBands.follows_replace (hlevels ▸ h.edgeBase) hplace.edgeTop hplace.sealed
  case intact =>
    intro l hl
    rw [hlevels', mem_append, mem_cons] at hl
    have hold : ∀ l, l ∈ above ∨ l ∈ older → l.Intact coreEdge := by
      intro l hl
      refine h.intact l ?_
      rw [hlevels, mem_append, mem_append]
      exact hl.imp_right .inr
    rcases hl with hl | rfl | hl
    · exact hold l (.inl hl)
    · exact hplace.intact
    · exact hold l (.inr hl)
  case files => exact hfiles

variable (hfits : CompactionFits choices ((w.compactionRun sizes).map Prod.snd))
include hfits

variable (hcompact : w.compactL0 sizes choices = .ok (w', changed))
include hcompact

/-- **A compaction** leaves the levels alone or puts one in the place of a run. All that a later
argument needs to know of a compaction is that the run and the level have the same place in the
bands. -/
theorem compactL0_takesPlace : w' = w ∨ ∃ above newest run older merged, w.levels = above ++ (newest :: run ++ older) ∧
      TakesPlace core coreEdge nodeFloor edgeFloor newest run older merged ∧
      w'.levels = above ++ merged :: older ∧ w'.mem = w.mem ∧ OnDisk w'.dir.l0 w'.l0 := by
  rcases compactL0_cases hcompact with rfl | ⟨above, run, o, oldest, below, file, merged, hl0, hrun, hfile,
    hlevel, rfl⟩
  · exact .inl rfl
  rw [hrun] at hfits
  have hopen : file.Opens merged := ⟨_, _, hlevel⟩
  have hlevels : w.levels = above.map Prod.snd ++ ((run ++ [(o, oldest)]).map Prod.snd ++ below.map Prod.snd) := by
    rw [levels, hl0]
    simp
  have hfiles : OnDisk (w.compacted above run below o file merged).dir.l0 (above ++ (o, merged) :: below) := by
    rw [compacted_l0]
    exact (hl0 ▸ h.files).compact hopen
  have hlevels' : (w.compacted above run below o file merged).levels =
      above.map Prod.snd ++ merged :: below.map Prod.snd := by
    rw [levels, compacted, map_append, map_cons]
  have hintact : ∀ l ∈ (run ++ [(o, oldest)]).map Prod.snd, l.Intact coreEdge := fun l hl =>
    h.intact l (hlevels ▸ mem_append_right _ (mem_append_left _ hl))
  have hne : (run ++ [(o, oldest)]).map Prod.snd ≠ [] := by simp
  have hedges := EdgeBands.of_append (hlevels ▸ h.edges)
  have hnodes : NodeBands core nodeFloor
      (((run ++ [(o, oldest)]).map Prod.snd ++ below.map Prod.snd).map asLevel) := by
    have hall := h.nodes
    rw [sealedLevels, hlevels, map_append] at hall
    exact NodeBands.of_append hall
  refine .inr ⟨above.map Prod.snd, ?_⟩
  generalize (run ++ [(o, oldest)]).map Prod.snd = levels at *
  rcases mergedFile_cases hfile with ⟨segments, files, rfl, hmerge, rfl⟩ | ⟨mems, image, rfl, hmerge, rfl⟩
  · cases segments with
    | nil => exact absurd rfl hne
    | cons newest segments =>
      have hplace := takesPlace_offHeap h.core_lt hnodes hedges hintact hfits rfl hmerge hopen
      exact ⟨_, _, _, _, hlevels, hplace, hlevels', rfl, hfiles⟩
  · cases mems with
    | nil => exact absurd rfl hne
    | cons newest mems =>
      have hplace := takesPlace_resident h.core_lt hnodes hedges hintact hfits rfl hmerge hopen
      exact ⟨_, _, _, _, hlevels, hplace, hlevels', rfl, hfiles⟩

theorem compactL0 : w'.IdsKept core coreEdge nodeFloor edgeFloor := by
  rcases h.compactL0_takesPlace hfits hcompact with rfl | ⟨above, newest, run, older, merged, hlevels, hplace,
    hlevels', hmem, hfiles⟩
  · exact h
  · exact h.replace hlevels hplace hlevels' hmem hfiles

/-- A compaction changes no answer about keys. -/
theorem belowOf_compactL0 : belowOf core w'.sealedLevels = belowOf core w.sealedLevels := by
  rcases h.compactL0_takesPlace hfits hcompact with rfl | ⟨above, newest, run, older, merged, hlevels, hplace,
    hlevels', -⟩
  · rfl
  · exact hplace.belowOf_eq hlevels hlevels'

end

/-! ### Retiring and reopening -/

/-- A writer without sealed levels starts from its floors. -/
theorem of_no_levels {recs : List WalRecord}
    {resolve : WalOp → ResolvedOp} (hcore : ∀ id d, gen.uniqueNode id = some d → d < nodeCount)
    (hresolve : ∀ m op, (resolve op).ResolvedBy (belowOf gen.uniqueNode []) gen.patchedEdge m)
    (hmem : w.mem = replayInto (.withBases nodeCount edgeCount) resolve recs) (hl0 : w.l0 = [])
    (hfiles : OnDisk w.dir.l0 []) : w.IdsKept gen.uniqueNode gen.patchedEdge nodeCount edgeCount := by
  have hlevels : w.levels = [] := by rw [levels, hl0, map_nil]
  have hsealed : w.sealedLevels = [] := by rw [sealedLevels, hlevels, map_nil]
  have hbelow : ∀ id d, belowOf gen.uniqueNode [] id = some d → d < nodeCount := fun id d hd =>
    hcore id d ((Option.or_none ..).symm.trans hd)
  obtain ⟨hnode, hedge⟩ := replayInto_bases nodeCount edgeCount resolve recs
  constructor
  case core_lt => exact hcore
  case active =>
    rw [hmem, hsealed]
    exact replayInto_active hbelow hresolve edgeCount recs
  case nodes => exact hsealed ▸ trivial
  case nodeBase =>
    rw [hmem, hsealed, hnode]
    rfl
  case edges => exact hlevels ▸ trivial
  case edgeBase =>
    rw [hmem, hlevels, hedge]
    exact le_rfl
  case intact => exact hlevels ▸ nofun
  case files => exact hl0 ▸ hfiles

/-- **A retire** of everything sealed so far starts from the counts of the new core. -/
theorem retire {frozen : Frozen} {uuid : GenId}
    (h : OnDisk w.dir.l0 w.l0) (hfrozen : frozen.consumedL0 = w.l0.map Prod.fst)
    (hcore : ∀ id d, gen.uniqueNode id = some d → d < nodeCount)
    (hretire : w.retire frozen uuid nodeCount edgeCount gen.resolveOp = .ok w') :
    w'.IdsKept gen.uniqueNode gen.patchedEdge nodeCount edgeCount := by
  obtain ⟨replay, -, hretire⟩ := bind_eq_ok.mp hretire
  cases hretire
  refine of_no_levels hcore (fun m op => resolveOp_eq gen op ▸ WalOp.resolvedBy_resolveBy _ _ m op) rfl rfl ?_
  rw [retireSteps, WriterDir.performAll_append, WriterDir.performAll_removeWal,
    WriterDir.performAll_removeL0, hfrozen]
  exact h.clear

section Reopen

variable {gen : Generation} {uuid : GenId} {nodeCount edgeCount : Nat} {offHeap cache : Bool}
  {load : Nat → List EdgeIdentity} {levels : List (Nat × L0Level)}

/-- **Reopening without sealed levels** starts from the counts. -/
theorem reopen_empty {dir : WriterDir} (hfiles : OnDisk dir.l0 [])
    (hcore : ∀ id d, gen.uniqueNode id = some d → d < nodeCount)
    (hopen : openWithCache dir uuid nodeCount edgeCount offHeap cache gen.resolveOp load = .ok w') :
    w'.IdsKept gen.uniqueNode gen.patchedEdge nodeCount edgeCount := by
  obtain ⟨levels, hlevels, hopen⟩ := bind_eq_ok.mp hopen
  obtain ⟨replay, -, hopen⟩ := bind_eq_ok.mp hopen
  obtain ⟨hfiles', hsame⟩ := hfiles.reopen hlevels
  have hnil : levels.reverse = [] := map_eq_nil_iff.mp (forall₂_nil_left_iff.mp hsame)
  have hlevels : levels = [] := reverse_eq_nil_iff.mp hnil
  subst hlevels
  cases hopen
  exact of_no_levels hcore (fun m op => resolveWithL0_eq gen [] op ▸ WalOp.resolvedBy_resolveBy _ _ m op) rfl
    rfl hfiles'

/-- Bands ascend, so the highest end is the newest level's. -/
theorem foldl_top {top : L0Level → Nat} {count floor : Nat} (hnil : levels = [] → count = floor)
    (hcons : ∀ newest rest, levels.reverse.map Prod.snd = newest :: rest →
      count ≤ top newest ∧ ∀ l ∈ newest :: rest, top l ≤ top newest) :
    levels.foldl (fun base l => max base (top l.2)) count =
      ((levels.reverse.map Prod.snd).head?.map top).getD floor := by
  have hmem : ∀ l, l ∈ levels ↔ l ∈ levels.reverse := fun l => mem_reverse.symm
  cases hrev : levels.reverse with
  | nil =>
    have hempty := reverse_eq_nil_iff.mp hrev
    rw [hempty]
    exact hnil hempty
  | cons newest rest =>
    rw [hrev] at hmem hcons
    obtain ⟨hcount, htop⟩ := hcons newest.2 (rest.map Prod.snd) rfl
    refine foldl_max_eq hcount (fun l hl => ?_) (.inr ⟨newest, (hmem newest).mpr (.head _), rfl⟩)
    exact htop l.2 (mem_map_of_mem (f := Prod.snd) ((hmem l).mp hl))

theorem foldl_nodeTop (hnodes : NodeBands core nodeFloor ((levels.reverse.map Prod.snd).map asLevel))
    (hcount : nodeCount ≤ nodeFloor) (hnil : levels = [] → nodeCount = nodeFloor) :
    levels.foldl (fun base l => max base l.2.nodeTop) nodeCount =
      nodeTopOf nodeFloor ((levels.reverse.map Prod.snd).map asLevel) := by
  refine (foldl_top hnil fun newest rest hlevels => ?_).trans ?_
  · rw [hlevels] at hnodes
    exact ⟨hcount.trans hnodes.floor_le, fun l hl =>
      hnodes.top_le_head (mem_map_of_mem (f := asLevel) hl)⟩
  · cases levels.reverse <;> rfl

theorem foldl_edgeTop (hedges : EdgeBands edgeFloor (levels.reverse.map Prod.snd))
    (hcount : edgeCount ≤ edgeFloor) (hnil : levels = [] → edgeCount = edgeFloor) :
    levels.foldl (fun base l => max base l.2.edgeTop) edgeCount =
      edgeTopOf edgeFloor (levels.reverse.map Prod.snd) := by
  refine (foldl_top hnil fun newest rest hlevels => ?_).trans ?_
  · rw [hlevels] at hedges
    exact ⟨hcount.trans (EdgeBands.floor_le hedges ⟨le_rfl, fun _ => rfl⟩), fun l hl =>
      EdgeBands.top_le_head hedges hl⟩
  · cases levels.reverse <;> rfl

/-- **Reopening** numbers on from the newest level, or from the counts. -/
theorem reopen (h : w.IdsKept gen.uniqueNode gen.patchedEdge nodeFloor edgeFloor)
    (hnode : nodeCount ≤ nodeFloor) (hedge : edgeCount ≤ edgeFloor)
    (hnil : w.l0 = [] → nodeCount = nodeFloor ∧ edgeCount = edgeFloor)
    (hopen : openWithCache w.dir uuid nodeCount edgeCount offHeap cache gen.resolveOp load = .ok w') :
    w'.IdsKept gen.uniqueNode gen.patchedEdge nodeFloor edgeFloor := by
  obtain ⟨levels, hlevels, hopen⟩ := bind_eq_ok.mp hopen
  obtain ⟨replay, -, hopen⟩ := bind_eq_ok.mp hopen
  obtain ⟨hfiles, hreopen⟩ := h.files.reopen hlevels
  have hsame : List.Forall₂ (fun l l' => ∃ file : L0File, file.Opens l ∧ file.Opens l') w.levels
      (levels.reverse.map Prod.snd) :=
    hreopen.imp fun l l' ⟨n, file, _, hl, hl'⟩ => ⟨file, hl, _, _, hl'⟩
  have hids : List.Forall₂ L0Level.SameIds w.levels (levels.reverse.map Prod.snd) :=
    hsame.imp fun l l' ⟨file, hl, hl'⟩ => hl.sameIds hl'
  have hnodes := L0Level.SameIds.nodeBands hids h.nodes
  have hedges := L0Level.SameIds.edgeBands hids h.edges
  have hempty : levels = [] → w.l0 = [] := by
    rintro rfl
    exact map_eq_nil_iff.mp (forall₂_nil_right_iff.mp hreopen)
  cases hopen
  rw [foldl_nodeTop hnodes hnode fun hl => (hnil (hempty hl)).1,
    foldl_edgeTop hedges hedge fun hl => (hnil (hempty hl)).2]
  obtain ⟨hbase, hbase'⟩ := replayInto_bases (nodeTopOf nodeFloor ((levels.reverse.map Prod.snd).map asLevel))
    (edgeTopOf edgeFloor (levels.reverse.map Prod.snd))
    (fun op => resolveWithL0 (levels.reverse.map Prod.snd) (gen.resolveOp op)) replay.records
  constructor
  case core_lt => exact h.core_lt
  case active =>
    exact replayInto_active (fun id d hd => hnodes.belowOf_lt h.core_lt hd)
      (fun m op => resolveWithL0_eq gen _ op ▸ WalOp.resolvedBy_resolveBy _ _ m op) _ _
  case nodes => exact hnodes
  case nodeBase => exact hbase
  case edges => exact hedges
  case edgeBase => exact hbase'.symm ▸ EdgeFollows.top edgeFloor _
  case intact => exact intact_reopen hsame h.intact
  case files => exact hfiles

end Reopen

end IdsKept

end DeltaWriter

end Slater
