import Slater.Delta.Wal
import Slater.Delta.OffheapMerge
import Slater.Delta.Merge
import Slater.Server.EdgeWrite

/-!
# The delta writer

`DeltaWriter` of `slater/src/delta_writer.rs` owns the writable layer of one graph: a directory with the
segments of the log and the sealed levels, and in memory the active memtable over the opened levels. This
module translates its operations: `open_with_cache`, `write_batch`, `flush_to_l0`, `compact_l0`, `freeze`,
`retire` and `rebind_core_uuid`.

What an operation does to the directory is a list of `DiskStep`s, each a durable file operation that
happens whole or not at all, in the order of the source. An operation that returns has run its list to the
end; a process that stops inside it has run a prefix.

A resident level's file returns the memtable written to it but for what the source derives at load, and
refuses one with a value nested deeper than `read_value` follows. The size of a level in bytes steers which
levels are compacted together and nothing else, so it is an argument; so is what the source leaves to a hash
map or a directory listing (`Choices`). Encryption, the touched-id journal, the epoch and the recovery of
poisoned locks are left out. `published` holds the active memtable and the levels by construction of
`republish`, so the published snapshot is a function of the state here.
-/

namespace Slater

open Map

/-- `GenId`: a uuid, only ever compared. -/
abbrev GenId := Nat

/-! ## Sealed levels -/

/-- Every value `Memtable::deserialise` reads is shallow enough. It is what the reader of a
resident file asks; the bytes of the file themselves are not modelled. -/
@[mk_iff] structure Memtable.Loadable (m : Memtable) : Prop where
  nodes : m.nodes.All fun id e => id.value.Shallow ∧ PropsShallow e.delta.patches.pairs
  edges : m.edges.All fun id e => id.src.value.Shallow ∧ id.dst.value.Shallow ∧
    (∀ kv ∈ id.key, kv.2.Shallow) ∧ PropsShallow e.delta.patches.pairs

instance (m : Memtable) : Decidable m.Loadable := decidable_of_iff' _ (Memtable.loadable_iff m)

namespace Memtable

variable (m : Memtable)

/-- The index of patched core edges, as `deserialise` collects it from the entries in hash
order. -/
def collectEdgeIds (order : List EdgeIdentity) : Map Nat EdgeIdentity :=
  insertAll ∅ (order.filterMap fun id => ((m.edges.lookup id).bind (·.coreEdge)).map (·, id))

/-- `rebuild_derived`, the deleted nodes. -/
def collectTombstoned : Finset Nat :=
  m.byDense.keys.filter fun d =>
    ((m.byDense.lookup d).bind m.nodes.lookup).any (·.delta.tombstoned)

/-- `rebuild_derived`, the born nodes by label. -/
def collectLabelCounts : Map String Nat :=
  tallyAll ∅ ((m.born.filter fun id => (m.nodes.lookup id).isSome).map (·.label))

/-- `Memtable::deserialise` of what `serialise` wrote. -/
def reload (order : List EdgeIdentity) : Except String Memtable :=
  if m.Loadable then
    .ok { m with
      byEdgeId := m.collectEdgeIds order
      tombstoned := m.collectTombstoned
      bornLabelCounts := m.collectLabelCounts }
  else .error s!"property value nests deeper than the {maxValueDepth}-level limit"

end Memtable

/-- A sealed level on disk: a file is resident, a directory is off-heap. -/
inductive L0File where
  | resident (image : Memtable)
  | offHeap (files : SegmentFiles)

/-- `L0Level`. -/
inductive L0Level where
  | resident (mem : Memtable)
  | offHeap (segment : OpenSegment)

namespace L0Level

/-- `as_level`. -/
def asLevel : L0Level → Level
  | .resident mem => mem.level
  | .offHeap segment => segment.level

/-- `is_off_heap`. -/
def isOffHeap : L0Level → Bool
  | .resident _ => false
  | .offHeap _ => true

/-- `resident_memtable`. -/
def residentMemtable : L0Level → Option Memtable
  | .resident mem => some mem
  | .offHeap _ => none

/-- `offheap_reader`. -/
def offheapReader : L0Level → Option OpenSegment
  | .resident _ => none
  | .offHeap segment => some segment

/-- The level holds an entry: a memtable has one in its maps, a segment has a row in one of its
four files. -/
def Holds : L0Level → Prop
  | .resident mem => mem.isEmpty = false
  | .offHeap segment => segment.reader.node.keys ≠ [] ∨ segment.reader.adjOut.keys ≠ [] ∨
      segment.reader.adjIn.keys ≠ [] ∨ segment.reader.edge.keys ≠ []

instance : (l : L0Level) → Decidable l.Holds
  | .resident mem => inferInstanceAs (Decidable (mem.isEmpty = false))
  | .offHeap segment => inferInstanceAs (Decidable (segment.reader.node.keys ≠ [] ∨
      segment.reader.adjOut.keys ≠ [] ∨ segment.reader.adjIn.keys ≠ [] ∨ segment.reader.edge.keys ≠ []))

/-- One past the last node id of the level. -/
def nodeTop (l : L0Level) : Nat := l.asLevel.syntheticBase + l.asLevel.bornCount

/-- One past the last edge id of the level. -/
def edgeTop (l : L0Level) : Nat := l.asLevel.edgeSyntheticBase + l.asLevel.bornEdgeCount

end L0Level

/-- Open a segment and decode its records. -/
def SegmentFiles.open (files : SegmentFiles) : Except String OpenSegment :=
  match openSegment files with
  | .error e => .error e
  | .ok reader =>
    match h : reader.level with
    | .error e => .error e
    | .ok level => .ok ⟨reader, level, h⟩

/-- `open_l0_level`. -/
def L0File.openLevel (file : L0File) (cache : Bool) (order : List EdgeIdentity) : Except String L0Level :=
  match file with
  | .resident image => (image.reload order).map .resident
  | .offHeap files =>
    if cache then files.open.map .offHeap
    else .error "off-heap L0 segment on disk but no block cache configured"

/-! ## The directory -/

/-- The directory of one graph's writer: log segments and sealed levels by their numbers. A
crash between two operations leaves the directory as it is, so a restart is a function of it. -/
structure WriterDir where
  wal : Map Nat WalSegment := ∅
  l0 : Map Nat L0File := ∅

/-- One past the highest number in use (`next_segment_number`, `next_l0_number`). -/
def nextNumber {α : Type} (files : Map Nat α) : Nat := files.keys.sup (· + 1)

theorem lt_nextNumber {α : Type} {files : Map Nat α} {n : Nat} (h : n ∈ files.keys) : n < nextNumber files :=
  Finset.le_sup (f := (· + 1)) h

/-- A fresh number is not in use. -/
theorem lookup_nextNumber {α : Type} (files : Map Nat α) : files.lookup (nextNumber files) = none := by
  rw [Finmap.lookup_eq_none]
  intro h
  exact Nat.lt_irrefl _ (lt_nextNumber (Finmap.mem_keys.mpr h))

/-- A durable file operation. -/
inductive DiskStep where
  | createWal (n : Nat)
  | appendWal (n : Nat) (recs : List WalRecord) (committed : Nat)
  | removeWal (n : Nat)
  | placeL0 (n : Nat) (file : L0File)
  | removeL0 (n : Nat)

namespace WriterDir

variable (d : WriterDir)

/-- The directory after a file operation. Removing what is not there is fine
(`remove_if_present`). -/
def perform : DiskStep → WriterDir
  | .createWal n => { d with wal := d.wal.insert n [] }
  | .appendWal n recs committed =>
    { d with wal := d.wal.insert n (((d.wal.lookup n).getD []).appendBatch recs committed) }
  | .removeWal n => { d with wal := d.wal.erase n }
  | .placeL0 n file => { d with l0 := d.l0.insert n file }
  | .removeL0 n => { d with l0 := d.l0.erase n }

/-- The directory after a sequence of file operations. -/
def performAll (steps : List DiskStep) : WriterDir := steps.foldl perform d

theorem performAll_append (steps steps' : List DiskStep) :
    d.performAll (steps ++ steps') = (d.performAll steps).performAll steps' :=
  List.foldl_append

end WriterDir

/-! ## Resolution at replay -/

namespace Generation

variable (gen : Generation)

/-- The unique core node of a key, as `resolve_op` asks for it. A key that several nodes carry
resolves to none here, and the statement is refused elsewhere. -/
def uniqueNode (id : NodeIdentity) : Option Nat :=
  match gen.resolveBusinessKey id with
  | .unique dense => some dense
  | _ => none

/-- The core edge an upsert patches in place, as `resolve_op` asks for it. -/
def patchedEdge (id : EdgeIdentity) : Option Nat :=
  match gen.uniqueNode id.src, gen.uniqueNode id.dst, gen.core.reltypeId id.reltype with
  | some s, some d, some rt => gen.findCoreEdgeId s rt d id.key
  | _, _, _ => none

/-- `resolve_op`. -/
def resolveOp : WalOp → ResolvedOp
  | .node id w => .node id w (gen.uniqueNode id)
  | .upsertEdge id replace patches =>
    .upsertEdge id replace patches (gen.uniqueNode id.src) (gen.uniqueNode id.dst) (gen.patchedEdge id)
  | .deleteEdge id => .deleteEdge id (gen.uniqueNode id.src) (gen.uniqueNode id.dst)

end Generation

/-- The born node of a key in the sealed levels, newest first. -/
def bornInL0 (l0 : List L0Level) (id : NodeIdentity) : Option Nat :=
  l0.findSome? (·.asLevel.bornSyntheticForIdentity id)

/-- `resolve_with_l0`. -/
def resolveWithL0 (l0 : List L0Level) : ResolvedOp → ResolvedOp
  | .node id w none => .node id w (bornInL0 l0 id)
  | .node id w (some dense) => .node id w (some dense)
  | .upsertEdge id replace patches src dst edgeId =>
    .upsertEdge id replace patches (src.or (bornInL0 l0 id.src)) (dst.or (bornInL0 l0 id.dst)) edgeId
  | .deleteEdge id src dst =>
    .deleteEdge id (src.or (bornInL0 l0 id.src)) (dst.or (bornInL0 l0 id.dst))

/-! ## Which levels are compacted together -/

/-- `SIZE_TIER_RATIO`. -/
def sizeTierRatio : Nat := 4

/-- How many of the sizes join a run whose smallest and largest size are `lo` and `hi`. -/
def tierLength (lo hi : Nat) : List Nat → Nat
  | [] => 0
  | size :: sizes =>
    let size := max size 1
    if max hi size > min lo size * sizeTierRatio then 0
    else tierLength (min lo size) (max hi size) sizes + 1

/-- A later run takes the place of the best one so far unless it is shorter. -/
def longerRun (best : Option (Nat × Nat)) (run : Nat × Nat) : Option (Nat × Nat) :=
  match best with
  | none => some run
  | some (start, stop) => if run.2 - run.1 ≥ stop - start then some run else some (start, stop)

/-- The outer loop of `select_compaction_run` from position `i`; every turn consumes a size. -/
def selectFrom : Nat → Nat → Option (Nat × Nat) → List Nat → Option (Nat × Nat)
  | 0, _, best, _ => best
  | _ + 1, _, best, [] => best
  | fuel + 1, i, best, size :: sizes =>
    let len := tierLength (max size 1) (max size 1) sizes + 1
    let best := if len ≥ 2 then longerRun best (i, i + len) else best
    selectFrom fuel (i + len) best (sizes.drop (len - 1))

/-- `select_compaction_run`, as a half-open range of the stack. -/
def selectCompactionRun (sizes : List Nat) : Option (Nat × Nat) :=
  selectFrom sizes.length 0 none sizes

/-- The loop of `select_compaction_run_in_stack` over the spans of one format, from position
`i`. -/
def selectSpans : Nat → Nat → Option (Nat × Nat) → List (Nat × Bool) → Option (Nat × Nat)
  | 0, _, best, _ => best
  | _ + 1, _, best, [] => best
  | fuel + 1, i, best, level :: levels =>
    let span := level :: levels.takeWhile (·.2 == level.2)
    let best := match selectCompactionRun (span.map Prod.fst) with
      | some (start, stop) => longerRun best (i + start, i + stop)
      | none => best
    selectSpans fuel (i + span.length) best (levels.drop (span.length - 1))

/-- `select_compaction_run_in_stack`, over sizes and formats. -/
def selectCompactionRunInStack (levels : List (Nat × Bool)) : Option (Nat × Nat) :=
  selectSpans levels.length 0 none levels

/-! ## The writer -/

/-- `DeltaWriter` and its `WriterInner`. A level stands with the number of its file; `sink` is
the number of the log segment open for appends. The bytes of the open segment are not here:
`Slater.Server.WritePath` puts the sink beside the writer. -/
structure DeltaWriter where
  dir : WriterDir
  sink : Nat
  mem : Memtable
  l0 : List (Nat × L0Level)
  seq : Nat
  offHeap : Bool
  cache : Bool
  coreUuid : GenId
  consolidating : Bool := false

/-- What one operation leaves to hash maps, directory listings and fresh ids. The laws hold for
every choice, or say what they ask of one. -/
structure Choices where
  /-- The order in which a loaded level's edge entries are collected. -/
  load : List EdgeIdentity := []
  /-- The orders in which `merge_levels` meets its folded entries. -/
  nodeOrder : List NodeIdentity := []
  edgeOrder : List EdgeIdentity := []
  /-- The order in which the directory lists its log segments. -/
  listing : List Nat := []
  /-- The fresh cache scope of an off-heap segment. -/
  scope : Nat := 0

namespace DeltaWriter

variable (w : DeltaWriter)

/-- The opened levels, newest first. -/
def levels : List L0Level := w.l0.map Prod.snd

/-- `published_snapshot`. -/
def published : DeltaSnapshot := { mem := w.mem, l0 := w.levels.map L0Level.asLevel }

/-- `delta_entity_count`. -/
def deltaEntityCount : Nat :=
  (w.published.levels.map fun l => l.nodeDeltaCount).sum + (w.published.levels.map fun l => l.edgeDeltaCount).sum

/-- The delta holds an entry, in the active memtable or in a sealed level. -/
def Holds : Prop := w.mem.isEmpty = false ∨ ∃ l ∈ w.levels, l.Holds
deriving Decidable

/-- Without off-heap levels `delta_entity_count` counts every entry. An off-heap level answers
with the counts its writer stored, and `merge_run` stores no count for a relationship that has
no id. -/
theorem not_holds_of_count_eq_zero (hresident : ∀ l ∈ w.levels, l.isOffHeap = false)
    (hcount : w.deltaEntityCount = 0) : ¬ w.Holds := by
  have hmem : ∀ m : Memtable, m.level ∈ w.published.levels → m.isEmpty = true := by
    intro m hm
    obtain ⟨hnodes, hedges⟩ := Nat.add_eq_zero_iff.mp hcount
    rw [List.sum_eq_zero_iff] at hnodes hedges
    have hn := hnodes _ (List.mem_map_of_mem hm)
    have he := hedges _ (List.mem_map_of_mem hm)
    simp only [Memtable.level, Finset.card_eq_zero, keys_eq_empty_iff] at hn he
    simp [Memtable.isEmpty, hn, he]
  rintro (hactive | ⟨l, hl, hholds⟩)
  · rw [hmem w.mem (.head _)] at hactive
    cases hactive
  · cases l with
    | resident mem =>
      have hlevel : mem.level ∈ w.published.l0 := List.mem_map.mpr ⟨_, hl, rfl⟩
      have hempty : mem.isEmpty = false := hholds
      rw [hmem mem (.tail _ hlevel)] at hempty
      cases hempty
    | offHeap segment => cases hresident _ hl

/-! ### Opening -/

/-- Open the sealed levels of a directory, oldest first. -/
def openLevels (cache : Bool) (load : Nat → List EdgeIdentity) :
    List (Nat × L0File) → Except String (List (Nat × L0Level))
  | [] => .ok []
  | (n, file) :: files => do
    let level ← file.openLevel cache (load n)
    let levels ← openLevels cache load files
    pure ((n, level) :: levels)

/-- Apply replayed records, each resolved as `resolve` says. -/
def replayInto (mem : Memtable) (resolve : WalOp → ResolvedOp) (recs : List WalRecord) : Memtable :=
  mem.applyAll (recs.map fun rec => resolve rec.op)

/-- `open_with_cache`. The born ids of the active memtable start past every level's. -/
def openWithCache (dir : WriterDir) (coreUuid : GenId) (nodeCount edgeCount : Nat)
    (offHeap cache : Bool) (resolve : WalOp → ResolvedOp) (load : Nat → List EdgeIdentity) :
    Except String DeltaWriter := do
  let levels ← openLevels cache load dir.l0.pairs
  let nodeBase := levels.foldl (fun base l => max base l.2.nodeTop) nodeCount
  let edgeBase := levels.foldl (fun base l => max base l.2.edgeTop) edgeCount
  let l0 := levels.reverse
  let replay ← replayDir dir.wal
  let mem := replayInto (.withBases nodeBase edgeBase)
    (fun op => resolveWithL0 (l0.map Prod.snd) (resolve op)) replay.records
  let sink := nextNumber dir.wal
  pure
    { dir := dir.perform (.createWal sink), sink, mem, l0, seq := replay.lastSeq, offHeap, cache
      coreUuid }

/-! ### Writing -/

/-- The records of a batch, numbered on from the last sequence number. -/
def numbered (seq : Nat) : List ResolvedOp → List WalRecord
  | [] => []
  | op :: ops => { seq := seq + 1, op := op.op } :: numbered (seq + 1) ops

/-- `write_batch`; a batch of one is `write`. An empty batch appends nothing. It is the call
that returns; one that fails is in `Slater.Server.WritePath`. -/
def writeBatch (ops : List ResolvedOp) : DeltaWriter :=
  match ops with
  | [] => w
  | ops =>
    { w with
      dir := w.dir.perform (.appendWal w.sink (numbered w.seq ops) (w.seq + ops.length))
      mem := w.mem.applyAll ops
      seq := w.seq + ops.length }

/-! ### Flushing -/

variable (choices : Choices)

/-- The file a flush writes. -/
def flushedFile : L0File :=
  if w.offHeap then .offHeap (writeSegment w.mem.toSegmentData choices.scope)
  else .resident w.mem

/-- The file operations of `flush_to_l0`. -/
def flushSteps : List DiskStep :=
  [.placeL0 (nextNumber w.dir.l0) (w.flushedFile choices), .createWal (nextNumber w.dir.wal)] ++
    choices.listing.map .removeWal

/-- `flush_to_l0`. -/
def flushToL0 : Except String (DeltaWriter × Bool) := do
  if w.consolidating then return (w, false)
  if w.mem.isEmpty then return (w, false)
  if w.offHeap && !w.cache then throw "off-heap L0 flush requires a block cache"
  let level ← (w.flushedFile choices).openLevel w.cache choices.load
  let flushed :=
    { w with
      dir := w.dir.performAll (w.flushSteps choices)
      sink := nextNumber w.dir.wal
      mem := .withBases (w.mem.syntheticBase + w.mem.born.length) (w.mem.edgeSyntheticBase + w.mem.bornEdges.length)
      l0 := (nextNumber w.dir.l0, level) :: w.l0 }
  return (flushed, true)

/-! ### Compacting -/

/-- The merged file of a run, in the run's own format; `none` is a panic of `merge_levels`. -/
def mergedFile (run : List L0Level) : Option L0File :=
  match run.mapM L0Level.offheapReader, run.mapM L0Level.residentMemtable with
  | some segments, _ => (mergeRun segments choices.scope).map .offHeap
  | none, some mems => (mergeLevels choices.nodeOrder choices.edgeOrder mems).map .resident
  | none, none => none

/-- The file operations of `compact_l0` on a run, newest level first, whose oldest level has the
number `oldest`. An off-heap segment replaces the directory in two steps
(`SegmentWriter::finish`). -/
def compactSteps (oldest : Nat) (newer : List Nat) : L0File → List DiskStep
  | .resident image => .placeL0 oldest (.resident image) :: newer.map .removeL0
  | .offHeap files => [.removeL0 oldest, .placeL0 oldest (.offHeap files)] ++ newer.map .removeL0

/-- `compact_l0`; `sizes` are the sizes of the levels in bytes. A panic leaves the writer as it
was and is an error here. -/
def compactL0 (sizes : List Nat) (choices : Choices) : Except String (DeltaWriter × Bool) := do
  if w.consolidating then return (w, false)
  if w.l0.length < 2 then return (w, false)
  match selectCompactionRunInStack (sizes.zip (w.levels.map L0Level.isOffHeap)) with
  | none => return (w, false)
  | some (start, stop) =>
    let run := (w.l0.take stop).drop start
    match run.getLast? with
    | none => return (w, false)
    | some (oldest, level) =>
      if level.isOffHeap && !w.cache then throw "off-heap L0 compaction requires a block cache"
      match mergedFile choices (run.map Prod.snd) with
      | none => throw "panic"
      | some file =>
        let merged ← file.openLevel w.cache choices.load
        let compacted :=
          { w with
            dir := w.dir.performAll (compactSteps oldest (run.dropLast.map Prod.fst) file)
            l0 := w.l0.take start ++ (oldest, merged) :: w.l0.drop stop }
        return (compacted, true)

/-! ### Consolidating -/

/-- `Frozen`: the delta at the freeze and the files it lives in. -/
structure Frozen where
  snapshot : Memtable
  l0 : List L0Level
  consumed : List Nat
  consumedL0 : List Nat

/-- `freeze`. -/
def freeze : DeltaWriter × Frozen :=
  let fresh := nextNumber w.dir.wal
  ({ w with dir := w.dir.perform (.createWal fresh), sink := fresh },
    { snapshot := w.mem, l0 := w.levels, consumed := choices.listing
      consumedL0 := w.l0.map Prod.fst })

/-- The file operations of `retire`. -/
def retireSteps (frozen : Frozen) : List DiskStep :=
  frozen.consumed.map .removeWal ++ frozen.consumedL0.map .removeL0

/-- `retire`. The records left are resolved against the new core alone. -/
def retire (frozen : Frozen) (coreUuid : GenId) (nodeCount edgeCount : Nat)
    (resolve : WalOp → ResolvedOp) : Except String DeltaWriter := do
  let dir := w.dir.performAll (retireSteps frozen)
  let replay ← replayDir dir.wal
  pure
    { w with
      dir, l0 := [], seq := replay.lastSeq, coreUuid
      mem := replayInto (.withBases nodeCount edgeCount) resolve replay.records }

/-- `rebind_core_uuid`. -/
def rebindCoreUuid (coreUuid : GenId) : DeltaWriter := { w with coreUuid }

/-- `begin_consolidation`; `none` if one is running. -/
def beginConsolidation : Option DeltaWriter :=
  if w.consolidating then none else some { w with consolidating := true }

/-- `end_consolidation`. -/
def endConsolidation : DeltaWriter := { w with consolidating := false }

end DeltaWriter

end Slater
