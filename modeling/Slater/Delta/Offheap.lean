import Slater.Delta.Level

/-!
# Off-heap segments

`slater-delta/src/l0_offheap.rs`: a sealed level spilled to disk. Four files hold one record per node,
per adjacency list and per edge delta; a meta block holds the scalars, the key column of every file
and the indexes that stay resident. `SegmentWriter` appends records and accumulates the meta,
`openSegment` reads the meta back, and `L0Reader.level` answers the questions of a level.

The block files return the records appended to them, the blob framing returns the meta body, and the
four key columns, which have a compact codec of their own, are kept as the ascending lists they hold.
Directories, the cache and the cipher are left out. Readers refuse with the source's texts, without
the directory's name in them.
-/

namespace Slater

open Map Reader

/-! ## Record bodies -/

/-- `w_str`. -/
def wStr (s : String) : Bytes := writeUvarint (stringBytes s).length ++ stringBytes s

/-- `r_str`. -/
def rStr : Read String := do
  let n ← readUvarint
  let bs ← chunk "l0 offheap: short string" n
  textOf "l0 offheap: invalid utf8" bs

/-- `u8::from`, the byte of a flag. -/
def flagByte (b : Bool) : UInt8 := bif b then 1 else 0

/-- A flag byte; any byte but zero is set. -/
def readFlag (short : String) : Read Bool := do
  let b ← next short
  pure (b != 0)

/-- A counted sequence, each item written by `write`. -/
def wCounted {α : Type} (write : α → Bytes) (items : List α) : Bytes :=
  writeUvarint items.length ++ items.flatMap write

/-- A counted sequence, each item read by `read`. -/
def rCounted {α : Type} (read : Read α) : Read (List α) := do
  let n ← readUvarint
  times read n

/-- A named value. -/
def wProp (p : String × Value) : Bytes := wStr p.1 ++ writeValue p.2

def rProp : Read (String × Value) := do
  let name ← rStr
  let value ← readValue
  pure (name, value)

/-- `w_patches`. -/
def wPatches (patches : Map String Value) (tombstoned : Bool) : Bytes :=
  [flagByte tombstoned] ++ wCounted wProp patches.pairs

/-- `r_patches`. -/
def rPatches : Read (Map String Value × Bool) := do
  let tombstoned ← readFlag "l0 offheap: short delta"
  let patches ← rCounted rProp
  pure (insertAll ∅ patches, tombstoned)

/-- `w_name_set`. -/
def wNameSet (names : Finset String) : Bytes := wCounted wStr (ascending names)

/-- `r_name_set`. -/
def rNameSet : Read (Finset String) := do
  let names ← rCounted rStr
  pure names.toFinset

/-- `encode_node`. -/
def encodeNode (row : NodeIdentity × NodeDelta) : Bytes :=
  wStr row.1.label ++ (wStr row.1.key ++ (writeValue row.1.value ++
    (wPatches row.2.patches row.2.tombstoned ++ ([flagByte row.2.replaced] ++
      (wNameSet row.2.removed ++ (wNameSet row.2.labelsAdded ++ wNameSet row.2.labelsRemoved))))))

/-- `decode_node`. -/
def decodeNode : Read (NodeIdentity × NodeDelta) := do
  let label ← rStr
  let key ← rStr
  let value ← readValue
  let (patches, tombstoned) ← rPatches
  let replaced ← readFlag "l0 offheap: short delta (missing replaced flag)"
  let removed ← rNameSet
  let labelsAdded ← rNameSet
  let labelsRemoved ← rNameSet
  pure ({ label, key, value }, { patches, removed, replaced, labelsAdded, labelsRemoved, tombstoned })

/-- An optional field behind a tag byte. -/
def wOption {α : Type} (write : α → Bytes) : Option α → Bytes
  | some a => [1] ++ write a
  | none => [0]

def rOption {α : Type} (short : String) (read : Read α) : Read (Option α) := do
  let present ← readFlag short
  if present then do
    let a ← read
    pure (some a)
  else pure none

/-- One edge of `encode_adj`. -/
def wAdjEdge (e : DeltaEdge) : Bytes :=
  writeUvarint e.other ++ (wStr e.reltype ++ (wOption writeUvarint e.edgeId ++
    (wOption wProp e.key ++ [flagByte e.tombstoned])))

/-- One edge of `decode_adj`. -/
def rAdjEdge : Read DeltaEdge := do
  let other ← readUvarint
  let reltype ← rStr
  let edgeId ← rOption "l0 offheap: short adj edge_id tag" readUvarint
  let key ← rOption "l0 offheap: short adj edge key tag" rProp
  let tombstoned ← readFlag "l0 offheap: short adj tombstone"
  pure { other, reltype, edgeId, key, tombstoned }

/-- `encode_adj`. -/
def encodeAdj (edges : List DeltaEdge) : Bytes := wCounted wAdjEdge edges

/-- `decode_adj`. -/
def decodeAdj : Read (List DeltaEdge) := rCounted rAdjEdge

/-- `encode_edge`. -/
def encodeEdge (delta : EdgeDelta) : Bytes :=
  wPatches delta.patches delta.tombstoned ++ [flagByte delta.replaced]

/-- `decode_edge`. -/
def decodeEdge : Read EdgeDelta := do
  let (patches, tombstoned) ← rPatches
  let replaced ← readFlag "l0 offheap: short edge replace flag"
  pure { patches, replaced, tombstoned }

/-- `identity_key_bytes`. -/
def identityKeyBytes (id : NodeIdentity) : Bytes := wStr id.label ++ (wStr id.key ++ writeValue id.value)

/-! ## Segment data -/

/-- A born node's resident index material: the effective values an index probe sees. -/
structure BornIndexEntry where
  label : String
  id : Nat
  props : List (String × Value)
  deriving DecidableEq

/-- The scalars of a segment, in the order of `set_scalars`. -/
structure SegmentScalars where
  syntheticBase : Nat := 0
  edgeSyntheticBase : Nat := 0
  nodeDeltaCount : Nat := 0
  edgeDeltaCount : Nat := 0
  bornCount : Nat := 0
  bornEdgeCount : Nat := 0
  deriving DecidableEq

/-- The resident indexes of a segment, in the order of `set_secondaries`. -/
structure Secondaries where
  bornByLabel : List (String × List Nat) := []
  bornIndex : List BornIndexEntry := []
  corePatched : List (String × String × Nat) := []
  bornByIdentity : List (Bytes × Nat) := []
  deriving DecidableEq

/-- What a level hands to `write_segment`. -/
structure SegmentData where
  scalars : SegmentScalars := {}
  nodes : List (Nat × NodeIdentity × NodeDelta) := []
  adjOut : List (Nat × List DeltaEdge) := []
  adjIn : List (Nat × List DeltaEdge) := []
  edges : List (Nat × EdgeDelta) := []
  corePatchedEdges : List (Nat × Nat × Nat × String) := []
  secondaries : Secondaries := {}

namespace Memtable

variable (m : Memtable)

/-- The properties an index probe sees of a born node: a patch wins over the business key. -/
def bornProps (id : NodeIdentity) (delta : NodeDelta) : Map String Value :=
  delta.patches ∪ if id.key = "" then ∅ else Finmap.insert id.key id.value ∅

/-- The node with a dense id, as a segment stores it. -/
def nodeRow (dense : Nat) : Option (NodeIdentity × NodeDelta) :=
  (m.byDense.lookup dense).bind fun id => (m.nodes.lookup id).map fun e => (id, e.delta)

/-- The ids of the edges that may carry a delta, born ones first. -/
def segmentEdgeIds : Finset Nat :=
  (Finset.range m.bornEdges.length).image (m.edgeSyntheticBase + ·) ∪ m.byEdgeId.keys

/-- `Memtable::to_segment_data`. The hash order in which the source lists the patched core nodes
is the ascending one here. -/
def toSegmentData : SegmentData where
  scalars :=
    { syntheticBase := m.syntheticBase, edgeSyntheticBase := m.edgeSyntheticBase
      nodeDeltaCount := m.nodes.keys.card, edgeDeltaCount := m.edges.keys.card
      bornCount := m.born.length, bornEdgeCount := m.bornEdges.length }
  nodes := keyed (ascending m.byDense.keys) m.nodeRow
  adjOut := (ascending m.outAdj.keys).map fun src => (src, m.outEdges src)
  adjIn := (ascending m.inAdj.keys).map fun dst => (dst, m.inEdges dst)
  edges := keyed (ascending m.segmentEdgeIds) m.edgeDeltaById
  corePatchedEdges := keyed (ascending m.byEdgeId.keys) fun cid =>
    (m.byEdgeId.lookup cid).bind fun id =>
      (m.edges.lookup id).map fun e => (e.srcDense, e.dstDense, id.reltype)
  secondaries :=
    { bornByLabel := (fileAll ∅ (m.bornEntries.map fun e => (e.1.label, e.2.1))).pairs
      bornIndex := m.bornEntries.map fun e =>
        { label := e.1.label, id := e.2.1, props := (bornProps e.1 e.2.2).pairs }
      corePatched := (ascending m.byDense.keys).flatMap fun dense =>
        if m.syntheticBase ≤ dense then []
        else (m.nodeRow dense).elim [] fun row =>
          (ascending row.2.patches.keys).map fun p => (row.1.label, p, dense)
      bornByIdentity := m.bornEntries.map fun e => (identityKeyBytes e.1, e.2.1) }

end Memtable

/-! ## The writer -/

/-- `OffheapSegmentWriter`: the records appended so far and the meta accumulated beside them.
The order of the appends is the caller's; that keys ascend is what `SegmentData.Keyed` asks of
the data. -/
structure SegmentWriter where
  node : List Bytes := []
  nodeKeys : List Nat := []
  adjOut : List Bytes := []
  adjOutKeys : List Nat := []
  adjIn : List Bytes := []
  adjInKeys : List Nat := []
  edge : List Bytes := []
  edgeKeys : List Nat := []
  scalars : SegmentScalars := {}
  secondaries : Secondaries := {}
  corePatchedEdges : List (Nat × Nat × Nat × String) := []
  tombstoned : List Nat := []
  edgeTombstones : Bool := false
  bornEdgesByReltype : Map String Nat := ∅
  addedLabelIds : Map String (List Nat) := ∅
  removedLabelIds : Map String (List Nat) := ∅
  labelOverlayIds : List Nat := []
  hasLabelOverlay : Bool := false

namespace SegmentWriter

/-- File `dense` under every label. -/
def fileLabels (ids : Map String (List Nat)) (labels : Finset String) (dense : Nat) : Map String (List Nat) :=
  fileAll ids ((ascending labels).map (·, dense))

variable (w : SegmentWriter)

/-- `push_node`. -/
def pushNode (row : Nat × NodeIdentity × NodeDelta) : SegmentWriter :=
  let dense := row.1
  let delta := row.2.2
  let w := { w with node := w.node ++ [encodeNode row.2], nodeKeys := w.nodeKeys ++ [dense] }
  let w := bif delta.tombstoned then { w with tombstoned := w.tombstoned ++ [dense] } else w
  if delta.labelsAdded = ∅ ∧ delta.labelsRemoved = ∅ then w
  else
    { w with
      hasLabelOverlay := true
      labelOverlayIds := w.labelOverlayIds ++ [dense]
      addedLabelIds := fileLabels w.addedLabelIds delta.labelsAdded dense
      removedLabelIds := fileLabels w.removedLabelIds delta.labelsRemoved dense }

/-- The edge columns `push_adj_out` derives from one edge: a tombstone sets the flag, a live
born edge is tallied under its type. -/
def countEdge (e : DeltaEdge) : SegmentWriter :=
  bif e.tombstoned then { w with edgeTombstones := true }
  else bif e.edgeId.isSome then
    { w with bornEdgesByReltype := tally w.bornEdgesByReltype e.reltype }
  else w

/-- `push_adj_out`. -/
def pushAdjOut (row : Nat × List DeltaEdge) : SegmentWriter :=
  let w := row.2.foldl countEdge w
  { w with adjOut := w.adjOut ++ [encodeAdj row.2], adjOutKeys := w.adjOutKeys ++ [row.1] }

/-- `push_adj_in`. -/
def pushAdjIn (row : Nat × List DeltaEdge) : SegmentWriter :=
  { w with adjIn := w.adjIn ++ [encodeAdj row.2], adjInKeys := w.adjInKeys ++ [row.1] }

/-- `push_edge`. -/
def pushEdge (row : Nat × EdgeDelta) : SegmentWriter :=
  { w with edge := w.edge ++ [encodeEdge row.2], edgeKeys := w.edgeKeys ++ [row.1] }

/-- The record passes and setters of `write_segment`. -/
def ofData (data : SegmentData) : SegmentWriter :=
  let w := data.nodes.foldl pushNode {}
  let w := data.adjOut.foldl pushAdjOut w
  let w := data.adjIn.foldl pushAdjIn w
  let w := data.edges.foldl pushEdge w
  { w with
    scalars := data.scalars, secondaries := data.secondaries
    corePatchedEdges := data.corePatchedEdges }

end SegmentWriter

/-! ## The meta block -/

/-- The body of `meta.bin` but for its key columns. Tree maps stand as their entries in key
order. -/
structure SegmentMeta where
  scope : Nat
  scalars : SegmentScalars
  secondaries : Secondaries
  tombstoned : List Nat
  edgeTombstones : Bool
  bornEdgesByReltype : List (String × Nat)
  hasLabelOverlay : Bool
  addedLabelIds : List (String × List Nat)
  removedLabelIds : List (String × List Nat)
  labelOverlayIds : List Nat
  corePatchedEdges : List (Nat × Nat × Nat × String)
  deriving DecidableEq

/-- `OFFHEAP_VERSION`. -/
def offheapVersion : Nat := 5

/-- `w_u64s`. -/
def wU64s (ids : List Nat) : Bytes := wCounted writeUvarint ids

/-- `r_u64s`. -/
def rU64s : Read (List Nat) := rCounted readUvarint

/-- The entries of a name-keyed index of ids. -/
def wLabelIds (entries : List (String × List Nat)) : Bytes :=
  wCounted (fun e => wStr e.1 ++ wU64s e.2) entries

def rLabelIds : Read (List (String × List Nat)) :=
  rCounted do
    let label ← rStr
    let ids ← rU64s
    pure (label, ids)

def SegmentScalars.write (s : SegmentScalars) : Bytes :=
  writeUvarint s.syntheticBase ++ (writeUvarint s.edgeSyntheticBase ++
    (writeUvarint s.nodeDeltaCount ++ (writeUvarint s.edgeDeltaCount ++
      (writeUvarint s.bornCount ++ writeUvarint s.bornEdgeCount))))

def SegmentScalars.read : Read SegmentScalars := do
  let syntheticBase ← readUvarint
  let edgeSyntheticBase ← readUvarint
  let nodeDeltaCount ← readUvarint
  let edgeDeltaCount ← readUvarint
  let bornCount ← readUvarint
  let bornEdgeCount ← readUvarint
  pure { syntheticBase, edgeSyntheticBase, nodeDeltaCount, edgeDeltaCount, bornCount, bornEdgeCount }

def BornIndexEntry.write (e : BornIndexEntry) : Bytes :=
  wStr e.label ++ (writeUvarint e.id ++ wCounted wProp e.props)

def BornIndexEntry.read : Read BornIndexEntry := do
  let label ← rStr
  let id ← readUvarint
  let props ← rCounted rProp
  pure { label, id, props }

/-- A core node patched on a property. -/
def wCorePatched (e : String × String × Nat) : Bytes :=
  wStr e.1 ++ (wStr e.2.1 ++ writeUvarint e.2.2)

def rCorePatched : Read (String × String × Nat) := do
  let label ← rStr
  let prop ← rStr
  let id ← readUvarint
  pure (label, prop, id)

/-- The key image of a born node with its id. -/
def wBornIdentity (e : Bytes × Nat) : Bytes :=
  writeUvarint e.1.length ++ (e.1 ++ writeUvarint e.2)

def rBornIdentity : Read (Bytes × Nat) := do
  let len ← readUvarint
  let key ← chunk "short identity key" len
  let id ← readUvarint
  pure (key, id)

/-- A relationship type with its tally. -/
def wReltypeCount (e : String × Nat) : Bytes := wStr e.1 ++ writeUvarint e.2

def rReltypeCount : Read (String × Nat) := do
  let reltype ← rStr
  let n ← readUvarint
  pure (reltype, n)

/-- A patched core edge with its endpoints and type. -/
def wPatchedEdge (e : Nat × Nat × Nat × String) : Bytes :=
  writeUvarint e.1 ++ (writeUvarint e.2.1 ++ (writeUvarint e.2.2.1 ++ wStr e.2.2.2))

def rPatchedEdge : Read (Nat × Nat × Nat × String) := do
  let eid ← readUvarint
  let src ← readUvarint
  let dst ← readUvarint
  let reltype ← rStr
  pure (eid, src, dst, reltype)

def Secondaries.write (s : Secondaries) : Bytes :=
  wLabelIds s.bornByLabel ++ (wCounted BornIndexEntry.write s.bornIndex ++
    (wCounted wCorePatched s.corePatched ++ wCounted wBornIdentity s.bornByIdentity))

def Secondaries.read : Read Secondaries := do
  let bornByLabel ← rLabelIds
  let bornIndex ← rCounted BornIndexEntry.read
  let corePatched ← rCounted rCorePatched
  let bornByIdentity ← rCounted rBornIdentity
  pure { bornByLabel, bornIndex, corePatched, bornByIdentity }

/-- `meta_bytes`, before the framing. -/
def SegmentMeta.write (m : SegmentMeta) : Bytes :=
  writeUvarint offheapVersion ++ (littleEndian 16 m.scope ++ (m.scalars.write ++
    (m.secondaries.write ++ (wU64s m.tombstoned ++ ([flagByte m.edgeTombstones] ++
      (wCounted wReltypeCount m.bornEdgesByReltype ++ ([flagByte m.hasLabelOverlay] ++
        (wLabelIds m.addedLabelIds ++ (wLabelIds m.removedLabelIds ++
          (wU64s m.labelOverlayIds ++ wCounted wPatchedEdge m.corePatchedEdges))))))))))

/-- The version check of `L0Reader::open`. -/
def readVersion : Read Unit := do
  let version ← readUvarint
  if version = offheapVersion then pure ()
  else throw s!"unsupported off-heap L0 version {version} (expected {offheapVersion})"

/-- The part of `L0Reader::open` that parses the meta body. -/
def SegmentMeta.read : Read SegmentMeta := do
  readVersion
  let scope ← readLittleEndian "short meta (scope)" 16
  let scalars ← SegmentScalars.read
  let secondaries ← Secondaries.read
  let tombstoned ← rU64s
  let edgeTombstones ← readFlag "short edge-tombstone flag"
  let bornEdgesByReltype ← rCounted rReltypeCount
  let hasLabelOverlay ← readFlag "short label-overlay flag"
  let addedLabelIds ← rLabelIds
  let removedLabelIds ← rLabelIds
  let labelOverlayIds ← rU64s
  let corePatchedEdges ← rCounted rPatchedEdge
  pure { scope, scalars, secondaries, tombstoned, edgeTombstones,
         bornEdgesByReltype, hasLabelOverlay, addedLabelIds, removedLabelIds, labelOverlayIds,
         corePatchedEdges }

/-! ## The segment on disk and its reader -/

/-- A record file with its ascending key column: record `i` belongs to key `i`. -/
structure RecordFile where
  keys : List Nat
  records : List Bytes

/-- A written segment. -/
structure SegmentFiles where
  body : Bytes
  node : RecordFile
  adjOut : RecordFile
  adjIn : RecordFile
  edge : RecordFile

/-- The meta a finished writer stores. -/
def SegmentWriter.toMeta (w : SegmentWriter) (scope : Nat) : SegmentMeta where
  scope := scope
  scalars := w.scalars
  secondaries := w.secondaries
  tombstoned := w.tombstoned
  edgeTombstones := w.edgeTombstones
  bornEdgesByReltype := w.bornEdgesByReltype.pairs
  hasLabelOverlay := w.hasLabelOverlay
  addedLabelIds := w.addedLabelIds.pairs
  removedLabelIds := w.removedLabelIds.pairs
  labelOverlayIds := w.labelOverlayIds
  corePatchedEdges := w.corePatchedEdges

/-- `finish`. -/
def SegmentWriter.finish (w : SegmentWriter) (scope : Nat) : SegmentFiles where
  body := (w.toMeta scope).write
  node := { keys := w.nodeKeys, records := w.node }
  adjOut := { keys := w.adjOutKeys, records := w.adjOut }
  adjIn := { keys := w.adjInKeys, records := w.adjIn }
  edge := { keys := w.edgeKeys, records := w.edge }

/-- `write_segment`. -/
def writeSegment (data : SegmentData) (scope : Nat) : SegmentFiles :=
  (SegmentWriter.ofData data).finish scope

/-- An opened segment. It keeps the meta resident and goes to the files for rows. -/
structure L0Reader where
  resident : SegmentMeta
  node : RecordFile
  adjOut : RecordFile
  adjIn : RecordFile
  edge : RecordFile

/-- `L0Reader::open`: the meta must parse to its last byte. -/
def openSegment (files : SegmentFiles) : Except String L0Reader := do
  let (resident, rest) ← SegmentMeta.read.run files.body
  if rest = [] then
    pure
      { resident, node := files.node, adjOut := files.adjOut, adjIn := files.adjIn
        edge := files.edge }
  else throw s!"meta has {rest.length} trailing bytes"

/-- The record of a key, by the position of the key in its column (`KeyColumn::find`). -/
def rowAt {α : Type} (keys : List Nat) (rows : List α) (key : Nat) : Option α :=
  (keys.idxOf? key).bind (rows[·]?)

namespace L0Reader

variable (r : L0Reader)

/-- The maps `open` builds from the entries it reads. -/
def bornByLabel : Map String (List Nat) := insertAll ∅ r.resident.secondaries.bornByLabel

def bornByIdentity : Map Bytes Nat := insertAll ∅ r.resident.secondaries.bornByIdentity

def bornEdgesByReltype : Map String Nat := insertAll ∅ r.resident.bornEdgesByReltype

def addedLabelIds : Map String (List Nat) := insertAll ∅ r.resident.addedLabelIds

def removedLabelIds : Map String (List Nat) := insertAll ∅ r.resident.removedLabelIds

def bornIdsInIndex (label prop : String) (pred : Value → Bool) : List Nat :=
  (r.resident.secondaries.bornIndex.filter fun e =>
    e.label == label && ((e.props.find? (·.1 == prop)).map (·.2)).any pred).map (·.id)

/-- The answers of an opened segment, given its decoded records (`LevelRead for L0Reader`). -/
def answers (nodes : List (NodeIdentity × NodeDelta)) (adjOut adjIn : List (List DeltaEdge))
    (edges : List EdgeDelta) : Level where
  isEmpty := r.node.keys.isEmpty && r.edge.keys.isEmpty && r.resident.scalars.bornCount == 0 &&
    r.resident.scalars.bornEdgeCount == 0
  nodeDeltaCount := r.resident.scalars.nodeDeltaCount
  edgeDeltaCount := r.resident.scalars.edgeDeltaCount
  syntheticBase := r.resident.scalars.syntheticBase
  edgeSyntheticBase := r.resident.scalars.edgeSyntheticBase
  bornCount := r.resident.scalars.bornCount
  bornEdgeCount := r.resident.scalars.bornEdgeCount
  tombstonedIds := r.resident.tombstoned.toFinset
  bornCountWithLabel := fun label => (r.bornByLabel.lookup label).elim 0 List.length
  hasEdgeTombstones := r.resident.edgeTombstones
  bornEdgeCountWithReltype := fun reltype => (r.bornEdgesByReltype.lookup reltype).getD 0
  bornLabels := r.bornByLabel.keys
  bornEdgeReltypes := r.bornEdgesByReltype.keys
  nodePatch := fun dense => (rowAt r.node.keys nodes dense).map (·.2)
  nodeTombstoned := fun dense => (rowAt r.node.keys nodes dense).map (·.2.tombstoned)
  nodeIdentity := fun dense => (rowAt r.node.keys nodes dense).map (·.1)
  bornIdsWithLabel := fun label => (r.bornByLabel.lookup label).getD []
  idsWithAddedLabel := fun label => ((r.addedLabelIds.lookup label).getD []).toFinset
  idsWithRemovedLabel := fun label => ((r.removedLabelIds.lookup label).getD []).toFinset
  labelOverlayIds := r.resident.labelOverlayIds.toFinset
  hasLabelOverlay := r.resident.hasLabelOverlay
  bornSyntheticForIdentity := fun id => r.bornByIdentity.lookup (identityKeyBytes id)
  bornIdsInIndex := r.bornIdsInIndex
  coreIdsPatchedOnIndex := fun label prop =>
    ((r.resident.secondaries.corePatched.filter fun e => e.1 == label && e.2.1 == prop).map
      (·.2.2)).toFinset
  outEdges := fun node => (rowAt r.adjOut.keys adjOut node).getD []
  inEdges := fun node => (rowAt r.adjIn.keys adjIn node).getD []
  edgeDelta := fun id => rowAt r.edge.keys edges id
  nodeDenseIds := r.node.keys.toFinset
  adjOutNodes := r.adjOut.keys.toFinset
  edgeIds := r.edge.keys.toFinset
  corePatchedEdges := insertAll ∅ r.resident.corePatchedEdges

/-- An opened segment as a level. The accessors decode a record when it is asked for and panic
on one that does not decode, so a segment answers every question exactly when all its records
decode. -/
def level : Except String Level := do
  let nodes ← decodeAll decodeNode r.node.records
  let adjOut ← decodeAll decodeAdj r.adjOut.records
  let adjIn ← decodeAll decodeAdj r.adjIn.records
  let edges ← decodeAll decodeEdge r.edge.records
  pure (r.answers nodes adjOut adjIn edges)

end L0Reader

/-- Spill a memtable to disk and open what was written. A failure to read any record back is a
failure of the whole. -/
def Memtable.spill (m : Memtable) (scope : Nat) : Except String Level := do
  let reader ← openSegment (writeSegment m.toSegmentData scope)
  reader.level

end Slater
