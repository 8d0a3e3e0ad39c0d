import Slater.Delta.Offheap

/-!
# What is read back from an off-heap segment

The records and the meta of a segment are read back as they were written as long as the values in
them nest no deeper than `read_value` follows: `readsIff_node`, `readsIff_adj` and `readsIff_edge` for
the records, `readsIff_meta` for the meta. `spill_eq_ok` puts them together: a spilled memtable opens
as a level that answers every question exactly when its values are shallow, and then its answers are
those of the written data (`SegmentData.answers`).

The counts, ids and lengths a segment stores are `u64`s of the source. The `Fits` predicates say so of
each part.

**What it does not establish.** A segment whose bytes were changed after they were written is not considered, and
neither are readers of an older format.
-/

namespace Slater

open Map Reader List SegmentWriter ReadsIff SegmentData

/-- A text whose length is a number of the source. -/
abbrev TextFits (s : String) : Prop := IsU64 (stringBytes s).length

/-- A value `read_value` reads back. -/
abbrev Value.Shallow (v : Value) : Prop := v.nesting ≤ maxValueDepth

/-- A named value whose lengths are numbers of the source. -/
abbrev PropFits (p : String × Value) : Prop := TextFits p.1 ∧ p.2.Fits

/-! ## Fields -/

theorem reads_str {s : String} (h : TextFits s) : Reads rStr (wStr s) s := by
  refine (reads_uvarint h).bind ?_
  have hbytes := (reads_chunk "l0 offheap: short string" (rfl : (stringBytes s).length = _)).bind
    (reads_textOf "l0 offheap: invalid utf8" s)
  rwa [append_nil] at hbytes

theorem reads_flag (short : String) (b : Bool) : Reads (readFlag short) [flagByte b] b := by
  have h := (reads_next short (flagByte b)).bind_pure (· != 0)
  cases b <;> exact h

section Counted

variable {α : Type} {read : Read α} {write : α → Bytes} {items : List α}

theorem readsIff_counted {ok : α → Prop} (hn : IsU64 items.length)
    (h : ∀ x ∈ items, ReadsIff read (write x) x (ok x)) :
    ReadsIff (rCounted read) (wCounted write items) items (∀ x ∈ items, ok x) :=
  bind_reads (reads_uvarint hn) (times h)

theorem reads_counted (hn : IsU64 items.length) (h : ∀ x ∈ items, Reads read (write x) x) :
    Reads (rCounted read) (wCounted write items) items :=
  (reads_uvarint hn).bind (Reads.times h)

theorem readsIff_option {a : Option α} {ok : α → Prop} (short : String)
    (h : ∀ x ∈ a, ReadsIff read (write x) x (ok x)) :
    ReadsIff (rOption short read) (wOption write a) a (∀ x ∈ a, ok x) := by
  cases a with
  | none =>
    have hnone : Reads (rOption short read) (wOption write none) none :=
      (reads_flag short false).bind (reads_pure none)
    exact hnone.iff.congr (by simp)
  | some x =>
    refine (bind_reads (reads_flag short true) ((h x rfl).bind_pure some)).congr ?_
    simp

end Counted

theorem readsIff_prop {p : String × Value} (h : PropFits p) : ReadsIff rProp (wProp p) p p.2.Shallow :=
  bind_reads (reads_str h.1) ((readsIff_value h.2).bind_pure (p.1, ·))

/-- The entries of a tree map of properties. -/
def PropsFit (props : List (String × Value)) : Prop := IsU64 props.length ∧ ∀ p ∈ props, PropFits p
deriving Decidable

/-- Every value is read back. -/
def PropsShallow (props : List (String × Value)) : Prop := ∀ p ∈ props, p.2.Shallow
deriving Decidable

theorem readsIff_props {props : List (String × Value)} (h : PropsFit props) :
    ReadsIff (rCounted rProp) (wCounted wProp props) props (PropsShallow props) :=
  readsIff_counted h.1 fun p hp => readsIff_prop (h.2 p hp)

theorem readsIff_patches {patches : Map String Value} (h : PropsFit patches.pairs) (t : Bool) :
    ReadsIff rPatches (wPatches patches t) (patches, t) (PropsShallow patches.pairs) := by
  have hprops := (readsIff_props h).bind_pure fun props => (insertAll ∅ props, t)
  rw [insertAll_pairs] at hprops
  exact bind_reads (reads_flag _ t) hprops

/-- A name set whose lengths are numbers of the source. -/
def NamesFit (names : Finset String) : Prop :=
  IsU64 (ascending names).length ∧ ∀ n ∈ ascending names, TextFits n
deriving Decidable

theorem reads_nameSet {names : Finset String} (h : NamesFit names) : Reads rNameSet (wNameSet names) names := by
  have hnames := (reads_counted h.1 fun n hn => reads_str (h.2 n hn)).bind_pure List.toFinset
  rwa [toFinset_ascending] at hnames

/-! ## Records -/

/-- The lengths of a node row. -/
@[mk_iff] structure NodeRowFits (row : NodeIdentity × NodeDelta) : Prop where
  label : TextFits row.1.label
  key : TextFits row.1.key
  value : row.1.value.Fits
  patches : PropsFit row.2.patches.pairs
  removed : NamesFit row.2.removed
  labelsAdded : NamesFit row.2.labelsAdded
  labelsRemoved : NamesFit row.2.labelsRemoved

instance (row : NodeIdentity × NodeDelta) : Decidable (NodeRowFits row) :=
  decidable_of_iff' _ (nodeRowFits_iff row)

/-- The values of a node row are read back. -/
def NodeRowShallow (row : NodeIdentity × NodeDelta) : Prop :=
  row.1.value.Shallow ∧ PropsShallow row.2.patches.pairs
deriving Decidable

theorem readsIff_node {row : NodeIdentity × NodeDelta} (h : NodeRowFits row) :
    ReadsIff decodeNode (encodeNode row) row (NodeRowShallow row) := by
  refine bind_reads (reads_str h.label) (bind_reads (reads_str h.key)
    ((readsIff_value h.value).bind ((readsIff_patches h.patches row.2.tombstoned).then_reads ?_)))
  exact (reads_flag _ row.2.replaced).bind ((reads_nameSet h.removed).bind
    ((reads_nameSet h.labelsAdded).bind ((reads_nameSet h.labelsRemoved).bind_pure _)))

/-- The numbers and lengths of an adjacency entry. -/
@[mk_iff] structure DeltaEdge.Fits (e : DeltaEdge) : Prop where
  other : IsU64 e.other
  reltype : TextFits e.reltype
  edgeId : ∀ id ∈ e.edgeId, IsU64 id
  key : ∀ kv ∈ e.key, PropFits kv

instance (e : DeltaEdge) : Decidable e.Fits := decidable_of_iff' _ (DeltaEdge.fits_iff e)

/-- The identifying value of an adjacency entry is read back. -/
def DeltaEdge.Shallow (e : DeltaEdge) : Prop := ∀ kv ∈ e.key, kv.2.Shallow
deriving Decidable

theorem readsIff_adjEdge {e : DeltaEdge} (h : e.Fits) : ReadsIff rAdjEdge (wAdjEdge e) e e.Shallow := by
  have hid := readsIff_option "l0 offheap: short adj edge_id tag" fun id hid => (reads_uvarint (h.edgeId id hid)).iff
  refine bind_reads (reads_uvarint h.other) (bind_reads (reads_str h.reltype)
    (bind_reads (hid.reads fun _ _ => trivial)
      ((readsIff_option _ fun kv hkv => readsIff_prop (h.key kv hkv)).then_reads ?_)))
  exact (reads_flag _ e.tombstoned).bind_pure _

/-- The numbers and lengths of an adjacency record. -/
def AdjFits (edges : List DeltaEdge) : Prop := IsU64 edges.length ∧ ∀ e ∈ edges, e.Fits
deriving Decidable

/-- The values of an adjacency record are read back. -/
def AdjShallow (edges : List DeltaEdge) : Prop := ∀ e ∈ edges, e.Shallow
deriving Decidable

theorem readsIff_adj {edges : List DeltaEdge} (h : AdjFits edges) :
    ReadsIff decodeAdj (encodeAdj edges) edges (AdjShallow edges) :=
  readsIff_counted h.1 fun e he => readsIff_adjEdge (h.2 e he)

theorem readsIff_edge {delta : EdgeDelta} (h : PropsFit delta.patches.pairs) :
    ReadsIff decodeEdge (encodeEdge delta) delta (PropsShallow delta.patches.pairs) :=
  (readsIff_patches h delta.tombstoned).then_reads ((reads_flag _ delta.replaced).bind_pure _)

/-! ## The meta block -/

/-- A list of ids. -/
def IdsFit (ids : List Nat) : Prop := IsU64 ids.length ∧ ∀ id ∈ ids, IsU64 id
deriving Decidable

/-- A name-keyed index of ids. -/
def LabelIdsFit (entries : List (String × List Nat)) : Prop :=
  IsU64 entries.length ∧ ∀ e ∈ entries, TextFits e.1 ∧ IdsFit e.2
deriving Decidable

theorem reads_u64s {ids : List Nat} (h : IdsFit ids) : Reads rU64s (wU64s ids) ids :=
  reads_counted h.1 fun id hid => reads_uvarint (h.2 id hid)

theorem reads_labelIds {entries : List (String × List Nat)} (h : LabelIdsFit entries) :
    Reads rLabelIds (wLabelIds entries) entries :=
  reads_counted h.1 fun e he => (reads_str (h.2 e he).1).bind ((reads_u64s (h.2 e he).2).bind_pure _)

@[mk_iff] structure SegmentScalars.Fits (s : SegmentScalars) : Prop where
  syntheticBase : IsU64 s.syntheticBase
  edgeSyntheticBase : IsU64 s.edgeSyntheticBase
  nodeDeltaCount : IsU64 s.nodeDeltaCount
  edgeDeltaCount : IsU64 s.edgeDeltaCount
  bornCount : IsU64 s.bornCount
  bornEdgeCount : IsU64 s.bornEdgeCount

instance (s : SegmentScalars) : Decidable s.Fits := decidable_of_iff' _ (SegmentScalars.fits_iff s)

theorem reads_scalars {s : SegmentScalars} (h : s.Fits) : Reads SegmentScalars.read s.write s :=
  (reads_uvarint h.syntheticBase).bind ((reads_uvarint h.edgeSyntheticBase).bind
    ((reads_uvarint h.nodeDeltaCount).bind ((reads_uvarint h.edgeDeltaCount).bind
      ((reads_uvarint h.bornCount).bind ((reads_uvarint h.bornEdgeCount).bind_pure _)))))

@[mk_iff] structure BornIndexEntry.Fits (e : BornIndexEntry) : Prop where
  label : TextFits e.label
  id : IsU64 e.id
  props : PropsFit e.props

instance (e : BornIndexEntry) : Decidable e.Fits := decidable_of_iff' _ (BornIndexEntry.fits_iff e)

theorem readsIff_bornIndexEntry {e : BornIndexEntry} (h : e.Fits) :
    ReadsIff BornIndexEntry.read e.write e (PropsShallow e.props) :=
  bind_reads (reads_str h.label) (bind_reads (reads_uvarint h.id)
    ((readsIff_props h.props).bind_pure _))

@[mk_iff] structure Secondaries.Fits (s : Secondaries) : Prop where
  bornByLabel : LabelIdsFit s.bornByLabel
  bornIndex : IsU64 s.bornIndex.length ∧ ∀ e ∈ s.bornIndex, e.Fits
  corePatched : IsU64 s.corePatched.length ∧ ∀ e ∈ s.corePatched, TextFits e.1 ∧ TextFits e.2.1 ∧ IsU64 e.2.2
  bornByIdentity : IsU64 s.bornByIdentity.length ∧ ∀ e ∈ s.bornByIdentity, IsU64 e.1.length ∧ IsU64 e.2

instance (s : Secondaries) : Decidable s.Fits := decidable_of_iff' _ (Secondaries.fits_iff s)

theorem reads_corePatched {e : String × String × Nat}
    (h : TextFits e.1 ∧ TextFits e.2.1 ∧ IsU64 e.2.2) : Reads rCorePatched (wCorePatched e) e :=
  (reads_str h.1).bind ((reads_str h.2.1).bind ((reads_uvarint h.2.2).bind_pure _))

theorem reads_bornIdentity {e : Bytes × Nat} (h : IsU64 e.1.length ∧ IsU64 e.2) :
    Reads rBornIdentity (wBornIdentity e) e :=
  (reads_uvarint h.1).bind ((reads_chunk _ rfl).bind ((reads_uvarint h.2).bind_pure _))

theorem readsIff_secondaries {s : Secondaries} (h : s.Fits) :
    ReadsIff Secondaries.read s.write s (∀ e ∈ s.bornIndex, PropsShallow e.props) := by
  refine bind_reads (reads_labelIds h.bornByLabel) ((readsIff_counted h.bornIndex.1
    fun e he => readsIff_bornIndexEntry (h.bornIndex.2 e he)).then_reads ?_)
  exact (reads_counted h.corePatched.1 fun e he => reads_corePatched (h.corePatched.2 e he)).bind
    ((reads_counted h.bornByIdentity.1 fun e he => reads_bornIdentity (h.bornByIdentity.2 e he)).bind_pure _)

/-- The numbers and lengths of a meta block. -/
@[mk_iff] structure SegmentMeta.Fits (m : SegmentMeta) : Prop where
  scope : m.scope < 256 ^ 16
  scalars : m.scalars.Fits
  secondaries : m.secondaries.Fits
  tombstoned : IdsFit m.tombstoned
  bornEdgesByReltype : IsU64 m.bornEdgesByReltype.length ∧ ∀ e ∈ m.bornEdgesByReltype, TextFits e.1 ∧ IsU64 e.2
  addedLabelIds : LabelIdsFit m.addedLabelIds
  removedLabelIds : LabelIdsFit m.removedLabelIds
  labelOverlayIds : IdsFit m.labelOverlayIds
  corePatchedEdges : IsU64 m.corePatchedEdges.length ∧
    ∀ e ∈ m.corePatchedEdges, IsU64 e.1 ∧ IsU64 e.2.1 ∧ IsU64 e.2.2.1 ∧ TextFits e.2.2.2

instance (m : SegmentMeta) : Decidable m.Fits := decidable_of_iff' _ (SegmentMeta.fits_iff m)

theorem reads_reltypeCount {e : String × Nat} (h : TextFits e.1 ∧ IsU64 e.2) :
    Reads rReltypeCount (wReltypeCount e) e :=
  (reads_str h.1).bind ((reads_uvarint h.2).bind_pure _)

theorem reads_patchedEdge {e : Nat × Nat × Nat × String}
    (h : IsU64 e.1 ∧ IsU64 e.2.1 ∧ IsU64 e.2.2.1 ∧ TextFits e.2.2.2) : Reads rPatchedEdge (wPatchedEdge e) e :=
  (reads_uvarint h.1).bind ((reads_uvarint h.2.1).bind ((reads_uvarint h.2.2.1).bind
    ((reads_str h.2.2.2).bind_pure _)))

/-- **The meta block is read back exactly when the born nodes' index values are shallow.** -/
theorem readsIff_meta {m : SegmentMeta} (h : m.Fits) : ReadsIff SegmentMeta.read m.write m
      (∀ e ∈ m.secondaries.bornIndex, PropsShallow e.props) := by
  have hversion : Reads readVersion (writeUvarint offheapVersion ++ []) () :=
    (reads_uvarint (by decide)).bind (reads_pure ())
  refine bind_reads hversion (bind_reads (reads_littleEndian _ h.scope)
    (bind_reads (reads_scalars h.scalars) ((readsIff_secondaries h.secondaries).then_reads ?_)))
  have hreltypes := reads_counted h.bornEdgesByReltype.1 fun e he => reads_reltypeCount (h.bornEdgesByReltype.2 e he)
  have hedges := reads_counted h.corePatchedEdges.1 fun e he => reads_patchedEdge (h.corePatchedEdges.2 e he)
  exact (reads_u64s h.tombstoned).bind ((reads_flag _ m.edgeTombstones).bind (hreltypes.bind
    ((reads_flag _ m.hasLabelOverlay).bind ((reads_labelIds h.addedLabelIds).bind
      ((reads_labelIds h.removedLabelIds).bind ((reads_u64s h.labelOverlayIds).bind
        (hedges.bind_pure _)))))))

/-! ## What the writer accumulates -/

/-- The delta changes the labels of its node. -/
def NodeDelta.Relabels (d : NodeDelta) : Bool :=
  !(decide (d.labelsAdded = ∅) && decide (d.labelsRemoved = ∅))

namespace SegmentWriter

theorem pushNode_eq (w : SegmentWriter) (row : Nat × NodeIdentity × NodeDelta) : w.pushNode row =
      { w with
        node := w.node ++ [encodeNode row.2]
        nodeKeys := w.nodeKeys ++ [row.1]
        tombstoned := w.tombstoned ++ bif row.2.2.tombstoned then [row.1] else []
        hasLabelOverlay := w.hasLabelOverlay || row.2.2.Relabels
        labelOverlayIds := w.labelOverlayIds ++ bif row.2.2.Relabels then [row.1] else []
        addedLabelIds := fileLabels w.addedLabelIds row.2.2.labelsAdded row.1
        removedLabelIds := fileLabels w.removedLabelIds row.2.2.labelsRemoved row.1 } := by
  obtain ⟨dense, id, d⟩ := row
  have hempty : ∀ ids, fileLabels ids ∅ dense = ids := fun _ => rfl
  by_cases hl : d.labelsAdded = ∅ ∧ d.labelsRemoved = ∅
  · cases ht : d.tombstoned <;>
      simp [pushNode, NodeDelta.Relabels, hl, ht, hempty]
  · have hrelabels : d.Relabels = true := by
      simpa [NodeDelta.Relabels] using not_and_or.mp hl
    cases ht : d.tombstoned <;> simp [pushNode, if_neg hl, ht, hrelabels]

/-- The nodes of a segment, filed under the labels `labels` names of each. -/
def labelPairs (labels : NodeDelta → Finset String) (nodes : List (Nat × NodeIdentity × NodeDelta)) :
    List (String × Nat) :=
  nodes.flatMap fun row => (ascending (labels row.2.2)).map (·, row.1)

theorem foldl_pushNode (nodes : List (Nat × NodeIdentity × NodeDelta)) (w : SegmentWriter) : nodes.foldl pushNode w =
      { w with
        node := w.node ++ nodes.map fun row => encodeNode row.2
        nodeKeys := w.nodeKeys ++ nodes.map Prod.fst
        tombstoned := w.tombstoned ++ (nodes.filter (·.2.2.tombstoned)).map Prod.fst
        hasLabelOverlay := w.hasLabelOverlay || nodes.any (·.2.2.Relabels)
        labelOverlayIds := w.labelOverlayIds ++ (nodes.filter (·.2.2.Relabels)).map Prod.fst
        addedLabelIds := fileAll w.addedLabelIds (labelPairs (·.labelsAdded) nodes)
        removedLabelIds := fileAll w.removedLabelIds (labelPairs (·.labelsRemoved) nodes) } := by
  induction nodes generalizing w with
  | nil => simp [labelPairs, fileAll]
  | cons row nodes ih =>
    rw [foldl_cons, ih, pushNode_eq]
    cases ht : row.2.2.tombstoned <;> cases hl : row.2.2.Relabels <;>
      simp [labelPairs, fileAll, fileLabels, ht, hl]

/-- A live born edge, as the tally sees it. -/
def countsLive (e : DeltaEdge) : Bool := !e.tombstoned && e.edgeId.isSome

theorem foldl_countEdge (edges : List DeltaEdge) (w : SegmentWriter) : edges.foldl countEdge w =
      { w with
        edgeTombstones := w.edgeTombstones || edges.any (·.tombstoned)
        bornEdgesByReltype :=
          tallyAll w.bornEdgesByReltype ((edges.filter countsLive).map (·.reltype)) } := by
  induction edges generalizing w with
  | nil => simp [tallyAll]
  | cons e edges ih =>
    rw [foldl_cons, ih, countEdge]
    cases ht : e.tombstoned <;> cases hid : e.edgeId.isSome <;>
      simp [countsLive, tallyAll, ht, hid]

theorem foldl_pushAdjOut (rows : List (Nat × List DeltaEdge)) (w : SegmentWriter) : rows.foldl pushAdjOut w =
      { w with
        adjOut := w.adjOut ++ rows.map fun row => encodeAdj row.2
        adjOutKeys := w.adjOutKeys ++ rows.map Prod.fst
        edgeTombstones := w.edgeTombstones || (rows.flatMap Prod.snd).any (·.tombstoned)
        bornEdgesByReltype := tallyAll w.bornEdgesByReltype
          (((rows.flatMap Prod.snd).filter countsLive).map (·.reltype)) } := by
  induction rows generalizing w with
  | nil => simp [tallyAll]
  | cons row rows ih =>
    rw [foldl_cons, ih, pushAdjOut, foldl_countEdge]
    simp [tallyAll, Bool.or_assoc]

theorem foldl_pushAdjIn (rows : List (Nat × List DeltaEdge)) (w : SegmentWriter) : rows.foldl pushAdjIn w =
      { w with
        adjIn := w.adjIn ++ rows.map fun row => encodeAdj row.2
        adjInKeys := w.adjInKeys ++ rows.map Prod.fst } := by
  induction rows generalizing w with
  | nil => simp
  | cons row rows ih => rw [foldl_cons, ih, pushAdjIn]; simp

theorem foldl_pushEdge (rows : List (Nat × EdgeDelta)) (w : SegmentWriter) : rows.foldl pushEdge w =
      { w with
        edge := w.edge ++ rows.map fun row => encodeEdge row.2
        edgeKeys := w.edgeKeys ++ rows.map Prod.fst } := by
  induction rows generalizing w with
  | nil => simp
  | cons row rows ih => rw [foldl_cons, ih, pushEdge]; simp

end SegmentWriter

/-! ## Opening a written segment -/

/-- The numbers and lengths of a whole segment. -/
@[mk_iff] structure SegmentData.Fits (data : SegmentData) (scope : Nat) : Prop where
  nodes : ∀ row ∈ data.nodes, NodeRowFits row.2
  adjOut : ∀ row ∈ data.adjOut, AdjFits row.2
  adjIn : ∀ row ∈ data.adjIn, AdjFits row.2
  edges : ∀ row ∈ data.edges, PropsFit row.2.patches.pairs
  resident : ((ofData data).toMeta scope).Fits

instance (data : SegmentData) (scope : Nat) : Decidable (data.Fits scope) :=
  decidable_of_iff' _ (fits_iff data scope)

/-- The values of a whole segment are read back. -/
structure SegmentData.Shallow (data : SegmentData) : Prop where
  nodes : ∀ row ∈ data.nodes, NodeRowShallow row.2
  adjOut : ∀ row ∈ data.adjOut, AdjShallow row.2
  adjIn : ∀ row ∈ data.adjIn, AdjShallow row.2
  edges : ∀ row ∈ data.edges, PropsShallow row.2.patches.pairs
  bornIndex : ∀ e ∈ data.secondaries.bornIndex, PropsShallow e.props

/-- The reader of a written segment. -/
def SegmentData.reader (data : SegmentData) (scope : Nat) : L0Reader :=
  let files := writeSegment data scope
  { resident := (ofData data).toMeta scope
    node := files.node, adjOut := files.adjOut, adjIn := files.adjIn, edge := files.edge }

/-- The reader, field by field in terms of the data. -/
theorem SegmentData.reader_eq (data : SegmentData) (scope : Nat) : data.reader scope =
      { resident :=
          { scope
            scalars := data.scalars
            secondaries := data.secondaries
            tombstoned := (data.nodes.filter (·.2.2.tombstoned)).map Prod.fst
            edgeTombstones := (data.adjOut.flatMap Prod.snd).any (·.tombstoned)
            bornEdgesByReltype := (tallyAll ∅ (((data.adjOut.flatMap Prod.snd).filter
              countsLive).map (·.reltype))).pairs
            hasLabelOverlay := data.nodes.any (·.2.2.Relabels)
            addedLabelIds := (fileAll ∅ (labelPairs (·.labelsAdded) data.nodes)).pairs
            removedLabelIds :=
              (fileAll ∅ (labelPairs (·.labelsRemoved) data.nodes)).pairs
            labelOverlayIds := (data.nodes.filter (·.2.2.Relabels)).map Prod.fst
            corePatchedEdges := data.corePatchedEdges }
        node := ⟨data.nodes.map Prod.fst, data.nodes.map fun row => encodeNode row.2⟩
        adjOut := ⟨data.adjOut.map Prod.fst, data.adjOut.map fun row => encodeAdj row.2⟩
        adjIn := ⟨data.adjIn.map Prod.fst, data.adjIn.map fun row => encodeAdj row.2⟩
        edge := ⟨data.edges.map Prod.fst, data.edges.map fun row => encodeEdge row.2⟩ } := by
  rw [reader, writeSegment, ofData, foldl_pushNode,
    foldl_pushAdjOut, foldl_pushAdjIn, foldl_pushEdge]
  rfl

/-- The answers of a written segment, once its records are decoded. -/
def SegmentData.answers (data : SegmentData) (scope : Nat) : Level :=
  (data.reader scope).answers (data.nodes.map Prod.snd) (data.adjOut.map Prod.snd)
    (data.adjIn.map Prod.snd) (data.edges.map Prod.snd)

theorem openSegment_eq_ok {data : SegmentData} {scope : Nat}
    (hfits : ((ofData data).toMeta scope).Fits) {r : L0Reader} : openSegment (writeSegment data scope) = .ok r ↔
      (∀ e ∈ data.secondaries.bornIndex, PropsShallow e.props) ∧ r = data.reader scope := by
  have hmeta := readsIff_meta hfits
  have hbody : (writeSegment data scope).body =
    ((ofData data).toMeta scope).write ++ [] := (append_nil _).symm
  by_cases hshallow : ∀ e ∈ data.secondaries.bornIndex, PropsShallow e.props
  · rw [openSegment, hbody, hmeta.reads hshallow []]
    exact ⟨fun h => ⟨hshallow, (Except.ok.inj h).symm⟩, fun h => by rw [h.2]; rfl⟩
  · obtain ⟨e, he⟩ := hmeta.refuses hshallow []
    rw [openSegment, hbody, he]
    exact ⟨nofun, fun h => absurd h.1 hshallow⟩

/-- The records of a written segment decode exactly when their values are shallow. -/
theorem decodeAll_rows {α : Type} {read : Read α} {write : α → Bytes} {ok : α → Prop}
    {rows : List (Nat × α)} (h : ∀ row ∈ rows, ReadsIff read (write row.2) row.2 (ok row.2)) {decoded : List α} :
    decodeAll read (rows.map fun row => write row.2) = .ok decoded ↔
      decoded = rows.map Prod.snd ∧ ∀ row ∈ rows, ok row.2 := by
  have hall := @decodeAll_eq_ok _ _ _ read write (rows.map Prod.snd) ok decoded (forall_mem_map.mpr h)
  rwa [map_map, forall_mem_map] at hall

/-- **A written segment opens as a level exactly when its values are shallow**, and then answers
from the data it was written from. Opening reads the meta block only; the rows are read when
they are asked for, so the level stands for all answers at once and fails if any of them
would. -/
theorem writeSegment_level_eq_ok {data : SegmentData} {scope : Nat} (hfits : data.Fits scope) {l : Level} :
    (openSegment (writeSegment data scope) >>= L0Reader.level) = .ok l ↔ data.Shallow ∧ l = data.answers scope := by
  have hnode : (data.reader scope).node.records = data.nodes.map fun row => encodeNode row.2 := by
    rw [reader_eq]
  have hout : (data.reader scope).adjOut.records = data.adjOut.map fun row => encodeAdj row.2 := by
    rw [reader_eq]
  have hin : (data.reader scope).adjIn.records = data.adjIn.map fun row => encodeAdj row.2 := by
    rw [reader_eq]
  have hedge : (data.reader scope).edge.records = data.edges.map fun row => encodeEdge row.2 := by
    rw [reader_eq]
  have nodes := @decodeAll_rows _ _ _ _ _ fun row hrow => readsIff_node (hfits.nodes row hrow)
  have out := @decodeAll_rows _ _ _ _ _ fun row hrow => readsIff_adj (hfits.adjOut row hrow)
  have inn := @decodeAll_rows _ _ _ _ _ fun row hrow => readsIff_adj (hfits.adjIn row hrow)
  have edges := @decodeAll_rows _ _ _ (fun d => PropsShallow d.patches.pairs) _
    fun row hrow => readsIff_edge (hfits.edges row hrow)
  simp only [bind_eq_ok, openSegment_eq_ok hfits.resident, L0Reader.level]
  constructor
  · rintro ⟨_, ⟨hindex, rfl⟩, _, h1, _, h2, _, h3, _, h4, hl⟩
    obtain ⟨rfl, snodes⟩ := nodes.mp (hnode ▸ h1)
    obtain ⟨rfl, sout⟩ := out.mp (hout ▸ h2)
    obtain ⟨rfl, sin⟩ := inn.mp (hin ▸ h3)
    obtain ⟨rfl, sedges⟩ := edges.mp (hedge ▸ h4)
    exact ⟨⟨snodes, sout, sin, sedges, hindex⟩, (Except.ok.inj hl).symm⟩
  · rintro ⟨h, rfl⟩
    exact ⟨_, ⟨h.bornIndex, rfl⟩, _, hnode ▸ nodes.mpr ⟨rfl, h.nodes⟩, _,
      hout ▸ out.mpr ⟨rfl, h.adjOut⟩, _, hin ▸ inn.mpr ⟨rfl, h.adjIn⟩, _,
      hedge ▸ edges.mpr ⟨rfl, h.edges⟩, rfl⟩

end Slater
