import Slater.Delta.OffheapCodec

/-!
# What a segment derives from its rows

A segment stores rows under ascending keys. The reader finds a row by its key, and the writer files
beside the rows what it counts and collects while it appends them: tombstones, label changes, live
born edges by type. `FromRows` says that those answers of a level are the ones its rows determine, and
`answers_fromRows` that every segment written from keyed rows is such a level.

**What it does not establish.** The rows themselves are taken as they were appended; that they hold what the
memtable held is the subject of `Slater.Delta.Spill`, and that a merge of segments writes keyed rows of
`Slater.Delta.OffheapMerge`.
-/

namespace Slater

open Map List Option SegmentWriter

variable {α : Type} {k : Nat}

/-! ## Record files -/

theorem rowAt_cons (k k' : Nat) (ks : List Nat) (row : α) (rows : List α) :
    rowAt (k' :: ks) (row :: rows) k = if k' = k then some row else rowAt ks rows k := by
  unfold rowAt
  by_cases hk : k' = k
  · simp [idxOf?_cons, hk]
  · cases hi : ks.idxOf? k <;> simp [idxOf?_cons, hk, hi]

theorem rowAt_eq_some {rows : List (Nat × α)} (h : (rows.map Prod.fst).Nodup) {a : α} :
    rowAt (rows.map Prod.fst) (rows.map Prod.snd) k = some a ↔ (k, a) ∈ rows := by
  induction rows with
  | nil => simp [rowAt]
  | cons row rows ih =>
    rw [map_cons, nodup_cons] at h
    rw [map_cons, map_cons, rowAt_cons, mem_cons, Prod.ext_iff]
    by_cases hk : row.1 = k
    · have hnot : (k, a) ∉ rows := fun hmem => h.1 (hk ▸ mem_map.mpr ⟨_, hmem, rfl⟩)
      simp [hk, hnot, eq_comm]
    · simp [hk, Ne.symm hk, ih h.2]

theorem mem_of_rowAt {keys : List Nat} {rows : List α} {a : α} (h : rowAt keys rows k = some a) : a ∈ rows := by
  obtain ⟨i, -, hi⟩ := bind_eq_some_iff.mp h
  exact mem_of_getElem? hi

theorem rowAt_keyed {ks : List Nat} (h : ks.Nodup) (f : Nat → Option α) (k : Nat) :
    rowAt ((keyed ks f).map Prod.fst) ((keyed ks f).map Prod.snd) k = if k ∈ ks then f k else none := by
  apply ext
  intro a
  rw [rowAt_eq_some (keyed_nodup h f), mem_keyed]
  split <;> simp_all

/-- Keys that hold every row lose none. -/
theorem rowAt_keyed_of_mem {ks : List Nat} (h : ks.Nodup) {f : Nat → Option α} (hk : ∀ a, f k = some a → k ∈ ks) :
    rowAt ((keyed ks f).map Prod.fst) ((keyed ks f).map Prod.snd) k = f k := by
  rw [rowAt_keyed h]
  split
  next => rfl
  next hnot => exact (eq_none_iff_forall_ne_some.mpr fun a ha => hnot (hk a ha)).symm

theorem mem_rowKeys {rows : List (Nat × α)} (h : (rows.map Prod.fst).Nodup) :
    k ∈ (rows.map Prod.fst).toFinset ↔ (rowAt (rows.map Prod.fst) (rows.map Prod.snd) k).isSome := by
  rw [isSome_iff_exists, List.mem_toFinset, List.mem_map]
  simp only [rowAt_eq_some h]
  constructor
  · rintro ⟨row, hrow, rfl⟩
    exact ⟨row.2, hrow⟩
  · rintro ⟨a, ha⟩
    exact ⟨(k, a), ha, rfl⟩

theorem find?_pairs (m : Map String Value) (k : String) : (m.pairs.find? (·.1 == k)).map (·.2) = m.lookup k := by
  cases hfind : m.pairs.find? (·.1 == k) with
  | some p =>
    have hk : p.1 = k := by simpa using find?_some hfind
    exact (hk ▸ mem_pairs.mp (mem_of_find?_eq_some hfind)).symm
  | none =>
    have hnone : ∀ v, m.lookup k ≠ some v := fun v hv => by
      simpa using find?_eq_none.mp hfind (k, v) (mem_pairs.mpr hv)
    exact (eq_none_iff_forall_ne_some.mpr hnone).symm

/-! ## The label indexes -/

section Labels

variable (labels : NodeDelta → Finset String) (nodes : List (Nat × NodeIdentity × NodeDelta))

theorem labelPairs_filter (label : String) :
    (((labelPairs labels nodes).filter fun kv => kv.1 = label).map Prod.snd).toFinset =
      ((nodes.filter fun row => decide (label ∈ labels row.2.2)).map Prod.fst).toFinset := by
  ext d
  simp only [labelPairs, List.mem_toFinset, List.mem_map, List.mem_filter,
    mem_flatMap, mem_ascending, decide_eq_true_eq]
  constructor
  · rintro ⟨_, ⟨⟨row, hrow, l, hl, rfl⟩, rfl⟩, rfl⟩
    exact ⟨row, ⟨hrow, hl⟩, rfl⟩
  · rintro ⟨row, ⟨hrow, hl⟩, rfl⟩
    exact ⟨(label, row.1), ⟨⟨row, hrow, label, hl, rfl⟩, rfl⟩, rfl⟩

/-- A label index read back: the nodes whose row names the label. -/
theorem idsFiled (label : String) : (((insertAll ∅ (fileAll ∅ (labelPairs labels nodes)).pairs :
      Map String (List Nat)).lookup label).getD []).toFinset =
      ((nodes.filter fun row => decide (label ∈ labels row.2.2)).map Prod.fst).toFinset := by
  rw [insertAll_pairs, getD_fileAll, Finmap.lookup_empty, getD_none, nil_append,
    labelPairs_filter]

end Labels

/-! ## Levels whose rows decide -/

namespace Level

variable (l : Level)

/-- The dense ids whose delta passes `p`. -/
def idsWhere (p : NodeDelta → Bool) : Finset Nat :=
  l.nodeDenseIds.filter fun d => (l.nodePatch d).any p

/-- The live born edges of a type that the outgoing lists show. -/
def liveBorn (reltype : String) : Nat :=
  ∑ node ∈ l.adjOutNodes, (l.outEdges node).countP fun e => countsLive e && e.reltype == reltype

/-- The answers that the rows of a level determine are determined by them. Each answer is said
in terms of the rows, the born ids or the adjacency of the level. -/
structure FromRows : Prop where
  isEmpty : l.isEmpty =
    decide (l.nodeDenseIds = ∅ ∧ l.edgeIds = ∅ ∧ l.bornCount = 0 ∧ l.bornEdgeCount = 0)
  nodeDenseIds : ∀ d, d ∈ l.nodeDenseIds ↔ (l.nodePatch d).isSome
  nodeIdentity : ∀ d, (l.nodeIdentity d).isSome = (l.nodePatch d).isSome
  nodeTombstoned : ∀ d, l.nodeTombstoned d = (l.nodePatch d).map (·.tombstoned)
  tombstonedIds : l.tombstonedIds = l.idsWhere (·.tombstoned)
  idsWithAddedLabel : ∀ label, l.idsWithAddedLabel label = l.idsWhere fun d => decide (label ∈ d.labelsAdded)
  idsWithRemovedLabel : ∀ label, l.idsWithRemovedLabel label = l.idsWhere fun d => decide (label ∈ d.labelsRemoved)
  labelOverlayIds : l.labelOverlayIds = l.idsWhere (·.Relabels)
  hasLabelOverlay : l.hasLabelOverlay = decide (l.labelOverlayIds ≠ ∅)
  bornCountWithLabel : ∀ label, l.bornCountWithLabel label = (l.bornIdsWithLabel label).length
  bornLabels : ∀ label, label ∈ l.bornLabels ↔ l.bornIdsWithLabel label ≠ []
  adjOutNodes : ∀ node, node ∈ l.adjOutNodes ↔ l.outEdges node ≠ []
  hasEdgeTombstones : l.hasEdgeTombstones = true ↔ ∃ node, ∃ e ∈ l.outEdges node, e.tombstoned = true
  bornEdgeCountWithReltype : ∀ reltype, l.bornEdgeCountWithReltype reltype = l.liveBorn reltype
  bornEdgeReltypes : ∀ reltype, reltype ∈ l.bornEdgeReltypes ↔ 0 < l.liveBorn reltype
  edgeIds : ∀ id, id ∈ l.edgeIds ↔ (l.edgeDelta id).isSome

end Level

/-! ## Written segments -/

/-- The rows of a segment are keyed: no key twice, and no list without an entry. -/
structure SegmentData.Keyed (data : SegmentData) : Prop where
  nodes : (data.nodes.map Prod.fst).Nodup
  adjOut : (data.adjOut.map Prod.fst).Nodup
  listed : ∀ row ∈ data.adjOut, row.2 ≠ []
  edges : (data.edges.map Prod.fst).Nodup
  bornByLabel : (data.secondaries.bornByLabel.map Prod.fst).Nodup
  labelled : ∀ e ∈ data.secondaries.bornByLabel, e.2 ≠ []

namespace SegmentData

variable (data : SegmentData)

/-- The row of a node. -/
def nodeRow (d : Nat) : Option (NodeIdentity × NodeDelta) :=
  rowAt (data.nodes.map Prod.fst) (data.nodes.map Prod.snd) d

/-- The outgoing edges of a node. -/
def outRow (node : Nat) : List DeltaEdge :=
  (rowAt (data.adjOut.map Prod.fst) (data.adjOut.map Prod.snd) node).getD []

/-- The incoming edges of a node. -/
def inRow (node : Nat) : List DeltaEdge :=
  (rowAt (data.adjIn.map Prod.fst) (data.adjIn.map Prod.snd) node).getD []

/-- The delta of an edge. -/
def edgeRow (id : Nat) : Option EdgeDelta :=
  rowAt (data.edges.map Prod.fst) (data.edges.map Prod.snd) id

/-- The born nodes filed under a label. -/
def bornRow (label : String) : Option (List Nat) :=
  (insertAll ∅ data.secondaries.bornByLabel : Map String (List Nat)).lookup label

/-- The types of the live born edges, row by row. -/
def liveTypes : List String :=
  ((data.adjOut.flatMap Prod.snd).filter countsLive).map (·.reltype)

/-- The answers of a written segment, in terms of its rows. -/
theorem answers_eq (scope : Nat) : data.answers scope =
      { isEmpty := (data.nodes.map Prod.fst).isEmpty && (data.edges.map Prod.fst).isEmpty &&
          data.scalars.bornCount == 0 && data.scalars.bornEdgeCount == 0
        nodeDeltaCount := data.scalars.nodeDeltaCount
        edgeDeltaCount := data.scalars.edgeDeltaCount
        syntheticBase := data.scalars.syntheticBase
        edgeSyntheticBase := data.scalars.edgeSyntheticBase
        bornCount := data.scalars.bornCount
        bornEdgeCount := data.scalars.bornEdgeCount
        tombstonedIds := ((data.nodes.filter (·.2.2.tombstoned)).map Prod.fst).toFinset
        bornCountWithLabel := fun label => ((data.bornRow label).getD []).length
        hasEdgeTombstones := (data.adjOut.flatMap Prod.snd).any (·.tombstoned)
        bornEdgeCountWithReltype := data.liveTypes.count
        bornLabels := (insertAll ∅ data.secondaries.bornByLabel : Map String (List Nat)).keys
        bornEdgeReltypes := data.liveTypes.toFinset
        nodePatch := fun d => (data.nodeRow d).map (·.2)
        nodeTombstoned := fun d => (data.nodeRow d).map (·.2.tombstoned)
        nodeIdentity := fun d => (data.nodeRow d).map (·.1)
        bornIdsWithLabel := fun label => (data.bornRow label).getD []
        idsWithAddedLabel := fun label => ((data.nodes.filter fun row =>
          decide (label ∈ row.2.2.labelsAdded)).map Prod.fst).toFinset
        idsWithRemovedLabel := fun label => ((data.nodes.filter fun row =>
          decide (label ∈ row.2.2.labelsRemoved)).map Prod.fst).toFinset
        labelOverlayIds := ((data.nodes.filter (·.2.2.Relabels)).map Prod.fst).toFinset
        hasLabelOverlay := data.nodes.any (·.2.2.Relabels)
        bornSyntheticForIdentity := fun id =>
          (insertAll ∅ data.secondaries.bornByIdentity : Map Bytes Nat).lookup (identityKeyBytes id)
        bornIdsInIndex := fun label prop pred =>
          (data.secondaries.bornIndex.filter fun e =>
            e.label == label && ((e.props.find? (·.1 == prop)).map (·.2)).any pred).map (·.id)
        coreIdsPatchedOnIndex := fun label prop =>
          ((data.secondaries.corePatched.filter fun e => e.1 == label && e.2.1 == prop).map
            (·.2.2)).toFinset
        outEdges := data.outRow
        inEdges := data.inRow
        edgeDelta := data.edgeRow
        nodeDenseIds := (data.nodes.map Prod.fst).toFinset
        adjOutNodes := (data.adjOut.map Prod.fst).toFinset
        edgeIds := (data.edges.map Prod.fst).toFinset
        corePatchedEdges := insertAll ∅ data.corePatchedEdges } := by
  rw [SegmentData.answers, SegmentData.reader_eq]
  have helim : ∀ o : Option (List Nat), o.elim 0 length = (o.getD []).length := by
    intro o
    cases o <;> rfl
  have htypes : (insertAll ∅ (tallyAll ∅ data.liveTypes).pairs : Map String Nat) =
    tallyAll ∅ data.liveTypes := insertAll_pairs _
  apply Level.ext
  case bornCountWithLabel => exact funext fun label => helim _
  case bornEdgeCountWithReltype =>
    funext reltype
    refine (congrArg (fun t : Map String Nat => (t.lookup reltype).getD 0) htypes).trans ?_
    rw [getD_tallyAll, Finmap.lookup_empty, getD_none, Nat.zero_add]
  case bornEdgeReltypes =>
    refine (congrArg Finmap.keys htypes).trans ?_
    ext reltype
    rw [mem_keys_iff, ← isSome_iff_exists, isSome_lookup_tallyAll]
    simp
  case idsWithAddedLabel => exact funext fun label => idsFiled (·.labelsAdded) data.nodes label
  case idsWithRemovedLabel => exact funext fun label => idsFiled (·.labelsRemoved) data.nodes label
  all_goals rfl

section Fields

variable (scope : Nat)

@[simp] theorem answers_nodePatch (d : Nat) :
    (data.answers scope).nodePatch d = (data.nodeRow d).map (·.2) := by rw [answers_eq]

@[simp] theorem answers_nodeIdentity (d : Nat) :
    (data.answers scope).nodeIdentity d = (data.nodeRow d).map (·.1) := by rw [answers_eq]

@[simp] theorem answers_outEdges (node : Nat) :
    (data.answers scope).outEdges node = data.outRow node := by rw [answers_eq]

@[simp] theorem answers_inEdges (node : Nat) :
    (data.answers scope).inEdges node = data.inRow node := by rw [answers_eq]

@[simp] theorem answers_edgeDelta (id : Nat) :
    (data.answers scope).edgeDelta id = data.edgeRow id := by rw [answers_eq]

end Fields

variable {data}

theorem Keyed.nodeRow_eq_some (h : data.Keyed) {d : Nat} {row : NodeIdentity × NodeDelta} :
    data.nodeRow d = some row ↔ (d, row) ∈ data.nodes := rowAt_eq_some h.nodes

theorem Keyed.outRow_of_mem (h : data.Keyed) {row : Nat × List DeltaEdge} (hrow : row ∈ data.adjOut) :
    data.outRow row.1 = row.2 := by
  rw [outRow, (rowAt_eq_some h.adjOut).mpr hrow, getD_some]

theorem mem_of_outRow {node : Nat} {e : DeltaEdge} (h : data.Keyed) (he : e ∈ data.outRow node) :
    (node, data.outRow node) ∈ data.adjOut := by
  unfold outRow at he ⊢
  cases hrow : rowAt (data.adjOut.map Prod.fst) (data.adjOut.map Prod.snd) node with
  | none => rw [hrow] at he; cases he
  | some edges => exact (rowAt_eq_some h.adjOut).mp hrow

section Shallow

variable (h : data.Shallow)
include h

theorem Shallow.nodeRow {d : Nat} {row : NodeIdentity × NodeDelta} (hrow : data.nodeRow d = some row) :
    NodeRowShallow row := by
  obtain ⟨row', hmem, rfl⟩ := mem_map.mp (mem_of_rowAt hrow)
  exact h.nodes row' hmem

theorem Shallow.outRow (node : Nat) : AdjShallow (data.outRow node) := by
  unfold SegmentData.outRow
  cases hrow : rowAt (data.adjOut.map Prod.fst) (data.adjOut.map Prod.snd) node with
  | none => exact nofun
  | some edges =>
    obtain ⟨row, hmem, rfl⟩ := mem_map.mp (mem_of_rowAt hrow)
    exact h.adjOut row hmem

theorem Shallow.inRow (node : Nat) : AdjShallow (data.inRow node) := by
  unfold SegmentData.inRow
  cases hrow : rowAt (data.adjIn.map Prod.fst) (data.adjIn.map Prod.snd) node with
  | none => exact nofun
  | some edges =>
    obtain ⟨row, hmem, rfl⟩ := mem_map.mp (mem_of_rowAt hrow)
    exact h.adjIn row hmem

theorem Shallow.edgeRow {id : Nat} {delta : EdgeDelta} (hrow : data.edgeRow id = some delta) :
    PropsShallow delta.patches.pairs := by
  obtain ⟨row, hmem, rfl⟩ := mem_map.mp (mem_of_rowAt hrow)
  exact h.edges row hmem

end Shallow

/-- The ids whose row passes `p`. -/
theorem Keyed.idsWhere (h : data.Keyed) (scope : Nat) (p : NodeDelta → Bool) :
    ((data.nodes.filter fun row => p row.2.2).map Prod.fst).toFinset = (data.answers scope).idsWhere p := by
  ext d
  simp only [Level.idsWhere, answers_eq, Finset.mem_filter, List.mem_toFinset, List.mem_map,
    mem_filter]
  constructor
  · rintro ⟨row, ⟨hrow, hp⟩, rfl⟩
    refine ⟨⟨row, hrow, rfl⟩, ?_⟩
    rw [h.nodeRow_eq_some.mpr hrow]
    exact hp
  · rintro ⟨-, hp⟩
    cases hrow : data.nodeRow d with
    | none => rw [hrow] at hp; cases hp
    | some row => exact ⟨(d, row), ⟨h.nodeRow_eq_some.mp hrow, by rwa [hrow] at hp⟩, rfl⟩

/-- The tally of live born edges counts them source by source. -/
theorem Keyed.count_liveTypes (h : data.Keyed) (scope : Nat) (reltype : String) :
    data.liveTypes.count reltype = (data.answers scope).liveBorn reltype := by
  have hrows : ∀ rows : List (Nat × List DeltaEdge),
      (((rows.flatMap Prod.snd).filter countsLive).map (·.reltype)).count reltype =
        (rows.map fun row => row.2.countP fun e =>
          countsLive e && e.reltype == reltype).sum := by
    intro rows
    induction rows with
    | nil => rfl
    | cons row rows ih =>
      rw [flatMap_cons, filter_append, map_append, count_append, count, countP_map, countP_filter]
      congr 1
      exact countP_congr fun e _ => by simp [and_comm]
  rw [Level.liveBorn, answers_eq, liveTypes, hrows, List.sum_toFinset _ h.adjOut, List.map_map]
  refine congrArg sum (map_congr_left fun row hrow => ?_)
  exact congrArg _ (h.outRow_of_mem hrow).symm

/-- **The answers of a written segment are those its rows determine.** -/
theorem Keyed.answers_fromRows (h : data.Keyed) (scope : Nat) : (data.answers scope).FromRows where
  isEmpty := by
    rw [answers_eq, Bool.eq_iff_iff]
    simp [and_assoc]
  nodeDenseIds := by
    intro d
    rw [answers_eq, isSome_map]
    exact mem_rowKeys h.nodes
  nodeIdentity := by simp [answers_eq]
  nodeTombstoned := by
    intro d
    rw [answers_eq, Option.map_map]
    rfl
  tombstonedIds := by
    rw [← h.idsWhere, answers_eq]
  idsWithAddedLabel := by
    intro label
    rw [← h.idsWhere, answers_eq]
  idsWithRemovedLabel := by
    intro label
    rw [← h.idsWhere, answers_eq]
  labelOverlayIds := by
    rw [← h.idsWhere, answers_eq]
  hasLabelOverlay := by
    rw [answers_eq, Bool.eq_iff_iff]
    simp
  bornCountWithLabel := by simp [answers_eq]
  bornLabels := by
    intro label
    rw [answers_eq, mem_keys_iff]
    simp only [bornRow]
    constructor
    · rintro ⟨ids, hids⟩
      rw [hids]
      exact h.labelled _ ((lookup_insertAll_eq_some h.bornByLabel).mp hids)
    · intro hne
      rw [← isSome_iff_exists, isSome_iff_ne_none]
      intro hnone
      rw [hnone] at hne
      exact hne rfl
  adjOutNodes := by
    intro node
    rw [answers_eq, List.mem_toFinset, List.mem_map]
    constructor
    · rintro ⟨row, hrow, rfl⟩
      show data.outRow row.1 ≠ []
      rw [h.outRow_of_mem hrow]
      exact h.listed row hrow
    · intro hne
      obtain ⟨e, he⟩ := exists_mem_of_ne_nil _ hne
      exact ⟨_, mem_of_outRow h he, rfl⟩
  hasEdgeTombstones := by
    rw [answers_eq, List.any_eq_true]
    simp only [mem_flatMap]
    constructor
    · rintro ⟨e, ⟨row, hrow, he⟩, ht⟩
      exact ⟨row.1, e, h.outRow_of_mem hrow ▸ he, ht⟩
    · rintro ⟨node, e, he, ht⟩
      exact ⟨e, ⟨_, mem_of_outRow h he, he⟩, ht⟩
  bornEdgeCountWithReltype := by
    intro reltype
    rw [← h.count_liveTypes, answers_eq]
  bornEdgeReltypes := by
    intro reltype
    rw [← h.count_liveTypes, answers_eq, List.mem_toFinset, List.count_pos_iff]
  edgeIds := by
    intro id
    rw [answers_eq]
    exact mem_rowKeys h.edges

end SegmentData

end Slater
