import Slater.Delta.Coherent
import Slater.Delta.SegmentReads

/-!
# A spilled level answers as the memtable did

A sealed level is written to disk from `to_segment_data` and read back through `L0Reader`. Most
answers come back whatever operations made the memtable. Seven things in it make some answer differ or
fail, and `Spillable` excludes exactly those: `spill_answers_iff` says that the opened segment answers
every question as the memtable does if and only if the memtable is spillable.

The two that ordinary statements produce are a level that holds nothing but relationship tombstones,
which the reader calls empty because it counts node and edge records and not adjacency, and a
deleted born relationship, which the reader leaves out of its tally of born relationships.

**What it does not establish.** One level is compared with itself before and after it is spilled. That a stack of
such levels survives compaction is another matter (`Slater.Delta.OffheapCompaction`), and the files are those a
writer left: damage to them is not considered.
-/

namespace Slater

open Map List Option Finmap Finset Memtable

namespace Memtable

variable (m : Memtable) {d : Nat} {id : NodeIdentity}

/-! ## The written rows -/

theorem nodeRow_snd (d : Nat) : (m.nodeRow d).map (·.2) = m.nodePatch d := by
  unfold nodeRow nodePatch
  cases m.byDense.lookup d with
  | none => rfl
  | some id => simp [Function.comp_def]

theorem nodeRow_fst (d : Nat) : (m.nodeRow d).map (·.1) = m.nodeIdentity d := by
  unfold nodeRow nodeIdentity
  cases m.byDense.lookup d with
  | none => rfl
  | some id => simp [Function.comp_def]

theorem mem_byDense {row : NodeIdentity × NodeDelta} (h : m.nodeRow d = some row) : d ∈ m.byDense.keys := by
  obtain ⟨id, hid, -⟩ := bind_eq_some_iff.mp h
  exact (mem_keys_iff ..).mpr ⟨id, hid⟩

/-- The node file holds the node of every registered dense id. -/
theorem rowAt_nodes (d : Nat) : m.toSegmentData.nodeRow d = m.nodeRow d :=
  rowAt_keyed_of_mem (ascending_nodup _) fun _ h => mem_ascending.mpr (m.mem_byDense h)

theorem mem_nodes {row : NodeIdentity × NodeDelta} : (d, row) ∈ m.toSegmentData.nodes ↔ m.nodeRow d = some row :=
  mem_keyed.trans ⟨And.right, fun h => ⟨mem_ascending.mpr (m.mem_byDense h), h⟩⟩

/-- An adjacency file holds the list of every node that has one. -/
theorem rowAt_adj (adj : Map Nat (List EdgeIdentity)) (outgoing : Bool) (node : Nat) :
    (rowAt (((ascending adj.keys).map fun n => (n, m.edgesFor adj n outgoing)).map Prod.fst)
      (((ascending adj.keys).map fun n => (n, m.edgesFor adj n outgoing)).map Prod.snd) node).getD [] =
      m.edgesFor adj node outgoing := by
  have hkeyed : (ascending adj.keys).map (fun n => (n, m.edgesFor adj n outgoing)) =
      keyed (ascending adj.keys) fun n => some (m.edgesFor adj n outgoing) := by
    simp [keyed]
  rw [hkeyed, rowAt_keyed (ascending_nodup _)]
  split
  next => rfl
  next h =>
    have hnone : adj.lookup node = none := by
      rwa [mem_ascending, Finmap.mem_keys, ← Finmap.lookup_eq_none] at h
    rw [edgesFor, hnone]
    rfl

theorem mem_segmentEdgeIds {id : Nat} {d : EdgeDelta} (h : m.edgeDeltaById id = some d) : id ∈ m.segmentEdgeIds := by
  unfold edgeDeltaById at h
  simp only [segmentEdgeIds, Finset.mem_union, Finset.mem_image, Finset.mem_range, mem_keys_iff]
  split at h
  next hlt =>
    obtain ⟨id', hid, _⟩ := bind_eq_some_iff.mp h
    exact .inr ⟨id', hid⟩
  next hge =>
    obtain ⟨id', hid, _⟩ := bind_eq_some_iff.mp h
    obtain ⟨hlt, _⟩ := List.getElem?_eq_some_iff.mp hid
    exact .inl ⟨id - m.edgeSyntheticBase, hlt, by omega⟩

/-- The edge file holds the delta of every edge that has one. -/
theorem rowAt_edges (id : Nat) : m.toSegmentData.edgeRow id = m.edgeDeltaById id :=
  rowAt_keyed_of_mem (ascending_nodup _) fun _ h => mem_ascending.mpr (m.mem_segmentEdgeIds h)

/-! ## The resident indexes -/

/-- The dense ids of the node rows whose delta passes `p`. -/
theorem idsWhere_rows (p : NodeDelta → Bool) :
    ((m.toSegmentData.nodes.filter fun row => p row.2.2).map Prod.fst).toFinset = m.idsWhere p := by
  ext d
  simp only [List.mem_toFinset, List.mem_map, List.mem_filter, idsWhere, Finset.mem_filter,
    ← m.nodeRow_snd]
  constructor
  · rintro ⟨⟨d, row⟩, ⟨hmem, hp⟩, rfl⟩
    have hrow := m.mem_nodes.mp hmem
    exact ⟨m.mem_byDense hrow, by rw [hrow]; exact hp⟩
  · rintro ⟨_, hp⟩
    cases hrow : m.nodeRow d with
    | none => rw [hrow] at hp; cases hp
    | some row => exact ⟨(d, row), ⟨m.mem_nodes.mpr hrow, by rwa [hrow] at hp⟩, rfl⟩

variable {m}

/-- The born keys are those with entries, in allocation order. -/
theorem Coherent.bornEntries_fst (hm : m.Coherent) : m.bornEntries.map (·.1) = m.born := by
  have hall : ∀ id ∈ m.born, ((m.nodes.lookup id).bind fun entry =>
      entry.synthetic.map fun dense => (id, dense, entry.delta)).map (·.1) = some id := by
    intro id hid
    have hs := (hm.born id).mp hid
    unfold entryOf at hs
    cases he : m.nodes.lookup id with
    | none => rw [he] at hs; cases hs
    | some e =>
      rw [he, getD_some] at hs
      obtain ⟨d, hd⟩ := isSome_iff_exists.mp hs
      simp [hd]
  rw [bornEntries, map_filterMap]
  have hcongr := filterMap_congr hall
  rw [hcongr, List.filterMap_some]

theorem mem_bornEntries {δ : NodeDelta} : (id, d, δ) ∈ m.bornEntries ↔ id ∈ m.born ∧ ∃ e, m.nodes.lookup id = some e ∧
      e.synthetic = some d ∧ e.delta = δ := by
  simp only [bornEntries, List.mem_filterMap, bind_eq_some_iff, map_eq_some_iff,
    Prod.mk.injEq]
  constructor
  · rintro ⟨id, hid, e, he, d, hd, rfl, rfl, rfl⟩
    exact ⟨hid, e, he, hd, rfl⟩
  · rintro ⟨hid, e, he, hd, rfl⟩
    exact ⟨id, hid, e, he, d, hd, rfl, rfl, rfl⟩

/-- What the label index of the born nodes files under a label. -/
theorem getD_bornByLabel (m : Memtable) (label : String) :
    ((fileAll ∅ (m.bornEntries.map fun e => (e.1.label, e.2.1))).lookup label).getD [] = m.bornIdsWithLabel label := by
  rw [getD_fileAll, List.filter_map, List.map_map]
  congr 1

theorem Coherent.length_bornByLabel (hm : m.Coherent) (label : String) :
    (m.bornIdsWithLabel label).length = (m.bornLabelCounts.lookup label).getD 0 := by
  have hcount : (m.bornIdsWithLabel label).length = (m.born.map (·.label)).count label := by
    rw [← hm.bornEntries_fst, List.map_map, List.count_eq_length_filter, List.filter_map,
      length_map, bornIdsWithLabel, length_map]
    rfl
  rw [hcount, hm.labels, getD_tallyAll, lookup_empty, getD_none, Nat.zero_add]

theorem Coherent.keys_bornByLabel (hm : m.Coherent) :
    (fileAll ∅ (m.bornEntries.map fun e => (e.1.label, e.2.1))).keys = m.bornLabelCounts.keys := by
  ext label
  rw [mem_keys_iff, mem_keys_iff, ← isSome_iff_exists, ← isSome_iff_exists,
    isSome_lookup_fileAll, hm.labels, isSome_lookup_tallyAll, ← hm.bornEntries_fst]
  simp

/-- A tombstone of a coherent memtable is seen from the source of its edge. -/
theorem Coherent.any_tombstoned (hm : m.Coherent) : (m.toSegmentData.adjOut.flatMap Prod.snd).any (·.tombstoned) =
      m.anyEdge fun _ entry => entry.delta.tombstoned := by
  rw [Bool.eq_iff_iff, List.any_eq_true, anyEdge, decide_eq_true_iff]
  simp only [toSegmentData, List.mem_flatMap, List.mem_map, mem_ascending]
  constructor
  · rintro ⟨e, ⟨_, ⟨node, _, rfl⟩, he⟩, ht⟩
    obtain ⟨id, _, hid⟩ := mem_filterMap.mp he
    obtain ⟨entry, hentry, rfl⟩ := map_eq_some_iff.mp hid
    exact ⟨id, (mem_keys_iff ..).mpr ⟨entry, hentry⟩, by rw [hentry]; exact ht⟩
  · rintro ⟨id, hid, ht⟩
    obtain ⟨entry, hentry⟩ := (mem_keys_iff ..).mp hid
    rw [hentry] at ht
    obtain ⟨node, hnode⟩ := hm.listed id entry hentry (.inr ht)
    refine ⟨deltaEdge true id entry, ⟨_, ⟨node, ?_, rfl⟩, ?_⟩, ht⟩
    · cases hadj : m.outAdj.lookup node with
      | none => rw [hadj] at hnode; cases hnode
      | some ids => exact (mem_keys_iff ..).mpr ⟨ids, hadj⟩
    · exact mem_filterMap.mpr ⟨id, hnode, by rw [hentry]; rfl⟩

/-- The key image of a node determines its identity. -/
theorem identityKeyBytes_inj {id' : NodeIdentity} (h : identityKeyBytes id = identityKeyBytes id') : id = id' := by
  obtain ⟨label, key, value⟩ := id
  obtain ⟨label', key', value'⟩ := id'
  obtain ⟨hlabel, htail⟩ := sized_unique h
  obtain ⟨hkey, hvalue⟩ := sized_unique htail
  rw [← append_nil (writeValue value), ← append_nil (writeValue value')] at hvalue
  obtain ⟨hvalue, _⟩ := writeValue_unique hvalue
  cases stringBytes_inj hlabel
  cases stringBytes_inj hkey
  cases hvalue
  rfl

theorem Coherent.lookup_bornByIdentity (hm : m.Coherent) (id : NodeIdentity) :
    (insertAll ∅ (m.bornEntries.map fun e => (identityKeyBytes e.1, e.2.1)) : Map Bytes Nat).lookup
      (identityKeyBytes id) = m.bornSyntheticForIdentity id := by
  have hnodup : ((m.bornEntries.map fun e => (identityKeyBytes e.1, e.2.1)).map Prod.fst).Nodup := by
    have hkeys : (m.bornEntries.map fun e => (identityKeyBytes e.1, e.2.1)).map Prod.fst =
        m.born.map identityKeyBytes := by
      rw [← hm.bornEntries_fst, List.map_map, List.map_map]
      rfl
    rw [hkeys]
    exact hm.nodup.map fun _ _ => identityKeyBytes_inj
  apply Option.ext
  intro d
  rw [lookup_insertAll_eq_some hnodup, List.mem_map, bornSyntheticForIdentity,
    bind_eq_some_iff]
  constructor
  · rintro ⟨⟨id', d', δ⟩, hmem, heq⟩
    obtain ⟨hbytes, rfl⟩ := Prod.mk.inj heq
    obtain ⟨_, e, he, hd, _⟩ := mem_bornEntries.mp hmem
    exact ⟨e, identityKeyBytes_inj hbytes ▸ he, hd⟩
  · rintro ⟨e, he, hd⟩
    refine ⟨(id, d, e.delta), mem_bornEntries.mpr ⟨?_, e, he, hd, rfl⟩, rfl⟩
    rw [hm.born, entryOf, he, getD_some, hd]
    rfl

/-- A born node without a key name keeps its value out of the written index. -/
def KeyedIndex (m : Memtable) : Prop :=
  ∀ e ∈ m.bornEntries, e.1.key = "" → (e.2.2.patches.lookup "").isSome
deriving Decidable

theorem lookup_bornProps (id : NodeIdentity) (δ : NodeDelta) (prop : String) : (bornProps id δ).lookup prop =
      (δ.patches.lookup prop).or (if id.key = prop ∧ prop ≠ "" then some id.value else none) := by
  rw [bornProps, lookup_union_or]
  by_cases hkey : id.key = ""
  · rw [if_pos hkey, lookup_empty, if_neg fun h => h.2 (h.1 ▸ hkey)]
  · rw [if_neg hkey, lookup_insert_ite, lookup_empty]
    by_cases hprop : prop = id.key
    · rw [if_pos hprop, if_pos ⟨hprop.symm, hprop ▸ hkey⟩]
    · rw [if_neg hprop, if_neg fun h => hprop h.1.symm]

theorem bornProps_eq_bornIndexValue {δ : NodeDelta} (h : id.key = "" → (δ.patches.lookup "").isSome)
    (prop : String) : (bornProps id δ).lookup prop = bornIndexValue id δ prop := by
  rw [lookup_bornProps, bornIndexValue]
  by_cases hprop : id.key = prop
  · by_cases hempty : prop = ""
    · subst hprop
      obtain ⟨v, hv⟩ := isSome_iff_exists.mp (h hempty)
      rw [hempty, hv, some_or, some_or]
    · simp [hprop, hempty]
  · simp [hprop]

/-- The index probe over the written entries. -/
def probeBornIndex (m : Memtable) (label prop : String) (pred : Value → Bool) : List Nat :=
  (m.bornEntries.filter fun e =>
    e.1.label == label && ((bornProps e.1 e.2.2).lookup prop).any pred).map (·.2.1)

theorem probeBornIndex_eq_iff : m.probeBornIndex = m.bornIdsInIndex ↔ m.KeyedIndex := by
  constructor
  · intro h e he hkey
    by_contra hnone
    have hlookup : e.2.2.patches.lookup "" = none := by simpa using hnone
    -- Two probes for any value under the empty name, over the same born nodes. What the written
    -- index shows the memtable shows too, so if they list equally many, they list the same.
    let written := fun e' : NodeIdentity × Nat × NodeDelta => e'.1.label == e.1.label &&
      ((bornProps e'.1 e'.2.2).lookup "").any fun _ => true
    let stored := fun e' : NodeIdentity × Nat × NodeDelta => e'.1.label == e.1.label &&
      (bornIndexValue e'.1 e'.2.2 "").any fun _ => true
    have hsub : m.bornEntries.filter written = (m.bornEntries.filter stored).filter written := by
      rw [List.filter_filter]
      refine filter_congr fun e' _ => ?_
      simp only [written, stored, lookup_bornProps, bornIndexValue]
      cases e'.2.2.patches.lookup "" <;> simp
    have hlength : (m.bornEntries.filter written).length = (m.bornEntries.filter stored).length := by
      have h := congrArg length (congrFun (congrFun (congrFun h e.1.label) "") fun _ => true)
      rwa [probeBornIndex, bornIdsInIndex, length_map, length_map] at h
    rw [hsub] at hlength
    have hshown := length_filter_eq_length_iff.mp hlength e
      (mem_filter.mpr ⟨he, by simp [stored, bornIndexValue, hkey]⟩)
    simp [written, lookup_bornProps, hlookup] at hshown
  · intro h
    funext label prop pred
    refine congrArg _ (List.filter_congr fun e he => ?_)
    rw [bornProps_eq_bornIndexValue (h e he)]

/-! ## Core patches and edge records -/

theorem corePatched_toFinset (m : Memtable) (label prop : String) :
    ((m.toSegmentData.secondaries.corePatched.filter fun e => e.1 == label && e.2.1 == prop).map
      (·.2.2)).toFinset = m.coreIdsPatchedOnIndex label prop := by
  ext d
  simp only [toSegmentData, List.mem_toFinset, List.mem_map, List.mem_filter, List.mem_flatMap,
    mem_ascending, coreIdsPatchedOnIndex, Finset.mem_filter, Bool.and_eq_true, beq_iff_eq,
    ← m.nodeRow_fst, ← m.nodeRow_snd]
  constructor
  · rintro ⟨_, ⟨⟨d, hd, hmem⟩, rfl, rfl⟩, rfl⟩
    split at hmem
    next => cases hmem
    next hlt =>
      cases hrow : m.nodeRow d with
      | none => rw [hrow] at hmem; cases hmem
      | some row =>
        rw [hrow] at hmem
        obtain ⟨p, hp, rfl⟩ := mem_map.mp hmem
        rw [mem_ascending, mem_keys_iff, ← isSome_iff_exists] at hp
        exact ⟨hd, Nat.lt_of_not_le hlt, by simp [hrow], by simpa [hrow] using hp⟩
  · rintro ⟨hd, hlt, hlabel, hprop⟩
    cases hrow : m.nodeRow d with
    | none => rw [hrow] at hlabel; cases hlabel
    | some row =>
      rw [hrow] at hlabel hprop
      refine ⟨(label, prop, d), ⟨⟨d, hd, ?_⟩, rfl, rfl⟩, rfl⟩
      rw [if_neg (Nat.not_le_of_lt hlt), hrow]
      refine mem_map.mpr ⟨prop, ?_, by simpa using hlabel⟩
      rw [mem_ascending, mem_keys_iff, ← isSome_iff_exists]
      exact hprop

theorem insertAll_corePatchedEdges (m : Memtable) :
    insertAll ∅ m.toSegmentData.corePatchedEdges = m.level.corePatchedEdges := by
  apply ext_lookup
  intro cid
  apply Option.ext
  intro e
  refine (lookup_insertAll_eq_some (keyed_nodup (ascending_nodup _) _)).trans (mem_keyed.trans ?_)
  rw [mem_ascending, mem_keys_iff, level, lookup_filterMap]
  refine ⟨And.right, fun h => ⟨?_, h⟩⟩
  obtain ⟨id, hid, _⟩ := bind_eq_some_iff.mp h
  exact ⟨id, hid⟩

/-- Every id that may carry an edge delta carries one, but for core edge ids past the born
range. -/
theorem Coherent.edgeDeltaById_isSome (hm : m.Coherent) {id : Nat} (hid : id ∈ m.segmentEdgeIds) :
    (m.edgeDeltaById id).isSome ↔ id < m.edgeSyntheticBase + m.bornEdges.length := by
  have stored : ∀ {id' : EdgeIdentity}, (∃ e, m.edges.lookup id' = some e) →
      ((m.edges.lookup id').map (·.delta)).isSome = true := by
    rintro id' ⟨e, he⟩
    rw [he]
    rfl
  unfold edgeDeltaById
  by_cases hlt : id < m.edgeSyntheticBase
  · have hkey : ∃ id', m.byEdgeId.lookup id = some id' := by
      simp only [segmentEdgeIds, Finset.mem_union, Finset.mem_image, mem_keys_iff] at hid
      rcases hid with ⟨i, _, rfl⟩ | hkey
      · omega
      · exact hkey
    obtain ⟨id', hid'⟩ := hkey
    simp only [if_pos hlt, hid', bind_some, stored (hm.byEdgeId id id' hid'), true_iff]
    omega
  · cases hborn : m.bornEdges[id - m.edgeSyntheticBase]? with
    | none =>
      rw [getElem?_eq_none_iff] at hborn
      simp only [if_neg hlt, bind_none, isSome_none, Bool.false_eq_true, false_iff]
      omega
    | some id' =>
      have hlen := (List.getElem?_eq_some_iff.mp hborn).1
      have hmem := mem_of_getElem? hborn
      simp only [if_neg hlt, bind_some, stored (hm.bornEdges id' hmem), true_iff]
      omega

theorem edgeKeys_toFinset (m : Memtable) : (m.toSegmentData.edges.map Prod.fst).toFinset =
      m.segmentEdgeIds.filter fun id => (m.edgeDeltaById id).isSome := by
  ext id
  rw [toSegmentData, keyed_fst]
  simp

theorem Coherent.edgeKeys_eq_iff (hm : m.Coherent) : (m.toSegmentData.edges.map Prod.fst).toFinset = m.segmentEdgeIds ↔
      ∀ cid ∈ m.byEdgeId.keys, cid < m.edgeSyntheticBase + m.bornEdges.length := by
  rw [edgeKeys_toFinset, Finset.filter_eq_self]
  constructor
  · intro h cid hcid
    have hmem : cid ∈ m.segmentEdgeIds := mem_union_right _ hcid
    exact (hm.edgeDeltaById_isSome hmem).mp (h cid hmem)
  · intro h id hid
    refine (hm.edgeDeltaById_isSome hid).mpr ?_
    rcases mem_union.mp hid with hid | hid
    · obtain ⟨i, hi, rfl⟩ := mem_image.mp hid
      rw [Finset.mem_range] at hi
      omega
    · exact h id hid

/-! ## What spills -/

/-- The edges the outgoing lists show, list by list. -/
def outListing (m : Memtable) : List DeltaEdge := (ascending m.outAdj.keys).flatMap m.outEdges

/-- The types of the live born edges the outgoing lists show. -/
def liveBornTypes (m : Memtable) : List String :=
  (m.outListing.filter SegmentWriter.countsLive).map (·.reltype)

/-- No stored value nests deeper than a decoder follows. -/
@[mk_iff] structure Shallow (m : Memtable) : Prop where
  nodes : ∀ d ∈ m.byDense.keys, ∀ row ∈ m.nodeRow d, NodeRowShallow row
  outEdges : ∀ node ∈ m.outAdj.keys, AdjShallow (m.outEdges node)
  inEdges : ∀ node ∈ m.inAdj.keys, AdjShallow (m.inEdges node)
  edges : ∀ id ∈ m.segmentEdgeIds, ∀ d ∈ m.edgeDeltaById id, PropsShallow d.patches.pairs
  born : ∀ e ∈ m.bornEntries, PropsShallow (bornProps e.1 e.2.2).pairs

instance (m : Memtable) : Decidable m.Shallow := decidable_of_iff' _ (shallow_iff m)

/-- What a memtable must be for its spilled level to answer as it does. Each field excludes one
way in which an answer changes or the reading fails; together they are necessary, too. -/
@[mk_iff] structure Spillable (m : Memtable) : Prop where
  /-- It is not made of relationship tombstones alone. -/
  notOnlyTombstones : m.nodes = ∅ → m.bornEdges = [] → m.byEdgeId = ∅ → m.edges = ∅
  /-- Its tally of deleted nodes is that of the keys its dense ids are registered to. -/
  tombstoned : m.tombstoned = m.idsWhere (·.tombstoned)
  /-- If a node was relabelled, some relabelled node is reached by a dense id. -/
  relabelled : m.level.hasLabelOverlay = true → m.level.labelOverlayIds ≠ ∅
  /-- Of every type, as many edges were born as the outgoing lists show live. -/
  bornEdges : m.bornEdgeIds.val.map (·.reltype) = (m.liveBornTypes : Multiset String)
  /-- A born node whose key has no name is patched under that name. -/
  keyed : m.KeyedIndex
  /-- No patched core edge id lies past the born ones. -/
  coreIds : ∀ cid ∈ m.byEdgeId.keys, cid < m.edgeSyntheticBase + m.bornEdges.length
  shallow : m.Shallow

instance (m : Memtable) : Decidable m.Spillable := decidable_of_iff' _ (spillable_iff m)

theorem toSegmentData_shallow (m : Memtable) : m.toSegmentData.Shallow ↔ m.Shallow := by
  constructor
  · intro h
    refine ⟨fun d hd row hrow => ?_, fun n hn => ?_, fun n hn => ?_, fun id hid d hd => ?_,
      fun e he => ?_⟩
    · exact h.nodes (d, row) (mem_keyed.mpr ⟨mem_ascending.mpr hd, hrow⟩)
    · exact h.adjOut (n, _) (mem_map.mpr ⟨n, mem_ascending.mpr hn, rfl⟩)
    · exact h.adjIn (n, _) (mem_map.mpr ⟨n, mem_ascending.mpr hn, rfl⟩)
    · exact h.edges (id, d) (mem_keyed.mpr ⟨mem_ascending.mpr hid, hd⟩)
    · exact h.bornIndex _ (mem_map.mpr ⟨e, he, rfl⟩)
  · intro h
    refine ⟨fun row hrow => ?_, fun row hrow => ?_, fun row hrow => ?_, fun row hrow => ?_,
      fun e he => ?_⟩
    · obtain ⟨hd, hrow⟩ := mem_keyed.mp (show (row.1, row.2) ∈ _ from hrow)
      exact h.nodes row.1 (mem_ascending.mp hd) row.2 hrow
    · obtain ⟨n, hn, rfl⟩ := mem_map.mp hrow
      exact h.outEdges n (mem_ascending.mp hn)
    · obtain ⟨n, hn, rfl⟩ := mem_map.mp hrow
      exact h.inEdges n (mem_ascending.mp hn)
    · obtain ⟨hid, hd⟩ := mem_keyed.mp (show (row.1, row.2) ∈ _ from hrow)
      exact h.edges row.1 (mem_ascending.mp hid) row.2 hd
    · obtain ⟨b, hb, rfl⟩ := mem_map.mp he
      exact h.born b hb

theorem adjOut_flatMap (m : Memtable) : m.toSegmentData.adjOut.flatMap Prod.snd = m.outListing := by
  rw [toSegmentData, outListing, flatMap_map]

/-- The tally of live born edges agrees with the memtable's count of born ones. -/
theorem tally_eq_iff (m : Memtable) : (∀ reltype, m.liveBornTypes.count reltype =
      (m.bornEdgeIds.filter (·.reltype = reltype)).card) ↔
      m.bornEdgeIds.val.map (·.reltype) = (m.liveBornTypes : Multiset String) := by
  have hcount : ∀ reltype, (m.bornEdgeIds.filter (·.reltype = reltype)).card =
      (m.bornEdgeIds.val.map (·.reltype)).count reltype := by
    intro reltype
    rw [Multiset.count_map, Finset.card]
    congr 1
    exact Multiset.filter_congr fun _ _ => eq_comm
  rw [Multiset.ext]
  exact forall_congr' fun reltype => by rw [hcount, Multiset.coe_count, eq_comm]

theorem Coherent.nodeKeys_toFinset (hm : m.Coherent) :
    (m.toSegmentData.nodes.map Prod.fst).toFinset = m.byDense.keys := by
  ext d
  rw [toSegmentData, keyed_fst, List.mem_toFinset, List.mem_filter, mem_ascending]
  refine ⟨And.left, fun hd => ⟨hd, ?_⟩⟩
  obtain ⟨id, hid⟩ := (mem_keys_iff ..).mp hd
  obtain ⟨e, he⟩ := hm.dense d id hid
  simp [nodeRow, hid, he]

/-- The answers of the written segment, compared with the memtable's. -/
theorem Coherent.answers_eq (hm : m.Coherent) (scope : Nat) : m.toSegmentData.answers scope =
      { m.level with
        isEmpty := m.byDense.keys = ∅ ∧ (m.toSegmentData.edges.map Prod.fst).toFinset = ∅ ∧
          m.born = [] ∧ m.bornEdges = []
        tombstonedIds := m.idsWhere (·.tombstoned)
        bornEdgeCountWithReltype := m.liveBornTypes.count
        bornEdgeReltypes := m.liveBornTypes.toFinset
        hasLabelOverlay := m.level.labelOverlayIds ≠ ∅
        bornIdsInIndex := m.probeBornIndex
        edgeIds := (m.toSegmentData.edges.map Prod.fst).toFinset } := by
  rw [SegmentData.answers_eq]
  have hlabels : (insertAll ∅ m.toSegmentData.secondaries.bornByLabel : Map String (List Nat)) =
    fileAll ∅ (m.bornEntries.map fun e => (e.1.label, e.2.1)) := insertAll_pairs _
  have hbornRow : ∀ label, (m.toSegmentData.bornRow label).getD [] = m.bornIdsWithLabel label :=
    fun label => by rw [SegmentData.bornRow, hlabels, m.getD_bornByLabel]
  have htypes : m.toSegmentData.liveTypes = m.liveBornTypes := by
    rw [SegmentData.liveTypes, adjOut_flatMap, liveBornTypes]
  apply Level.ext
  case nodeDeltaCount | edgeDeltaCount | syntheticBase | edgeSyntheticBase | bornCount | bornEdgeCount | edgeIds => rfl
  case isEmpty =>
    rw [Bool.eq_iff_iff, ← hm.nodeKeys_toFinset]
    simp [toSegmentData, and_assoc]
  case tombstonedIds => exact m.idsWhere_rows (·.tombstoned)
  case bornCountWithLabel =>
    exact funext fun label => (congrArg _ (hbornRow label)).trans (hm.length_bornByLabel label)
  case hasEdgeTombstones => exact hm.any_tombstoned
  case bornEdgeCountWithReltype => exact congrArg (fun types reltype => types.count reltype) htypes
  case bornLabels => exact (congrArg Finmap.keys hlabels).trans hm.keys_bornByLabel
  case bornEdgeReltypes => exact congrArg List.toFinset htypes
  case nodePatch => funext d; exact (congrArg _ (m.rowAt_nodes d)).trans (m.nodeRow_snd d)
  case nodeTombstoned =>
    funext d
    show (m.toSegmentData.nodeRow d).map _ = (m.nodePatch d).map (·.tombstoned)
    rw [m.rowAt_nodes, ← m.nodeRow_snd, Option.map_map]
    rfl
  case nodeIdentity => funext d; exact (congrArg _ (m.rowAt_nodes d)).trans (m.nodeRow_fst d)
  case bornIdsWithLabel => exact funext hbornRow
  case idsWithAddedLabel =>
    exact funext fun label => m.idsWhere_rows fun d => decide (label ∈ d.labelsAdded)
  case idsWithRemovedLabel =>
    exact funext fun label => m.idsWhere_rows fun d => decide (label ∈ d.labelsRemoved)
  case labelOverlayIds => exact m.idsWhere_rows (·.Relabels)
  case hasLabelOverlay =>
    show m.toSegmentData.nodes.any (·.2.2.Relabels) = decide (m.idsWhere (·.Relabels) ≠ ∅)
    rw [← m.idsWhere_rows, Bool.eq_iff_iff]
    simp
  case bornSyntheticForIdentity => funext id; exact hm.lookup_bornByIdentity id
  case bornIdsInIndex =>
    funext label prop pred
    show map _ (filter _ (m.bornEntries.map _)) = m.probeBornIndex label prop pred
    rw [List.filter_map, List.map_map]
    refine congrArg _ (filter_congr fun e _ => ?_)
    rw [← find?_pairs]
    rfl
  case coreIdsPatchedOnIndex => funext label prop; exact m.corePatched_toFinset label prop
  case outEdges => funext node; exact m.rowAt_adj m.outAdj true node
  case inEdges => funext node; exact m.rowAt_adj m.inAdj false node
  case edgeDelta => funext id; exact m.rowAt_edges id
  case nodeDenseIds => exact hm.nodeKeys_toFinset
  case adjOutNodes =>
    show (m.toSegmentData.adjOut.map Prod.fst).toFinset = m.outAdj.keys
    ext node
    simp [toSegmentData]
  case corePatchedEdges => exact m.insertAll_corePatchedEdges

/-- Without a node, a born edge or a patched core edge, the written segment has no record. -/
theorem Coherent.answers_isEmpty (hm : m.Coherent)
    (hids : ∀ cid ∈ m.byEdgeId.keys, cid < m.edgeSyntheticBase + m.bornEdges.length) :
    (m.byDense.keys = ∅ ∧ (m.toSegmentData.edges.map Prod.fst).toFinset = ∅ ∧ m.born = [] ∧
      m.bornEdges = []) ↔ m.nodes = ∅ ∧ m.bornEdges = [] ∧ m.byEdgeId = ∅ := by
  have hnodes : m.byDense.keys = ∅ ↔ m.nodes = ∅ := by
    rw [eq_empty_iff, eq_empty_iff_forall_notMem]
    simp only [mem_keys_iff]
    constructor
    · intro h id
      rw [eq_none_iff_forall_ne_some]
      intro e he
      obtain ⟨d, id', hd⟩ := hm.reached id e he
      exact h d ⟨id', hd⟩
    · rintro h d ⟨id, hd⟩
      obtain ⟨e, he⟩ := hm.dense d id hd
      rw [h id] at he
      cases he
  have hborn : m.nodes = ∅ → m.born = [] := by
    intro h
    rw [eq_nil_iff_forall_not_mem]
    intro id hid
    rw [hm.born, entryOf, h] at hid
    cases hid
  rw [hm.edgeKeys_eq_iff.mpr hids, hnodes, segmentEdgeIds, union_eq_empty,
    image_eq_empty, range_eq_empty_iff, length_eq_zero_iff,
    keys_eq_empty_iff]
  constructor
  · rintro ⟨h, ⟨hb, hc⟩, -, -⟩
    exact ⟨h, hb, hc⟩
  · rintro ⟨h, hb, hc⟩
    exact ⟨h, ⟨hb, hc⟩, hborn h, hb⟩

theorem Coherent.bornEdges_of_empty (hm : m.Coherent) (he : m.edges = ∅) : m.bornEdges = [] := by
  rw [eq_nil_iff_forall_not_mem]
  intro id hid
  obtain ⟨e, hstored⟩ := hm.bornEdges id hid
  rw [he] at hstored
  cases hstored

theorem Coherent.byEdgeId_of_empty (hm : m.Coherent) (he : m.edges = ∅) : m.byEdgeId = ∅ := by
  rw [eq_empty_iff]
  intro c
  rw [eq_none_iff_forall_ne_some]
  intro id hid
  obtain ⟨e, hstored⟩ := hm.byEdgeId c id hid
  rw [he] at hstored
  cases hstored

/-- A relabelled node under a dense id is a relabelled node. -/
theorem hasLabelOverlay_of_ids (m : Memtable) (h : m.level.labelOverlayIds ≠ ∅) : m.level.hasLabelOverlay = true := by
  obtain ⟨d, hd⟩ := nonempty_iff_ne_empty.mpr h
  obtain ⟨_, hany⟩ := mem_filter.mp hd
  rw [Option.any_eq_true] at hany
  obtain ⟨δ, hδ, hrel⟩ := hany
  obtain ⟨id, _, hid⟩ := bind_eq_some_iff.mp hδ
  obtain ⟨e, he, rfl⟩ := map_eq_some_iff.mp hid
  refine decide_eq_true ⟨id, (mem_keys_iff ..).mpr ⟨e, he⟩, ?_⟩
  rw [he]
  exact hrel

/-- The written segment answers as the memtable does exactly when the memtable is spillable, but
for the depth of its values. -/
theorem Coherent.answers_eq_level_iff (hm : m.Coherent) (hshallow : m.Shallow) (scope : Nat) :
    m.toSegmentData.answers scope = m.level ↔ m.Spillable := by
  rw [hm.answers_eq]
  constructor
  · intro h
    have hids := hm.edgeKeys_eq_iff.mp (congrArg Level.edgeIds h)
    refine ⟨?_, (congrArg Level.tombstonedIds h).symm, fun hl => ?_, ?_, ?_, hids, hshallow⟩
    · intro hn hb hc
      have hempty := congrArg Level.isEmpty h
      have hread := decide_eq_true ((hm.answers_isEmpty hids).mpr ⟨hn, hb, hc⟩)
      have hmem : m.isEmpty = true := hempty.symm.trans hread
      simp only [isEmpty, Bool.and_eq_true, decide_eq_true_eq] at hmem
      exact hmem.2
    · exact of_decide_eq_true ((congrArg Level.hasLabelOverlay h).trans hl)
    · exact m.tally_eq_iff.mp (congrFun (congrArg Level.bornEdgeCountWithReltype h))
    · exact probeBornIndex_eq_iff.mp (congrArg Level.bornIdsInIndex h)
  · intro h
    apply Level.ext
    case isEmpty =>
      show decide _ = m.isEmpty
      rw [Bool.eq_iff_iff, decide_eq_true_iff, hm.answers_isEmpty h.coreIds]
      simp only [isEmpty, decide_eq_true_eq, Bool.and_eq_true]
      constructor
      · rintro ⟨hn, hb, hc⟩
        exact ⟨hn, h.notOnlyTombstones hn hb hc⟩
      · rintro ⟨hn, he⟩
        exact ⟨hn, hm.bornEdges_of_empty he, hm.byEdgeId_of_empty he⟩
    case tombstonedIds => exact h.tombstoned.symm
    case bornEdgeCountWithReltype => exact funext (m.tally_eq_iff.mpr h.bornEdges)
    case bornEdgeReltypes =>
      exact congrArg Multiset.toFinset h.bornEdges.symm
    case hasLabelOverlay =>
      rw [Bool.eq_iff_iff, decide_eq_true_iff]
      exact ⟨m.hasLabelOverlay_of_ids, h.relabelled⟩
    case bornIdsInIndex => exact probeBornIndex_eq_iff.mpr h.keyed
    case edgeIds => exact hm.edgeKeys_eq_iff.mpr h.coreIds
    all_goals rfl

end Memtable

/-! ## The spilled level -/

/-- **A spilled level answers every question as the memtable did exactly when the memtable is
spillable**, for every memtable any operations reach. A snapshot is a function of its levels, so one
that holds the opened segment in place of the memtable then gives the same answers throughout.

The hypothesis says that the ids, counts and lengths in the memtable are `u64`s, as they are in the
source. -/
theorem spill_answers_iff (nodeBase edgeBase scope : Nat) (ops : List ResolvedOp)
    (hfits : ((withBases nodeBase edgeBase).applyAll ops).toSegmentData.Fits scope) :
    ((withBases nodeBase edgeBase).applyAll ops).spill scope = .ok ((withBases nodeBase edgeBase).applyAll ops).level ↔
      ((withBases nodeBase edgeBase).applyAll ops).Spillable := by
  have hm := applyAll_coherent nodeBase edgeBase ops
  generalize (withBases nodeBase edgeBase).applyAll ops = m at hfits hm ⊢
  rw [spill, writeSegment_level_eq_ok hfits, m.toSegmentData_shallow]
  constructor
  · rintro ⟨hshallow, hanswers⟩
    exact (hm.answers_eq_level_iff hshallow scope).mp hanswers.symm
  · intro h
    exact ⟨h.shallow, ((hm.answers_eq_level_iff h.shallow scope).mpr h).symm⟩

namespace Spill

def alice : NodeIdentity := { label := "Person", key := "id", value := .int 1 }

def bob : NodeIdentity := { label := "Person", key := "id", value := .int 2 }

def knows : EdgeIdentity := { src := alice, reltype := "KNOWS", dst := bob }

/-- A new node and a relationship from it to a core node. -/
def bornPair : List ResolvedOp :=
  [.node alice (.upsert [("age", .int 30)]) none,
   .upsertEdge knows false [("since", .int 7)] none (some 1) none]

/-- The deletion of a relationship between two core nodes. -/
def deletedCoreEdge : List ResolvedOp := [.deleteEdge knows (some 0) (some 1)]

end Spill

theorem spill_answers_bornPair : ((withBases 2 0).applyAll Spill.bornPair).spill 0 =
      .ok ((withBases 2 0).applyAll Spill.bornPair).level :=
  (spill_answers_iff 2 0 0 Spill.bornPair (by decide)).mpr (by decide)

/-- **Some levels answer differently once spilled**: one that holds a single relationship
tombstone is not empty, and the reader of its segment says it is. -/
theorem spilled_tombstone_reads_empty : ¬ ∀ (nodeBase edgeBase scope : Nat) (ops : List ResolvedOp),
      ((withBases nodeBase edgeBase).applyAll ops).toSegmentData.Fits scope →
      ((withBases nodeBase edgeBase).applyAll ops).spill scope =
        .ok ((withBases nodeBase edgeBase).applyAll ops).level := by
  intro h
  have hempty := congrArg (fun l => l.toOption.map Level.isEmpty) (h 2 1 0 Spill.deletedCoreEdge (by decide))
  have hmem : ((withBases 2 1).applyAll Spill.deletedCoreEdge).level.isEmpty = false := by
    decide
  exact absurd (some.inj hempty) (by rw [hmem]; decide)

end Slater
