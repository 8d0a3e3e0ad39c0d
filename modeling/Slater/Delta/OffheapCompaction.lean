import Slater.Delta.OffheapAnswers
import Slater.Delta.Spill

/-!
# Off-heap compaction and reads

The answers a snapshot collects level by level agree with those a merged segment files from its folded
rows as long as no newer level of the run takes back what an older one filed. `mergeRun_answers_iff` says
that the merged segment answers every question as the snapshot over the run does if and only if the run
is settled.

An ordinary history that is not settled: a label is added to a node, the level is sealed, the label is
removed again and that level is sealed too (`merge_forgets_label`).

**What it does not establish.** The two counts of deltas are not compared, as `Slater.Delta.OffheapAnswers`
explains, and the snapshot is the one over the run alone: the levels above and below it are the same before and
after.
-/

namespace Slater

open Map List DeltaSnapshot Memtable DeltaState

variable {m : Memtable}

/-! ## When the collected answers agree -/

theorem NodeDelta.relabels_iff {delta : NodeDelta} :
    delta.Relabels = true ↔ ∃ label, label ∈ delta.labelsAdded ∨ label ∈ delta.labelsRemoved := by
  rw [Relabels, Bool.not_eq_true', Bool.and_eq_false_iff, decide_eq_false_iff_not,
    decide_eq_false_iff_not, ← ne_eq, ← ne_eq, ← Finset.nonempty_iff_ne_empty,
    ← Finset.nonempty_iff_ne_empty, exists_or]
  rfl

section Agree

variable {oldest : OpenSegment} {run : List OpenSegment} {d : Nat} {label : String}

/-- Some level of the run holds a delta of the node that passes `p`. -/
def SomeLevel (levels : List Level) (d : Nat) (p : NodeDelta → Prop) : Prop :=
  ∃ l ∈ levels, ∃ delta, l.nodePatch d = some delta ∧ p delta

section

variable (hrows : ∀ r ∈ run, r.level.FromRows)
include hrows

theorem mem_union_idsWhere {p : NodeDelta → Bool}
    {ids : Level → Finset Nat} (hids : ∀ l : Level, l.FromRows → ids l = l.idsWhere p)
    (hempty : ∀ nodeBase edgeBase, ids (withBases nodeBase edgeBase).level = ∅) :
    d ∈ (runSnapshot oldest run).union ids ↔ SomeLevel (runLevels run) d (p · = true) := by
  rw [mem_runSnapshot_union hempty]
  refine exists_congr fun l => and_congr_right fun hl => ?_
  have hl := forall_runLevels.mpr hrows l hl
  rw [hids l hl, mem_idsWhere hl]

theorem mem_idsWithAddedLabel :
    d ∈ (runSnapshot oldest run).idsWithAddedLabel label ↔ SomeLevel (runLevels run) d (label ∈ ·.labelsAdded) := by
  rw [idsWithAddedLabel, mem_union_idsWhere hrows (fun l hl => hl.idsWithAddedLabel label)
    fun _ _ => rfl]
  simp

theorem mem_idsWithRemovedLabel : d ∈ (runSnapshot oldest run).idsWithRemovedLabel label ↔
      SomeLevel (runLevels run) d (label ∈ ·.labelsRemoved) := by
  rw [idsWithRemovedLabel, mem_union_idsWhere hrows (fun l hl => hl.idsWithRemovedLabel label)
      fun _ _ => rfl]
  simp

end

variable (hne : run ≠ []) (hsound : ∀ r ∈ run, r.Sound) (scope : Nat)
include hne hsound

omit hne in
theorem level_rows : ∀ l ∈ runLevels run, l.FromRows := forall_runLevels.mpr fun r hr => (hsound r hr).rows

/-- The merged segment files a node by the last word about a label. -/
theorem mem_merged_idsWhere {word : LabelWord} {p : NodeDelta → Bool} (hword : word ≠ .reset)
    (hp : ∀ delta : NodeDelta, delta.Consistent → (delta.labelWord label = some word ↔ p delta = true)) :
    d ∈ (mergedLevel oldest run scope).idsWhere p ↔ lastWord (runLevels run) d label = some word := by
  have hrows := fun r hr => (hsound r hr).rows
  have hcons : ∀ l ∈ runLevels run, ∀ delta, l.nodePatch d = some delta → delta.Consistent :=
    forall_runLevels.mpr fun r hr => (hsound r hr).consistent d
  rw [mem_idsWhere (mergedLevel_fromRows hrows scope), mergedLevel_nodePatch hne hrows,
    ← labelWord_levelFold hcons label hword, Option.bind_eq_some_iff]
  refine exists_congr fun delta => and_congr_right fun hfold => (hp delta ?_).symm
  exact levelFold_induction (fun _ newer ho _ => NodeDelta.foldNewer_consistent ho newer) hcons hfold

theorem mem_merged_idsWithAddedLabel :
    d ∈ (mergedLevel oldest run scope).idsWithAddedLabel label ↔ lastWord (runLevels run) d label = some .added := by
  rw [(mergedLevel_fromRows (fun r hr => (hsound r hr).rows) scope).idsWithAddedLabel]
  exact mem_merged_idsWhere hne hsound scope nofun fun _ hc => hc.labelWord_added.trans decide_eq_true_iff.symm

theorem mem_merged_idsWithRemovedLabel : d ∈ (mergedLevel oldest run scope).idsWithRemovedLabel label ↔
      lastWord (runLevels run) d label = some .removed := by
  rw [(mergedLevel_fromRows (fun r hr => (hsound r hr).rows) scope).idsWithRemovedLabel]
  exact mem_merged_idsWhere hne hsound scope nofun fun _ hc => hc.labelWord_removed.trans decide_eq_true_iff.symm

omit hne in
theorem mem_merged_labelOverlayIds : d ∈ (mergedLevel oldest run scope).labelOverlayIds ↔
      ∃ label, d ∈ (mergedLevel oldest run scope).idsWithAddedLabel label ∨
        d ∈ (mergedLevel oldest run scope).idsWithRemovedLabel label := by
  have hfrom := @mergedLevel_fromRows oldest run (fun r hr => (hsound r hr).rows) scope
  simp only [hfrom.labelOverlayIds, hfrom.idsWithAddedLabel, hfrom.idsWithRemovedLabel,
    mem_idsWhere hfrom, decide_eq_true_eq, NodeDelta.relabels_iff]
  constructor
  · rintro ⟨delta, hd, label, hl | hl⟩
    · exact ⟨label, .inl ⟨delta, hd, hl⟩⟩
    · exact ⟨label, .inr ⟨delta, hd, hl⟩⟩
  · rintro ⟨label, ⟨delta, hd, hl⟩ | ⟨delta, hd, hl⟩⟩
    · exact ⟨delta, hd, label, .inl hl⟩
    · exact ⟨delta, hd, label, .inr hl⟩

/-- The edge tallies agree exactly when no live born edge is overtaken. -/
theorem liveBorn_eq_iff : (∀ reltype, (mergedLevel oldest run scope).liveBorn reltype =
      ((runLevels run).map (·.liveBorn reltype)).sum) ↔ ∀ l ∈ runLevels run, ∀ node ∈ l.adjOutNodes,
        Unovertaken SegmentWriter.countsLive (listing (runLevels run) node) := by
  have hrows := fun r hr => (hsound r hr).rows
  have hmem := @mem_mergedLevel_adjOutNodes oldest run hne hrows scope
  have hsum : ∀ reltype, ((runLevels run).map (·.liveBorn reltype)).sum = _ := fun reltype =>
    sum_liveBorn (forall_runLevels.mpr hrows) (fun l hl node hnode => (hmem node).mpr ⟨l, hl, hnode⟩) reltype
  have hmerged : ∀ reltype, (mergedLevel oldest run scope).liveBorn reltype =
      ∑ node ∈ (mergedLevel oldest run scope).adjOutNodes,
        (keepFirst [] (listing (runLevels run) node)).countP (liveOf reltype) := fun reltype =>
    Finset.sum_congr rfl fun node _ => by rw [mergedLevel_outEdges hne hrows]; rfl
  have hpoint : ∀ reltype, (mergedLevel oldest run scope).liveBorn reltype =
      ((runLevels run).map (·.liveBorn reltype)).sum ↔
      ∀ node ∈ (mergedLevel oldest run scope).adjOutNodes,
        Unovertaken (liveOf reltype) (listing (runLevels run) node) := by
    intro reltype
    rw [hsum, hmerged, Finset.sum_eq_sum_iff_of_le fun node _ => countP_keepFirst_le ..]
    refine forall₂_congr fun node _ => ?_
    rw [countP_keepFirst_eq_iff]
    simp
  simp only [hpoint]
  constructor
  · intro h l hl node hnode
    exact unovertaken_liveOf_iff.mp fun reltype => h reltype node ((hmem node).mpr ⟨l, hl, hnode⟩)
  · intro h reltype node hnode
    obtain ⟨l, hl, hnode⟩ := (hmem node).mp hnode
    exact unovertaken_liveOf_iff.mpr (h l hl node hnode) reltype

/-- Some tombstone survives the merge exactly when the first edge of some merge key is one. -/
theorem merged_hasEdgeTombstones_iff : (mergedLevel oldest run scope).hasEdgeTombstones = true ↔
      ∃ l ∈ runLevels run, ∃ node ∈ l.adjOutNodes, ∃ e ∈ l.outEdges node, e.tombstoned = true ∧
        (listing (runLevels run) node).find? (fun x => x.mergeKey = e.mergeKey) = some e := by
  have hrows := fun r hr => (hsound r hr).rows
  rw [(@mergedLevel_fromRows oldest run hrows scope).hasEdgeTombstones]
  simp only [mergedLevel_outEdges hne hrows, mem_keepFirst, not_mem_nil, not_false_eq_true,
    true_and]
  constructor
  · rintro ⟨node, e, hfind, ht⟩
    obtain ⟨l, hl, he⟩ := mem_flatMap.mp (mem_of_find?_eq_some hfind)
    refine ⟨l, hl, node, ?_, e, he, ht, hfind⟩
    exact ((forall_runLevels.mpr hrows l hl).adjOutNodes node).mpr (ne_nil_of_mem he)
  · rintro ⟨l, -, node, -, e, -, ht, hfind⟩
    exact ⟨node, e, hfind, ht⟩

omit hne in
theorem snapshot_hasEdgeTombstones_iff : (runSnapshot oldest run).hasEdgeTombstones = true ↔
      ∃ l ∈ runLevels run, ∃ node ∈ l.adjOutNodes, ∃ e ∈ l.outEdges node, e.tombstoned = true := by
  rw [hasEdgeTombstones, any_runSnapshot fun _ _ => rfl,
    any_eq_true]
  refine exists_congr fun l => and_congr_right fun hl => ?_
  have hl := level_rows hsound l hl
  rw [hl.hasEdgeTombstones]
  refine exists_congr fun node => ⟨?_, fun ⟨_, h⟩ => h⟩
  rintro ⟨e, he, ht⟩
  exact ⟨(hl.adjOutNodes node).mpr (ne_nil_of_mem he), e, he, ht⟩

omit hne in
theorem snapshot_hasLabelOverlay : (runSnapshot oldest run).hasLabelOverlay =
      decide ((runSnapshot oldest run).labelOverlayIds ≠ ∅) := by
  have hmem : ∀ d, d ∈ (runSnapshot oldest run).labelOverlayIds ↔ ∃ l ∈ runLevels run, d ∈ l.labelOverlayIds :=
    fun d => mem_runSnapshot_union fun _ _ => rfl
  rw [hasLabelOverlay, any_runSnapshot fun _ _ => rfl,
    Bool.eq_iff_iff, any_eq_true, decide_eq_true_iff, ← Finset.nonempty_iff_ne_empty]
  constructor
  · rintro ⟨l, hl, hoverlay⟩
    have hrows := level_rows hsound l hl
    rw [hrows.hasLabelOverlay, decide_eq_true_iff, ← Finset.nonempty_iff_ne_empty] at hoverlay
    obtain ⟨d, hd⟩ := hoverlay
    exact ⟨d, (hmem d).mpr ⟨l, hl, hd⟩⟩
  · rintro ⟨d, hd⟩
    obtain ⟨l, hl, hd⟩ := (hmem d).mp hd
    refine ⟨l, hl, ?_⟩
    rw [(level_rows hsound l hl).hasLabelOverlay,
      decide_eq_true_iff, ← Finset.nonempty_iff_ne_empty]
    exact ⟨d, hd⟩

omit hne in
theorem snapshot_tally (reltype : String) : (runSnapshot oldest run).bornEdgeCountWithReltype reltype =
      ((runLevels run).map (·.liveBorn reltype)).sum := by
  rw [bornEdgeCountWithReltype, sum_runSnapshot fun _ _ => rfl]
  refine congrArg List.sum (map_congr_left fun l hl => ?_)
  exact (level_rows hsound l hl).bornEdgeCountWithReltype reltype

omit hne in
theorem mem_bornEdgeReltypes {reltype : String} : reltype ∈ (runSnapshot oldest run).bornEdgeReltypes ↔
      0 < ((runLevels run).map (·.liveBorn reltype)).sum := by
  rw [bornEdgeReltypes, mem_runSnapshot_union fun _ _ => rfl,
    Nat.pos_iff_ne_zero, ne_eq, sum_eq_zero_iff, forall_mem_map]
  push Not
  refine exists_congr fun l => and_congr_right fun hl => ?_
  have hl := level_rows hsound l hl
  rw [hl.bornEdgeReltypes, Nat.pos_iff_ne_zero]

section Settled

variable (h : Settled (runLevels run))
include h

omit hne h in
/-- What has the last word was said, and of a settled run what was said has the last word. -/
theorem lastWord_iff {word : LabelWord} {p : NodeDelta → Prop}
    (hp : ∀ delta : NodeDelta, delta.Consistent → (delta.labelWord label = some word ↔ p delta))
    (hsettled : ∀ l ∈ runLevels run, ∀ d ∈ l.nodeDenseIds, ∀ delta, l.nodePatch d = some delta → p delta →
      lastWord (runLevels run) d label = some word) :
    lastWord (runLevels run) d label = some word ↔ SomeLevel (runLevels run) d p := by
  have hcons : ∀ l ∈ runLevels run, ∀ d delta, l.nodePatch d = some delta → delta.Consistent :=
    forall_runLevels.mpr fun r hr => (hsound r hr).consistent
  constructor
  · intro h
    obtain ⟨l, hl, hword⟩ := exists_of_findSome?_eq_some h
    obtain ⟨delta, hdelta, hword⟩ := Option.bind_eq_some_iff.mp hword
    exact ⟨l, hl, delta, hdelta, (hp delta (hcons l hl d delta hdelta)).mp hword⟩
  · rintro ⟨l, hl, delta, hdelta, hlabel⟩
    have hrows := level_rows hsound l hl
    exact hsettled l hl d ((hrows.nodeDenseIds d).mpr (by rw [hdelta]; rfl)) delta hdelta hlabel

theorem Settled.added_eq (label : String) : (mergedLevel oldest run scope).idsWithAddedLabel label =
      (runSnapshot oldest run).idsWithAddedLabel label := by
  ext d
  rw [mem_merged_idsWithAddedLabel hne hsound, mem_idsWithAddedLabel fun r hr => (hsound r hr).rows]
  exact lastWord_iff hsound (fun _ hc => hc.labelWord_added) fun l hl d hd delta hdelta =>
    h.labelsAdded l hl d hd delta hdelta label

theorem Settled.removed_eq (label : String) : (mergedLevel oldest run scope).idsWithRemovedLabel label =
      (runSnapshot oldest run).idsWithRemovedLabel label := by
  ext d
  rw [mem_merged_idsWithRemovedLabel hne hsound, mem_idsWithRemovedLabel fun r hr => (hsound r hr).rows]
  exact lastWord_iff hsound (fun _ hc => hc.labelWord_removed) fun l hl d hd delta hdelta =>
    h.labelsRemoved l hl d hd delta hdelta label

theorem Settled.overlay_eq :
    (mergedLevel oldest run scope).labelOverlayIds = (runSnapshot oldest run).labelOverlayIds := by
  have hrows := fun r hr => (hsound r hr).rows
  ext d
  rw [mem_merged_labelOverlayIds hsound, labelOverlayIds,
    mem_union_idsWhere hrows (fun l hl => hl.labelOverlayIds) fun _ _ => rfl]
  simp only [h.added_eq hne hsound scope, h.removed_eq hne hsound scope, mem_idsWithAddedLabel hrows,
    mem_idsWithRemovedLabel hrows, NodeDelta.relabels_iff]
  constructor
  · rintro ⟨label, ⟨l, hl, delta, hdelta, hlabel⟩ | ⟨l, hl, delta, hdelta, hlabel⟩⟩
    · exact ⟨l, hl, delta, hdelta, label, .inl hlabel⟩
    · exact ⟨l, hl, delta, hdelta, label, .inr hlabel⟩
  · rintro ⟨l, hl, delta, hdelta, label, hlabel | hlabel⟩
    · exact ⟨label, .inl ⟨l, hl, delta, hdelta, hlabel⟩⟩
    · exact ⟨label, .inr ⟨l, hl, delta, hdelta, hlabel⟩⟩

theorem Settled.answersAs : AnswersAs (mergedLevel oldest run scope) (runSnapshot oldest run) := by
  have hrows := fun r hr => (hsound r hr).rows
  have hfrom := @mergedLevel_fromRows oldest run hrows scope
  have hborn := (@liveBorn_eq_iff oldest run hne hsound scope).mpr h.bornEdges
  refine { mergedLevel_rowsAnswer hne hrows scope with
    idsWithAddedLabel := h.added_eq hne hsound scope
    idsWithRemovedLabel := h.removed_eq hne hsound scope
    labelOverlayIds := h.overlay_eq hne hsound scope
    hasLabelOverlay := ?_, hasEdgeTombstones := ?_, bornEdgeCountWithReltype := ?_
    bornEdgeReltypes := ?_ }
  · rw [hfrom.hasLabelOverlay, snapshot_hasLabelOverlay hsound, h.overlay_eq hne hsound scope]
  · rw [Bool.eq_iff_iff, merged_hasEdgeTombstones_iff hne hsound, snapshot_hasEdgeTombstones_iff hsound]
    refine ⟨?_, h.edgeTombstones⟩
    rintro ⟨l, hl, node, hnode, e, he, ht, -⟩
    exact ⟨l, hl, node, hnode, e, he, ht⟩
  · intro reltype
    rw [hfrom.bornEdgeCountWithReltype, snapshot_tally hsound, hborn]
  · ext reltype
    rw [hfrom.bornEdgeReltypes, mem_bornEdgeReltypes hsound, hborn]

end Settled

/-- **The merged segment answers every question as the snapshot does exactly when the run is
settled.** -/
theorem mergedLevel_answersAs_iff :
    AnswersAs (mergedLevel oldest run scope) (runSnapshot oldest run) ↔ Settled (runLevels run) := by
  have hrows := fun r hr => (hsound r hr).rows
  refine ⟨fun h => ⟨fun l hl d _ delta hdelta label hlabel => ?_,
    fun l hl d _ delta hdelta label hlabel => ?_, ?_, fun htomb => ?_⟩,
    fun h => h.answersAs hne hsound scope⟩
  · rw [← @mem_merged_idsWithAddedLabel oldest _ _ _ hne hsound scope, h.idsWithAddedLabel,
      mem_idsWithAddedLabel hrows]
    exact ⟨l, hl, delta, hdelta, hlabel⟩
  · rw [← @mem_merged_idsWithRemovedLabel oldest _ _ _ hne hsound scope, h.idsWithRemovedLabel,
      mem_idsWithRemovedLabel hrows]
    exact ⟨l, hl, delta, hdelta, hlabel⟩
  · refine (@liveBorn_eq_iff oldest run hne hsound scope).mp fun reltype => ?_
    rw [← (mergedLevel_fromRows hrows scope).bornEdgeCountWithReltype, h.bornEdgeCountWithReltype,
      snapshot_tally hsound]
  · rw [← @merged_hasEdgeTombstones_iff oldest run hne hsound scope, h.hasEdgeTombstones,
      snapshot_hasEdgeTombstones_iff hsound]
    exact htomb

end Agree

/-! ## Levels that writes and flushes produce -/

/-- `s` is the open segment of a sealed memtable, written with some scope. Whatever memtable was
sealed, the segment answers for it as `Slater.Delta.Spill` says. -/
def SealedAs (m : Memtable) (s : OpenSegment) : Prop :=
  ∃ scope, m.toSegmentData.Fits scope ∧ openSegment (writeSegment m.toSegmentData scope) = .ok s.reader

/-- A sealed segment reads and answers from the rows it was written from. -/
theorem SealedAs.level_eq {s : OpenSegment} (h : SealedAs m s) : ∃ scope, m.toSegmentData.Shallow ∧
    s.reader = m.toSegmentData.reader scope ∧ s.level = m.toSegmentData.answers scope := by
  obtain ⟨scope, hfits, hopen⟩ := h
  have hlevel : (openSegment (writeSegment m.toSegmentData scope) >>= L0Reader.level) = .ok s.level := by
    rw [hopen]
    exact s.opened
  obtain ⟨hshallow, hlevel⟩ := (writeSegment_level_eq_ok hfits).mp hlevel
  exact ⟨scope, hshallow, ((openSegment_eq_ok hfits.resident).mp hopen).2, hlevel⟩

theorem Memtable.Coherent.toSegmentData_keyed (hm : m.Coherent) : m.toSegmentData.Keyed where
  nodes := keyed_nodup (ascending_nodup _) _
  adjOut := by
    rw [toSegmentData, map_map]
    exact (map_id (ascending m.outAdj.keys)).symm ▸ ascending_nodup _
  listed := by
    intro row hrow
    obtain ⟨node, hnode, rfl⟩ := mem_map.mp hrow
    obtain ⟨ids, hids⟩ := (mem_keys_iff ..).mp (mem_ascending.mp hnode)
    obtain ⟨hne, hstored⟩ := hm.lists node ids hids
    obtain ⟨id, hid⟩ := exists_mem_of_ne_nil _ hne
    obtain ⟨e, he⟩ := hstored id hid
    refine ne_nil_of_mem (a := deltaEdge true id e) (mem_filterMap.mpr ⟨id, ?_, ?_⟩)
    · rw [hids]
      exact hid
    · rw [he]
      rfl
  edges := keyed_nodup (ascending_nodup _) _
  bornByLabel := pairs_nodup _
  labelled := by
    rintro ⟨label, ids⟩ he
    have hlookup := mem_pairs.mp he
    have hids := getD_fileAll (∅ : Map String (List Nat)) (m.bornEntries.map fun e => (e.1.label, e.2.1)) label
    rw [hlookup, Option.getD_some] at hids
    have hmem := (isSome_lookup_fileAll (∅ : Map String (List Nat))
      (m.bornEntries.map fun e => (e.1.label, e.2.1)) label).mp (by rw [hlookup]; rfl)
    obtain ⟨kv, hkv, rfl⟩ := mem_map.mp (hmem.resolve_left (by simp))
    rw [hids]
    exact ne_nil_of_mem (mem_map.mpr ⟨kv, mem_filter.mpr ⟨hkv, by simp⟩, rfl⟩)

theorem SealedAs.sound {s : OpenSegment} (h : SealedAs m s) (hm : m.Coherent) : s.Sound := by
  obtain ⟨scope, hshallow, hreader, hlevel⟩ := h.level_eq
  refine { OpenSegment.shallow_of_data hshallow hreader hlevel with
    rows := hlevel ▸ hm.toSegmentData_keyed.answers_fromRows scope, consistent := fun d delta hdelta => ?_ }
  rw [hlevel, SegmentData.answers_nodePatch, m.rowAt_nodes, m.nodeRow_snd] at hdelta
  obtain ⟨id, -, hentry⟩ := Option.bind_eq_some_iff.mp hdelta
  obtain ⟨e, he, rfl⟩ := Option.map_eq_some_iff.mp hentry
  exact hm.consistent id e he

theorem sound_of_sealed {run : List Memtable} {segments : List OpenSegment}
    (h : List.Forall₂ SealedAs run segments) (hcoherent : ∀ m ∈ run, m.Coherent) : ∀ s ∈ segments, s.Sound := by
  induction h with
  | nil => exact nofun
  | cons hms _ ih =>
    rw [forall_mem_cons] at hcoherent ⊢
    exact ⟨hms.sound hcoherent.1, ih hcoherent.2⟩

/-- Every level that writes and flushes produce is coherent. -/
theorem DeltaState.run_coherent (nodeCount edgeCount : Nat) (steps : List DeltaStep) :
    ∀ l ∈ ((start nodeCount edgeCount).run steps).levels, l.Coherent := by
  refine foldlRecOn (motive := fun st : DeltaState => ∀ l ∈ st.levels, l.Coherent) steps step ?_ fun st h step _ => ?_
  · intro l hl
    rw [mem_singleton.mp hl]
    exact coherent_withBases _ _
  · obtain ⟨hmem, hl0⟩ := forall_mem_cons.mp h
    cases step with
    | write op => exact forall_mem_cons.mpr ⟨hmem.apply op, hl0⟩
    | flush =>
      show ∀ l ∈ st.flush.levels, l.Coherent
      unfold flush
      cases st.mem.isEmpty with
      | true => exact h
      | false => exact forall_mem_cons.mpr ⟨coherent_withBases _ _, h⟩

/-- **Off-heap compaction against the snapshot over the run.** For every contiguous run of the levels
that writes and flushes produce, each sealed off-heap, `merge_run` writes a segment that opens and that
answers from its rows as the snapshot over the run does; so born nodes and edges keep their ids. It
answers every question so if and only if the run is settled.

The last hypothesis says that the ids, counts and lengths of the segment are numbers of the source. -/
theorem mergeRun_answers_iff (nodeCount edgeCount : Nat) (steps : List DeltaStep) (above run below : List Memtable)
    (hsplit : ((start nodeCount edgeCount).run steps).l0 = above ++ run ++ below)
    (segments : List OpenSegment) (hsealed : List.Forall₂ SealedAs run segments)
    (oldest : OpenSegment) (holdest : segments.getLast? = some oldest) (scope : Nat)
    (hfits : (MergeRun.data oldest segments).Fits scope) : ∃ files l, mergeRun segments scope = some files ∧
      (openSegment files >>= L0Reader.level) = .ok l ∧ RowsAnswer l (runSnapshot oldest segments) ∧
      (AnswersAs l (runSnapshot oldest segments) ↔ Settled (runLevels segments)) := by
  have hne : segments ≠ [] := by
    rintro rfl
    cases holdest
  have hcoherent : ∀ m ∈ run, m.Coherent := by
    intro m hm
    refine run_coherent nodeCount edgeCount steps m (.tail _ ?_)
    rw [hsplit]
    exact mem_append_left _ (mem_append_right _ hm)
  have hsound := sound_of_sealed hsealed hcoherent
  have hrows := fun s hs => (hsound s hs).rows
  refine ⟨writeSegment (MergeRun.data oldest segments) scope, mergedLevel oldest segments scope, ?_, ?_,
    mergedLevel_rowsAnswer hne hrows scope, mergedLevel_answersAs_iff hne hsound scope⟩
  · rw [mergeRun, holdest, Option.map_some]
  · exact (writeSegment_level_eq_ok hfits).mpr ⟨MergeRun.data_shallow hne fun s hs => (hsound s hs).toShallow, rfl⟩

/-! ## Examples -/

/-- The open segment of a memtable whose numbers fit and whose values are shallow. -/
def Memtable.seal (m : Memtable) (hfits : m.toSegmentData.Fits 0) (hshallow : m.Shallow) : OpenSegment where
  reader := m.toSegmentData.reader 0
  level := m.toSegmentData.answers 0
  opened := by
    have hshallow := m.toSegmentData_shallow.mpr hshallow
    have hopen := (openSegment_eq_ok hfits.resident).mpr ⟨hshallow.bornIndex, rfl⟩
    have hlevel := (writeSegment_level_eq_ok hfits).mpr ⟨hshallow, rfl⟩
    rw [hopen] at hlevel
    exact hlevel

theorem Memtable.sealedAs_seal (m : Memtable) (hfits : m.toSegmentData.Fits 0)
    (hshallow : m.Shallow) : SealedAs m (m.seal hfits hshallow) :=
  ⟨0, hfits, (openSegment_eq_ok hfits.resident).mpr ⟨(m.toSegmentData_shallow.mpr hshallow).bornIndex, rfl⟩⟩

namespace OffheapCompaction

def alice : NodeIdentity := { label := "Person", key := "id", value := .int 1 }

def bob : NodeIdentity := { label := "Person", key := "id", value := .int 2 }

def knows : EdgeIdentity := { src := alice, reltype := "KNOWS", dst := bob }

/-- A core node gets a label and a relationship to a new node; the next level labels the new
node and patches the first. -/
def grown : List DeltaStep :=
  [.write (.node alice (.setLabels ["Vip"] []) (some 0)),
    .write (.upsertEdge knows false [("since", .int 7)] (some 0) none none), .flush,
    .write (.node bob (.setLabels ["Vip"] []) (some 1)),
    .write (.node alice (.upsert [("age", .int 30)]) (some 0)), .flush]

/-- A core node gets a label in one level and loses it in the next. -/
def toggled : List DeltaStep :=
  [.write (.node alice (.setLabels ["Vip"] []) (some 0)), .flush,
    .write (.node alice (.setLabels [] ["Vip"]) (some 0)), .flush]

/-- A relationship of the core is deleted; the delete carries no edge id. -/
def unlinked : List DeltaStep := [.write (.deleteEdge knows (some 0) (some 1)), .flush]

/-- The sealed levels of a run from a core with one node, newest first. -/
def levelAt (steps : List DeltaStep) (i : Nat) : Memtable :=
  ((start 1 0).run steps).l0.getD i (.withBases 0 0)

def grownNew : OpenSegment := (levelAt grown 0).seal (by decide) (by decide)

def grownOld : OpenSegment := (levelAt grown 1).seal (by decide) (by decide)

def toggledNew : OpenSegment := (levelAt toggled 0).seal (by decide) (by decide)

def toggledOld : OpenSegment := (levelAt toggled 1).seal (by decide) (by decide)

def unlinkedOnly : OpenSegment := (levelAt unlinked 0).seal (by decide) (by decide)

/-- The level counts one edge delta, and the segment it is merged into none: the deleted
relationship is a row of its source still, and not an edge with an id. -/
example : (runSnapshot unlinkedOnly [unlinkedOnly]).edgeDeltaCount = 1 ∧
    (mergedLevel unlinkedOnly [unlinkedOnly] 0).edgeDeltaCount = 0 := by
  decide

end OffheapCompaction

open OffheapCompaction in
/-- Two levels that do not take back what the other filed are merged without a trace. -/
theorem mergeRun_answers_grown : ∃ files l, mergeRun [grownNew, grownOld] 0 = some files ∧
      (openSegment files >>= L0Reader.level) = .ok l ∧ AnswersAs l (runSnapshot grownOld [grownNew, grownOld]) := by
  obtain ⟨files, l, hfiles, hopen, -, hiff⟩ := mergeRun_answers_iff 1 0 grown []
    [levelAt grown 0, levelAt grown 1] [] (by rfl) [grownNew, grownOld]
    (.cons (sealedAs_seal ..) (.cons (sealedAs_seal ..) .nil)) grownOld rfl 0
    (by decide)
  exact ⟨files, l, hfiles, hopen, hiff.mpr (by decide)⟩

open OffheapCompaction in
/-- **Some merged levels answer differently**: of a node that got a label in one level and lost
it in the next, the snapshot over the two still says that it gained the label, and the merged
segment does not. -/
theorem merge_forgets_label :
    ¬ ∀ (nodeCount edgeCount : Nat) (steps : List DeltaStep) (above run below : List Memtable),
      ((start nodeCount edgeCount).run steps).l0 = above ++ run ++ below →
      ∀ segments : List OpenSegment, List.Forall₂ SealedAs run segments →
      ∀ oldest : OpenSegment, segments.getLast? = some oldest →
      ∀ scope, (MergeRun.data oldest segments).Fits scope → ∃ files l, mergeRun segments scope = some files ∧
          (openSegment files >>= L0Reader.level) = .ok l ∧ AnswersAs l (runSnapshot oldest segments) := by
  intro h
  have hfits : (MergeRun.data toggledOld [toggledNew, toggledOld]).Fits 0 := by decide
  obtain ⟨files, l, hfiles, hopen, hans⟩ := h 1 0 toggled [] [levelAt toggled 0, levelAt toggled 1] []
    (by rfl) [toggledNew, toggledOld]
    (.cons (sealedAs_seal ..) (.cons (sealedAs_seal ..) .nil)) toggledOld rfl 0 hfits
  obtain rfl : writeSegment _ 0 = files := Option.some.inj hfiles
  obtain ⟨-, rfl⟩ := (writeSegment_level_eq_ok hfits).mp hopen
  have hmerged : (mergedLevel toggledOld [toggledNew, toggledOld] 0).idsWithAddedLabel "Vip" = ∅ := by
    decide
  have hsnapshot : (runSnapshot toggledOld [toggledNew, toggledOld]).idsWithAddedLabel "Vip" = {0} := by
    decide
  have hsame := hmerged.symm.trans ((hans.idsWithAddedLabel "Vip").trans hsnapshot)
  exact absurd hsame (by decide)

end Slater
