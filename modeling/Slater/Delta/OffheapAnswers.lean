import Slater.Delta.OffheapMerge
import Slater.Delta.Stack

/-!
# The rows of a merged segment

`merge_run` replaces a run of off-heap levels by one segment. The rows of the segment are the rows the
snapshot over the run folds to, so whatever is read from rows reads the same whatever the run holds
(`mergedLevel_rowsAnswer`).

The other answers of a snapshot are collected level by level, while the writer files them from the folded
rows. This module states what the levels of a run say of a label (`lastWord`) and list of edges
(`listing`), and what it is for a newer level not to take back what an older one filed (`Settled`).

The two delta counts are answers too, and are left out of the comparison: the merged segment counts ids
(`mergedLevel_counts`), a snapshot adds up what its levels count.
-/

namespace Slater

open Map List Option Finset DeltaSnapshot MergeRun NodeDelta SegmentData

/-! ## What levels say of a label -/

/-- What a delta says of a label; a tombstone takes back what was said before. -/
inductive LabelWord where
  | added
  | removed
  | reset
  deriving DecidableEq

def NodeDelta.labelWord (delta : NodeDelta) (label : String) : Option LabelWord :=
  bif delta.tombstoned then some .reset
  else if label ∈ delta.labelsRemoved then some .removed
  else if label ∈ delta.labelsAdded then some .added
  else none

/-- The word of the newest level that says anything of the label of a node. -/
def lastWord (levels : List Level) (d : Nat) (label : String) : Option LabelWord :=
  levels.findSome? fun l => (l.nodePatch d).bind (·.labelWord label)

variable {delta : NodeDelta} {word : LabelWord} {label : String}

theorem NodeDelta.Consistent.labelWord_added (h : delta.Consistent)
    : delta.labelWord label = some .added ↔ label ∈ delta.labelsAdded := by
  unfold labelWord
  cases ht : delta.tombstoned with
  | true =>
    rw [h.tombstoned ht]
    simp [tombstone]
  | false =>
    have hdisj := disjoint_left.mp h.labels
    by_cases hr : label ∈ delta.labelsRemoved
    · have hnot : label ∉ delta.labelsAdded := fun ha => hdisj ha hr
      simp [hnot]
    · simp [hr]

theorem NodeDelta.Consistent.labelWord_removed (h : delta.Consistent)
    : delta.labelWord label = some .removed ↔ label ∈ delta.labelsRemoved := by
  unfold labelWord
  cases ht : delta.tombstoned with
  | true =>
    rw [h.tombstoned ht]
    simp [tombstone]
  | false => by_cases hr : label ∈ delta.labelsRemoved <;> simp

/-- A newer delta has the last word, or leaves it to the older one; a write on a tombstone
revives the node with nothing left of it. -/
theorem NodeDelta.labelWord_foldNewer {older : NodeDelta} (h : older.Consistent) (newer : NodeDelta)
    (label : String) (hword : word ≠ .reset) : (older.foldNewer newer).labelWord label = some word ↔
      (newer.labelWord label).or (older.labelWord label) = some word := by
  cases ht : newer.tombstoned with
  | true => simp [foldNewer_of_tombstoned older ht, labelWord, tombstone, ht]
  | false =>
    have hdead : older.tombstoned = true → older.labelsAdded = ∅ ∧ older.labelsRemoved = ∅ :=
      fun hold => by rw [h.tombstoned hold]; exact ⟨rfl, rfl⟩
    simp only [labelWord, foldNewer_tombstoned,
      mem_foldNewer_labelsAdded older ht, mem_foldNewer_labelsRemoved older ht]
    cases hold : older.tombstoned with
    | true =>
      rw [(hdead hold).1, (hdead hold).2]
      grind
    | false => grind

variable {levels : List Level}

/-- The words of the fold are the last words of the levels, where they are not a reset. -/
theorem labelWord_levelFold {d : Nat}
    (hcons : ∀ l ∈ levels, ∀ delta, l.nodePatch d = some delta → delta.Consistent) (label : String)
    (hword : word ≠ .reset) :
    ((levelFold levels d).bind (·.labelWord label)) = some word ↔ lastWord levels d label = some word := by
  induction levels with
  | nil => rfl
  | cons l levels ih =>
    have htail := fun l' (hl' : l' ∈ levels) => hcons l' (.tail _ hl')
    have ih := ih htail
    rw [levelFold_cons, lastWord, findSome?_cons, ← lastWord]
    cases hl : l.nodePatch d with
    | none => simpa using ih
    | some newer =>
      rw [elim_some, bind_some, bind_some]
      cases hfold : levelFold levels d with
      | none =>
        rw [hfold] at ih
        cases hw : newer.labelWord label with
        | none => simpa [hw] using ih
        | some w => simp [hw]
      | some older =>
        have hold : older.Consistent := levelFold_induction
          (fun _ newer ho _ => foldNewer_consistent ho newer) htail hfold
        rw [hfold] at ih
        rw [elim_some, labelWord_foldNewer hold newer label hword]
        cases hw : newer.labelWord label with
        | none => simpa using ih
        | some w => simp

/-! ## What levels list of edges -/

/-- The outgoing edges all levels list at a node, newest first. -/
def listing (levels : List Level) (node : Nat) : List DeltaEdge := levels.flatMap (·.outEdges node)

/-- An edge is overtaken by one listed before it under the same merge key. -/
def Unovertaken (p : DeltaEdge → Bool) (xs : List DeltaEdge) : Prop :=
  xs.Pairwise fun newer older => p older = true → newer.mergeKey ≠ older.mergeKey
deriving Decidable

section Count

variable (p : DeltaEdge → Bool) (seen : List (String × Nat × Bytes)) (xs : List DeltaEdge)

theorem countP_keepFirst_le : (keepFirst seen xs).countP p ≤ xs.countP p := by
  induction xs generalizing seen with
  | nil => simp [keepFirst]
  | cons x xs ih =>
    rw [keepFirst]
    split
    next =>
      rw [countP_cons]
      exact (ih seen).trans (Nat.le_add_right ..)
    next =>
      rw [countP_cons, countP_cons]
      exact Nat.add_le_add_right (ih _) _

/-- Merging loses no edge that passes `p` exactly when none is overtaken. -/
theorem countP_keepFirst_eq_iff :
    (keepFirst seen xs).countP p = xs.countP p ↔ (∀ e ∈ xs, p e = true → e.mergeKey ∉ seen) ∧ Unovertaken p xs := by
  induction xs generalizing seen with
  | nil => simp [keepFirst, Unovertaken]
  | cons x xs ih =>
    have hle := countP_keepFirst_le p seen xs
    rw [keepFirst, Unovertaken, List.pairwise_cons, ← Unovertaken, List.forall_mem_cons]
    by_cases hseen : x.mergeKey ∈ seen
    · rw [if_pos hseen, countP_cons]
      by_cases hp : p x = true
      · rw [if_pos hp]
        constructor
        · intro heq
          omega
        · rintro ⟨⟨hx, -⟩, -⟩
          exact absurd hseen (hx hp)
      · rw [if_neg hp, Nat.add_zero, ih]
        constructor
        · rintro ⟨hxs, hpair⟩
          refine ⟨⟨fun h => absurd h hp, hxs⟩, fun e he hpe heq => ?_, hpair⟩
          exact hxs e he hpe (heq ▸ hseen)
        · rintro ⟨⟨-, hxs⟩, -, hpair⟩
          exact ⟨hxs, hpair⟩
    · rw [if_neg hseen, countP_cons, countP_cons, Nat.add_right_cancel_iff, ih]
      constructor
      · rintro ⟨hxs, hpair⟩
        refine ⟨⟨fun _ => hseen, fun e he hpe h => ?_⟩, fun e he hpe heq => ?_, hpair⟩
        · exact hxs e he hpe (.tail _ h)
        · exact hxs e he hpe (heq ▸ mem_cons_self)
      · rintro ⟨⟨-, hxs⟩, hx, hpair⟩
        refine ⟨fun e he hpe h => ?_, hpair⟩
        rcases mem_cons.mp h with heq | h
        · exact hx e he hpe heq.symm
        · exact hxs e he hpe h

end Count

/-- The live born edges of a type. -/
def liveOf (reltype : String) (e : DeltaEdge) : Bool :=
  SegmentWriter.countsLive e && e.reltype == reltype

theorem unovertaken_liveOf_iff {xs : List DeltaEdge} :
    (∀ reltype, Unovertaken (liveOf reltype) xs) ↔ Unovertaken SegmentWriter.countsLive xs := by
  unfold Unovertaken
  constructor
  · intro h
    rw [pairwise_iff_forall_sublist]
    intro newer older hsub hlive
    refine pairwise_iff_forall_sublist.mp (h older.reltype) hsub ?_
    simp [liveOf, hlive]
  · intro h reltype
    refine h.imp fun hne hlive => hne ?_
    simp only [liveOf, Bool.and_eq_true] at hlive
    exact hlive.1

/-- The tallies of the levels add up to the edges they list. -/
theorem sum_liveBorn (hrows : ∀ l ∈ levels, l.FromRows) {nodes : Finset Nat}
    (hnodes : ∀ l ∈ levels, l.adjOutNodes ⊆ nodes) (reltype : String) :
    (levels.map (·.liveBorn reltype)).sum = ∑ node ∈ nodes, (listing levels node).countP (liveOf reltype) := by
  induction levels with
  | nil => simp [listing]
  | cons l levels ih =>
    have hl : l.liveBorn reltype = ∑ node ∈ nodes, (l.outEdges node).countP (liveOf reltype) := by
      refine sum_subset (hnodes l (.head _)) fun node _ hnot => ?_
      have hnil : l.outEdges node = [] := by
        by_contra hne
        exact hnot (((hrows l (.head _)).adjOutNodes node).mpr hne)
      rw [hnil, countP_nil]
    rw [List.map_cons, List.sum_cons, hl, ih (fun l' hl' => hrows l' (.tail _ hl'))
        fun l' hl' => hnodes l' (.tail _ hl'), ← sum_add_distrib]
    refine sum_congr rfl fun node _ => ?_
    rw [listing, listing, flatMap_cons, countP_append]

/-! ## The answers of a level and of a snapshot -/

/-- A level answers from its rows, and from the indexes it holds whole, as a snapshot does. Ids
and identities are among these answers, so a merged level that has them gives every born node
and edge its id. -/
structure RowsAnswer (l : Level) (s : DeltaSnapshot) : Prop where
  isEmpty : l.isEmpty = s.isEmpty
  nodePatch : ∀ d, l.nodePatch d = s.nodePatch d
  nodeTombstoned : ∀ d, (l.nodeTombstoned d).getD false = s.isTombstoned d
  tombstonedIds : l.tombstonedIds = s.effectiveTombstonedIds
  nodeIdentity : ∀ d, l.nodeIdentity d = s.nodeIdentity d
  nodeDenseIds : l.nodeDenseIds = s.nodeDenseIds
  syntheticBase : l.syntheticBase = s.syntheticBase
  bornCount : l.bornCount = s.bornCount
  bornCountWithLabel : ∀ label, l.bornCountWithLabel label = s.bornCountWithLabel label
  bornLabels : l.bornLabels = s.bornLabels
  bornIdsWithLabel : ∀ label, l.bornIdsWithLabel label = s.bornIdsWithLabel label
  bornIdsInIndex : ∀ label prop pred, l.bornIdsInIndex label prop pred = s.bornIdsInIndex label prop pred
  bornSyntheticForIdentity : ∀ id, l.bornSyntheticForIdentity id = s.bornSyntheticForIdentity id
  coreIdsPatchedOnIndex : ∀ label prop,
    l.coreIdsPatchedOnIndex label prop = s.union (·.coreIdsPatchedOnIndex label prop)
  outEdges : ∀ node, l.outEdges node = s.outEdges node
  inEdges : ∀ node, l.inEdges node = s.inEdges node
  adjOutNodes : l.adjOutNodes = s.adjOutNodes
  edgeSyntheticBase : l.edgeSyntheticBase = s.edgeSyntheticBase
  bornEdgeCount : l.bornEdgeCount = s.bornEdgeCount
  edgeIds : l.edgeIds = s.edgeDenseIds
  edgePatches : ∀ id, ((l.edgeDelta id).map (·.patches)).getD ∅ = s.edgePatches id
  edgeReplaced : ∀ id, ((l.edgeDelta id).map (·.replaced)).getD false = s.edgeReplaced id
  edgePatchValue : ∀ id prop, (l.edgeDelta id).bind (·.patches.lookup prop) = s.edgePatchValue id prop
  edgeTombstoned : ∀ id, (l.edgeDelta id).map (·.tombstoned) =
    s.levels.findSome? fun l => (l.edgeDelta id).map (·.tombstoned)
  corePatchedEdges : l.corePatchedEdges = s.corePatchedEdges

/-- A level answers every question as a snapshot does. The numbers of node and edge deltas are
left out: they are estimates, which the snapshot adds up over its levels and the merge takes
anew. -/
structure AnswersAs (l : Level) (s : DeltaSnapshot) : Prop extends RowsAnswer l s where
  idsWithAddedLabel : ∀ label, l.idsWithAddedLabel label = s.idsWithAddedLabel label
  idsWithRemovedLabel : ∀ label, l.idsWithRemovedLabel label = s.idsWithRemovedLabel label
  labelOverlayIds : l.labelOverlayIds = s.labelOverlayIds
  hasLabelOverlay : l.hasLabelOverlay = s.hasLabelOverlay
  hasEdgeTombstones : l.hasEdgeTombstones = s.hasEdgeTombstones
  bornEdgeCountWithReltype : ∀ reltype, l.bornEdgeCountWithReltype reltype = s.bornEdgeCountWithReltype reltype
  bornEdgeReltypes : l.bornEdgeReltypes = s.bornEdgeReltypes

/-- No newer level of a run takes back what an older one filed. Labels, tombstones and listed
edges are the three kinds of filing that a newer level may contradict. -/
@[mk_iff] structure Settled (levels : List Level) : Prop where
  /-- A level that adds a label of a node agrees with the newest level that has a word on it. -/
  labelsAdded : ∀ l ∈ levels, ∀ d ∈ l.nodeDenseIds, ∀ delta ∈ l.nodePatch d,
    ∀ label ∈ delta.labelsAdded, lastWord levels d label = some .added
  /-- A level that removes a label of a node agrees with the newest level that has a word on
  it. -/
  labelsRemoved : ∀ l ∈ levels, ∀ d ∈ l.nodeDenseIds, ∀ delta ∈ l.nodePatch d,
    ∀ label ∈ delta.labelsRemoved, lastWord levels d label = some .removed
  /-- No live born edge is overtaken by an edge of its merge key. -/
  bornEdges : ∀ l ∈ levels, ∀ node ∈ l.adjOutNodes, Unovertaken SegmentWriter.countsLive (listing levels node)
  /-- If an edge tombstone is listed, one is listed that is the first of its merge key. -/
  edgeTombstones : (∃ l ∈ levels, ∃ node ∈ l.adjOutNodes, ∃ e ∈ l.outEdges node,
      e.tombstoned = true) → ∃ l ∈ levels, ∃ node ∈ l.adjOutNodes, ∃ e ∈ l.outEdges node,
      e.tombstoned = true ∧ (listing levels node).find? (fun x => x.mergeKey = e.mergeKey) = some e

instance (levels : List Level) : Decidable (Settled levels) := decidable_of_iff' _ (settled_iff levels)

/-! ## The merged segment against the snapshot -/

section Merged

variable {oldest : OpenSegment} {run : List OpenSegment} {α : Type}

/-- The merged segment's answers. -/
def mergedLevel (oldest : OpenSegment) (run : List OpenSegment) (scope : Nat) : Level :=
  (data oldest run).answers scope

theorem forall_runLevels {p : Level → Prop} : (∀ l ∈ runLevels run, p l) ↔ ∀ r ∈ run, p r.level := by
  simp [runLevels]

theorem sum_runSnapshot {read : Level → Nat}
    (hempty : ∀ nodeBase edgeBase, read (Memtable.withBases nodeBase edgeBase).level = 0) :
    ((runSnapshot oldest run).levels.map read).sum = ((runLevels run).map read).sum := by
  rw [runSnapshot_levels, List.map_cons, List.sum_cons, hempty, Nat.zero_add]

theorem any_runSnapshot {read : Level → Bool}
    (hempty : ∀ nodeBase edgeBase, read (Memtable.withBases nodeBase edgeBase).level = false) :
    (runSnapshot oldest run).levels.any read = (runLevels run).any read := by
  rw [runSnapshot_levels, any_cons, hempty, Bool.false_or]

theorem flatMap_runSnapshot {read : Level → List α}
    (hempty : ∀ nodeBase edgeBase, read (Memtable.withBases nodeBase edgeBase).level = []) :
    (runSnapshot oldest run).levels.reverse.flatMap read = (runLevels run).reverse.flatMap read := by
  rw [runSnapshot_levels, reverse_cons, flatMap_append, flatMap_singleton, hempty,
    append_nil]

theorem mem_idsWhere {l : Level} (h : l.FromRows) {p : NodeDelta → Bool} {d : Nat} :
    d ∈ l.idsWhere p ↔ ∃ delta, l.nodePatch d = some delta ∧ p delta = true := by
  rw [Level.idsWhere, Finset.mem_filter, h.nodeDenseIds]
  cases hd : l.nodePatch d <;> simp

/-- No level knows the edge. -/
theorem edgeDelta_of_absent {id : Nat} (h : (runLevels run).findSome? (·.edgeDelta id) = none) :
    (runSnapshot oldest run).edgeDelta id = (∅, false) := by
  have hnil : (runSnapshot oldest run).levels.reverse.filterMap (·.edgeDelta id) = [] := by
    rw [filterMap_eq_nil_iff]
    intro l hl
    rw [List.mem_reverse, runSnapshot_levels, List.mem_cons] at hl
    rcases hl with rfl | hl
    · exact edgeDelta_withBases ..
    · exact findSome?_eq_none_iff.mp h l hl
  rw [edgeDelta, hnil]
  rfl

variable (hne : run ≠ []) (hrows : ∀ r ∈ run, r.level.FromRows) (scope : Nat)
include hne hrows

theorem mergedLevel_nodePatch (d : Nat) :
    (mergedLevel oldest run scope).nodePatch d = levelFold (runLevels run) d := by
  have hid := identity_isSome hrows d
  rw [mergedLevel, answers_nodePatch, nodeRow_eq hne hrows]
  cases hfold : levelFold (runLevels run) d with
  | none => rfl
  | some delta =>
    rw [hfold] at hid
    obtain ⟨id, hid⟩ := isSome_iff_exists.mp hid
    rw [hid]
    rfl

theorem mergedLevel_nodeIdentity (d : Nat) :
    (mergedLevel oldest run scope).nodeIdentity d = (runLevels run).findSome? (·.nodeIdentity d) := by
  have hid := identity_isSome hrows d
  rw [mergedLevel, answers_nodeIdentity, nodeRow_eq hne hrows]
  cases hfold : levelFold (runLevels run) d with
  | none =>
    rw [hfold, isSome_none, isSome_eq_false_iff, isNone_iff_eq_none] at hid
    rw [hid]
    rfl
  | some delta =>
    rw [hfold] at hid
    obtain ⟨id, hid⟩ := isSome_iff_exists.mp hid
    rw [hid]
    rfl

theorem mergedLevel_outEdges (node : Nat) :
    (mergedLevel oldest run scope).outEdges node = keepFirst [] (listing (runLevels run) node) := by
  rw [mergedLevel, answers_outEdges]
  exact (outRow_eq hne hrows node).trans (runSnapshot_outEdges hne node)

omit hne in
theorem mergedLevel_fromRows : (mergedLevel oldest run scope).FromRows :=
  (data_keyed hrows).answers_fromRows scope

/-- The node columns of the merged segment are those of the run. -/
theorem mem_mergedLevel_nodeDenseIds (d : Nat) :
    d ∈ (mergedLevel oldest run scope).nodeDenseIds ↔ ∃ l ∈ runLevels run, d ∈ l.nodeDenseIds := by
  rw [(mergedLevel_fromRows hrows scope).nodeDenseIds, mergedLevel_nodePatch hne hrows,
    levelFold_isSome]
  refine exists_congr fun l => and_congr_right fun hl => ?_
  rw [(forall_runLevels.mpr hrows l hl).nodeDenseIds]

theorem mem_mergedLevel_adjOutNodes (node : Nat) :
    node ∈ (mergedLevel oldest run scope).adjOutNodes ↔ ∃ l ∈ runLevels run, node ∈ l.adjOutNodes := by
  rw [(mergedLevel_fromRows hrows scope).adjOutNodes, mergedLevel_outEdges hne hrows, ne_eq,
    keepFirst_eq_nil, listing, flatMap_eq_nil_iff]
  push Not
  refine exists_congr fun l => and_congr_right fun hl => ?_
  rw [(forall_runLevels.mpr hrows l hl).adjOutNodes]

omit hne in
theorem mem_mergedLevel_edgeIds (id : Nat) :
    id ∈ (mergedLevel oldest run scope).edgeIds ↔ ∃ l ∈ runLevels run, id ∈ l.edgeIds := by
  rw [(mergedLevel_fromRows hrows scope).edgeIds, mergedLevel, answers_edgeDelta,
    edgeRow_eq hrows, Option.isSome_map, List.isSome_findSome?, List.any_eq_true]
  refine exists_congr fun l => and_congr_right fun hl => ?_
  rw [(forall_runLevels.mpr hrows l hl).edgeIds]

omit hne in
/-- The two delta counts of the merged segment are counts of ids, each id once. They are not
those of the snapshot, which adds up the counts of its levels: there an id counts in every level
that has it, and so does an edge whose id the level does not know, as a deleted relationship of
the core. -/
theorem mergedLevel_counts :
    (mergedLevel oldest run scope).nodeDeltaCount = (mergedLevel oldest run scope).nodeDenseIds.card ∧
      (mergedLevel oldest run scope).edgeDeltaCount = (mergedLevel oldest run scope).edgeIds.card := by
  have hkeyed := @data_keyed oldest run hrows
  rw [mergedLevel, answers_eq]
  constructor
  · show (nodes oldest run).length = _
    exact ((List.toFinset_card_of_nodup hkeyed.nodes).trans (length_map _)).symm
  · show (edges oldest run).length = _
    exact ((List.toFinset_card_of_nodup hkeyed.edges).trans (length_map _)).symm

/-- **Rows read the same**: whatever a run holds, the merged segment answers from its rows as
the snapshot over the run does. -/
theorem mergedLevel_rowsAnswer : RowsAnswer (mergedLevel oldest run scope) (runSnapshot oldest run) := by
  have hfrom := @mergedLevel_fromRows oldest run hrows scope
  have hlevels := forall_runLevels.mpr hrows
  have hbornIds : ∀ label, (mergedLevel oldest run scope).bornIdsWithLabel label =
      (runLevels run).reverse.flatMap (·.bornIdsWithLabel label) := by
    intro label
    refine Eq.trans ?_ (getD_bornByLabel run label)
    exact congrArg (fun m : Map String (List Nat) => (m.lookup label).getD []) (insertAll_pairs _)
  have hedge : ∀ id, (mergedLevel oldest run scope).edgeDelta id = _ := fun id =>
    ((data oldest run).answers_edgeDelta scope id).trans (edgeRow_eq hrows id)
  have hdelta : ∀ id, (runSnapshot oldest run).edgeDelta id =
      ((mergedLevel oldest run scope).edgeDelta id).elim (∅, false) fun δ => (δ.patches, δ.replaced) := by
    intro id
    rw [hedge]
    cases hfind : (runLevels run).findSome? (·.edgeDelta id) with
    | none => exact edgeDelta_of_absent hfind
    | some newest => rfl
  have htomb : ∀ d, (mergedLevel oldest run scope).nodeTombstoned d =
      (runLevels run).findSome? (·.nodeTombstoned d) := by
    intro d
    rw [hfrom.nodeTombstoned, mergedLevel_nodePatch hne hrows, levelFold_eq,
      foldPresent_map foldNewer_tombstoned, map_findSome?]
    refine findSome?_congr fun l hl => ?_
    rw [(hlevels l hl).nodeTombstoned]
    rfl
  have hbornCount : (mergedLevel oldest run scope).bornCount = (runSnapshot oldest run).bornCount := by
    rfl
  have hbornEdgeCount : (mergedLevel oldest run scope).bornEdgeCount = (runSnapshot oldest run).bornEdgeCount := by
    rfl
  constructor
  case nodePatch =>
    intro d
    rw [mergedLevel_nodePatch hne hrows, runSnapshot_nodePatch hne]
  case nodeTombstoned =>
    intro d
    rw [htomb, isTombstoned, runSnapshot_findSome? fun _ _ => rfl]
  case nodeIdentity =>
    intro d
    rw [mergedLevel_nodeIdentity hne hrows, nodeIdentity,
      runSnapshot_findSome? fun _ _ => rfl]
  case tombstonedIds =>
    have hmem : ∀ d, ∀ l : Level, l.FromRows → (d ∈ l.tombstonedIds ↔ l.nodeTombstoned d = some true) := by
      intro d l hl
      rw [hl.tombstonedIds, mem_idsWhere hl, hl.nodeTombstoned, map_eq_some_iff]
    ext d
    rw [hmem d _ hfrom, htomb, effectiveTombstonedIds, Finset.mem_filter,
      mem_runSnapshot_union fun _ _ => rfl, isTombstoned, runSnapshot_findSome? fun _ _ => rfl]
    constructor
    · intro ht
      obtain ⟨l, hl, hread⟩ := exists_of_findSome?_eq_some ht
      exact ⟨⟨l, hl, (hmem d l (hlevels l hl)).mpr hread⟩, by rw [ht]; rfl⟩
    · rintro ⟨-, ht⟩
      exact (getD_eq_iff.mp ht).resolve_right fun h => Bool.false_ne_true h.2
  case nodeDenseIds =>
    ext d
    rw [mem_mergedLevel_nodeDenseIds hne hrows, nodeDenseIds,
      mem_runSnapshot_union fun _ _ => rfl]
  case adjOutNodes =>
    ext node
    rw [mem_mergedLevel_adjOutNodes hne hrows, adjOutNodes,
      mem_runSnapshot_union fun _ _ => rfl]
  case edgeIds =>
    ext id
    rw [mem_mergedLevel_edgeIds hrows, edgeDenseIds,
      mem_runSnapshot_union fun _ _ => rfl]
  case syntheticBase | edgeSyntheticBase =>
    rfl
  case bornCount => exact hbornCount
  case bornEdgeCount => exact hbornEdgeCount
  case bornIdsWithLabel =>
    intro label
    rw [hbornIds, bornIdsWithLabel,
      flatMap_runSnapshot fun _ _ => rfl]
  case bornCountWithLabel =>
    intro label
    rw [hfrom.bornCountWithLabel, hbornIds, bornCountWithLabel,
      sum_runSnapshot fun _ _ => rfl, length_flatMap, map_reverse,
      sum_reverse]
    exact congrArg sum (map_congr_left fun l hl =>
      ((hlevels l hl).bornCountWithLabel label).symm)
  case bornLabels =>
    ext label
    rw [hfrom.bornLabels, hbornIds, bornLabels,
      mem_runSnapshot_union fun _ _ => rfl, ne_eq, flatMap_eq_nil_iff]
    push Not
    simp only [mem_reverse]
    exact exists_congr fun l => and_congr_right fun hl => ((hlevels l hl).bornLabels label).symm
  case bornSyntheticForIdentity =>
    intro id
    exact lookup_bornByIdentity run id
  case outEdges =>
    intro node
    rw [mergedLevel_outEdges hne hrows, runSnapshot_outEdges hne, listing]
  case inEdges =>
    intro node
    rw [mergedLevel, answers_inEdges, inRow_eq hne]
  case corePatchedEdges =>
    refine (insertAll_pairs _).trans ((corePatchedEdges_eq run).trans ?_)
    exact Finmap.empty_union.symm
  case edgePatches =>
    intro id
    rw [edgePatches, hdelta]
    cases (mergedLevel oldest run scope).edgeDelta id <;> rfl
  case edgeReplaced =>
    intro id
    rw [edgeReplaced, hdelta]
    cases (mergedLevel oldest run scope).edgeDelta id <;> rfl
  case edgePatchValue =>
    intro id prop
    rw [edgePatchValue_eq, edgePatches, hdelta]
    cases (mergedLevel oldest run scope).edgeDelta id <;> rfl
  case edgeTombstoned =>
    intro id
    rw [hedge, runSnapshot_findSome? fun _ _ => by rw [edgeDelta_withBases]; rfl, Option.map_map,
      map_findSome?]
    rfl
  case bornIdsInIndex =>
    intro label prop pred
    rw [bornIdsInIndex,
      flatMap_runSnapshot fun _ _ => rfl]
    exact MergeRun.bornIdsInIndex_eq run label prop pred
  case coreIdsPatchedOnIndex =>
    intro label prop
    ext d
    rw [mem_runSnapshot_union fun _ _ => rfl]
    exact mem_corePatched run label prop d
  case isEmpty =>
    have hborn : (mergedLevel oldest run scope).bornCount = ((runLevels run).map (·.bornCount)).sum :=
      hbornCount.trans (sum_runSnapshot fun _ _ => rfl)
    have hbornEdges : (mergedLevel oldest run scope).bornEdgeCount = ((runLevels run).map (·.bornEdgeCount)).sum :=
      hbornEdgeCount.trans (sum_runSnapshot fun _ _ => rfl)
    rw [hfrom.isEmpty, DeltaSnapshot.isEmpty]
    show _ = (true && _)
    rw [Bool.true_and, Bool.eq_iff_iff, decide_eq_true_iff, List.all_eq_true, hborn, hbornEdges,
      List.sum_eq_zero_iff, List.sum_eq_zero_iff, List.forall_mem_map, List.forall_mem_map,
      eq_empty_iff_forall_notMem, eq_empty_iff_forall_notMem]
    simp only [mem_mergedLevel_nodeDenseIds hne hrows, mem_mergedLevel_edgeIds hrows]
    constructor
    · rintro ⟨hnodes, hedges, hb, he⟩ l hl
      rw [(hlevels l hl).isEmpty, decide_eq_true_iff, eq_empty_iff_forall_notMem,
        eq_empty_iff_forall_notMem]
      exact ⟨fun d hd => hnodes d ⟨l, hl, hd⟩, fun id hid => hedges id ⟨l, hl, hid⟩, hb l hl, he l hl⟩
    · intro h
      have hl : ∀ l ∈ runLevels run, _ := fun l hl =>
        of_decide_eq_true ((hlevels l hl).isEmpty ▸ h l hl)
      refine ⟨?_, ?_, fun l hmem => (hl l hmem).2.2.1, fun l hmem => (hl l hmem).2.2.2⟩
      · rintro d ⟨l, hmem, hd⟩
        exact notMem_empty d ((hl l hmem).1 ▸ hd)
      · rintro id ⟨l, hmem, hid⟩
        exact notMem_empty id ((hl l hmem).2.1 ▸ hid)

end Merged

end Slater
