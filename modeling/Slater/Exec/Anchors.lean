import Slater.Exec.CoreGraph
import Slater.Exec.Scan

/-!
# What a scan may leave out

A scan narrows the anchors of a pattern, and the check of an anchor skips the labels the scan has
proved. Two facts make that safe for a label scan: every live node with the label is visited
(`mem_labelScan`), and, while the delta changes no labels, every live node that is visited has the
label (`mem_labelIds_of_labelScan`). For a relationship-type scan one of them holds: a live node that
is not posted has no hop of the type (`hops_of_not_posted`). That a posted node has the label of the
scan it replaces is not a fact.

`ScanView` carries what the parts of a merged view owe each other for this: names and ids of labels
correspond, a segment says whose labels it changes, and the delta lists the ids of the labels and
edges it adds.

A generation with its labels in order is such a view (`CoreGraph.scanView`); so are a generation under segments and
either under a delta (`SegmentStack.scanView`, `GraphBase.scanView`). Range indexes are not covered: what they must
list is a condition where they are used.
-/

namespace Slater

open List View

/-- **A view whose parts know what they hold.** The fields about the delta are empty promises
for a view without one. -/
structure ScanView extends GraphView where
  label_names : ∀ l name, labelName l = some name ↔ labelId name = some l
  core_labels_named : ∀ id, ∀ l ∈ coreLabels id, ∃ name, labelName l = some name
  stack_ids : ∀ id, id ∈ stackIds ↔ (stackRow id).isSome
  stack_segments : segments = [] → stackIds = []
  /-- A label no segment touches is carried as the core has it. -/
  untouched : ∀ label, membershipTouches label = false → ∀ id row, stackRow id = some row → row.tombstoned = false →
      (label ∈ row.labels ↔ id < coreNodeCount ∧ ∃ l ∈ coreLabels id, labelId label = some l)
  identity_empty : deltaEmpty = true → ∀ id, deltaIdentityLabel id = none
  born_labels : deltaEmpty = false → ∀ id label, id ∈ deltaBornWithLabel label ↔
    coreNodeCount ≤ id ∧ stackRow id = none ∧ deltaIdentityLabel id = some label
  added_labels : deltaEmpty = false → ∀ id removed added,
    deltaLabels id = some (removed, added) → ∀ label ∈ added, id ∈ deltaAddedLabel label
  no_overlay : deltaHasLabelOverlay = false → (∀ label, deltaAddedLabel label = []) ∧
    ∀ id removed added, deltaLabels id = some (removed, added) → removed = [] ∧ added = []
  reltype_names : ∀ a b rt, reltypeId a = some rt → reltypeId b = some rt → a = b
  /-- The endpoint postings list both ends of every core edge. -/
  posted : ∀ types id outgoing, ∀ a ∈ toView.coreEdges id outgoing, a.reltype ∈ types →
    id ∈ endpointPostings types (bif outgoing then .source else .target) ∧
      id ∈ endpointPostings types .either
  /-- The delta counts the edges it adds. -/
  born_edges : ∀ name, deltaBornEdges name = 0 → ∀ node outgoing, ∀ e ∈ deltaAdj node outgoing,
    e.reltype = name → e.edgeId.isSome → e.tombstoned = true

namespace ScanView

variable (g : ScanView) {id l : Nat}

/-! ## Label scans -/

theorem labelName_unique {name name' : String} (h : g.labelName l = some name)
    (h' : g.labelId name' = some l) : name' = name :=
  Option.some.inj (((g.label_names l name').2 h').symm.trans h)

theorem stackRow_of_segments_nil (h : g.segments = []) (id : Nat) : g.stackRow id = none := by
  cases hrow : g.stackRow id with
  | none => rfl
  | some row =>
    have hid := (g.stack_ids id).2 (by rw [hrow]; rfl)
    rw [g.stack_segments h] at hid
    exact absurd hid not_mem_nil

/-- The labels below the delta, by where the node was written last. -/
theorem mem_stackLabelIds : l ∈ g.stackLabelIds id ↔ (∃ row, g.stackRow id = some row ∧ row.tombstoned = false ∧
      ∃ label ∈ row.labels, g.labelId label = some l) ∨
    g.stackRow id = none ∧ (id < g.coreNodeCount ∧ l ∈ g.coreLabels id ∨
      g.coreNodeCount ≤ id ∧ ∃ label, g.deltaIdentityLabel id = some label ∧ g.labelId label = some l) := by
  unfold stackLabelIds
  cases hrow : g.stackRow id with
  | some row =>
    cases ht : row.tombstoned <;> simp [ht]
  | none =>
    by_cases hid : g.coreNodeCount ≤ id
    · simp [hid, Option.bind_eq_some_iff]
    · simp [hid, Nat.lt_of_not_le hid]

theorem labelName_of_mem (h : l ∈ g.labelIds id) : ∃ name, g.labelName l = some name := by
  rcases g.mem_labelIds h with h | ⟨-, -, -, -, label, -, hlabel⟩
  · rcases g.mem_stackLabelIds.1 h with ⟨-, -, -, label, -, hlabel⟩ | ⟨-, ⟨-, hcore⟩ | ⟨-, label, -, hlabel⟩⟩
    · exact ⟨label, (g.label_names l label).2 hlabel⟩
    · exact g.core_labels_named id l hcore
    · exact ⟨label, (g.label_names l label).2 hlabel⟩
  · exact ⟨label, (g.label_names l label).2 hlabel⟩

/-- A node that is written in a segment and not deleted. -/
theorem not_tombstoned_of_live (hlive : g.live id) {row : StackRow} (hrow : g.stackRow id = some row) :
    row.tombstoned = false := by
  have hsegs : g.segments ≠ [] := fun h => by
    rw [g.stackRow_of_segments_nil h] at hrow
    cases hrow
  have hsing : g.singleton = false := by
    unfold View.singleton
    simpa using hsegs
  have hs := hlive.2
  unfold suppressed at hs
  simp only [hsing, Bool.and_false, cond_false, hrow, Bool.or_eq_false_iff] at hs
  exact hs.2

/-- The ids the segments decide for a label, and the carriers among them. -/
theorem labelScanOverlay_cases (name : String) : (g.labelScanOverlay name).getD ([], []) = ([], []) ∧
        (g.segments = [] ∨ g.membershipTouches name = false) ∨
      (g.labelScanOverlay name).getD ([], []) = (g.stackIds, g.stackIds.filter fun id =>
        (g.stackRow id).any fun row => !row.tombstoned && name ∈ row.labels) := by
  unfold labelScanOverlay
  split
  · rename_i h
    simp only [Bool.or_eq_true, List.isEmpty_iff, Bool.not_eq_true'] at h
    exact .inl ⟨rfl, h⟩
  · exact .inr rfl

/-- What a label scan visits, when segments or delta take part. -/
theorem mem_labelScan_merged (hparts : (g.singleton && g.deltaEmpty) = false) {name : String}
    (hname : g.labelName l = some name) : id ∈ g.labelScan l ↔ id < g.nodeCount ∧
      ((id < g.coreNodeCount ∧ l ∈ g.coreLabels id) ∧ id ∉ ((g.labelScanOverlay name).getD ([], [])).1 ∨
        id ∈ ((g.labelScanOverlay name).getD ([], [])).2 ∨
        g.deltaEmpty = false ∧ (id ∈ g.deltaBornWithLabel name ∨ id ∈ g.deltaAddedLabel name)) := by
  unfold labelScan mergeIds
  simp only [hparts, hname]
  cases g.deltaEmpty <;> simp [or_assoc]

/-- What a label scan of a generation on its own visits. -/
theorem mem_labelScan_core (hparts : (g.singleton && g.deltaEmpty) = true) :
    id ∈ g.labelScan l ↔ id < g.nodeCount ∧ id < g.coreNodeCount ∧ l ∈ g.coreLabels id := by
  unfold labelScan mergeIds
  simp [hparts]

/-- **A label scan visits every live node with the label.** -/
theorem mem_labelScan (hlive : g.live id) (h : l ∈ g.labelIds id) : id ∈ g.labelScan l := by
  obtain ⟨name, hname⟩ := g.labelName_of_mem h
  cases hparts : g.singleton && g.deltaEmpty with
  | true =>
    refine (g.mem_labelScan_core hparts).2 ⟨hlive.1, ?_⟩
    obtain ⟨hsing, hempty⟩ := Bool.and_eq_true_iff.1 hparts
    have hrow := g.stackRow_of_segments_nil (isEmpty_iff.1 hsing) id
    rcases g.mem_labelIds h with h | ⟨hdelta, -⟩
    · rcases g.mem_stackLabelIds.1 h with ⟨row, hsome, -⟩ | ⟨-, hcore | ⟨-, label, hident, -⟩⟩
      · rw [hrow] at hsome
        cases hsome
      · exact hcore
      · rw [g.identity_empty hempty] at hident
        cases hident
    · rw [hempty] at hdelta
      cases hdelta
  | false =>
    refine (g.mem_labelScan_merged hparts hname).2 ⟨hlive.1, ?_⟩
    rcases g.mem_labelIds h with h | ⟨hdelta, removed, added, hlabels, label, hmem, hlabel⟩
    · rcases g.mem_stackLabelIds.1 h with ⟨row, hrow, halive, label, hmem, hlabel⟩ | ⟨hrow, hbelow⟩
      · obtain rfl := g.labelName_unique hname hlabel
        have hid : id ∈ g.stackIds := (g.stack_ids id).2 (by rw [hrow]; rfl)
        rcases g.labelScanOverlay_cases label with ⟨hnone, hsegs | huntouched⟩ | hsome
        · rw [g.stackRow_of_segments_nil hsegs] at hrow
          cases hrow
        · obtain ⟨hlt, l', hl', hlabel'⟩ := (g.untouched label huntouched id row hrow halive).1 hmem
          obtain rfl : l' = l := Option.some.inj (hlabel'.symm.trans hlabel)
          rw [hnone]
          exact .inl ⟨⟨hlt, hl'⟩, not_mem_nil⟩
        · rw [hsome]
          exact .inr (.inl (mem_filter.2 ⟨hid, by simp [hrow, halive, hmem]⟩))
      · have hid : id ∉ g.stackIds := fun hid => by
          rw [g.stack_ids, hrow] at hid
          cases hid
        rcases hbelow with ⟨hlt, hcore⟩ | ⟨hge, label, hident, hlabel⟩
        · refine .inl ⟨⟨hlt, hcore⟩, ?_⟩
          rcases g.labelScanOverlay_cases name with ⟨hnone, -⟩ | hsome
          · rw [hnone]
            exact not_mem_nil
          · rw [hsome]
            exact hid
        · obtain rfl := g.labelName_unique hname hlabel
          have hdelta : g.deltaEmpty = false := by
            by_contra hne
            rw [g.identity_empty (by simpa using hne)] at hident
            cases hident
          exact .inr (.inr ⟨hdelta, .inl ((g.born_labels hdelta id label).2 ⟨hge, hrow, hident⟩)⟩)
    · obtain rfl := g.labelName_unique hname hlabel
      exact .inr (.inr ⟨hdelta, .inr (g.added_labels hdelta id removed added hlabels label hmem)⟩)

/-- Without label changes in the delta, the labels are those below it. -/
theorem labelIds_of_no_overlay (hover : g.deltaHasLabelOverlay = false) (id : Nat) :
    g.labelIds id = g.stackLabelIds id := by
  unfold labelIds
  cases g.deltaEmpty with
  | true => rfl
  | false =>
    cases hlabels : g.deltaLabels id with
    | none => rfl
    | some ra =>
      obtain ⟨hremoved, hadded⟩ := (g.no_overlay hover).2 id ra.1 ra.2 hlabels
      simp [hremoved, hadded]

/-- **A label scan proves its label**, while the delta changes no labels. With a label overlay
the scan also visits nodes that have lost the label, and the check of the anchor is not
skipped. -/
theorem mem_labelIds_of_labelScan (hover : g.deltaHasLabelOverlay = false) (hlive : g.live id)
    (h : id ∈ g.labelScan l) : l ∈ g.labelIds id := by
  rw [g.labelIds_of_no_overlay hover, mem_stackLabelIds]
  cases hparts : g.singleton && g.deltaEmpty with
  | true =>
    obtain ⟨-, hcore⟩ := (g.mem_labelScan_core hparts).1 h
    have hsegs := isEmpty_iff.1 (Bool.and_eq_true_iff.1 hparts).1
    exact .inr ⟨g.stackRow_of_segments_nil hsegs id, .inl hcore⟩
  | false =>
    cases hname : g.labelName l with
    | none =>
      -- a label without a name is in no column
      unfold labelScan mergeIds at h
      simp only [hparts, cond_false, hname, mem_filter, Bool.and_eq_true,
        decide_eq_true_eq] at h
      obtain ⟨name, hsome⟩ := g.core_labels_named id l h.2.2
      rw [hname] at hsome
      cases hsome
    | some name =>
      have hlabel := (g.label_names l name).1 hname
      obtain ⟨-, ⟨hcore, hout⟩ | hcarrier | ⟨hdelta, hborn | hadded⟩⟩ :=
        (g.mem_labelScan_merged hparts hname).1 h
      · cases hrow : g.stackRow id with
        | none => exact .inr ⟨rfl, .inl hcore⟩
        | some row =>
          have halive := g.not_tombstoned_of_live hlive hrow
          refine .inl ⟨row, rfl, halive, name, ?_, hlabel⟩
          rcases g.labelScanOverlay_cases name with ⟨-, hsegs | huntouched⟩ | hsome
          · rw [g.stackRow_of_segments_nil hsegs] at hrow
            cases hrow
          · exact (g.untouched name huntouched id row hrow halive).2 ⟨hcore.1, l, hcore.2, hlabel⟩
          · rw [hsome] at hout
            exact absurd ((g.stack_ids id).2 (by rw [hrow]; rfl)) hout
      · rcases g.labelScanOverlay_cases name with ⟨hnone, -⟩ | hsome
        · rw [hnone] at hcarrier
          exact absurd hcarrier not_mem_nil
        · rw [hsome, mem_filter, Option.any_eq_true] at hcarrier
          obtain ⟨-, row, hrow, hok⟩ := hcarrier
          simp only [Bool.and_eq_true, Bool.not_eq_true', decide_eq_true_eq] at hok
          exact .inl ⟨row, hrow, hok.1, name, hok.2, hlabel⟩
      · obtain ⟨hge, hrow, hident⟩ := (g.born_labels hdelta id name).1 hborn
        exact .inr ⟨hrow, .inr ⟨hge, name, hident, hlabel⟩⟩
      · rw [(g.no_overlay hover).1 name] at hadded
        exact absurd hadded not_mem_nil

/-! ## Relationship-type scans -/

theorem adjOverlaid_posted (hsing : g.singleton = true) {names : List String}
    (hborn : (!g.deltaEmpty && names.any fun n => 0 < g.deltaBornEdges n) = false)
    {outgoing : Bool} {a : Adj} (ha : a ∈ g.adjOverlaid id outgoing)
    (htype : a.reltype ∈ names.filterMap g.reltypeId) :
    id ∈ g.endpointPostings (names.filterMap g.reltypeId) (bif outgoing then .source else .target) ∧
      id ∈ g.endpointPostings (names.filterMap g.reltypeId) .either := by
  have hsegs : g.segments = [] := isEmpty_iff.1 hsing
  rcases (mem_adjOverlaid.1 ha).2 with hdelta | ⟨-, ⟨hcore, -⟩ | hseg⟩
  · -- the delta has no edge of the type
    obtain ⟨hempty, name, hname, he⟩ := mem_deltaBorn.1 hdelta
    obtain ⟨name', hmem, hname'⟩ := mem_filterMap.1 htype
    obtain rfl := g.reltype_names _ _ _ hname hname'
    rw [hempty, Bool.not_false, Bool.true_and, any_eq_false] at hborn
    have hzero : g.deltaBornEdges name = 0 := by simpa using hborn name hmem
    exact absurd (g.born_edges name hzero id outgoing _ he rfl rfl) (by simp)
  · exact g.posted _ id outgoing a hcore htype
  · unfold foldSegments foldFragments at hseg
    rw [hsegs] at hseg
    exact absurd hseg not_mem_nil

/-- **A node that is not posted has no hop of the type.** The postings are those of the core, so
there must be no segment above it and no edge of the type in the delta; the planner asks the
same. -/
theorem hops_of_not_posted (hsing : g.singleton = true) {e : LabelExpr} {names : List String}
    (hnames : e.positiveAtoms = some names)
    (hborn : (!g.deltaEmpty && names.any fun n => 0 < g.deltaBornEdges n) = false) {dir : Direction}
    (hid : id ∉ g.endpointPostings (names.filterMap g.reltypeId) (sideOf dir)) : g.hops id dir (some e) = [] := by
  refine eq_nil_iff_forall_not_mem.2 fun h hh => hid ?_
  have hside : ∀ incoming, h ∈ g.hopsSide id (some e) incoming → id ∈ g.endpointPostings (names.filterMap g.reltypeId)
          (bif !incoming then .source else .target) ∧
        id ∈ g.endpointPostings (names.filterMap g.reltypeId) .either := by
    intro incoming hside
    obtain ⟨htype, hadj, -, -⟩ := mem_hopsSide.1 hside
    simp only [typeOk, hnames, decide_eq_true_eq] at htype
    exact g.adjOverlaid_posted hsing hborn hadj htype
  cases dir with
  | outgoing => exact (hside false hh).1
  | incoming => exact (hside true hh).1
  | undirected =>
    rcases mem_append.1 hh with hh | hh
    · exact (hside false hh).2
    · exact (hside true hh).2

end ScanView

/-! ## Checks -/

theorem LabelExpr.eval_required {present : String → Bool} {e : LabelExpr}
    (h : e.eval present = true) : ∀ a ∈ e.requiredAtoms, present a = true := by
  induction e with
  | atom a =>
    intro b hb
    rw [mem_singleton.1 hb]
    exact h
  | and l r ihl ihr =>
    obtain ⟨hl, hr⟩ := Bool.and_eq_true_iff.1 h
    intro a ha
    exact (mem_append.1 ha).elim (ihl hl a) (ihr hr a)
  | or l r => simp [LabelExpr.requiredAtoms]
  | not e => simp [LabelExpr.requiredAtoms]

namespace View

variable {v : View} {id : Nat}

/-- Skipping labels a node has changes no verdict. -/
theorem labelsOk_skip {labelExpr : Option LabelExpr} {guaranteed : List Nat}
    (h : ∀ l ∈ guaranteed, l ∈ v.labelIds id) : v.labelsOk id labelExpr guaranteed = v.labelsOk id labelExpr [] := by
  have hor : ∀ l, (decide (l ∈ guaranteed) || decide (l ∈ v.labelIds id)) =
      (decide (l ∈ ([] : List Nat)) || decide (l ∈ v.labelIds id)) := fun l => by
    by_cases hl : l ∈ guaranteed
    · simp [h l hl]
    · simp [hl]
  unfold labelsOk
  simp only [hor]

/-- A node that passes has every label the expression requires. -/
theorem mem_labelIds_of_labelsOk {e : LabelExpr} (h : v.labelsOk id (some e) [] = true) {name : String}
    (hname : name ∈ e.requiredAtoms) {l : Nat} (hl : v.labelId name = some l) : l ∈ v.labelIds id := by
  unfold labelsOk at h
  dsimp only at h
  split at h
  · rename_i atom hatom
    cases e with
    | atom a =>
      obtain rfl : a = atom := Option.some.inj hatom
      obtain rfl : name = a := mem_singleton.1 hname
      simpa [hl] using h
    | and l r => cases hatom
    | or l r => cases hatom
    | not e => cases hatom
  · have := LabelExpr.eval_required h name hname
    simpa [hl] using this

theorem smallestLabel_mem {ls : List Nat} {l : Nat} (h : v.smallestLabel ls = some l) : l ∈ ls := by
  cases ls with
  | nil => cases h
  | cons a ls =>
    cases h
    refine foldlRecOn (motive := (· ∈ a :: ls)) ls _ (.head _) fun m hm l hl => ?_
    split
    · exact .tail _ hl
    · exact hm

end View

/-! ## A generation on its own -/

namespace CoreGraph

variable (g : CoreGraph)

theorem endpoints_of_adj {types : List Nat} {id : Nat} {outgoing : Bool} {a : Adj}
    (ha : a ∈ g.adj id outgoing) (htype : a.reltype ∈ types) :
    id ∈ g.endpoints types (bif outgoing then .source else .target) ∧ id ∈ g.endpoints types .either := by
  obtain ⟨e, he, hrt, hnear, -⟩ := g.mem_adj.1 ha
  have hlt : id < g.nodes.length := hnear ▸ g.near_lt he outgoing
  have hmem := mem_of_getElem? he
  unfold endpoints
  simp only [mem_filter, mem_range, any_eq_true]
  cases outgoing with
  | true | false => exact ⟨⟨hlt, e, hmem, by simp_all [CoreEdge.near]⟩, hlt, e, hmem, by simp_all [CoreEdge.near]⟩

/-- **The scans of a generation**, when it names each label once and has the labels of its
nodes. -/
def scanView (hnames : g.labels.Nodup) (hlabels : ∀ n ∈ g.nodes, ∀ l ∈ n.labels, l < g.labels.length) : ScanView where
  toGraphView := g.graphView
  label_names l name := by
    refine ⟨fun h => ?_, getElem?_of_idxOf?⟩
    obtain ⟨hlt, heq⟩ := List.getElem?_eq_some_iff.1 h
    refine List.idxOf?_eq_some_iff.2 ⟨hlt, heq, fun j hj hname => ?_⟩
    exact absurd ((hnames.getElem_inj_iff).1 (hname.trans heq.symm)) (by omega)
  core_labels_named id l hl := by
    change l ∈ (g.nodes[id]?).elim [] (·.labels) at hl
    cases hn : g.nodes[id]? with
    | none => simp [hn] at hl
    | some n =>
      rw [hn] at hl
      have hlt := hlabels n (mem_of_getElem? hn) l hl
      exact ⟨g.labels[l], getElem?_eq_getElem hlt⟩
  stack_ids _ := by simp [graphView, view]
  stack_segments _ := rfl
  untouched _ _ _ _ h := by cases h
  identity_empty _ _ := rfl
  born_labels h := by cases h
  added_labels h := by cases h
  no_overlay _ := ⟨fun _ => rfl, fun _ _ _ h => by cases h⟩
  reltype_names a b rt ha hb :=
    Option.some.inj ((getElem?_of_idxOf? ha).symm.trans (getElem?_of_idxOf? hb))
  posted types id outgoing a ha htype := by
    change a ∈ g.view.coreEdges id outgoing at ha
    rw [coreEdges_view] at ha
    exact g.endpoints_of_adj ha htype
  born_edges _ _ _ _ e he := absurd he not_mem_nil

end CoreGraph

end Slater
