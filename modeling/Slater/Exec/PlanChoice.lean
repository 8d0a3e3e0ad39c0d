import Slater.Exec.IdSeek
import Slater.Exec.Reversed

/-!
# The choice of a plan

`match_single_pattern` may start a pattern from a scan that skips nodes, skip labels the scan has
proved, and walk the pattern from its other end. Measured against the pattern as it is written, the
rows it leaves out are rows the `WHERE` refutes, now and after any further pattern
(`matchSinglePattern_narrow`), as long as the conditions of `PlanSafe` hold.

Each condition is asked under the test the code makes: of a prefilter only when the anchors are
prefiltered, of an id seek only what the seek rests on. One is about a fault. A relationship-type scan
that replaces a label scan takes over the label as proved, though the endpoint postings prove only an
edge; a node with the edge and without the label is then matched.

**What it does not establish.** How indexes are kept is not modelled: of a range scan the conditions
ask that the index lists the nodes it should (`IndexKept`). That the conditions are necessary is not
proved: a node matched without its label may still fail the rest of the chain.
-/

namespace Slater

open List Option Binding Scalars View

/-! ## What is chosen -/

namespace NodeScan

/-- A scan of a range index. -/
def isRange : NodeScan → Bool
  | rangeEq _ _ | rangeRange _ _ _ => true
  | _ => false

end NodeScan

namespace PlanEnv

variable (env : PlanEnv) {var : String}

/-- The plan of a reader that sees only some of the names that are bound. -/
def within (keep : String → Bool) : PlanEnv where
  params := env.params
  bound x := bif keep x then env.bound x else none

theorem mem_vars_of_isIdOf {e : Expr} (h : isIdOf var e = true) : var ∈ e.vars := by
  unfold isIdOf at h
  split at h
  · simp only [Bool.and_eq_true, beq_iff_eq] at h
    simp [Expr.vars, argVars, listVars, h.2]
  · cases h

mutual

/-- A predicate that pins `id(var)` reads the variable. -/
theorem mem_vars_of_collectIdEq : ∀ e : Expr, env.collectIdEq var e ≠ [] → var ∈ e.vars
  | .and parts, h => by
    rw [collectIdEq] at h
    rw [Expr.vars]
    exact mem_vars_of_collectIdEqs parts h
  | .compare op l r, h => by
    rw [Expr.vars, mem_append]
    cases op with
    | eq =>
      rw [collectIdEq, idEqOperand] at h
      split at h
      · exact .inl (mem_vars_of_isIdOf ‹_›)
      · split at h
        · exact .inr (mem_vars_of_isIdOf ‹_›)
        · exact absurd rfl h
    | _ => simp [collectIdEq] at h
  | .inList l r, h => by
    rw [Expr.vars, mem_append]
    rw [collectIdEq] at h
    split at h
    · exact .inl (mem_vars_of_isIdOf ‹_›)
    · exact absurd rfl h
  | .literal _, h | .param _, h | .var _, h | .property .., h | .hasLabels .., h | .neg _, h | .not _, h
  | .isNull .., h | .index .., h | .arith .., h | .stringOp .., h | .slice .., h | .or _, h | .xor _, h
  | .list _, h | .map _, h | .mapProjection .., h | .case .., h | .function .., h | .listPredicate .., h
  | .listComprehension .., h | .reduce .., h | .patternComprehension .., h | .patternPredicate _, h
  | .shortestPath _, h | .existsPatterns .., h => by simp [collectIdEq] at h

theorem mem_vars_of_collectIdEqs : ∀ es : List Expr, env.collectIdEqs var es ≠ [] → var ∈ listVars es
  | [], h => absurd rfl h
  | e :: es, h => by
    rw [collectIdEqs, ne_eq, append_eq_nil_iff, not_and_or] at h
    rw [listVars, mem_append]
    exact h.imp (mem_vars_of_collectIdEq e) (mem_vars_of_collectIdEqs es)

end

end PlanEnv

namespace View

variable {v : View} {node : NodePat Expr} {w : Option Expr} {env : PlanEnv}
variable {preds : List (String × Pred)} {scan : NodeScan} {labels : List String}

theorem isRange_eqScan (h : v.eqScan labels preds = some scan) : scan.isRange = true := by
  obtain ⟨⟨prop, pred⟩, -, hp⟩ := exists_of_findSome?_eq_some h
  cases pred with
  | eq key =>
    obtain ⟨index, -, rfl⟩ := map_eq_some_iff.1 hp
    rfl
  | lo _ _ => cases hp
  | hi _ _ => cases hp

theorem isRange_rangeScan (h : v.rangeScan labels preds = some scan) : scan.isRange = true := by
  obtain ⟨p, -, hp⟩ := exists_of_findSome?_eq_some h
  obtain ⟨index, -, hp⟩ := bind_eq_some_iff.1 hp
  split at hp
  · cases hp
  · cases hp
    rfl

/-- Without an index, a label of the node is swept, or everything. -/
theorem chooseFromPreds_cases (h : (v.chooseFromPreds node preds).isRange = false) :
    v.chooseFromPreds node preds = .allNodes ∨ ∃ label name, v.chooseFromPreds node preds = .labelScan label ∧
        name ∈ node.requiredLabels ∧ v.labelId name = some label := by
  unfold chooseFromPreds at h ⊢
  cases heq : v.eqScan node.requiredLabels preds with
  | some scan =>
    simp only [heq, isRange_eqScan heq] at h
    cases h
  | none =>
    cases hrange : v.rangeScan node.requiredLabels preds with
    | some scan =>
      simp only [heq, hrange, isRange_rangeScan hrange] at h
      cases h
    | none =>
      simp only [heq, hrange]
      cases hlabel : v.smallestLabel (node.requiredLabels.filterMap v.labelId) with
      | none => exact .inl rfl
      | some label =>
        obtain ⟨name, hname, hid⟩ := mem_filterMap.1 (v.smallestLabel_mem hlabel)
        exact .inr ⟨label, name, rfl, hname, hid⟩

theorem chooseNodeScan_cases (h : (v.chooseNodeScan node w env).isRange = false) :
    (∃ var e ids, node.var = some var ∧ w = some e ∧
        env.idSeekIds var e v.nodeCount = some ids ∧ v.chooseNodeScan node w env = .idSeek ids) ∨
      v.chooseNodeScan node w env = .allNodes ∨ ∃ label name, v.chooseNodeScan node w env = .labelScan label ∧
        name ∈ node.requiredLabels ∧ v.labelId name = some label := by
  unfold chooseNodeScan at h ⊢
  cases hvar : node.var with
  | none =>
    simp only [hvar] at h ⊢
    exact .inr (chooseFromPreds_cases h)
  | some var =>
    cases w with
    | none =>
      simp only [hvar] at h ⊢
      exact .inr (chooseFromPreds_cases h)
    | some e =>
      simp only [hvar] at h ⊢
      cases hids : env.idSeekIds var e v.nodeCount with
      | some ids => exact .inl ⟨var, e, ids, rfl, rfl, hids, rfl⟩
      | none =>
        simp only [hids] at h ⊢
        exact .inr (chooseFromPreds_cases h)

/-- When a relationship-type scan takes over. -/
theorem maybeRelTypeScan_some {base : NodeScan} {p : Pattern Expr} (h : v.maybeRelTypeScan base p = some scan) :
    v.singleton = true ∧ ∃ cost label rel next rest e names, v.replaceable base = some (cost, label) ∧
      p.rels = (rel, next) :: rest ∧ rel.varLength = none ∧ rel.typeExpr = some e ∧ e.positiveAtoms = some names ∧
      (!v.deltaEmpty && names.any fun n => 0 < v.deltaBornEdges n) = false ∧
      scan = .relTypeScan (names.filterMap v.reltypeId) (sideOf rel.dir) label := by
  unfold maybeRelTypeScan at h
  split at h
  · cases h
  rename_i hpost
  obtain ⟨⟨cost, label⟩, hreplace, h⟩ := bind_eq_some_iff.1 h
  dsimp only at h
  split at h
  · cases h
  obtain ⟨⟨rel, next⟩, hhead, h⟩ := bind_eq_some_iff.1 h
  split at h
  · cases h
  rename_i hvar
  obtain ⟨names, hnames, h⟩ := bind_eq_some_iff.1 h
  obtain ⟨e, htype, hnames⟩ := bind_eq_some_iff.1 hnames
  split at h
  · cases h
  split at h
  · cases h
  rename_i hborn
  split at h
  · cases h
  cases h
  obtain ⟨rest, hrels⟩ := head?_eq_some_iff.1 hhead
  simp only [Bool.or_eq_true, Bool.not_eq_true', not_or, Bool.not_eq_false] at hpost
  exact ⟨hpost.2, cost, label, rel, next, rest, e, names, hreplace, hrels, by simpa using hvar,
    htype, hnames, by simpa using hborn, rfl⟩

end View

/-! ## Narrowed anchors -/

namespace Engine

variable {c : Nat} {guaranteed ids : List Nat}

/-- `match_single_pattern`, from the end it has chosen. -/
def matchFrom {m : Type → Type} [Monad m] [MonadExceptOf Failure m] (eng : Engine m)
    (p : Pattern Expr) (binding : Binding) (w : Option Expr) : m (List Binding) :=
  match p.start.var.bind binding with
  | some (.node id) => eng.walkAnchors p binding w [id] 1 [] [] none
  | some _ => pure []
  | none =>
    let scan := eng.anchorScan p binding w
    eng.walkAnchors p binding w (eng.view.candidates scan) (eng.view.upperBound scan)
      (eng.view.scanGuaranteedLabels scan) [] none

variable {eng : Engine Option} {p : Pattern Expr} {b : Binding} {w : Option Expr} {pat : NodePat Expr} {scope : Scope}

/-- Whatever else is bound or bound anew, the `WHERE` does not hold while the names it mentions
stand for what they stand for. -/
def Refutes (eng : Engine Option) (w : Option Expr) (row : Binding) : Prop :=
  ∃ e, w = some e ∧ ∀ b', (∀ x ∈ e.vars, ∀ v, row x = some v → b' x = some v) →
    ∀ v, eng.eval e (.map b') = some v → v.truthy = false

/-- An answer has all of the rows but for some that the `WHERE` refutes. -/
def Narrows (eng : Engine Option) (w : Option Expr) (rows : List Binding) (answer : Option (List Binding)) : Prop :=
  ∃ rows' dropped, answer = some rows' ∧ rows.Perm (rows' ++ dropped) ∧ ∀ row ∈ dropped, eng.Refutes w row

/-- The `WHERE` refutes every row from an anchor, by the names the pattern does not bind
anew. -/
def RefutesAt (eng : Engine Option) (p : Pattern Expr) (b : Binding) (w : Option Expr) (c : Nat) : Prop :=
  ∃ e, w = some e ∧ ∀ b', (∀ x ∈ e.vars, x ∉ edgeVars p p.rels → ∀ v,
      b.insert? p.start.var (.node c) x = some v → b' x = some v) →
    ∀ v, eng.eval e (.map b') = some v → v.truthy = false

/-- A row on which the `WHERE` holds has its node among the ids the plan seeks, if a double
holds every id and the row still has what the plan has read. -/
def SeeksIds (eng : Engine Option) : Prop :=
  ∀ (b b' : Binding) (keep : String → Bool) (var : String) (c : Nat) (e : Expr) (v : Val) (ids : List Nat),
    eng.view.nodeCount ≤ 2 ^ 53 → (∀ x, keep x = true → ∀ v, b x = some v → b' x = some v) →
    b' var = some (.node c) → c < eng.view.nodeCount →
    eng.eval e (.map b') = some v → v.truthy = true →
    ((eng.planEnv b).within keep).idSeekIds var e eng.view.nodeCount = some ids → c ∈ ids

/-- What an id seek rests on. -/
structure SeekSafe (eng : Engine Option) (p : Pattern Expr) (b : Binding) (w : Option Expr) : Prop where
  /-- The pattern does not bind its start anew. -/
  start : ∀ x ∈ edgeVars p p.rels, p.start.var ≠ some x
  /-- The ids are read from names the pattern does not bind anew. -/
  operands : ∀ e ∈ w, ∀ var ∈ p.start.var,
    ((eng.planEnv b).within fun x => decide (x ∈ e.vars ∧ x ∉ edgeVars p p.rels)).idSeekIds var e
      eng.view.nodeCount = (eng.planEnv b).idSeekIds var e eng.view.nodeCount
  /-- A double holds every id: `=` compares integers as doubles. -/
  exactIds : eng.view.nodeCount ≤ 2 ^ 53

/-- What a scan of a range index rests on: the index lists nodes of its label, each once, and
leaves out only nodes that the check of the start or the `WHERE` refuses. -/
structure IndexKept (eng : Engine Option) (p : Pattern Expr) (b : Binding) (w : Option Expr) (scan : NodeScan) :
    Prop where
  once : (eng.view.scanIds scan).Nodup
  known : ∀ c ∈ eng.view.scanIds scan, c < eng.view.nodeCount
  labelled : ∀ c ∈ eng.view.candidates scan, ∀ l ∈ eng.view.scanGuaranteedLabels scan, l ∈ eng.view.labelIds c
  complete : ∀ c, eng.view.live c → c ∉ eng.view.scanIds scan → eng.nodeOk c p.start (.map b) [] = some true →
    eng.RefutesAt p b w c

/-- What a plan relies on, for a pattern walked from the end that is chosen. A field is asked
only under the test that leads the code to rely on it. -/
structure ScanSafe (eng : Engine Option) (p : Pattern Expr) (b : Binding) (w : Option Expr) : Prop where
  bound : ∀ id, p.start.var.bind b = some (.node id) → eng.view.live id
  /-- The properties a prefilter reads can be read. -/
  wants : p.start.var.bind b = none →
    let scan := eng.anchorScan p b w
    eng.prefilters p (eng.view.upperBound scan) (eng.view.scanGuaranteedLabels scan) = true →
      ∃ wants, eng.anchorWants p b = some wants
  range : (eng.anchorScan p b w).isRange = true → eng.IndexKept p b w (eng.anchorScan p b w)
  /-- The nodes a relationship-type scan posts have the label it is told is proved. -/
  labels : ∀ types side l, eng.anchorScan p b w = .relTypeScan types side (some l) →
    ∀ id ∈ eng.view.candidates (.relTypeScan types side (some l)), l ∈ eng.view.labelIds id
  ids : ∀ ids, eng.anchorScan p b w = .idSeek ids → eng.SeekSafe p b w

variable {rows : List Binding} {row : Binding} {var : String} {e : Expr} {scan : NodeScan}

/-- A start that is bound to something else is nowhere. -/
theorem asWritten_bound_other {v : Val} (hb : p.start.var.bind b = some v)
    (hv : ∀ id, v ≠ .node id) : eng.asWritten p b = some [] := by
  obtain ⟨x, hx, hbx⟩ := bind_eq_some_iff.1 hb
  have hnone : eng.view.anchors p.start b = [] :=
    eq_nil_iff_forall_not_mem.2 fun c hc =>
      hv c (nextOk_iff.1 (mem_anchors.1 hc).2 x hx v hbx)
  rw [asWritten, hnone]
  rfl

theorem labelScan_eq (v : View) (label : Nat) : ∃ member, v.labelScan label = v.mergeIds member := by
  unfold labelScan
  cases v.singleton && v.deltaEmpty with
  | true => exact ⟨_, rfl⟩
  | false => cases v.labelName label <;> exact ⟨_, rfl⟩

theorem idSeekIds_eq {env : PlanEnv} {n : Nat} (h : env.idSeekIds var e n = some ids) :
    ∃ member, ids = (range n).filter member := by
  unfold PlanEnv.idSeekIds at h
  split at h
  · cases h
  · cases h
    exact ⟨_, rfl⟩

/-- What an anchor refutes, every row from it refutes. -/
theorem RefutesAt.walked (h : eng.RefutesAt p b w c)
    (hrow : Walked eng p c p.rels c (b.insert? p.start.var (.node c)) [] row) : eng.Refutes w row := by
  obtain ⟨e, he, h⟩ := h
  exact ⟨e, he, fun b' hext => h b' fun x hx hnew v hv => hext x hx v (hrow.keeps hnew hv)⟩

/-- An anchor an id seek has left out is none of those the `WHERE` names. -/
theorem refutesAt_of_not_sought (hseek : eng.SeeksIds) (hsafe : eng.SeekSafe p b (some e))
    (hb : p.start.var.bind b = none) (hvar : p.start.var = some var)
    (hids : (eng.planEnv b).idSeekIds var e eng.view.nodeCount = some ids)
    (hlt : c < eng.view.nodeCount) (hout : c ∉ ids) : eng.RefutesAt p b (some e) c := by
  refine ⟨e, rfl, fun b' hext v hv => ?_⟩
  rw [hvar, bind_some] at hb
  have hmem : var ∈ e.vars := by
    refine (eng.planEnv b).mem_vars_of_collectIdEq e fun hnil => ?_
    simp [PlanEnv.idSeekIds, hnil] at hids
  have hnode : b' var = some (.node c) :=
    hext var hmem (fun hnew => hsafe.start var hnew hvar) _ (by rw [hvar, insert?_some, insert_self])
  have hkept : ∀ x, decide (x ∈ e.vars ∧ x ∉ edgeVars p p.rels) = true → ∀ v, b x = some v → b' x = some v := by
    intro x hx v hbx
    obtain ⟨hx, hnew⟩ := of_decide_eq_true hx
    refine hext x hx hnew v ?_
    rw [hvar, insert?_some, insert_of_ne b fun heq => ?_, hbx]
    rw [heq, hb] at hbx
    cases hbx
  cases htrue : v.truthy with
  | false => rfl
  | true =>
    exact absurd (hseek b b' _ var c e v ids hsafe.exactIds hkept hnode hlt hv htrue
      ((hsafe.operands e rfl var hvar).trans hids)) hout

section

variable (hrows : eng.counting = false) (h : eng.asWritten p b = some rows)
include hrows h

/-- Fewer anchors, if those left out have no row the `WHERE` could let through. -/
theorem walkAnchors_narrow {upperBound : Nat}
    (hwants : eng.prefilters p upperBound guaranteed = true → ∃ wants, eng.anchorWants p b = some wants)
    (hnodup : ids.Nodup)
    (hsub : ∀ c ∈ ids, c ∈ eng.view.anchors p.start b ∧ ∀ l ∈ guaranteed, l ∈ eng.view.labelIds c)
    (hrest : ∀ c ∈ eng.view.anchors p.start b, c ∉ ids → eng.nodeOk c p.start (.map b) [] = some true →
      ∀ row, Walked eng p c p.rels c (b.insert? p.start.var (.node c)) [] row → eng.Refutes w row) :
    eng.Narrows w rows (eng.walkAnchors p b w ids upperBound guaranteed [] none) := by
  rw [asWritten, walkAnchorsBy_rows hrows] at h
  obtain ⟨rss, hrss, rfl⟩ := map_eq_some_iff.1 h
  obtain ⟨rss', dropped, hrss', hperm, hdropped⟩ := Fallible.mapM_flatten_narrow
    (g := eng.anchorRows (fun c => eng.nodeOk c p.start (.map b) guaranteed) p b)
    (nodup_range.filter _) hnodup
    (fun c hc => ⟨(hsub c hc).1, by simp only [anchorRows, nodeOk, labelsOk_skip (hsub c hc).2]⟩) hrss
  refine ⟨rss'.flatten, dropped, ?_, hperm, fun row hrow => ?_⟩
  · rw [walkAnchors_seq hrows hwants, walkAnchorsBy_rows hrows, hrss']
    rfl
  · obtain ⟨c, hc, hout, rs, hrs, hmem⟩ := hdropped row hrow
    obtain ⟨ok, hok, hrs⟩ := bind_eq_some_iff.1 hrs
    cases ok with
    | false =>
      cases hrs
      cases hmem
    | true =>
      exact hrest c hc hout hok row ((mem_expandChain hrows p.rels hrs).1 hmem)

variable (hsafe : eng.ScanSafe p b w)
include hsafe

/-- A start that is bound is the only anchor, and is not prefiltered. -/
theorem matchFrom_bound {id : Nat} (hb : p.start.var.bind b = some (.node id)) :
    eng.Narrows w rows (eng.walkAnchors p b w [id] 1 [] [] none) := by
  obtain ⟨x, hx, hbx⟩ := bind_eq_some_iff.1 hb
  refine walkAnchors_narrow hrows h (fun hpre => ?_) (nodup_singleton id) (fun c hc => ?_) ?_
  · simp [prefilters, scanParMin] at hpre
  · rw [mem_singleton.1 hc]
    refine ⟨mem_anchors.2 ⟨hsafe.bound id hb, nextOk_iff.2 fun y hy v hv => ?_⟩,
      fun l hl => absurd hl not_mem_nil⟩
    obtain rfl : x = y := some.inj (hx.symm.trans hy)
    exact some.inj (hv.symm.trans hbx)
  · intro c hc hne
    have hcid := nextOk_iff.1 (mem_anchors.1 hc).2 x hx _ hbx
    exact absurd (mem_singleton.2 (Val.node.inj hcid).symm) hne

variable (hb : p.start.var.bind b = none) (hscan : eng.anchorScan p b w = scan)
include hb hscan

/-- The anchors of a scan. -/
theorem matchFrom_scan (hnodup : (eng.view.scanIds scan).Nodup)
    (hknown : ∀ c ∈ eng.view.scanIds scan, c < eng.view.nodeCount)
    (hlabels : ∀ c ∈ eng.view.candidates scan, ∀ l ∈ eng.view.scanGuaranteedLabels scan, l ∈ eng.view.labelIds c)
    (hrest : ∀ c, eng.view.live c → c ∉ eng.view.scanIds scan → eng.nodeOk c p.start (.map b) [] = some true → ∀ row,
        Walked eng p c p.rels c (b.insert? p.start.var (.node c)) [] row → eng.Refutes w row) :
    eng.Narrows w rows (eng.walkAnchors p b w (eng.view.candidates scan) (eng.view.upperBound scan)
      (eng.view.scanGuaranteedLabels scan) [] none) := by
  have hnext : ∀ c, nextOk b p.start c = true := fun c => by
    unfold nextOk
    rw [hb]
  have hwants := hsafe.wants hb
  rw [hscan] at hwants
  refine walkAnchors_narrow hrows h hwants (hnodup.filter _) (fun c hc => ?_) ?_
  · obtain ⟨hmem, hdead⟩ := mem_filter.1 hc
    exact ⟨mem_anchors.2 ⟨⟨hknown c hmem, by simpa using hdead⟩, hnext c⟩, hlabels c hc⟩
  · intro c hc hout hok row hrow
    obtain ⟨hlive, -⟩ := mem_anchors.1 hc
    refine hrest c hlive (fun hmem => hout ?_) hok row hrow
    exact mem_filter.2 ⟨hmem, by simpa using hlive.2⟩

/-- The anchors of a scan that merges its sources. -/
theorem matchFrom_merge {member : Nat → Bool} (hids : eng.view.scanIds scan = eng.view.mergeIds member)
    (hlabels : ∀ c, eng.view.live c → c ∈ eng.view.scanIds scan → ∀ l ∈ eng.view.scanGuaranteedLabels scan,
      l ∈ eng.view.labelIds c)
    (hrest : ∀ c, eng.view.live c → c ∉ eng.view.scanIds scan → eng.nodeOk c p.start (.map b) [] = some true → ∀ row,
        Walked eng p c p.rels c (b.insert? p.start.var (.node c)) [] row → eng.Refutes w row) :
    eng.Narrows w rows (eng.walkAnchors p b w (eng.view.candidates scan) (eng.view.upperBound scan)
      (eng.view.scanGuaranteedLabels scan) [] none) := by
  have hknown : ∀ c ∈ eng.view.scanIds scan, c < eng.view.nodeCount := by
    intro c hc
    rw [hids] at hc
    exact mem_range.1 (mem_filter.1 hc).1
  refine matchFrom_scan hrows h hsafe hb hscan (hids ▸ nodup_range.filter _) hknown (fun c hc => ?_) hrest
  obtain ⟨hmem, hdead⟩ := mem_filter.1 hc
  exact hlabels c ⟨hknown c hmem, by simpa using hdead⟩ hmem

variable {g : ScanView} (hview : eng.view = g.toView)
include hview

omit hscan in
/-- A label scan leaves out no node that has the label. -/
theorem matchFrom_label {label : Nat} {name : String} (hscan : eng.anchorScan p b w = .labelScan label)
    (hname : name ∈ p.start.requiredLabels) (hid : eng.view.labelId name = some label) :
    eng.Narrows w rows (eng.walkAnchors p b w (eng.view.candidates (.labelScan label))
      (eng.view.upperBound (.labelScan label)) (eng.view.scanGuaranteedLabels (.labelScan label)) [] none) := by
  obtain ⟨member, hids⟩ := labelScan_eq eng.view label
  refine matchFrom_merge hrows h hsafe hb hscan hids (fun c hlive hmem l hl => ?_) ?_
  · rw [scanGuaranteedLabels] at hl
    cases hover : eng.view.deltaHasLabelOverlay with
    | true => simp [hover] at hl
    | false =>
      rw [hover, cond_false, mem_singleton] at hl
      subst hl
      rw [hview] at hover hlive hmem ⊢
      exact g.mem_labelIds_of_labelScan hover hlive hmem
  · intro c hlive hout hok
    have hlabels : eng.view.labelsOk c p.start.labelExpr [] = true := by
      unfold nodeOk at hok
      split at hok
      · assumption
      · cases hok
    refine absurd ?_ hout
    unfold NodePat.requiredLabels at hname
    cases hexpr : p.start.labelExpr with
    | none => simp [hexpr] at hname
    | some e =>
      rw [hexpr] at hlabels hname
      have hmem := eng.view.mem_labelIds_of_labelsOk hlabels hname hid
      rw [hview] at hlive hmem ⊢
      exact g.mem_labelScan hlive hmem

/-- A relationship-type scan leaves out no node that has a relationship of the type. -/
theorem matchFrom_relTypes {base : NodeScan} (hrel : eng.view.maybeRelTypeScan base p = some scan) :
    eng.Narrows w rows (eng.walkAnchors p b w (eng.view.candidates scan) (eng.view.upperBound scan)
      (eng.view.scanGuaranteedLabels scan) [] none) := by
  obtain ⟨hsing, cost, label, rel, next, rest, e, names, -, hrels, hfixed, htype, hnames, hborn, rfl⟩ :=
    maybeRelTypeScan_some hrel
  refine matchFrom_merge hrows h hsafe hb hscan rfl (fun c hlive hmem l hl => ?_) ?_
  · cases label with
    | none => cases hl
    | some l' =>
      obtain rfl := mem_singleton.1 hl
      exact hsafe.labels _ _ _ hscan c (mem_filter.2 ⟨hmem, by simpa using hlive.2⟩)
  · intro c hlive hout hok row hrow
    have hnone : eng.view.hops c rel.dir rel.typeExpr = [] := by
      rw [htype]
      rw [hview] at hsing hborn hout hlive ⊢
      refine g.hops_of_not_posted hsing hnames hborn fun hposted => hout ?_
      exact mem_filter.2 ⟨mem_range.2 hlive.1, by simpa using hposted⟩
    rw [hrels] at hrow
    rcases hrow with _ | ⟨hop, -, hmem, -, -, -, -, -⟩ | ⟨hvar, -, -, -, -⟩
    · rw [hnone] at hmem
      cases hmem
    · rw [hfixed] at hvar
      cases hvar

end

/-- **A plan leaves out only rows the `WHERE` refutes.** -/
theorem matchFrom_narrow {g : ScanView} (hview : eng.view = g.toView)
    (hrows : eng.counting = false) (hsound : eng.SeeksIds) (hsafe : eng.ScanSafe p b w)
    (h : eng.asWritten p b = some rows) : eng.Narrows w rows (eng.matchFrom p b w) := by
  unfold matchFrom
  cases hb : p.start.var.bind b with
  | some v =>
    by_cases hv : ∃ id, v = .node id
    · obtain ⟨id, rfl⟩ := hv
      exact matchFrom_bound hrows h hsafe hb
    · have hnone := (asWritten_bound_other hb fun id hid => hv ⟨id, hid⟩).symm.trans h
      cases hnone
      refine ⟨[], [], ?_, List.Perm.refl _, fun _ hrow => absurd hrow not_mem_nil⟩
      cases v <;> first | rfl | exact absurd ⟨_, rfl⟩ hv
  | none =>
    cases hrel : eng.view.maybeRelTypeScan (eng.view.chooseNodeScan p.start w (eng.planEnv b)) p with
    | some scan =>
      have hscan : eng.anchorScan p b w = scan := by simp [anchorScan, hrel]
      rw [hscan]
      exact matchFrom_relTypes hrows h hsafe hb hscan hview hrel
    | none =>
      have hscan : eng.anchorScan p b w = eng.view.chooseNodeScan p.start w (eng.planEnv b) := by
        simp [anchorScan, hrel]
      cases hrange : (eng.anchorScan p b w).isRange with
      | true =>
        have hkept := hsafe.range hrange
        exact matchFrom_scan hrows h hsafe hb rfl hkept.once hkept.known hkept.labelled
          fun c hlive hout hok row hrow => (hkept.complete c hlive hout hok).walked hrow
      | false =>
        rcases chooseNodeScan_cases (hscan ▸ hrange) with
          ⟨var, e, ids, hvar, rfl, hids, hseek⟩ | hall | ⟨label, name, hlabel, hname, hid⟩
        · have hscan := hscan.trans hseek
          rw [hscan]
          obtain ⟨member, rfl⟩ := idSeekIds_eq hids
          refine matchFrom_merge hrows h hsafe hb hscan rfl (fun _ _ _ l hl => absurd hl not_mem_nil) ?_
          exact fun c hlive hout _ row hrow =>
            (refutesAt_of_not_sought hsound (hsafe.ids _ hscan) hb hvar hids hlive.1 hout).walked hrow
        · have hscan := hscan.trans hall
          rw [hscan]
          refine matchFrom_merge hrows h hsafe hb hscan (filter_true _).symm
            (fun _ _ _ l hl => absurd hl not_mem_nil) fun c hlive hout => ?_
          exact absurd (mem_range.2 hlive.1) hout
        · rw [hscan.trans hlabel]
          exact matchFrom_label hrows h hsafe hb hview (hscan.trans hlabel) hname hid

/-! ## The pattern as a whole -/

/-- What makes a plan safe. A pattern that is not turned round is asked nothing about its
properties. -/
structure PlanSafe (eng : Engine Option) (p : Pattern Expr) (b : Binding) (w : Option Expr) : Prop where
  /-- A pattern that is walked from its other end has the same rows from there. -/
  reroot : eng.maybeReroot p b w ≠ none → p.Steady eng b ∧ p.Apart b ∧ eng.view.EndsLive
  scan : eng.ScanSafe ((eng.maybeReroot p b w).getD p) b w

theorem maybeReroot_some {m : Type → Type} {eng : Engine m} {q : Pattern Expr} (h : eng.maybeReroot p b w = some q) :
    q = reversePattern p ∧ p.pathVar = none ∧ ∀ rn ∈ p.rels, rn.1.varLength = none := by
  have hq : q = reversePattern p := by
    rcases eng.maybeReroot_eq p b w with hnone | hsome
    · rw [hnone] at h
      cases h
    · exact some.inj (h.symm.trans hsome)
  unfold maybeReroot at h
  split at h
  · cases h
  · rename_i hshape
    simp only [Bool.or_eq_true, not_or] at hshape
    exact ⟨hq, by simpa using hshape.1.1, by simpa using hshape.1.2⟩

/-- **`match_single_pattern` leaves out only rows the `WHERE` refutes**, whatever it chooses.
Rows may be missing, but none is added, and each missing one is refuted by the `WHERE` at the
end of the clause. -/
theorem matchSinglePattern_narrow {g : ScanView} (hview : eng.view = g.toView)
    (hrows : eng.counting = false) (hsound : eng.SeeksIds) (hsafe : eng.PlanSafe p b w)
    (h : eng.asWritten p b = some rows) : eng.Narrows w rows (eng.matchSinglePattern p b w [] none) := by
  have hfrom : eng.matchSinglePattern p b w [] none = eng.matchFrom ((eng.maybeReroot p b w).getD p) b w := rfl
  rw [hfrom]
  have hscan := hsafe.scan
  cases hroot : eng.maybeReroot p b w with
  | none =>
    rw [hroot] at hscan
    exact matchFrom_narrow hview hrows hsound hscan h
  | some q =>
    rw [hroot] at hscan
    obtain ⟨rfl, hpath, hfixed⟩ := maybeReroot_some hroot
    obtain ⟨hsteady, hapart, hlive⟩ := hsafe.reroot (by simp [hroot])
    rw [hview] at hlive
    obtain ⟨rows₁, rows₂, h₁, h₂, hperm⟩ :=
      asWritten_reverse hview hrows hpath hfixed hsteady hapart hlive
    obtain rfl : rows₁ = rows := some.inj (h₁.symm.trans h)
    obtain ⟨rows', dropped, hmatch, hperm', hdropped⟩ := matchFrom_narrow hview hrows hsound hscan h₂
    exact ⟨rows', dropped, hmatch, hperm.trans hperm', hdropped⟩

/-! ## With errors -/

/-- The `WHERE` of a clause holds on a row. A predicate that fails or is unknown does not
hold. -/
def holds (eng : Engine (Except Failure)) (w : Option Expr) (row : Binding) : Bool :=
  w.all fun e => match eng.eval e (.map row) with
    | .ok v => v.truthy
    | .error _ => false

/-- **The plan makes no difference**: if the pattern can be matched as it is written, then it is
matched, no row is matched that should not be, and the rows on which the `WHERE` holds are the
same, each as often. -/
def PlanKeeps (eng : Engine (Except Failure)) (p : Pattern Expr) (b : Binding) (w : Option Expr) : Prop :=
  ∀ rows, eng.asWritten p b = .ok rows → ∃ rows', eng.matchSinglePattern p b w [] none = .ok rows' ∧
    (∀ row ∈ rows', row ∈ rows) ∧ (rows.filter (eng.holds w)).Perm (rows'.filter (eng.holds w))

theorem not_holds_of_refutes {eng : Engine (Except Failure)}
    (h : eng.success.Refutes w row) : eng.holds w row = false := by
  obtain ⟨e, rfl, h⟩ := h
  rw [holds, all_some]
  cases heval : eng.eval e (.map row) with
  | error _ => rfl
  | ok v => exact h row (fun _ _ _ hx => hx) v (congrArg Except.toOption heval)

theorem asWritten_success (eng : Engine (Except Failure)) (p : Pattern Expr) (b : Binding) :
    (eng.asWritten p b).toOption = eng.success.asWritten p b := by
  have hp := Pattern.over_true p
  exact (related_success eng).walkAnchorsBy (fun c => (related_success eng).nodeOk c hp.start _ _) hp.rels _ _ _ _ _ _

/-- A safe plan makes no difference, on any engine that builds rows. -/
theorem PlanSafe.keeps {eng : Engine (Except Failure)} {g : ScanView} (hview : eng.view = g.toView)
    (hrows : eng.counting = false) (hsound : eng.success.SeeksIds) (hsafe : eng.success.PlanSafe p b w) :
    eng.PlanKeeps p b w := by
  intro rows hwritten
  have hsuccess : eng.success.asWritten p b = some rows := by
    rw [← asWritten_success, hwritten]
    rfl
  obtain ⟨rows', dropped, hmatch, hperm, hdropped⟩ :=
    matchSinglePattern_narrow hview hrows hsound hsafe hsuccess
  have hrel := (related_success eng).matchSinglePattern p.over_true b w [] none
  refine ⟨rows', toOption_eq_some.1 (hrel.trans hmatch), fun row hrow => ?_, ?_⟩
  · exact hperm.mem_iff.2 (mem_append_left _ hrow)
  · have hnone : dropped.filter (eng.holds w) = [] :=
      filter_eq_nil_iff.2 fun row hrow => by simp [not_holds_of_refutes (hdropped row hrow)]
    have hfilter := hperm.filter (eng.holds w)
    rwa [filter_append, hnone, append_nil] at hfilter

end Engine

namespace Session

/-- A session seeks the ids its `WHERE` allows, in whatever clause and however deep in the
stack. -/
theorem seeksIds {s : Session} (hids : s.scalars.ReadsIds) (mode : Mode (Except Failure)) (depth : Nat) :
    (s.engine mode (s.evalAt mode depth)).success.SeeksIds := by
  intro b b' keep var c e v ids hcount hkept hnode hlt heval htrue hseek
  have hok : ((s.evalAt mode depth e (.map b')).run' none) = .ok v :=
    toOption_eq_some.1 heval
  rw [StateT.run', map_eq_pure_bind, bind_eq_ok] at hok
  obtain ⟨⟨u, st⟩, hrun, hu⟩ := hok
  cases hu
  have hseen : (((s.engine mode (s.evalAt mode depth)).success.planEnv b).within keep).Seen s (.map b') := by
    refine ⟨fun name u hu => bind_eq_some_iff.1 hu, fun x u hu => ?_⟩
    cases hkeep : keep x with
    | false => simp [PlanEnv.within, hkeep] at hu
    | true =>
      simp only [PlanEnv.within, hkeep, cond_true] at hu
      obtain ⟨val, hval, hu⟩ := bind_eq_some_iff.1 hu
      exact ⟨val, hkept x hkeep val hval, hu⟩
  have hscope : (Scope.map b').get var = some (.node c) := hnode
  exact mem_idSeekIds hids hscope hseen hcount hlt hrun htrue hseek

end Session

/-! ## Two runs -/

/-- Scalars with the one function a plan looks through. -/
def Scalars.idOnly : Scalars where
  call name args := match args with
    | [.node c] => if name.toLower = "id" then .ok (.int (Int64.ofNat c)) else .error "refused"
    | _ => .error "refused"
  arith := refusing.arith
  stringOp := refusing.stringOp
  slice := refusing.slice
  component := refusing.component
  widen := refusing.widen
  display := refusing.display
  debug := refusing.debug
  numericAgg := refusing.numericAgg
  percentile := refusing.percentile

theorem Scalars.idOnly_readsIds : idOnly.ReadsIds := fun name hname c => by
  simp [idOnly, hname]

/-- `(a:L)-[:T]->(b)`. -/
def labelledStart : Pattern Expr where
  start := { var := some "a", labelExpr := some (.atom "L") }
  rels := [({ dir := .outgoing, typeExpr := some (.atom "T") }, { var := some "b" })]

/-- `id(b) = 1`. -/
def endIsOne : Expr :=
  .compare .eq (.function "id" false (.args [.var "b"])) (.literal (.int 1))

/-- Two nodes with the label, and an edge between them. -/
def linked : CoreGraph where
  labels := ["L"]
  reltypes := ["T"]
  nodes := [{ labels := [0] }, { labels := [0] }]
  edges := [⟨0, 0, 1, []⟩]
  ends := by decide

/-- Three nodes with the label; the edge is between two that have none. -/
def mislabelled : CoreGraph where
  labels := ["L"]
  reltypes := ["T"]
  nodes := [{ labels := [0] }, { labels := [0] }, { labels := [0] }, {}, {}]
  edges := [⟨0, 3, 4, []⟩]
  ends := by decide

/-- A session on a generation. -/
def CoreGraph.session (g : CoreGraph) : Session := { Session.plain g.view with scalars := .idOnly }

namespace Session

end Session

end Slater
