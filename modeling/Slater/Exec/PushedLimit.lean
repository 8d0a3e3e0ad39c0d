import Slater.Exec.Prefix
import Slater.Exec.Query
import Slater.Exec.CoreGraph

/-!
# A pushed `LIMIT`

`projection_row_cap` lets the last reading clause of a part stop after `SKIP` plus `LIMIT` rows when
the `RETURN` neither orders, deduplicates nor aggregates. Then the projection is row by row, so the
rows it slices are a prefix of the rows it would have sliced, and long enough.

**What it does not establish.** Only the success of the query without its `LIMIT` is used, as a limit may hide an
error of a later row. With `ORDER BY`, `DISTINCT` or aggregation nothing is pushed, and the counts are then no
matter of this module.
-/

namespace Slater

open List Session Fallible StateT

variable {depth : Nat} {e : Expr} {sq : SingleQuery Clause} {var : Option String}

/-- The rows a limit leaves of a table: all of them, or as many as are wanted. -/
def Table.Cut (c : Nat) (whole cut : Table) : Prop :=
  cut = whole ∨ cut = ⟨whole.cols, whole.rows.take c⟩

/-! ## Projecting row by row -/

section

variable {ε : Type} (L : ExprLang ε) {t : Table}

theorem project_rows {body : ProjectionBody ε} (pool : Bool)
    (hagg : (projectionItems L t.cols body).any (fun it => L.containsAggregate it.1) = false)
    (horder : body.orderBy = []) : project L pool t body false none = (do
      let rows ← projectSimple L t (projectionItems L t.cols body)
      let rows ← sliceRows L body rows
      pure ⟨(projectionItems L t.cols body).map (·.2), rows⟩) := by
  simp only [project, projectedRows, hagg, orderRows, horder,
    cond_false, bind_pure]
  rfl

/-- A cut table projects to the rows of the whole table, all of them or as many as are
wanted. -/
theorem projectSimple_cut {c : Nat} {t' : Table} (ht : Table.Cut c t t')
    {items : List (ε × String)} {rows : List (List Val)} (h : projectSimple L t items = .ok rows) :
    ∃ rows', projectSimple L t' items = .ok rows' ∧ (rows' = rows ∨ rows' = rows.take c) := by
  obtain rfl | rfl := ht
  · exact ⟨rows, h, .inl rfl⟩
  · exact ⟨rows.take c, mapM_take h c, .inr rfl⟩

end

/-! ## Reading clauses -/

namespace Executor

variable (x : Executor) {clause : Clause}

theorem runClause_match_run (cap : Option Nat) (table : Table) (mc : MatchClause) (flag : Bool) :
    (x.runClause cap table (.match mc)).run flag =
      (StateT.lift ((x.rowEngine flag).applyMatch table mc cap) : QueryM Table).run flag := by
  rw [runClause, run_bind, run_get, pure_bind]

/-- Only a `MATCH` reads the limit. -/
theorem runClause_cap (h : ∀ mc, clause ≠ .match mc) (cap : Option Nat)
    (table : Table) : x.runClause cap table clause = x.runClause none table clause := by
  cases clause with
  | «match» mc => exact absurd rfl (h mc)
  | «with» w | call cc | callSubquery inner imports returning | unwind e var => rw [runClause, runClause]

theorem runClause_cut (c : Nat) {table t : Table} {flag flag' : Bool}
    (h : (x.runClause none table clause).run flag = .ok (t, flag')) :
    ∃ t', (x.runClause (some c) table clause).run flag = .ok (t', flag') ∧ Table.Cut c t t' := by
  by_cases hmatch : ∃ mc, clause = .match mc
  · obtain ⟨mc, rfl⟩ := hmatch
    rw [runClause_match_run, run_lift_eq_ok] at h
    refine ⟨_, ?_, .inr rfl⟩
    rw [runClause_match_run, run_lift_eq_ok]
    exact ⟨Engine.applyMatch_prefix (show (x.rowEngine flag).counting = false from rfl) h.1 c, h.2⟩
  · rw [x.runClause_cap fun mc hmc => hmatch ⟨mc, hmc⟩]
    exact ⟨t, h, .inl rfl⟩

/-- The limit reaches only the last clause. -/
theorem runReading_cut (c : Nat) {prune : Bool} {reading : List Clause} {table t : Table}
    {flag flag' : Bool} (h : (x.runReading none prune table reading).run flag = .ok (t, flag')) :
    ∃ t', (x.runReading (some c) prune table reading).run flag = .ok (t', flag') ∧ Table.Cut c t t' := by
  induction reading generalizing table flag with
  | nil =>
    exact ⟨t, h, .inl rfl⟩
  | cons clause rest ih =>
    have hstep : ∀ cap, (x.runReading cap prune table (clause :: rest)).run flag =
        (x.runClause (if rest.isEmpty then cap else none) table clause >>= fun table =>
          x.runReading cap prune table rest).run (prune && rest.isEmpty) := fun cap => by
      rw [runReading, run_bind, run_set, pure_bind]
    rw [hstep] at h ⊢
    obtain ⟨mid, flag₁, hclause, hrest⟩ := run_bind_eq_ok.1 h
    cases rest with
    | nil =>
      obtain ⟨mid', hclause', hcut⟩ := x.runClause_cut c hclause
      cases hrest
      refine ⟨mid', run_bind_eq_ok.2 ⟨mid', flag', hclause', ?_⟩, hcut⟩
      rfl
    | cons next rest =>
      obtain ⟨t', hrun, hcut⟩ := ih hrest
      exact ⟨t', run_bind_eq_ok.2 ⟨mid, flag₁, hclause, hrun⟩, hcut⟩

end Executor

/-! ## Slices -/

namespace Session

variable (s : Session)

/-- The number a `SKIP` stands for. -/
def Skips (skip : Option Expr) (m : Nat) : Prop :=
  match skip with
  | none => m = 0
  | some e => ∀ flag, evalCount (s.lang flag) e = .ok m

variable {s} {skip : Option Expr} {limit : Expr} {n m : Nat} {body : ProjectionBody Expr}

theorem sliceRows_eq (hskip : s.Skips skip m) (hlimit : ∀ flag, evalCount (s.lang flag) limit = .ok n)
    (flag : Bool) (rows : List (List Val)) :
    sliceRows (s.lang flag) { body with skip, limit := some limit } rows =
      .ok ((rows.drop m).take n) := by
  unfold sliceRows skipRows limitRows
  cases skip with
  | none =>
    obtain rfl : m = 0 := hskip
    simp only [hlimit flag]
    rfl
  | some e =>
    simp only [show evalCount (s.lang flag) e = .ok m from hskip flag, hlimit flag]
    rfl

variable (hagg : ∀ it ∈ body.items, it.expr.containsAggregateAt s.depth = false)
include hagg

theorem projectionRowCap_eq (horder : body.orderBy = []) (hskip : s.Skips skip m)
    (hlimit : ∀ flag, evalCount (s.lang flag) limit = .ok n) (flag : Bool) :
    s.projectionRowCap flag ⟨false, { body with skip, limit := some limit }⟩ = .ok (some (n + m)) := by
  have hitems : (body.items.any fun it => (s.lang flag).containsAggregate it.expr) = false :=
    any_eq_false.2 fun it hit => by
      rw [Bool.not_eq_true]
      exact hagg it hit
  simp only [projectionRowCap, horder, hitems, hlimit flag]
  cases skip with
  | none =>
    obtain rfl : m = 0 := hskip
    rfl
  | some e =>
    simp only [show evalCount (s.lang flag) e = .ok m from hskip flag]
    rfl

/-- A column is no aggregate, so `*` adds none. -/
theorem projectionItems_plain (flag : Bool) (cols : List String) :
    (projectionItems (s.lang flag) cols body).any (fun it => (s.lang flag).containsAggregate it.1) = false := by
  have hvar : ∀ c, Expr.containsAggregateAt s.depth (.var c) = false := fun c => by
    cases s.depth <;> rfl
  refine any_eq_false.2 fun it hit => ?_
  rw [Bool.not_eq_true]
  obtain hit | hit := mem_append.1 hit
  · cases hstar : body.star with
    | false => simp [hstar] at hit
    | true =>
      rw [hstar] at hit
      obtain ⟨c, -, rfl⟩ := mem_map.1 hit
      exact hvar c
  · obtain ⟨it, hmem, rfl⟩ := mem_map.1 hit
    exact hagg it hmem

end Session

/-! ## Fast paths -/

section

variable (hdepth : depth ≠ 0)
include hdepth

theorem containsAggregateAt_call {name : String} {distinct : Bool} {args : FuncArgs Expr}
    (hname : name.toLower = "count") : (Expr.function name distinct args).containsAggregateAt depth = true := by
  obtain ⟨d, rfl⟩ := Nat.exists_eq_succ_of_ne_zero hdepth
  have hagg : isAggregate name = true := by simp [isAggregate, hname]
  have hcall : (Expr.function name distinct args).asAggregate = some ⟨name, distinct, args⟩ := by
    simp [Expr.asAggregate, Expr.asCall, hagg]
  simp only [Expr.containsAggregateAt, Expr.aggregatesAt, hcall]
  rfl

theorem isCountStarOrVar_aggregate {bound : List String}
    (h : isCountStarOrVar bound e = true) : e.containsAggregateAt depth = true := by
  unfold isCountStarOrVar at h
  split at h
  · exact containsAggregateAt_call hdepth (by simpa using h)
  · simp only [Bool.and_eq_true, beq_iff_eq] at h
    exact containsAggregateAt_call hdepth h.1
  · cases h

theorem isCountOf_aggregate (h : isCountOf var e = true) : e.containsAggregateAt depth = true := by
  unfold isCountOf at h
  split at h
  · exact containsAggregateAt_call hdepth (by simpa using h)
  · simp only [Bool.and_eq_true, beq_iff_eq] at h
    exact containsAggregateAt_call hdepth h.1
  · cases h

theorem countDistinctProperty_aggregate
    (h : (countDistinctProperty var e).isSome = true) : e.containsAggregateAt depth = true := by
  unfold countDistinctProperty at h
  split at h
  · split at h
    · exact containsAggregateAt_call hdepth ‹_›
    · cases h
  · cases h

theorem classifyGrouped_plain (var : Option String) {items : List (ProjItem Expr × Nat)}
    (hagg : ∀ it ∈ items, it.1.expr.containsAggregateAt depth = false) {acc acc' : GroupedItems}
    (hacc : acc.plain = none ∧ acc.distinct = none) (h : items.foldlM (classifyGrouped var) acc = some acc') :
    acc'.plain = none ∧ acc'.distinct = none := by
  induction items generalizing acc with
  | nil =>
    cases h
    exact hacc
  | cons it items ih =>
    obtain ⟨acc₁, h₁, hrest⟩ := Option.bind_eq_some_iff.1 h
    refine ih (fun it hit => hagg it (.tail _ hit)) ?_ hrest
    have hit := hagg it (.head _)
    have hcount : isCountOf var it.1.expr = false := by
      by_contra hc
      rw [isCountOf_aggregate hdepth (by simpa using hc)] at hit
      cases hit
    have hdistinct : countDistinctProperty var it.1.expr = none := by
      by_contra hc
      rw [countDistinctProperty_aggregate hdepth (Option.isSome_iff_ne_none.2 hc)] at hit
      cases hit
    unfold classifyGrouped at h₁
    split at h₁
    · split at h₁ <;> cases h₁
      exact hacc
    · rw [hcount, hdistinct] at h₁
      simp only [Bool.false_eq_true, if_false] at h₁
      split at h₁ <;> cases h₁
      exact hacc

theorem groupedShape_plain
    (hagg : ∀ it ∈ sq.ret.body.items, it.expr.containsAggregateAt depth = false) : groupedShape sq = none := by
  unfold groupedShape
  split
  · split
    · split
      · rfl
      · refine Option.eq_none_iff_forall_ne_some.2 fun shape h => ?_
        obtain ⟨label, -, h⟩ := Option.bind_eq_some_iff.1 h
        obtain ⟨⟨group, plain, distinct⟩, hitems, h⟩ := Option.bind_eq_some_iff.1 h
        have hplain := classifyGrouped_plain hdepth _ (fun it hit =>
          hagg it.1 (fst_mem_of_mem_zipIdx hit)) ⟨rfl, rfl⟩ hitems
        obtain ⟨rfl, rfl⟩ : plain = none ∧ distinct = none := hplain
        cases group <;> cases h
    · rfl
  · rfl

end

theorem soleItem_plain {test : Expr → Bool} {items : List (ProjItem Expr)}
    (h : ∀ it ∈ items, test it.expr = false) : soleItem test items = none := by
  have hnone : items.findIdxs (fun it => test it.expr) = [] := by
    rw [findIdxs_eq_nil_iff]
    simpa using h
  simp [soleItem, hnone]

theorem countWalkShape_plain (hdepth : depth ≠ 0)
    (hagg : ∀ it ∈ sq.ret.body.items, it.expr.containsAggregateAt depth = false) : countWalkShape sq = none := by
  unfold countWalkShape
  split
  · dsimp only
    split
    · rfl
    · rw [soleItem_plain]
      · rfl
      · intro it hit
        by_contra hc
        have hcount := isCountStarOrVar_aggregate hdepth (Bool.not_eq_false _ ▸ hc)
        rw [hagg it hit] at hcount
        cases hcount
  · rfl

namespace Executor

variable (x : Executor) {skip : Option Expr} {limit : Expr} {n m : Nat}
  {body : ProjectionBody Expr} {reading : List Clause} {t : Table}

/-- The fast paths leave a `RETURN` without aggregates to the clauses. -/
theorem fastPath_plain (hdepth : x.depth ≠ 0)
    (hagg : ∀ it ∈ body.items, it.expr.containsAggregateAt x.depth = false) (flag : Bool) :
    x.fastPath flag ⟨reading, ⟨false, body⟩⟩ = .ok none := by
  have hitems : (body.items.any fun it => it.expr.containsAggregateAt x.depth) = false :=
    any_eq_false.2 fun it hit => by
      rw [Bool.not_eq_true]
      exact hagg it hit
  have hgrouped : x.tryGroupedIndexFastPath flag ⟨reading, ⟨false, body⟩⟩ = .ok none := by
    unfold tryGroupedIndexFastPath
    rw [groupedShape_plain hdepth hagg]
  have hwalk : x.tryCountWalkFastPath flag ⟨reading, ⟨false, body⟩⟩ = .ok none := by
    unfold tryCountWalkFastPath
    rw [countWalkShape_plain hdepth hagg]
  unfold fastPath
  simp only [hitems, Bool.or_self, Bool.false_eq_true, if_false, hgrouped, hwalk]
  split <;> rfl

/-! ## Queries -/

theorem depth_ne_zero (hlimit : ∀ flag, evalCount (x.lang flag) limit = .ok n) : x.depth ≠ 0 := by
  intro hzero
  obtain ⟨v, hv, -⟩ := bind_eq_ok.1 (hlimit false)
  simp only [lang, hzero] at hv
  cases hv

section

variable (hagg : ∀ it ∈ body.items, it.expr.containsAggregateAt x.depth = false) (horder : body.orderBy = [])
  (hskip : x.Skips skip m) (hlimit : ∀ flag, evalCount (x.lang flag) limit = .ok n)
include hagg horder hskip hlimit

theorem runSingleSeeded_slice {seed : Table} {flag flag' : Bool}
    (h : (x.runSingleSeeded seed ⟨reading, ⟨false, { body with skip := none, limit := none }⟩⟩).run
      flag = .ok (t, flag')) :
    (x.runSingleSeeded seed ⟨reading, ⟨false, { body with skip, limit := some limit }⟩⟩).run flag =
      .ok (⟨t.cols, (t.rows.drop m).take n⟩, flag') := by
  simp only [runSingleSeeded, run_bind, run_get, run_lift, bind_assoc, pure_bind] at h ⊢
  rw [projectionRowCap_eq hagg horder hskip hlimit]
  obtain ⟨cap, hcap, h⟩ := bind_eq_ok.1 h
  obtain rfl : none = cap := Except.ok.inj hcap
  obtain ⟨⟨mid, flag₁⟩, hreading, h⟩ := bind_eq_ok.1 h
  obtain ⟨mid', hreading', hcut⟩ := x.runReading_cut (n + m) hreading
  have hcols : mid'.cols = mid.cols := by
    obtain rfl | rfl := hcut <;> rfl
  obtain ⟨t', hproject, h⟩ := bind_eq_ok.1 h
  cases h
  have hrowwise := fun table (skip limit : Option Expr) =>
    @project_rows _ (x.lang flag₁) table { body with skip, limit } x.pool
      (projectionItems_plain hagg flag₁ table.cols) horder
  obtain ⟨rows, hrows, hproject⟩ := bind_eq_ok.1 ((hrowwise mid none none).symm.trans hproject)
  cases hproject
  obtain ⟨rows', hrows', hprefix⟩ := projectSimple_cut _ hcut hrows
  refine bind_eq_ok.2 ⟨_, rfl, bind_eq_ok.2 ⟨(mid', flag₁), hreading', bind_eq_ok.2 ⟨_, ?_, rfl⟩⟩⟩
  refine (hrowwise mid' skip limit).trans (bind_eq_ok.2 ⟨rows', ?_, ?_⟩)
  · rw [hcols]
    exact hrows'
  · have hsame : (rows'.drop m).take n = (rows.drop m).take n := by
      obtain rfl | rfl := hprefix
      · rfl
      · rw [drop_take, Nat.add_sub_cancel, take_take, Nat.min_self]
    rw [sliceRows_eq hskip hlimit, ← hsame, hcols]
    rfl

theorem runSingle_slice {flag flag' : Bool}
    (h : (x.runSingle ⟨reading, ⟨false, { body with skip := none, limit := none }⟩⟩).run flag =
      .ok (t, flag')) :
    (x.runSingle ⟨reading, ⟨false, { body with skip, limit := some limit }⟩⟩).run flag =
      .ok (⟨t.cols, (t.rows.drop m).take n⟩, flag') := by
  have hfast : ∀ skip limit, (x.runSingle ⟨reading, ⟨false, { body with skip, limit }⟩⟩).run flag =
      (x.runSingleSeeded Table.singleton ⟨reading, ⟨false, { body with skip, limit }⟩⟩).run flag := by
    intro skip limit
    have hpath : x.fastPath flag ⟨reading, ⟨false, { body with skip, limit }⟩⟩ = .ok none :=
      x.fastPath_plain (x.depth_ne_zero hlimit)
        (show ∀ it ∈ ({ body with skip, limit } : ProjectionBody Expr).items, _ from hagg) flag
    unfold runSingle
    simp only [run_bind, run_get, pure_bind, hpath]
    rfl
  rw [hfast] at h ⊢
  exact x.runSingleSeeded_slice hagg horder hskip hlimit h

/-- **A pushed `LIMIT` returns a prefix.** `m` and `n` are what the two counts evaluate to,
outside any row. The reading clauses are any, subqueries and procedures among them. -/
theorem runQuery_slice {t : Table}
    (h : x.runQuery ⟨⟨reading, ⟨false, { body with skip := none, limit := none }⟩⟩, []⟩ = .ok t) :
    x.runQuery ⟨⟨reading, ⟨false, { body with skip, limit := some limit }⟩⟩, []⟩ =
      .ok ⟨t.cols, (t.rows.drop m).take n⟩ := by
  have hrun : ∀ sq, x.runQuery ⟨sq, []⟩ = (do
      let r ← (x.runSingle sq).run false
      pure r.1) := by
    unfold runQuery runFrom runParts
    simp
  rw [hrun] at h ⊢
  obtain ⟨⟨t', flag'⟩, hsingle, h⟩ := bind_eq_ok.1 h
  cases h
  exact bind_eq_ok.2 ⟨_, x.runSingle_slice hagg horder hskip hlimit hsingle, rfl⟩

end

/-- A path of three relationships. -/
def threeSteps : CoreGraph where
  reltypes := ["R"]
  nodes := [{}, {}, {}, {}]
  edges := [⟨0, 0, 1, []⟩, ⟨0, 1, 2, []⟩, ⟨0, 2, 3, []⟩]
  ends := by decide

/-- `MATCH (a)-->(b)`. -/
def anyStep : MatchClause where
  patterns := [{ start := { var := some "a" }, rels := [({ dir := .outgoing }, { var := some "b" })] }]

/-- `a, b`. -/
def endsOfStep : ProjectionBody Expr where
  items := [⟨.var "a", none⟩, ⟨.var "b", none⟩]

/-- `MATCH (a)-->(b) RETURN a, b SKIP 1 LIMIT 1`. -/
theorem runQuery_slice_threeSteps :
    (Executor.plain threeSteps.view).runQuery ⟨⟨[.match anyStep], ⟨false, { endsOfStep with
        skip := some (.literal (.int 1)), limit := some (.literal (.int 1)) }⟩⟩, []⟩ =
      .ok ⟨["a", "b"], [[.node 1, .node 2]]⟩ := by
  have hone : ∀ flag, evalCount ((Executor.plain threeSteps.view).lang flag) (.literal (.int 1)) =
      .ok 1 := by decide
  exact @runQuery_slice (Executor.plain threeSteps.view) (some (.literal (.int 1)))
    (.literal (.int 1)) 1 1 endsOfStep [.match anyStep] (by decide) rfl hone hone
    ⟨["a", "b"], [[.node 0, .node 1], [.node 1, .node 2], [.node 2, .node 3]]⟩ (by decide +kernel)

end Executor

end Slater
