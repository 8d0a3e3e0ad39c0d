import Slater.Exec.Chains
import Slater.Exec.Clause

/-!
# Groups that repeat

`((x)-[…]->(y)){m,n}` stands for its inner chain repeated `m` to `n` times, one repetition starting
where the one before ends. `apply_match_quantified` writes out every combination of counts and
matches each as an ordinary clause.

Each repetition has to satisfy what is written inside the group, the last one too; the node where the
group ends has to satisfy the last inner node and the node written after the group (`NodePat.meet`).
`repeat_inner` puts the node after the group in place of the last inner node instead, so what the
group says about that node is not asked of the last repetition. Where the group says nothing about it
the two agree, and the rows are those of the repeated chains, each once.

**What it does not establish.** Groups whose bounds exceed the limit of the expansion are an error of the source and
are not looked at, and names inside a group are not bound, as the source makes them anonymous.
-/

namespace Slater

open List Option Binding Engine

variable {exit : NodePat Expr} {inner : List (RelPat Expr × NodePat Expr)} {α : Type} {k : Nat}

/-! ## What a group stands for -/

/-- Every way to take one of each. -/
def choices {α : Type} : List (List α) → List (List α)
  | [] => [[]]
  | alt :: alts => alt.flatMap fun a => (choices alts).map (a :: ·)

/-- `cartesian_patterns`, and the product over the segments of a pattern. -/
theorem combinations_eq (alts : List (List α)) : combinations alts = choices alts := by
  have hextended : ∀ (alts cs : List (List α)),
      alts.foldl (fun combos alt => combos.flatMap fun c => alt.map fun a => c ++ [a]) cs =
        cs.flatMap fun c => (choices alts).map (c ++ ·) := by
    intro alts
    induction alts with
    | nil =>
      simp [choices]
    | cons alt alts ih =>
      intro cs
      simp only [foldl_cons, ih, choices, flatMap_assoc, flatMap_map,
        List.map_flatMap, List.map_map, Function.comp_def, List.append_assoc,
        singleton_append]
  rw [combinations, hextended]
  simp

/-- A node that has to satisfy two patterns, under the variable of the second. -/
def NodePat.meet (inner exit : NodePat Expr) : NodePat Expr where
  var := exit.var
  labelExpr := match inner.labelExpr, exit.labelExpr with
    | some e, some e' => some (.and e e')
    | some e, none => some e
    | none, e => e
  props := inner.props ++ exit.props

/-- A step of a group, whose variables are not seen outside it. -/
def anonymous (rn : RelPat Expr × NodePat Expr) : RelPat Expr × NodePat Expr :=
  ({ rn.1 with var := none }, { rn.2 with var := none })

/-- The last repetition of a group, which ends at the node after it. -/
def lastRepetition (inner : List (RelPat Expr × NodePat Expr)) (exit : NodePat Expr) :
    List (RelPat Expr × NodePat Expr) :=
  inner.dropLast.map anonymous ++ (inner.getLast?.map fun rn => ((anonymous rn).1, rn.2.meet exit)).toList

/-- **A group repeated** so many times. This is the meaning, not the code: the node where the
group ends meets both what the group says and what is written after it. -/
def repeated (inner : List (RelPat Expr × NodePat Expr)) (exit : NodePat Expr) (k : Nat) :
    List (RelPat Expr × NodePat Expr) :=
  (replicate (k - 1) (inner.map anonymous)).flatten ++ lastRepetition inner exit

namespace Segment

/-- The chains a segment stands for. -/
def repetitions : Segment Expr → List (List (RelPat Expr × NodePat Expr))
  | hop rel node => [[(rel, node)]]
  | quantified inner bounds exit =>
    (range' (bounds.min.getD 0) (bounds.max.getD 0 + 1 - bounds.min.getD 0)).map (repeated inner exit)

/-- A group has a step, and bounds with `1 ≤ m ≤ n`. -/
def Bounded : Segment Expr → Prop
  | hop _ _ => True
  | quantified inner bounds _ =>
    inner ≠ [] ∧ 1 ≤ bounds.min.getD 0 ∧ ∃ max, bounds.max = some max ∧ bounds.min.getD 0 ≤ max

/-- A group says nothing about its last node, and is not longer than what is written out. -/
def Plain : Segment Expr → Prop
  | hop _ _ => True
  | quantified inner bounds _ =>
    (∀ rn ∈ inner.getLast?, rn.2.labelExpr = none ∧ rn.2.props = []) ∧
      bounds.max.getD 0 * inner.length ≤ quantMaxUnroll

end Segment

/-- The patterns without groups that a pattern stands for. -/
def Pattern.repetitions (p : Pattern Expr) : List (Pattern Expr) :=
  match p.segments with
  | none => [p]
  | some segs => (choices (segs.map Segment.repetitions)).map fun chain =>
      { start := p.start, rels := chain.flatten }

/-- The patterns of a clause, without groups, in every combination. -/
def MatchClause.repetitions (mc : MatchClause) : List (List (Pattern Expr)) :=
  choices (mc.patterns.map Pattern.repetitions)

/-- The groups of a clause, as the parser and their bounds leave them. -/
def MatchClause.Bounded (mc : MatchClause) : Prop :=
  ∀ p ∈ mc.patterns, ∀ segs ∈ p.segments, ∀ seg ∈ segs, seg.Bounded

/-! ## Writing it out -/

/-- `repeat_inner` writes out all but the last step of the copies, and ends at the exit. -/
theorem repeatInner_concat {init : List (RelPat Expr × NodePat Expr)}
    {last : RelPat Expr × NodePat Expr} (h : (replicate k inner).flatten = init ++ [last]) :
    repeatInner inner k exit = init.map anonymous ++ [((anonymous last).1, exit)] := by
  unfold repeatInner
  simp only [h, length_append, length_singleton, zipIdx_append, map_append]
  congr 1
  · have hinit : ∀ x ∈ init.zipIdx, (({ x.1.1 with var := none } : RelPat Expr),
        if x.2 + 1 = init.length + 1 then exit else { x.1.2 with var := none }) =
          anonymous x.1 := by
      intro x hx
      have hlt := (mem_zipIdx (x := x.1) (i := x.2) hx).2.1
      rw [if_neg (by omega)]
      rfl
    rw [map_congr_left hinit]
    conv_rhs => rw [← List.zipIdx_map_fst 0 init, List.map_map]
    rfl
  · simp [anonymous]

/-- **A group that says nothing about its last node is written out as it is meant.** -/
theorem repeatInner_eq (hne : inner ≠ [])
    (hplain : ∀ rn ∈ inner.getLast?, rn.2.labelExpr = none ∧ rn.2.props = []) (hk : 1 ≤ k) :
    repeatInner inner k exit = repeated inner exit k := by
  obtain ⟨k, rfl⟩ := Nat.exists_eq_add_of_le' hk
  obtain ⟨init, last, rfl⟩ := eq_nil_or_concat' inner |>.resolve_left hne
  obtain ⟨hlabel, hprops⟩ := hplain last (by simp)
  have hcopies : (replicate (k + 1) (init ++ [last])).flatten =
      ((replicate k (init ++ [last])).flatten ++ init) ++ [last] := by
    rw [replicate_succ', flatten_append, flatten_singleton, append_assoc]
  have hmeet : last.2.meet exit = exit := by simp [NodePat.meet, hlabel, hprops]
  rw [repeatInner_concat hcopies, repeated, lastRepetition, dropLast_concat, getLast?_concat, map_some, hmeet,
    map_append, append_assoc, map_flatten, map_replicate]
  rfl

/-- The alternatives of a segment are its repetitions. -/
theorem segmentAlts_eq {seg : Segment Expr} (hbounded : seg.Bounded) (hplain : seg.Plain) :
    segmentAlts seg = .ok seg.repetitions := by
  cases seg with
  | hop rel node => rfl
  | quantified inner bounds exit =>
    obtain ⟨hne, hmin, max, hmax, hle⟩ := hbounded
    obtain ⟨hlast, hunroll⟩ := hplain
    rw [hmax, getD_some] at hunroll
    unfold segmentAlts Segment.repetitions
    simp only [hmax]
    rw [if_neg (by omega), if_neg (by omega), if_neg (by omega)]
    refine congrArg Except.ok (map_congr_left fun k hk => ?_)
    exact repeatInner_eq hne hlast (by have := (mem_range'_1.1 hk).1; omega)

theorem expandQuantifiedPattern_eq {p : Pattern Expr}
    (hsegs : ∀ segs ∈ p.segments, ∀ seg ∈ segs, seg.Bounded ∧ seg.Plain) :
    expandQuantifiedPattern p = .ok p.repetitions := by
  unfold expandQuantifiedPattern Pattern.repetitions
  cases hp : p.segments with
  | none => rfl
  | some segs =>
    have halts : segs.mapM segmentAlts = .ok (segs.map Segment.repetitions) :=
      Fallible.mapM_ok fun seg hseg =>
        segmentAlts_eq (hsegs segs hp seg hseg).1 (hsegs segs hp seg hseg).2
    simp only [halts, combinations_eq]
    rfl

/-! ## The clause -/

section

variable {m : Type → Type} [Monad m] [MonadExceptOf Failure m] (eng : Engine m)

/-- The matches of a clause in one row: those of its repetitions, each as written. -/
def Engine.repeatedMatches (mc : MatchClause) (b : Binding) : m (List Binding) := do
  let found ← mc.repetitions.mapM fun ps => eng.clauseAsWritten mc.where ps b
  pure found.flatten

/-- The variables a clause adds. -/
def MatchClause.repeatedVars (mc : MatchClause) (cols : List String) : List String :=
  newVars cols (mc.repetitions.headD [])

/-- The rows of a clause in one input row. -/
def Engine.repeatedRow (table : Table) (mc : MatchClause) (row : List Val) : m (List (List Val)) := do
  let found ← eng.repeatedMatches mc (ofRow table.cols row empty)
  pure (matchRows mc.optional (mc.repeatedVars table.cols) row found)

/-- **The rows a clause with groups stands for.** -/
def Engine.repeatedRows (table : Table) (mc : MatchClause) : m (List (List Val)) := do
  let rows ← table.rows.mapM (eng.repeatedRow table mc)
  pure rows.flatten

end

theorem matchRows_perm («optional» : Bool) (vars : List String) (row : List Val)
    {found found' : List Binding} (h : found.Perm found') :
    (matchRows «optional» vars row found).Perm (matchRows «optional» vars row found') := by
  unfold matchRows
  have hempty : found.isEmpty = found'.isEmpty := by
    cases found with
    | nil => rw [nil_perm.1 h]
    | cons b found =>
      cases found' with
      | nil => exact absurd (perm_nil.1 h) (cons_ne_nil _ _)
      | cons b' found' => rfl
  rw [hempty]
  split
  · exact List.Perm.refl _
  · exact h.map _

namespace Engine

/-- Without a limit the rows of the table are matched one after the other. -/
theorem matchTable_rows (table : Table) (mc : MatchClause) (vars : List String)
    (found : List Val → Option Nat → Option (List Binding)) : matchTable table mc vars none (pushCapped none) found =
      (table.rows.mapM fun row => (found row none).map (matchRows mc.optional vars row)).map
        fun rss => ⟨table.cols ++ vars, rss.flatten⟩ := by
  unfold matchTable
  have hadds : ∀ (row : List Val) (out : List (List Val)),
      (do if capped none out then pure out
          else
            let bs ← found row ((none : Option Nat).map (· - out.length))
            pure (pushCapped none out (matchRows mc.optional vars row bs))) =
        (found row none).map fun bs => out ++ matchRows mc.optional vars row bs := by
    intro row out
    simp only [map_none]
    cases found row none <;> rfl
  simp only [hadds]
  rw [Fallible.foldlM_adds fun row out => by cases found row none <;> simp]
  simp only [nil_append]
  cases table.rows.mapM fun row => (found row none).map (matchRows mc.optional vars row) <;> rfl

variable {eng : Engine Option} {table : Table} {mc : MatchClause}

/-- What makes writing groups out safe. The conditions are those of a plan, asked of every
repetition in every row of the input. -/
structure GroupsSafe (eng : Engine Option) (table : Table) (mc : MatchClause) : Prop where
  plain : ∀ p ∈ mc.patterns, ∀ segs ∈ p.segments, ∀ seg ∈ segs, seg.Plain
  plans : ∀ row ∈ table.rows, ∀ ps ∈ mc.repetitions,
    eng.ClauseSafe mc.where ps (ofRow table.cols row empty)

/-- **A clause with groups is matched as its repetitions are.** -/
theorem applyMatchQuantified_repeats {g : ScanView} (hview : eng.view = g.toView)
    (hrows : eng.counting = false) (hsound : eng.SeeksIds) (hbounded : mc.Bounded)
    (hsafe : eng.GroupsSafe table mc) {rows : List (List Val)} (h : eng.repeatedRows table mc = some rows) :
    ∃ t, eng.applyMatchQuantified table mc none = some t ∧
      t.cols = table.cols ++ mc.repeatedVars table.cols ∧ rows.Perm t.rows := by
  have halts : mc.patterns.mapM expandQuantifiedPattern = .ok (mc.patterns.map Pattern.repetitions) :=
    Fallible.mapM_ok fun p hp => expandQuantifiedPattern_eq fun segs hsegs seg hseg =>
      ⟨hbounded p hp segs hsegs seg hseg, hsafe.plain p hp segs hsegs seg hseg⟩
  obtain ⟨rss, hrss, h⟩ := bind_eq_some_iff.1 h
  cases h
  have hrow : ∀ row ∈ table.rows, ∀ rs, eng.repeatedRow table mc row = some rs →
      ∃ rs', (mc.repetitions.foldlM (fun out ps => eng.matchPatterns mc.where none ps
        (ofRow table.cols row empty) out) []).map
          (matchRows mc.optional (mc.repeatedVars table.cols) row) = some rs' ∧ rs.Perm rs' := by
    intro row hmem rs hrs
    obtain ⟨matches', hmatches, h⟩ := bind_eq_some_iff.1 hrs
    cases h
    obtain ⟨found, hfound, h⟩ := bind_eq_some_iff.1 hmatches
    cases h
    obtain ⟨found', hfound', hsame⟩ := Fallible.mapM_flatten_perm hfound fun ps hps rs hrs =>
      matchPatterns_clause hview hrows hsound (hsafe.plans row hmem ps hps) hrs
    refine ⟨_, ?_, matchRows_perm _ _ _ hsame⟩
    rw [Limited.foldlM_flatten (fun ps => limited_matchPatterns hrows mc.where ps _), hfound']
    rfl
  obtain ⟨rss', hrss', hperm⟩ := Fallible.mapM_flatten_perm hrss hrow
  refine ⟨⟨table.cols ++ mc.repeatedVars table.cols, rss'.flatten⟩, ?_, rfl, hperm⟩
  unfold applyMatchQuantified
  rw [halts]
  refine (pure_bind (mc.patterns.map Pattern.repetitions) _).trans ?_
  rw [matchTable_rows, combinations_eq]
  exact congrArg (Option.map _) hrss'

/-! ## With errors -/

theorem repeatedRows_success (eng : Engine (Except Failure)) (table : Table) (mc : MatchClause) :
    (eng.repeatedRows table mc).toOption = eng.success.repeatedRows table mc := by
  have hrow : ∀ row, successRel.Rel (eng.repeatedRow table mc row) (eng.success.repeatedRow table mc row) := fun row =>
    successRel.seq (successRel.seq (successRel.mapM fun ps _ => eng.clauseAsWritten_success _ ps _)
      fun found => successRel.ret _) fun found => successRel.ret _
  have hrows : successRel.Rel (eng.repeatedRows table mc) (eng.success.repeatedRows table mc) :=
    successRel.seq (successRel.mapM fun row _ => hrow row) fun rows => successRel.ret _
  exact hrows

/-- **Groups mean repetition.** If the repetitions of a clause can be matched as written, then
the clause is matched and has their rows, in some order; and a repetition of a pattern with
groups has one row for each chain that counts, in which no relationship occurs twice. -/
def GroupsRepeat (eng : Engine (Except Failure)) (table : Table) (mc : MatchClause) : Prop :=
  (∀ rows, eng.repeatedRows table mc = .ok rows → ∃ t, eng.applyMatchQuantified table mc none = .ok t ∧
      t.cols = table.cols ++ mc.repeatedVars table.cols ∧ rows.Perm t.rows) ∧
    ∀ p ∈ mc.patterns, p.segments.isSome → ∀ q ∈ p.repetitions, ∀ b rows, eng.asWritten q b = .ok rows →
        rows = ((eng.view.chains q).filter (eng.success.counts q b)).map (matchRow q b) ∧
        ∀ chain ∈ eng.view.chains q, eng.success.counts q b chain = true → ((chain.2.flatMap (·.1)).map (·.edge)).Nodup

/-- A repetition of a pattern with groups has no restrictor. -/
theorem repetitions_restrictor {p q : Pattern Expr} (hp : p.segments.isSome) (hq : q ∈ p.repetitions) :
    q.restrictor = none := by
  obtain ⟨segs, hsegs⟩ := isSome_iff_exists.1 hp
  unfold Pattern.repetitions at hq
  rw [hsegs] at hq
  obtain ⟨chain, -, rfl⟩ := mem_map.1 hq
  rfl

theorem counts_nodup {eng : Engine Option} {q : Pattern Expr} {b : Binding}
    {chain : Nat × List (List Hop × Nat)} (hmem : chain ∈ eng.view.chains q)
    (h : eng.counts q b chain = true) : ((chain.2.flatMap (·.1)).map (·.edge)).Nodup := by
  obtain ⟨c, -, hmem⟩ := mem_flatMap.1 hmem
  obtain ⟨legs, hlegs, rfl⟩ := mem_map.1 hmem
  rw [counts, Bool.and_eq_true] at h
  have hlen : legs.length = q.rels.length := by
    rw [Route.length_of_mem_onward hlegs, length_map]
  exact chainOk_nodup h.2 hlen nodup_nil

end Engine

namespace Session

end Session

/-- `MATCH (a)((x)-[:T]->(y …)){m,n}(b)`. -/
def groupBetween (last : NodePat Expr) (m n : Nat) : MatchClause where
  patterns := [{
    start := { var := some "a" }
    rels := []
    segments := some [.quantified [({ dir := .outgoing, typeExpr := some (.atom "T") }, { last with var := some "y" })]
      ⟨some m, some n⟩ { var := some "b" }] }]

theorem groupBetween_bounded (last : NodePat Expr) {m n : Nat} (hm : 1 ≤ m) (hn : m ≤ n) :
    (groupBetween last m n).Bounded := by
  intro p hp segs hsegs seg hseg
  rw [mem_singleton.1 hp] at hsegs
  cases hsegs
  rw [mem_singleton.1 hseg]
  exact ⟨cons_ne_nil _ _, hm, n, rfl, hn⟩

namespace Session

end Session

end Slater
