import Slater.Exec.PlanChoice

/-!
# The patterns of a clause

`match_patterns` matches the patterns of a clause one after the other, each in the rows of those
before it, and applies the `WHERE` at the end. Every pattern is planned with the whole `WHERE`, so a
row may be left out long before the predicate is evaluated. It would not have passed: what the plan
of one pattern leaves out is refuted, and stays refuted while later patterns leave the names of the
`WHERE` alone (`matchPatterns_clause`).

**What it does not establish.** The comparison is made where the clause as written answers; where an expression
fails on a row, which error is raised first is left open. Rows are compared up to order.
-/

namespace Slater

open List

namespace Engine

variable {b : Binding} {rows : List Binding}

section

variable {m : Type → Type} [Monad m] [MonadExceptOf Failure m] (eng : Engine m)

/-- The `WHERE` at the end. -/
def whereRows (w : Option Expr) (b : Binding) : m (List Binding) :=
  match w with
  | none => pure [b]
  | some w => do
    let v ← eng.eval w (.map b)
    pure (if v.truthy then [b] else [])

/-- **The patterns of a clause, each as written**, and the `WHERE` at the end. -/
def clauseAsWritten (w : Option Expr) : List (Pattern Expr) → Binding → m (List Binding)
  | [], b => eng.whereRows w b
  | p :: ps, b => do
    let rows ← eng.asWritten p b
    let found ← rows.mapM (clauseAsWritten w ps)
    pure found.flatten

end

theorem clauseAsWritten_success (eng : Engine (Except Failure)) (w : Option Expr)
    (ps : List (Pattern Expr)) (b : Binding) :
    (eng.clauseAsWritten w ps b).toOption = eng.success.clauseAsWritten w ps b := by
  have hrel : successRel.Rel (eng.clauseAsWritten w ps b) (eng.success.clauseAsWritten w ps b) := by
    induction ps generalizing b with
    | nil =>
      cases w with
      | none => exact successRel.ret _
      | some e => exact successRel.seq rfl fun v => successRel.ret _
    | cons p ps ih =>
      exact successRel.seq (eng.asWritten_success p b) fun rows =>
        successRel.seq (successRel.mapM fun row _ => ih row) fun found => successRel.ret _
  exact hrel

variable {eng : Engine Option} {w : Option Expr}

/-! ## Rows that stay refuted -/

/-- The later patterns of a clause give no name of the `WHERE` to another relationship or
path. -/
def ClauseApart (eng : Engine Option) (w : Option Expr) : List (Pattern Expr) → Binding → Prop
  | [], _ => True
  | p :: ps, b => (∀ e ∈ w, ∀ x ∈ e.vars, x ∈ edgeVars p p.rels → b x = none) ∧
      ∀ rows, eng.asWritten p b = some rows → ∀ row ∈ rows, ClauseApart eng w ps row

/-- A row of a pattern keeps what was bound, but for relationships and paths. -/
theorem asWritten_keeps (hrows : eng.counting = false) {p : Pattern Expr} (h : eng.asWritten p b = some rows)
    {x : String} {v : Val} (hx : x ∉ edgeVars p p.rels) (hb : b x = some v) : ∀ row ∈ rows, row x = some v := by
  rw [asWritten, walkAnchorsBy_rows hrows] at h
  obtain ⟨rss, hrss, rfl⟩ := Option.map_eq_some_iff.1 h
  intro row hrow
  obtain ⟨rs, hrs, hrow⟩ := mem_flatten.1 hrow
  obtain ⟨c, hc, hrs⟩ := (Fallible.mem_mapM_some hrss).1 hrs
  obtain ⟨ok, -, hrs⟩ := Option.bind_eq_some_iff.1 hrs
  cases ok with
  | false =>
    cases hrs
    cases hrow
  | true =>
    refine ((mem_expandChain hrows p.rels hrs).1 hrow).keeps hx ?_
    refine Binding.extends_insert? (fun y hy => ?_) x v hb
    cases hby : b y with
    | none => exact .inl rfl
    | some u => exact .inr (congrArg some (nextOk_iff.1 (View.mem_anchors.1 hc).2 y hy u hby))

/-- Later patterns do not bring a refuted row back. -/
theorem clauseAsWritten_refuted (hrows : eng.counting = false) {ps : List (Pattern Expr)}
    (hapart : eng.ClauseApart w ps b) (hrefutes : eng.Refutes w b) (h : eng.clauseAsWritten w ps b = some rows) :
    rows = [] := by
  induction ps generalizing b rows with
  | nil =>
    obtain ⟨e, rfl, hfalse⟩ := hrefutes
    obtain ⟨v, hv, h⟩ := Option.bind_eq_some_iff.1 h
    cases h
    simp [hfalse b (fun _ _ _ hx => hx) v hv]
  | cons p ps ih =>
    obtain ⟨found, hfound, rss, hrss, rfl⟩ := bind_bind_eq_some.mp h
    refine flatten_eq_nil_iff.2 fun rs hrs => ?_
    obtain ⟨row, hrow, hrs⟩ := (Fallible.mem_mapM_some hrss).1 hrs
    refine ih (hapart.2 found hfound row hrow) ?_ hrs
    -- the row still has the names the refutation reads
    obtain ⟨e, rfl, hfalse⟩ := hrefutes
    refine ⟨e, rfl, fun b' hext => hfalse b' fun x hx v hv => hext x hx v ?_⟩
    refine asWritten_keeps hrows hfound (fun hnew => ?_) hv row hrow
    rw [hapart.1 e rfl x hx hnew] at hv
    cases hv

/-! ## The clause -/

/-- What makes the plans of a clause safe: those of its patterns, each in the rows before it. -/
def ClauseSafe (eng : Engine Option) (w : Option Expr) : List (Pattern Expr) → Binding → Prop
  | [], _ => True
  | p :: ps, b => eng.PlanSafe p b w ∧ ∀ rows, eng.asWritten p b = some rows → ∀ row ∈ rows,
      ClauseSafe eng w ps row ∧ (eng.Refutes w row → eng.ClauseApart w ps row)

theorem matchPatterns_cons (hrows : eng.counting = false) (p : Pattern Expr) (ps : List (Pattern Expr)) (b : Binding) :
    eng.matchPatterns w none (p :: ps) b [] = eng.matchSinglePattern p b w [] none >>= fun found =>
        (found.mapM fun row => eng.matchPatterns w none ps row []).map List.flatten := by
  conv_lhs => unfold matchPatterns
  simp only [Option.map_none, ite_self]
  refine bind_congr fun found => ?_
  exact Limited.foldlM_flatten (fun row => limited_matchPatterns hrows w ps row) found

/-- **A clause matches what it says**, whatever its plans. The induction is on the patterns: the
rows that a plan leaves out stay refuted through the rest of the clause. -/
theorem matchPatterns_clause {g : ScanView} (hview : eng.view = g.toView) (hrows : eng.counting = false)
    (hsound : eng.SeeksIds) {ps : List (Pattern Expr)} (hsafe : eng.ClauseSafe w ps b)
    (h : eng.clauseAsWritten w ps b = some rows) :
    ∃ rows', eng.matchPatterns w none ps b [] = some rows' ∧ rows.Perm rows' := by
  induction ps generalizing b rows with
  | nil => exact ⟨rows, by cases w <;> exact h, List.Perm.refl rows⟩
  | cons p ps ih =>
    obtain ⟨found, hfound, rss, hrss, rfl⟩ := bind_bind_eq_some.mp h
    obtain ⟨found', dropped, hmatch, hperm, hdropped⟩ :=
      matchSinglePattern_narrow hview hrows hsound hsafe.1 hfound
    let written (row : Binding) := (eng.clauseAsWritten w ps row).getD []
    let matched (row : Binding) := (eng.matchPatterns w none ps row []).getD []
    have hwritten : ∀ row ∈ found, eng.clauseAsWritten w ps row = some (written row) :=
      fun row hrow => by
        obtain ⟨rs, -, hrs⟩ := Fallible.mapM_some_of_mem hrss hrow
        simp [written, hrs]
    have hmatched : ∀ row ∈ found', eng.matchPatterns w none ps row [] = some (matched row) ∧
        (written row).Perm (matched row) := fun row hrow => by
      have hmem := hperm.mem_iff.2 (mem_append_left _ hrow)
      obtain ⟨rs, hrs, hsame⟩ := ih (hsafe.2 found hfound row hmem).1 (hwritten row hmem)
      exact ⟨by simp [matched, hrs], by simpa [matched, hrs] using hsame⟩
    have hnone : dropped.flatMap written = [] := by
      refine flatMap_eq_nil_iff.2 fun row hrow => ?_
      have hmem := hperm.mem_iff.2 (mem_append_right _ hrow)
      exact clauseAsWritten_refuted hrows ((hsafe.2 found hfound row hmem).2 (hdropped row hrow))
        (hdropped row hrow) (hwritten row hmem)
    refine ⟨found'.flatMap matched, ?_, ?_⟩
    · rw [matchPatterns_cons hrows, hmatch, Option.bind_eq_bind, Option.bind_some,
        Fallible.mapM_some fun row hrow => (hmatched row hrow).1]
      rfl
    · rw [Fallible.mapM_eq_map hrss fun row hrow rs hrs =>
        (Option.some.inj ((hwritten row hrow).symm.trans hrs)).symm]
      refine (hperm.flatMap_right written).trans ?_
      rw [flatMap_append, hnone, append_nil]
      exact List.Perm.flatMap_left _ fun row hrow => (hmatched row hrow).2

end Engine

end Slater
