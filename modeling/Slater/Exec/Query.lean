import Slater.Exec.Eval
import Slater.Exec.Match

/-!
# Running a query

`run` of `slater/src/exec/driver.rs` and `run_single_seeded` of `slater/src/exec/matchclause.rs`: the
reading clauses of a part run in order, each turning a table into the next, and the `RETURN`
projects the last one. Two things are decided ahead. A `LIMIT` that only truncates is pushed into the
last reading clause, and the last reading clause of a `RETURN DISTINCT` may drop paths to an endpoint
it has reached already. The second is a cell of the engine. It is set at every clause and never
reset, so it is the state a run carries.

The fast paths of a part that count a walk or group by an index are modelled. The others answer
counts and enumerations from resident metadata, and are given. Procedures are given as well.

**What it does not establish.** The answers of the fast paths that are given are not compared with those of the
general path, and a union is put together as its parts answer.
-/

namespace Slater

/-! ## Clauses -/

structure WithClause where
  distinct : Bool := false
  body : ProjectionBody Expr
  «where» : Option Expr := none

structure ReturnClause where
  distinct : Bool := false
  body : ProjectionBody Expr

/-- A procedure call. -/
structure CallClause where
  name : String
  args : List Expr
  yields : List (String × String)
  «where» : Option Expr := none

/-- What a subquery branch imports of the outer row. -/
inductive Imports where
  | none
  | all
  | named (names : List String)
  deriving DecidableEq, Repr

structure SingleQuery (κ : Type) where
  reading : List κ
  ret : ReturnClause

/-- The parts of a union; the flag of a part says `UNION ALL`. -/
structure Query (κ : Type) where
  head : SingleQuery κ
  tail : List (Bool × SingleQuery κ) := []

inductive Clause where
  | «match» (mc : MatchClause)
  | «with» (w : WithClause)
  | call (cc : CallClause)
  | callSubquery (inner : Query Clause) (imports : List Imports) (returning : Bool)
  | unwind (expr : Expr) (var : String)

/-- A session, with what it does not compute itself. Procedures and metadata answers may be any
functions of their arguments, so a law holds whatever they answer. -/
structure Executor extends Session where
  /-- `apply_call`, `apply_vector_call` and `apply_fulltext_call`. -/
  procedures : CallClause → (Expr → Scope → Except Failure Val) → Table → Except Failure Table
  /-- `try_count_fast_path`, `try_edge_count_fast_path`, `try_reltype_meta_fast_path` and
  `try_label_meta_fast_path`, on a `RETURN` that counts or enumerates. -/
  metadata : SingleQuery Clause → Except Failure (Option Table)

/-- An executor that calls no procedure and has no metadata to answer from. -/
def Executor.plain (view : View) : Executor where
  toSession := Session.plain view
  procedures _ _ _ := .error "refused"
  metadata _ := .ok none

/-- A run carries the `distinct_endpoint` cell. -/
abbrev QueryM := StateT Bool (Except Failure)

/-! ## Single clauses -/

namespace Session

variable (s : Session) (distinctEndpoint : Bool)

/-- The engine that builds rows. -/
def rowEngine : Engine (Except Failure) := s.run (rowMode distinctEndpoint)

/-- `apply_unwind`. -/
def applyUnwind (table : Table) (e : Expr) (var : String) : Except Failure Table := do
  let rows ← table.rows.foldlM (fun out row => do
    let v ← (s.rowEngine distinctEndpoint).eval e (.row table.cols row)
    let items := match v with
      | .list xs => xs
      | .null => []
      | scalar => [scalar]
    pure (out ++ items.map fun item => row ++ [item])) []
  pure ⟨table.cols ++ [var], rows⟩

/-- `projection_row_cap`. -/
def projectionRowCap (ret : ReturnClause) : Except Failure (Option Nat) :=
  match ret.body.limit with
  | none => .ok none
  | some limit =>
    if ret.distinct || !ret.body.orderBy.isEmpty ||
        ret.body.items.any fun it => (s.lang distinctEndpoint).containsAggregate it.expr then .ok none
    else do
      let n ← evalCount (s.lang distinctEndpoint) limit
      let skip ← match ret.body.skip with
        | some e => evalCount (s.lang distinctEndpoint) e
        | none => pure 0
      pure (some (n + skip))

/-- The final projection may hide how many paths reach an endpoint. -/
def prunes (ret : ReturnClause) : Bool :=
  ret.distinct && !ret.body.items.any fun it => it.expr.containsAggregateAt s.depth

/-- The names of the projected items. -/
def itemNames (items : List (ProjItem Expr)) : List String :=
  items.map fun it => it.alias.getD (Expr.nameAt s.scalars.display s.depth it.expr)

end Session

/-- `subquery_seed`. -/
def subquerySeed (imp : Imports) (cols : List String) (row : List Val) : Except Failure Table :=
  match imp with
  | .none => .ok Table.singleton
  | .all => .ok ⟨cols, [row]⟩
  | .named names => do
    let vals ← names.mapM fun n =>
      match (cols.idxOf? n).bind (row[·]?) with
      | some v => .ok v
      | none => .error ("variable '" ++ n ++ "' is not in scope")
    pure ⟨names, [vals]⟩

/-- `subquery_out_cols`. -/
def subqueryOutCols (outer inner : List String) : Except Failure (List String) :=
  match inner.find? (· ∈ outer) with
  | some ic => .error ("Variable `" ++ ic ++ "` already declared in outer scope")
  | none => .ok (outer ++ inner)

/-- One more part of a union. -/
def unionStep (message : Failure) (result : Table) (unionAll : Bool) (next : Table) : Except Failure Table :=
  if next.cols.length ≠ result.cols.length then .error message
  else
    let rows := result.rows ++ next.rows
    .ok ⟨result.cols, bif unionAll then rows else dedupRows rows⟩

/-! ## Parts -/

namespace Executor

variable (x : Executor)

mutual

/-- One reading clause of `run_single_seeded`. -/
def runClause (cap : Option Nat) (table : Table) : Clause → QueryM Table
  | .match mc => do
    let flag ← get
    StateT.lift ((x.rowEngine flag).applyMatch table mc cap)
  | .with w => do
    let flag ← get
    StateT.lift (project (x.lang flag) x.pool table w.body w.distinct w.where)
  | .call cc => do
    let flag ← get
    StateT.lift (x.procedures cc (x.rowEngine flag).eval table)
  | .callSubquery ⟨head, tail⟩ imports returning => do
    -- `apply_call_subquery`, one run of the inner query per outer row
    let inner (row : List Val) : QueryM Table := do
      let seed ← StateT.lift (subquerySeed (imports.headD .none) table.cols row)
      let result ← runSingleSeeded seed head
      runBranches imports.tail table.cols row result tail
    if returning then do
      let (cols, rows) ← table.rows.foldlM (fun (cols, out) row => do
        let t ← inner row
        let cols ← match cols with
          | some c => pure c
          | none => StateT.lift (subqueryOutCols table.cols t.cols)
        pure (some cols, out ++ t.rows.map (row ++ ·)))
        ((none, []) : Option (List String) × List (List Val))
      match cols with
      | some c => pure ⟨c, rows⟩
      | none => do
        let c ← StateT.lift (subqueryOutCols table.cols (x.itemNames head.ret.body.items))
        pure ⟨c, rows⟩
    else do
      table.rows.forM fun row => do
        let _ ← inner row
      pure table
  | .unwind e var => do
    let flag ← get
    StateT.lift (x.applyUnwind flag table e var)

/-- The remaining branches of `run_subquery_for_row`. -/
def runBranches (imports : List Imports) (cols : List String) (row : List Val) (result : Table) :
    List (Bool × SingleQuery Clause) → QueryM Table
  | [] => pure result
  | (unionAll, part) :: tail => do
    let seed ← StateT.lift (subquerySeed (imports.headD .none) cols row)
    let next ← runSingleSeeded seed part
    let result ← StateT.lift (unionStep
      "all branches of a CALL \x7b\x7d UNION must return the same number of columns"
      result unionAll next)
    runBranches imports.tail cols row result tail

/-- The loop over the reading clauses. -/
def runReading (cap : Option Nat) (prune : Bool) (table : Table) : List Clause → QueryM Table
  | [] => pure table
  | clause :: rest => do
    set (prune && rest.isEmpty)
    let table ← runClause (if rest.isEmpty then cap else none) table clause
    runReading cap prune table rest

/-- **`run_single_seeded`.** The seed is the row of an outer query, or one empty row. -/
def runSingleSeeded (seed : Table) : SingleQuery Clause → QueryM Table
  | ⟨reading, ret⟩ => do
    let flag ← get
    let cap ← StateT.lift (x.projectionRowCap flag ret)
    let table ← runReading cap (x.prunes ret) seed reading
    let flag ← get
    StateT.lift (project (x.lang flag) x.pool table ret.body ret.distinct none)

end

end Executor

/-! ## Counting a walk -/

/-- `is_count_star_or_var`. -/
def isCountStarOrVar (bound : List String) : Expr → Bool
  | .function name false .star => name.toLower == "count"
  | .function name false (.args [.var v]) => name.toLower == "count" && v ∈ bound
  | _ => false

/-- A parameter or a literal. -/
def isConstant : Expr → Bool
  | .param _ | .literal _ => true
  | _ => false

/-- The one item of a list that passes a test, when every other one is a constant. -/
def soleItem (test : Expr → Bool) (items : List (ProjItem Expr)) : Option Nat :=
  match items.findIdxs fun it => test it.expr with
  | [i] => if items.all fun it => test it.expr || isConstant it.expr then some i else none
  | _ => none

namespace Session

variable (s : Session) (distinctEndpoint : Bool)

/-- `count_match`. -/
def countMatch (mc : MatchClause) : Except Failure Nat :=
  match mc.patterns, mc.where with
  | [p], none => do
    let (_, n) ← ((s.run (countMode distinctEndpoint)).matchSinglePattern p Binding.empty none []
      none).run 0
    pure n
  | _, _ => do
    let t ← (s.rowEngine distinctEndpoint).applyMatch Table.singleton mc none
    pure t.rows.length

/-- The clause and the item `try_count_walk_fast_path` counts. -/
def countWalkShape (sq : SingleQuery Clause) : Option (MatchClause × Nat) :=
  match sq.reading with
  | [.match mc] =>
    let body := sq.ret.body
    if mc.optional ||
        mc.patterns.any (fun p => p.segments.isSome || p.selector.isSome || p.restrictor.isSome) ||
        mc.patterns.all (fun p => p.rels.isEmpty) ||
        body.star || body.items.isEmpty || !body.orderBy.isEmpty || body.skip.isSome ||
        body.limit.isSome then none
    else (soleItem (isCountStarOrVar (newVars [] mc.patterns)) body.items).map (mc, ·)
  | _ => none

/-- A row of constants, but for the items `given` fills in. -/
def constantRow (items : List (ProjItem Expr)) (given : Nat → Option Val) : Except Failure (List Val) :=
  items.zipIdx.mapM fun it =>
    match given it.2 with
    | some v => .ok v
    | none => (s.rowEngine distinctEndpoint).eval it.1.expr (.map Binding.empty)

/-- `try_count_walk_fast_path`. -/
def tryCountWalkFastPath (sq : SingleQuery Clause) : Except Failure (Option Table) :=
  match countWalkShape sq with
  | none => .ok none
  | some (mc, countIdx) => do
    let n ← s.countMatch distinctEndpoint mc
    let row ← s.constantRow distinctEndpoint sq.ret.body.items fun i =>
      if i = countIdx then some (.int (Int64.ofNat n)) else none
    pure (some ⟨s.itemNames sq.ret.body.items, [row]⟩)

end Session

/-! ## Grouping by an index -/

variable (var : Option String)

/-- `node_property`. -/
def nodeProperty : Expr → Option String
  | .property (.var v) p => if some v = var then some p else none
  | _ => none

/-- `is_count_of`. -/
def isCountOf : Expr → Bool
  | .function name false .star => name.toLower == "count"
  | .function name false (.args [.var v]) => name.toLower == "count" && some v == var
  | _ => false

/-- `count_distinct_property`. -/
def countDistinctProperty : Expr → Option String
  | .function name true (.args [e]) => if name.toLower = "count" then nodeProperty var e else none
  | _ => none

/-- What the items of a grouped `RETURN` are. -/
structure GroupedItems where
  group : Option (Nat × String) := none
  plain : Option Nat := none
  distinct : Option (Nat × String) := none

/-- The classification of `try_grouped_index_fast_path`, item by item. -/
def classifyGrouped (acc : GroupedItems) (it : ProjItem Expr × Nat) : Option GroupedItems :=
  match nodeProperty var it.1.expr with
  | some p => if acc.group.isSome then none else some { acc with group := some (it.2, p) }
  | none =>
    if isCountOf var it.1.expr then
      if acc.plain.isSome || acc.distinct.isSome then none
      else some { acc with plain := some it.2 }
    else match countDistinctProperty var it.1.expr with
      | some p =>
        if acc.plain.isSome || acc.distinct.isSome then none
        else some { acc with distinct := some (it.2, p) }
      | none => if isConstant it.1.expr then some acc else none

/-- The recognised query: the label, the property, the grouping column if there is one, and the
count column. -/
structure GroupedShape where
  label : String
  property : String
  groupIdx : Option Nat
  countIdx : Nat

def groupedShape (sq : SingleQuery Clause) : Option GroupedShape :=
  match sq.reading with
  | [.match mc] =>
    match mc.patterns with
    | [pat] =>
      if mc.optional || mc.where.isSome || !pat.rels.isEmpty || pat.segments.isSome ||
          !pat.start.props.isEmpty || sq.ret.body.star || sq.ret.body.items.isEmpty then none
      else do
        let label ← pat.start.labelExpr.bind LabelExpr.asSingleAtom
        let items ← sq.ret.body.items.zipIdx.foldlM (classifyGrouped pat.start.var) {}
        match items with
        | ⟨some (gi, p), some ci, none⟩ => some ⟨label, p, some gi, ci⟩
        | ⟨none, none, some (ci, p)⟩ => some ⟨label, p, none, ci⟩
        | _ => none
    | _ => none
  | _ => none

namespace Session

variable (s : Session) (distinctEndpoint : Bool)

/-- `order_skip_limit_no_input`. -/
def orderSkipLimit (body : ProjectionBody Expr) (cols : List String)
    (rows : List (List Val)) : Except Failure (List (List Val)) := do
  let rows ← orderRows (s.lang distinctEndpoint) ⟨[], []⟩ body cols false rows
  sliceRows (s.lang distinctEndpoint) body rows

/-- The groups of an index, with the nodes that lack the property as the null group. -/
def indexGroups (groups : List (Value × Nat)) (total : Nat) : List (Val × Nat) :=
  let nullCount := total - (groups.map (·.2)).sum
  groups.map (fun g => (Val.fromValue g.1, g.2)) ++ if 0 < nullCount then [(.null, nullCount)] else []

/-- The rows of `try_grouped_index_fast_path`, before they are ordered. -/
def groupedRows (items : List (ProjItem Expr)) (shape : GroupedShape)
    (groups : List (Value × Nat)) (total : Nat) : Except Failure (List (List Val)) :=
  match shape.groupIdx with
  | none => do
    let row ← s.constantRow distinctEndpoint items fun i =>
      if i = shape.countIdx then some (.int (Int64.ofNat groups.length)) else none
    pure [row]
  | some groupIdx =>
    (indexGroups groups total).mapM fun g => s.constantRow distinctEndpoint items fun i =>
      if i = groupIdx then some g.1
      else if i = shape.countIdx then some (.int (Int64.ofNat g.2))
      else none

/-- `try_grouped_index_fast_path`. -/
def tryGroupedIndexFastPath (sq : SingleQuery Clause) : Except Failure (Option Table) :=
  match groupedShape sq with
  | none => .ok none
  | some shape =>
    match s.view.rangeIndexes.find? fun ri =>
        some ri.name == s.view.indexFor [shape.label] shape.property with
    | none => .ok none
    | some ri =>
      match s.view.labelId shape.label with
      | none => if shape.groupIdx.isSome then .ok none else answer shape ri 0
      | some lid => answer shape ri (s.view.labelNodeCount lid)
where
  answer (shape : GroupedShape) (ri : RangeIndex) (total : Nat) : Except Failure (Option Table) := do
    let body := sq.ret.body
    let cols := s.itemNames body.items
    let rows ← s.groupedRows distinctEndpoint body.items shape ri.keyCounts total
    let rows ← s.orderSkipLimit distinctEndpoint body cols rows
    pure (some ⟨cols, rows⟩)

end Session

/-! ## Queries -/

namespace Executor

variable (x : Executor)

/-- The fast paths of `run_single`, in their order. The metadata paths answer a `RETURN` that is
`DISTINCT` or holds a count. -/
def fastPath (flag : Bool) (sq : SingleQuery Clause) : Except Failure (Option Table) := do
  let answered ←
    if sq.ret.distinct || sq.ret.body.items.any fun it => it.expr.containsAggregateAt x.depth then
      x.metadata sq
    else pure none
  match answered with
  | some t => pure (some t)
  | none =>
    let grouped ←
      if x.view.deltaEmpty && x.view.singleton then x.tryGroupedIndexFastPath flag sq
      else pure none
    match grouped with
    | some t => pure (some t)
    | none => x.tryCountWalkFastPath flag sq

/-- `run_single`. -/
def runSingle (sq : SingleQuery Clause) : QueryM Table := do
  let flag ← get
  match ← StateT.lift (x.fastPath flag sq) with
  | some t => pure t
  | none => x.runSingleSeeded Table.singleton sq

/-- The loop of `run_inner` over the parts of a union. -/
def runParts (result : Table) : List (Bool × SingleQuery Clause) → QueryM Table
  | [] => pure result
  | (unionAll, part) :: tail => do
    let next ← x.runSingle part
    let result ← StateT.lift (unionStep
      "all parts of a UNION must return the same number of columns" result unionAll next)
    runParts result tail

/-- `run_inner`, in the state the engine was left in. -/
def runFrom (q : Query Clause) : QueryM Table := do
  let result ← x.runSingle q.head
  x.runParts result q.tail

/-- **`run`**, on a fresh engine. The cell for pruned ends starts unset and is carried from part
to part, as the source never resets it. -/
def runQuery (q : Query Clause) : Except Failure Table := do
  let (t, _) ← (x.runFrom q).run false
  pure t

end Executor

end Slater
