import Slater.Lib.OrdMap
import Slater.Exec.Scope
import Slater.Exec.ValOrder

/-!
# Projection

`project` of `slater/src/exec/project.rs`: the projection of a `RETURN` or a `WITH`, its grouping and
aggregates, `DISTINCT`, the filter of a `WITH`, and `ORDER BY`, `SKIP` and `LIMIT`. The passes run in
the order the source runs them. A `BTreeSet` or `BTreeMap` of the source is an `OrdMap` under the
same comparison. The intermediate budget is left out: it only turns a large result into an error.

Everything is stated over an `ExprLang`, so it holds for every expression language.
-/

namespace Slater

inductive SortDir where
  | asc
  | desc
  deriving DecidableEq, Repr

/-- A descending key reverses the comparison. -/
def SortDir.orient : SortDir → Ordering → Ordering
  | .asc, ord => ord
  | .desc, ord => ord.swap

structure ProjItem (ε : Type) where
  expr : ε
  «alias» : Option String := none
  deriving Repr

structure ProjectionBody (ε : Type) where
  star : Bool := false
  items : List (ProjItem ε)
  orderBy : List (ε × SortDir) := []
  skip : Option ε := none
  limit : Option ε := none
  deriving Repr

/-- `cmp_sort_keys`. -/
def cmpSortKeys : List (Val × SortDir) → List (Val × SortDir) → Ordering
  | (a, dir) :: as, (b, _) :: bs =>
    (dir.orient (a.cmpTotal b)).then (cmpSortKeys as bs)
  | _, _ => .eq

/-! ## Distinct rows and groups -/

/-- `retain(|r| seen.insert(key(r)))` with a set ordered by `cmp_total`. -/
def retainNew {α : Type} (key : α → List Val) (seen : List (List Val × Unit)) : List α → List α
  | [] => []
  | r :: rs =>
    match OrdMap.find Val.cmpItems (key r) seen with
    | some () => retainNew key seen rs
    | none => r :: retainNew key (OrdMap.upsert Val.cmpItems (key r) (fun _ => ()) seen) rs

/-- `dedup_rows`. The first row of each class is kept, in the order of the rows. -/
def dedupRows (rows : List (List Val)) : List (List Val) := retainNew id [] rows

/-- `dedup_vals`. -/
def dedupVals (vals : List Val) : List Val := retainNew (fun v => [v]) [] vals

/-- The grouping loop of `project_aggregated` and of `project_aggregated_par`: the indices of
the rows of each key, in ascending order of the keys. -/
def groupRows (keys : List (List Val)) : List (List Val × List Nat) :=
  keys.zipIdx.foldl (fun groups p => OrdMap.upsert Val.cmpItems p.1 (fun old => old.getD [] ++ [p.2]) groups) []

/-- An aggregation with no rows and no grouping key still has one group. -/
def groupsOf (keyed : Bool) (keys : List (List Val)) : List (List Nat) :=
  match groupRows keys with
  | [] => if keyed then [] else [[]]
  | groups => groups.map (·.2)

/-! ## Aggregates -/

/-- `is_aggregate`. -/
def isAggregate (name : String) : Bool :=
  name.toLower ∈ ["count", "sum", "avg", "min", "max", "collect", "stdev", "stdevp",
    "percentilecont", "percentiledisc"]

def isPercentile (lname : String) : Bool := lname == "percentilecont" || lname == "percentiledisc"

variable {ε : Type} (L : ExprLang ε)

/-- `reduce_agg`. -/
def reduceAgg (lname : String) (vals : List Val) : Except Failure Val :=
  if lname = "count" then .ok (.int (Int64.ofNat vals.length))
  else if lname = "collect" then .ok (.list vals)
  else if lname = "min" then
    .ok ((vals.tail.foldl (fun a b => if a.cmpTotal b ≠ .gt then a else b) (vals.headD .null)))
  else if lname = "max" then
    .ok ((vals.tail.foldl (fun a b => if a.cmpTotal b ≠ .lt then a else b) (vals.headD .null)))
  else L.numericAgg lname vals

/-- The values an aggregate reduces: nulls dropped, then deduplicated under `DISTINCT`. -/
def aggInput (distinct : Bool) (vals : List Val) : List Val :=
  let kept := vals.filter (· ≠ .null)
  bif distinct then dedupVals kept else kept

variable (t : Table)

def Table.rowAt (i : Nat) : List Val := t.rows.getD i []

/-- The constant of a `percentile*` aggregate: a number of the unit interval. -/
def percentileArg (name : String) (v : Val) : Except Failure UInt64 :=
  match v.num with
  | none => .error s!"{name}() percentile must be a number"
  | some p =>
    -- `-0.0`, or any pattern from `0.0` up to `1.0`
    if p = 0x8000000000000000 ∨ p ≤ 0x3FF0000000000000 then .ok p
    else .error "Percentile value must be in the range 0 to 1"

/-- `compute_aggregate`. -/
def computeAggregate (c : Call ε) (t : Table) (indices : List Nat) : Except Failure Val :=
  let lname := c.name.toLower
  match c.args with
  | .star =>
    if lname = "count" then .ok (.int (Int64.ofNat indices.length))
    else .error s!"aggregate {c.name} expects an argument"
  | .args es => do
    let percentile ←
      if isPercentile lname then
        match es with
        | [_, p] => do
          let scope := match indices with
            | i :: _ => Scope.row t.cols (t.rowAt i)
            | [] => Scope.empty
          let v ← L.evalPlain p scope
          let p ← percentileArg c.name v
          pure (some p)
        | _ => .error s!"{c.name}() expects exactly two arguments"
      else
        match es with
        | [_] => pure none
        | _ => .error s!"aggregate {c.name} expects exactly one argument"
    match es with
    | [] => .error s!"aggregate {c.name} expects exactly one argument"
    | arg :: _ => do
      let vals ← indices.mapM fun i => L.evalPlain arg (.row t.cols (t.rowAt i))
      let input := aggInput c.distinct vals
      match percentile with
      | some p => L.percentile lname input p
      | none => reduceAgg L lname input

/-! ## Projecting rows -/

variable (items : List (ε × String))

/-- `project_simple`. -/
def projectSimple : Except Failure (List (List Val)) :=
  t.rows.mapM fun row => items.mapM fun it => L.evalPlain it.1 (.row t.cols row)

/-- The grouping key of a row: the values of the items without an aggregate. A row whose key
cannot be evaluated fails the whole aggregation. -/
def groupKey (row : List Val) : Except Failure (List Val) :=
  (items.filter fun it => !L.containsAggregate it.1).mapM fun it =>
    L.evalPlain it.1 (.row t.cols row)

/-- One output row of a group. The items without an aggregate are read from the group's first
row. -/
def groupRow (indices : List Nat) : Except Failure (List Val) :=
  let rep := match indices with
    | i :: _ => t.rowAt i
    | [] => []
  items.mapM fun it =>
    if L.containsAggregate it.1 then do
      let vals ← (L.aggregates it.1).mapM fun c => computeAggregate L c t indices
      L.eval it.1 (.row t.cols rep) (some vals)
    else L.evalPlain it.1 (.row t.cols rep)

/-- The sequential body of `project_aggregated`. -/
def projectAggregatedSeq : Except Failure (List (List Val)) := do
  let keys ← t.rows.mapM (groupKey L t items)
  let keyed := items.any fun it => !L.containsAggregate it.1
  (groupsOf keyed keys).mapM (groupRow L t items)

/-- One output item of the parallel aggregation; `slot` indexes the values read per row. -/
inductive AggItem where
  | group (slot : Nat)
  | countStar
  | agg (name : String) (distinct : Bool) (slot : Nat)
  deriving Repr

/-- `plan_par_aggregation`: the expressions to read per row, and what to do with them. -/
def planParAggregation : List (ε × String) → List ε → List AggItem → Option (List ε × List AggItem)
  | [], slots, plan => some (slots, plan)
  | it :: items, slots, plan =>
    if L.containsAggregate it.1 then
      match L.asCall it.1 with
      | none => none
      | some c =>
        if !isAggregate c.name then none
        else
          match c.args with
          | .star =>
            if c.name.toLower ≠ "count" then none
            else planParAggregation items slots (plan ++ [.countStar])
          | .args [a] =>
            if isPercentile c.name.toLower || !L.simpleReadable a then none
            else planParAggregation items (slots ++ [a])
              (plan ++ [.agg c.name.toLower c.distinct slots.length])
          | .args _ => none
    else if !L.simpleReadable it.1 then none
    else planParAggregation items (slots ++ [it.1]) (plan ++ [.group slots.length])

/-- One output row of a group of the parallel aggregation. -/
def parGroupRow (plan : List AggItem) (cells : List (List Val)) (indices : List Nat) : Except Failure (List Val) :=
  let cell (i slot : Nat) : Val := (cells.getD i []).getD slot .null
  plan.mapM fun
    | .group slot => .ok (cell (indices.headD 0) slot)
    | .countStar => .ok (.int (Int64.ofNat indices.length))
    | .agg name distinct slot => reduceAgg L name (aggInput distinct (indices.map (cell · slot)))

def groupSlots (plan : List AggItem) : List Nat :=
  plan.filterMap fun
    | .group slot => some slot
    | _ => none

/-- `project_aggregated_par`. -/
def projectAggregatedPar (slots : List ε) (plan : List AggItem) : Except Failure (List (List Val)) := do
  let cells ← t.rows.mapM fun row => slots.mapM fun e => L.evalSimple e t.cols row
  let keys := cells.map fun row => (groupSlots plan).map fun s => row.getD s .null
  (groupsOf (groupSlots plan ≠ []) keys).mapM (parGroupRow L plan cells)

/-- `AGG_PAR_MIN`. -/
def aggParMin : Nat := 64

/-- `project_aggregated`; `pool` says that the engine has a fan-out pool. -/
def projectAggregated (pool : Bool) (t : Table) (items : List (ε × String)) : Except Failure (List (List Val)) :=
  if pool && decide (aggParMin ≤ t.rows.length) then
    match planParAggregation L items [] [] with
    | some (slots, plan) =>
      if slots.isEmpty then projectAggregatedSeq L t items
      else projectAggregatedPar L t slots plan
    | none => projectAggregatedSeq L t items
  else projectAggregatedSeq L t items

/-! ## The clause -/

/-- The projected expressions and their column names; `*` stands for the columns in scope. -/
def projectionItems (cols : List String) (body : ProjectionBody ε) : List (ε × String) :=
  (bif body.star then cols.map fun c => (L.var c, c) else []) ++
    body.items.map fun it => (it.expr, it.alias.getD (L.exprName it.expr))

/-- `eval_count`. -/
def evalCount (e : ε) : Except Failure Nat := do
  match ← L.evalPlain e .empty with
  | .int n =>
    if 0 ≤ n.toInt then pure n.toInt.toNat
    else throw ("SKIP/LIMIT must be a non-negative integer, got " ++ L.debug (.int n))
  | other => throw ("SKIP/LIMIT must be a non-negative integer, got " ++ L.debug other)

/-- A row passes a predicate. -/
def passes (w : ε) (cols : List String) (r : List Val) : Except Failure Bool := do
  return (← L.evalPlain w (.row cols r)).truthy

/-- The rows that pass `WITH … WHERE`. -/
def filterRows (w : Option ε) (cols : List String) (rows : List (List Val)) : Except Failure (List (List Val)) :=
  match w with
  | none => .ok rows
  | some w => rows.filterM (passes L w cols)

/-- What a sort key is evaluated in; `input` is the input row whose columns it may read as
well. -/
def sortScope (cols : List String) (r : List Val) (input : Option (List String × List Val)) : Scope :=
  match input with
  | some (inCols, inRow) => .merge (.row cols r) (.row inCols inRow)
  | none => .row cols r

/-- The sort keys of a row. -/
def sortKey (orderBy : List (ε × SortDir)) (cols : List String) (r : List Val)
    (input : Option (List String × List Val)) : Except Failure (List (Val × SortDir)) :=
  orderBy.mapM fun k => do
    let v ← L.evalPlain k.1 (sortScope cols r input)
    pure (v, k.2)

/-- `keyed.sort_by(cmp_sort_keys)`, which is stable. -/
def sortKeyed (keyed : List (List (Val × SortDir) × List Val)) : List (List (Val × SortDir) × List Val) :=
  keyed.insertionSort fun a b => cmpSortKeys a.1 b.1 ≠ .gt

/-- `ORDER BY`. The input columns are visible to the keys only while `withInput` says that the
rows still correspond to the input rows, row by row. -/
def orderRows (body : ProjectionBody ε) (cols : List String) (withInput : Bool)
    (rows : List (List Val)) : Except Failure (List (List Val)) :=
  if body.orderBy.isEmpty then .ok rows
  else do
    let keyed ← rows.zipIdx.mapM fun p => do
      let keys ← sortKey L body.orderBy cols p.1
        (bif withInput then some (t.cols, t.rowAt p.2) else none)
      pure (keys, p.1)
    pure ((sortKeyed keyed).map (·.2))

/-- `SKIP`. -/
def skipRows (skip : Option ε) (rows : List (List Val)) : Except Failure (List (List Val)) :=
  match skip with
  | some e => do
    let n ← evalCount L e
    pure (rows.drop n)
  | none => pure rows

/-- `LIMIT`. -/
def limitRows (limit : Option ε) (rows : List (List Val)) : Except Failure (List (List Val)) :=
  match limit with
  | some e => do
    let n ← evalCount L e
    pure (rows.take n)
  | none => pure rows

/-- `SKIP`, then `LIMIT`. -/
def sliceRows (body : ProjectionBody ε) (rows : List (List Val)) : Except Failure (List (List Val)) := do
  let rows ← skipRows L body.skip rows
  limitRows L body.limit rows

/-- The projected rows, deduplicated under `DISTINCT`. -/
def projectedRows (pool : Bool) (t : Table) (body : ProjectionBody ε) (distinct : Bool) :
    Except Failure (List (List Val)) := do
  let items := projectionItems L t.cols body
  let rows ← if items.any fun it => L.containsAggregate it.1 then projectAggregated L pool t items
    else projectSimple L t items
  pure (bif distinct then dedupRows rows else rows)

/-- `project`. -/
def project (pool : Bool) (t : Table) (body : ProjectionBody ε) (distinct : Bool)
    (postWhere : Option ε) : Except Failure Table := do
  let items := projectionItems L t.cols body
  let outCols := items.map (·.2)
  let aggregating := items.any fun it => L.containsAggregate it.1
  let rows ← projectedRows L pool t body distinct
  let rows ← filterRows L postWhere outCols rows
  let rows ← orderRows L t body outCols (!aggregating && rows.length == t.rows.length) rows
  let rows ← sliceRows L body rows
  pure ⟨outCols, rows⟩

end Slater
