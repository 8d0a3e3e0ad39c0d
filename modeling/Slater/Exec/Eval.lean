import Slater.Exec.Project
import Slater.Exec.Shortest
import Slater.Exec.Traverse

/-!
# Evaluating expressions

`slater/src/exec/eval.rs`. An expression is evaluated in a scope, against the view of the query. It
may hold patterns, and matching a pattern evaluates expressions again: a nested match runs on the
same engine, in the mode the engine is in. So the evaluator is one layer, `evalStep`, over an
evaluator for what lies below, and `evalAt` stacks the layers. How many there are is a parameter of
the session: the parser bounds the nesting of a query but not the length of an operator chain, so
the stack of the process is what bounds the recursion.

The values of the aggregates of a group are a cursor that every aggregate call advances. It is the
state of `EvalM`; a nested match evaluates without one.

What an arithmetic operator, a string operator or a named function computes from its arguments is
left to `Scalars`. Nothing here depends on it, except that it is a function of the arguments.

**What it does not establish.** A layer that runs out of depth fails, which no statement about a value depends on.
That the source answers within its stack is not shown.
-/

namespace Slater

open MonadExcept

/-- The scalar computations. `display` is `to_display`, what error messages show of a value. -/
structure Scalars where
  /-- `call_function`, for functions that are not aggregates and read no clock and no
  randomness. -/
  call : String → List Val → Except Failure Val
  arith : BinOp → Val → Val → Except Failure Val
  stringOp : StrOp → Val → Val → Except Failure Val
  slice : Val → Val → Val → Except Failure Val
  /-- A component of a temporal value. -/
  component : Val → String → Except Failure Val
  /-- `f32 as f64`. -/
  widen : UInt32 → UInt64
  display : Val → String
  /-- The derived `Debug` of a value, which the error of `eval_count` shows. -/
  debug : Val → String
  numericAgg : String → List Val → Except Failure Val
  percentile : String → List Val → UInt64 → Except Failure Val

/-- What an engine is built from. The view, the parameters and the functions of a query do not
change while it runs. -/
structure Session where
  view : View
  params : String → Option Val
  /-- A fan-out pool is configured. -/
  pool : Bool
  /-- `is_hub`. -/
  isHub : Nat → Direction → Bool
  scalars : Scalars
  /-- How deep a walk over an expression may recurse. -/
  depth : Nat

/-- The mode cells of an engine. -/
structure Mode (m : Type → Type) where
  distinctEndpoint : Bool
  counting : Bool
  addCount : Nat → m Unit

/-- Evaluation with a cursor over the aggregates of a group. -/
abbrev EvalM (m : Type → Type) := StateT (Option (List Val)) m

/-! ## Values -/

/-- `comparable`: the order of two operands of `<`, when they have one. -/
def comparable : Val → Val → Option Ordering
  | .str a, .str b => some (compare a b)
  | .bool a, .bool b => some (compare a b)
  | .date a, .date b | .time a, .time b | .dateTime a, .dateTime b | .duration a, .duration b =>
    some (compare a.toInt b.toInt)
  | a, b => if a.num.isSome && b.num.isSome then some (a.cmpTotal b) else none

/-- `compare`. -/
def compareVals (op : CmpOp) (a b : Val) : Val :=
  match op with
  | .eq => (a.looseEq b).elim .null .bool
  | .ne => (a.looseEq b).elim .null fun e => .bool !e
  | .lt => ordered (· == .lt)
  | .le => ordered (· != .gt)
  | .gt => ordered (· == .gt)
  | .ge => ordered (· != .lt)
where
  ordered (test : Ordering → Bool) : Val :=
    if a = .null ∨ b = .null then .null
    else (comparable a b).elim .null fun ord => .bool (test ord)

/-- `in_list`. -/
def inList (needle : Val) : Val → Val
  | .list xs =>
    if xs.any fun x => needle.looseEq x == some true then .bool true
    else if xs.any fun x => needle.looseEq x == none then .null
    else .bool false
  | _ => .null

/-- `list_index`. -/
def listIndex (len : Nat) (i : Int64) : Option Nat :=
  let idx := if i.toInt < 0 then len + i.toInt else i.toInt
  if idx < 0 ∨ len ≤ idx then none else some idx.toNat

/-- The negation of a float: its sign bit flipped. -/
def negFloat (bits : UInt64) : UInt64 := bits ^^^ 0x8000000000000000

/-- `-e`. -/
def negVal (sc : Scalars) : Val → Except Failure Val
  | .int i =>
    if i = Int64.minValue then
      .error ("integer overflow evaluating `-(-9223372036854775808)`: the result does not fit " ++
        "in a signed 64-bit integer")
    else .ok (.int (-i))
  | .float f => .ok (.float (negFloat f))
  | .null => .ok .null
  | other => .error ("cannot negate " ++ sc.display other)

namespace Session

variable (s : Session)

/-- `property_val`. -/
def propertyVal (base : Val) (key : String) : Except Failure Val :=
  match base with
  | .node id => .ok (s.view.nodeProp id key)
  | .rel id .. => .ok (s.view.edgeProp id key)
  | .map m => .ok ((m.lookup key).getD .null)
  | .point latitude longitude =>
    .ok (if key = "latitude" then .float latitude
      else if key = "longitude" then .float longitude
      else .null)
  | .date _ | .time _ | .dateTime _ | .duration _ => s.scalars.component base key
  | .null => .ok .null
  | other => .error ("type " ++ s.scalars.display other ++ " has no property '" ++ key ++ "'")

/-- `index`. -/
def index (base idx : Val) : Except Failure Val :=
  match base, idx with
  | .null, _ | _, .null => .ok .null
  | .list xs, .int i => .ok (((listIndex xs.length i).bind (xs[·]?)).getD .null)
  | .vector xs, .int i =>
    .ok (((listIndex xs.length i).bind (xs[·]?)).elim .null fun x => .float (s.scalars.widen x))
  | .map m, .str k => .ok ((m.lookup k).getD .null)
  | _, _ => .error ("cannot index " ++ s.scalars.display base ++ " with " ++ s.scalars.display idx)

/-- `has_labels`. -/
def hasLabels (base : Val) (labels : List String) : Except Failure Val :=
  match base with
  | .null => .ok .null
  | .node id =>
    .ok (.bool (labels.all fun l => (s.view.labelId l).any (· ∈ s.view.labelIds id)))
  | other => .error ("cannot test labels on " ++ s.scalars.display other)

/-- `all_properties`. -/
def allProperties (base : Val) : Except Failure (List (String × Val)) :=
  match base with
  | .node id => .ok (s.view.nodeProps id)
  | .rel id .. => .ok (s.view.edgeProps id)
  | .map m => .ok m
  | .null => .ok []
  | other => .error ("type " ++ s.scalars.display other ++ " has no properties")

end Session

/-! ## Composite expressions -/

inductive BoolOp where
  | and | or | xor
  deriving DecidableEq, Repr

section

variable {n : Type → Type} [Monad n] [MonadExceptOf Failure n]

/-- `fold_bool`, from the identity of the operator. -/
def foldBool (op : BoolOp) (ev : Expr → n Val) (acc sawNull : Bool) : List Expr → n Val
  | [] => pure (if sawNull then .null else .bool acc)
  | e :: es => do
    match (← ev e).threeValued, op with
    | none, _ => foldBool op ev acc true es
    | some false, .and => pure (.bool false)
    | some true, .or => pure (.bool true)
    | some b, .xor => foldBool op ev (acc ^^ b) sawNull es
    | some _, _ => foldBool op ev acc sawNull es

/-- The loop of `eval_case`: the first arm whose test holds, else the default. -/
def evalWhens (ev : Expr → n Val) (test : Val → Bool) (els : Option Expr) : List (Expr × Expr) → n Val
  | [] => match els with
    | some e => ev e
    | none => pure .null
  | (w, e) :: whens => do
    let v ← ev w
    if test v then ev e else evalWhens ev test els whens

/-- `eval_case`. -/
def evalCase (ev : Expr → n Val) (subject : Option Expr) (whens : List (Expr × Expr)) (els : Option Expr) : n Val :=
  match subject with
  | some subj => do
    let v ← ev subj
    evalWhens ev (fun cand => v.looseEq cand == some true) els whens
  | none => evalWhens ev Val.truthy els whens

/-- `eval_map_projection`. -/
def evalMapProjection (s : Session) (ev : Expr → n Val) (var : String) (scope : Scope)
    (items : List (MapProjItem Expr)) : n Val := do
  match scope.get var with
  | none => throw ("variable '" ++ var ++ "' is not in scope")
  | some base =>
    let entries ← items.mapM fun
      | .allProps => ofExcept (s.allProperties base)
      | .property p => do
        let v ← ofExcept (s.propertyVal base p)
        pure [(p, v)]
      | .literal k e => do
        let v ← ev e
        pure [(k, v)]
    pure (.map entries.flatten)

variable (sc : Scalars)

/-- The list an iteration runs over; a null list makes the result null. -/
def iterated (needs : String) (v : Val) : n (Option (List Val)) :=
  match v with
  | .list xs => pure (some xs)
  | .null => pure none
  | other => throw (needs ++ sc.display other)

/-- The verdict of `eval_list_predicate` on the truth values of the elements. -/
def quantified (quant : Quantifier) (verdicts : List (Option Bool)) : Val :=
  let isTrue := some true ∈ verdicts
  let isFalse := some false ∈ verdicts
  let isNull := none ∈ verdicts
  match quant with
  | .any => if isTrue then .bool true else if isNull then .null else .bool false
  | .all => if isFalse then .bool false else if isNull then .null else .bool true
  | .none => if isTrue then .bool false else if isNull then .null else .bool true
  | .single => .bool (verdicts.count (some true) == 1)

variable (ev : Expr → Scope → n Val)

/-- `eval_list_predicate`. -/
def evalListPredicate (quant : Quantifier) (var : String)
    (list : Expr) (predicate : Option Expr) (scope : Scope) : n Val := do
  match ← iterated sc "a list predicate needs a list, got " (← ev list scope) with
  | none => pure .null
  | some items =>
    let verdicts ← items.mapM fun item => match predicate with
      | some p => do
        let v ← ev p (.layer scope var item)
        pure v.threeValued
      | none => pure item.threeValued
    pure (quantified quant verdicts)

/-- The predicate of a list comprehension, on one element. -/
def keepsItem (predicate : Option Expr) (inner : Scope) : n Bool :=
  match predicate with
  | some p => do
    let v ← ev p inner
    pure v.truthy
  | none => pure true

/-- The projection of a list comprehension, of one element. -/
def projectItem (projection : Option Expr) (item : Val) (inner : Scope) : n Val :=
  match projection with
  | some e => ev e inner
  | none => pure item

/-- `eval_list_comprehension`. -/
def evalListComprehension (var : String) (list : Expr)
    (predicate projection : Option Expr) (scope : Scope) : n Val := do
  match ← iterated sc "a list comprehension needs a list, got " (← ev list scope) with
  | none => pure .null
  | some items =>
    let out ← items.foldlM (fun out item => do
      let inner := Scope.layer scope var item
      let keep ← keepsItem ev predicate inner
      if keep then do
        let v ← projectItem ev projection item inner
        pure (out ++ [v])
      else pure out) []
    pure (.list out)

/-- `eval_reduce`. -/
def evalReduce (accVar : String) (accInit : Expr)
    (var : String) (list body : Expr) (scope : Scope) : n Val := do
  match ← iterated sc "reduce() needs a list, got " (← ev list scope) with
  | none => pure .null
  | some items => do
    let init ← ev accInit scope
    items.foldlM (fun acc item => ev body (.layer (.layer scope accVar acc) var item)) init

end

/-! ## Nested patterns -/

section

variable {m : Type → Type} [Monad m] [MonadExceptOf Failure m] (eng : Engine m)

/-- The bindings of `eval_pattern_comprehension`. The predicate only helps to choose anchors. -/
def comprehensionBindings (pattern : Pattern Expr) (predicate : Option Expr) (scope : Scope) : m (List Binding) :=
  eng.matchSinglePattern pattern scope.toBinding predicate [] none

/-- The bindings an `EXISTS` tests. -/
def existsBindings (patterns : List (Pattern Expr)) (predicate : Option Expr) (scope : Scope) : m (List Binding) :=
  eng.matchPatterns predicate none patterns scope.toBinding []

/-- A node an end of a `shortestPath` is bound to. -/
def boundNode (scope : Scope) (var : Option String) : m Nat :=
  match var.bind scope.get with
  | some (.node id) => pure id
  | _ => throw "A shortestPath requires bound nodes"

/-- A path in the order of the arrow of its relationship. -/
def arrowOrder (dir : Direction) (path : Val) : Val :=
  match dir, path with
  | .incoming, .path nodes rels => .path nodes.reverse rels.reverse
  | _, path => path

/-- `eval_shortest_path`. -/
def evalShortestPath (pattern : Pattern Expr) (scope : Scope) : m Val := do
  match pattern.rels with
  | [(rel, endNode)] =>
    if !rel.props.isEmpty then
      throw "filters on relationships in shortestPath are not supported"
    else
      let (min, max) := rel.varLength.elim (1, 1) varlenBounds
      if 1 < min then
        throw "shortestPath does not support a minimal length different from 0 or 1"
      else
        let src ← boundNode scope pattern.start.var
        let dst ← boundNode scope endNode.var
        match eng.view.selectPaths rel src dst min max .anyShortest with
        | none => throw "path edge re-derivable from the CSR"
        | some [] => pure .null
        | some (hops :: _) => pure (arrowOrder rel.dir (makePath src hops))
  | _ => throw "shortestPath requires a path containing a single relationship"

end

/-! ## One layer -/

/-- `AggCursor::next`. -/
def nextAggregate {m : Type → Type} [Monad m] [MonadExceptOf Failure m] (name : String) : EvalM m Val := do
  match ← get with
  | some vals => do
    set (some vals.tail)
    pure (vals.headD .null)
  | none => throw ("aggregation '" ++ name ++ "' is not allowed here")

namespace Session

variable (s : Session) {m : Type → Type} [Monad m] [MonadExceptOf Failure m] (mode : Mode m)

/-- The engine of a session, over an evaluator. -/
def engine (ev : Expr → Scope → EvalM m Val) : Engine m where
  view := s.view
  params := s.params
  pool := s.pool
  isHub := s.isHub
  distinctEndpoint := mode.distinctEndpoint
  counting := mode.counting
  addCount := mode.addCount
  eval e scope := (ev e scope).run' none

/-- **`eval`**, over an evaluator for what lies below. One layer evaluates the subexpressions
through `ev`, in the order of the source, so that the error of the leftmost failing one is
raised. -/
def evalStep (ev : Expr → Scope → EvalM m Val) (e : Expr) (scope : Scope) : EvalM m Val :=
  let eng := s.engine mode ev
  let sub (e : Expr) := ev e scope
  match e with
  | .literal v => pure (Val.fromValue v)
  | .param name =>
    match s.params name with
    | some v => pure v
    | none => throw ("parameter $" ++ name ++ " was not supplied")
  | .var name =>
    match scope.get name with
    | some v => pure v
    | none => throw ("variable '" ++ name ++ "' is not in scope")
  | .property base key => do
    let b ← sub base
    ofExcept (s.propertyVal b key)
  | .index base idx => do
    let b ← sub base
    let i ← sub idx
    ofExcept (s.index b i)
  | .slice base lo hi => do
    let b ← sub base
    let f ← lo.elim (pure (.int 0)) sub
    let t ← hi.elim (pure (.int 2147483647)) sub
    ofExcept (s.scalars.slice b f t)
  | .hasLabels base labels => do
    let b ← sub base
    ofExcept (s.hasLabels b labels)
  | .neg e => do
    let v ← sub e
    ofExcept (negVal s.scalars v)
  | .not e => do
    let v ← sub e
    pure (v.threeValued.elim .null fun b => .bool !b)
  | .and parts => foldBool .and sub true false parts
  | .or parts => foldBool .or sub false false parts
  | .xor parts => foldBool .xor sub false false parts
  | .arith op l r => do
    let a ← sub l
    let b ← sub r
    ofExcept (s.scalars.arith op a b)
  | .compare op l r => do
    let a ← sub l
    let b ← sub r
    pure (compareVals op a b)
  | .stringOp op l r => do
    let a ← sub l
    let b ← sub r
    ofExcept (s.scalars.stringOp op a b)
  | .inList l r => do
    let a ← sub l
    let b ← sub r
    pure (inList a b)
  | .isNull e negated => do
    let v ← sub e
    pure (.bool (bif negated then v ≠ .null else v = .null))
  | .case subject whens els => evalCase sub subject whens els
  | .function name _ args =>
    if isAggregate name then nextAggregate name
    else match args with
      | .star => throw ("'" ++ name ++ "(*)' is only valid for count")
      | .args es => do
        let vals ← es.mapM sub
        ofExcept (s.scalars.call name vals)
  | .list items => do
    let vals ← items.mapM sub
    pure (.list vals)
  | .map entries => do
    let vals ← entries.mapM fun kv => do
      let v ← sub kv.2
      pure (kv.1, v)
    pure (.map vals)
  | .mapProjection var items => evalMapProjection s sub var scope items
  | .listPredicate quant var list predicate =>
    evalListPredicate s.scalars ev quant var list predicate scope
  | .listComprehension var list predicate projection =>
    evalListComprehension s.scalars ev var list predicate projection scope
  | .patternComprehension pattern predicate projection => do
    let bindings ← StateT.lift (comprehensionBindings eng pattern predicate scope)
    let vals ← bindings.mapM fun b => ev projection (.map b)
    pure (.list vals)
  | .reduce accVar accInit var list body =>
    evalReduce s.scalars ev accVar accInit var list body scope
  | .patternPredicate pattern => do
    let bindings ← StateT.lift (comprehensionBindings eng pattern none scope)
    pure (.bool !bindings.isEmpty)
  | .existsPatterns patterns predicate => do
    let bindings ← StateT.lift (existsBindings eng patterns predicate scope)
    pure (.bool !bindings.isEmpty)
  | .shortestPath pattern => StateT.lift (evalShortestPath eng pattern scope)

/-- `eval` with a stack of some depth. An expression deeper than the stack fails. -/
def evalAt (mode : Mode m) : Nat → Expr → Scope → EvalM m Val
  | 0, _, _ => throw "stack overflow"
  | depth + 1, e, scope => s.evalStep mode (evalAt mode depth) e scope

/-- The engine a query runs on. -/
def run : Engine m := s.engine mode (s.evalAt mode s.depth)

/-- The mode of an engine that builds rows. -/
def rowMode (distinctEndpoint : Bool) : Mode (Except Failure) where
  distinctEndpoint
  counting := false
  addCount _ := pure ()

/-- The mode of an engine that counts rows. -/
def countMode (distinctEndpoint : Bool) : Mode (StateT Nat (Except Failure)) where
  distinctEndpoint
  counting := true
  addCount k := modify (· + k)

end Session

/-- Scalars that refuse every call, for queries that make none. -/
def Scalars.refusing : Scalars where
  call _ _ := .error "refused"
  arith _ _ _ := .error "refused"
  stringOp _ _ _ := .error "refused"
  slice _ _ _ := .error "refused"
  component _ _ := .error "refused"
  widen _ := 0
  display _ := ""
  debug _ := ""
  numericAgg _ _ := .error "refused"
  percentile _ _ _ := .error "refused"

/-- A session without parameters, pool and hubs. -/
def Session.plain (view : View) : Session where
  view
  params _ := none
  pool := false
  isHub _ _ := false
  scalars := .refusing
  depth := 8

/-! ## Projected expressions -/

namespace Expr

/-- The call an expression is. -/
def asCall : Expr → Option (Call Expr)
  | .function name distinct args => some ⟨name, distinct, args⟩
  | _ => none

/-- The call of an aggregate. -/
def asAggregate (e : Expr) : Option (Call Expr) := e.asCall.filter fun c => isAggregate c.name

/-- `collect_aggregates`. -/
def aggregatesAt : Nat → Expr → List (Call Expr)
  | 0, _ => []
  | depth + 1, e =>
    match e.asAggregate with
    | some c => [c]
    | none => e.children.flatMap (aggregatesAt depth)

/-- `contains_aggregate`: some aggregate is collected. -/
def containsAggregateAt (depth : Nat) (e : Expr) : Bool := !(aggregatesAt depth e).isEmpty

/-- `simple_readable`. -/
def simpleReadable : Expr → Bool
  | .literal _ | .param _ | .var _ => true
  | .property (.var _) _ => true
  | _ => false

/-- `expr_name`. -/
def nameAt (display : Val → String) : Nat → Expr → String
  | 0, _ => "expr"
  | depth + 1, e =>
    match e with
    | .var v => v
    | .property b k => nameAt display depth b ++ "." ++ k
    | .param p => "$" ++ p
    | .function name _ .star => name ++ "(*)"
    | .function name _ (.args es) =>
      name ++ "(" ++ ", ".intercalate (es.map (nameAt display depth)) ++ ")"
    | .literal v => display (Val.fromValue v)
    | _ => "expr"

end Expr

namespace Session

variable (s : Session)

/-- `eval_simple`. -/
def evalSimple (cols : List String) (row : List Val) : Expr → Except Failure Val
  | .literal v => .ok (Val.fromValue v)
  | .param name =>
    match s.params name with
    | some v => .ok v
    | none => .error ("parameter $" ++ name ++ " was not supplied")
  | .var name =>
    match (cols.idxOf? name).bind (row[·]?) with
    | some v => .ok v
    | none => .error ("variable '" ++ name ++ "' is not in scope")
  | .property base key => do
    let b ← evalSimple cols row base
    s.propertyVal b key
  | _ => .error "eval_simple called on a non-simple expression"

/-- The expressions of a query, as projections see them. -/
def lang (distinctEndpoint : Bool) : ExprLang Expr where
  eval e scope aggs := (s.evalAt (rowMode distinctEndpoint) s.depth e scope).run' aggs
  containsAggregate := Expr.containsAggregateAt s.depth
  aggregates := Expr.aggregatesAt s.depth
  asCall := Expr.asCall
  simpleReadable := Expr.simpleReadable
  evalSimple e cols row := s.evalSimple cols row e
  exprName := Expr.nameAt s.scalars.display s.depth
  debug := s.scalars.debug
  var := .var
  numericAgg := s.scalars.numericAgg
  percentile := s.scalars.percentile

end Session

end Slater
