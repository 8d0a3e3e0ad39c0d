import Slater.Exec.Val

/-!
# Scopes, tables and what the executor asks of expressions

A binding is the matcher's `HashMap<String, Val>`; only lookups and single insertions of it are ever
used, so it is its lookup function. A `Scope` is what an expression is evaluated in: a binding, a
row under its columns, one variable layered over a scope, or two scopes of which the first wins.
The source reads a `Row` by the first column of a name and flattens it with the last; both are kept.

Clauses, projections and the matcher use an expression only through a few questions. `ExprLang` is
that interface. The laws that do not depend on what expressions are hold for any instance of it.
-/

namespace Slater

/-- An error message of the executor. -/
abbrev Failure := String

/-- `HashMap<String, Val>`. -/
abbrev Binding := String → Option Val

namespace Binding

def empty : Binding := fun _ => none

variable (b : Binding)

def insert (name : String) (v : Val) : Binding :=
  fun n => if n = name then some v else b n

/-- `Option<String>` variables: nothing is bound for an anonymous element. -/
def insert? (name : Option String) (v : Val) : Binding :=
  match name with
  | some n => b.insert n v
  | none => b

@[simp] theorem insert_self (n : String) (v : Val) : b.insert n v n = some v :=
  if_pos rfl

theorem insert_of_ne {n name : String} (h : n ≠ name) (v : Val) : b.insert name v n = b n := if_neg h

@[simp] theorem insert?_none (v : Val) : b.insert? none v = b := rfl

@[simp] theorem insert?_some (n : String) (v : Val) : b.insert? (some n) v = b.insert n v := rfl

/-- The zip of a row under its columns; a later column of one name overwrites an earlier one. -/
def ofRow : List String → List Val → Binding → Binding
  | c :: cs, v :: vs, b => ofRow cs vs (b.insert c v)
  | _, _, b => b

end Binding

/-- A variable lookup for expression evaluation. -/
inductive Scope where
  | empty
  | map (b : Binding)
  | row (cols : List String) (vals : List Val)
  | layer (parent : Scope) (name : String) (v : Val)
  | merge (a b : Scope)

namespace Scope

/-- `Scope::get`. -/
def get : Scope → String → Option Val
  | .empty, _ => none
  | .map b, name => b name
  | .row cols vals, name => (cols.idxOf? name).bind fun i => vals[i]?
  | .layer parent n v, name => if n = name then some v else parent.get name
  | .merge a b, name => (a.get name).or (b.get name)

/-- `Scope::collect_into`. -/
def collectInto : Scope → Binding → Binding
  | .empty, out => out
  | .map b, out => fun name => (b name).or (out name)
  | .row cols vals, out => Binding.ofRow cols vals out
  | .layer parent n v, out => (parent.collectInto out).insert n v
  | .merge a b, out => a.collectInto (b.collectInto out)

/-- `Scope::to_binding`: what seeds a nested match. -/
def toBinding (s : Scope) : Binding := s.collectInto Binding.empty

end Scope

/-- An intermediate relation. A column may occur twice; which one a name means is said where it
is read. -/
structure Table where
  cols : List String
  rows : List (List Val)
  deriving DecidableEq, Repr, Inhabited

namespace Table

/-- The seed relation: one empty row. -/
def singleton : Table := ⟨[], [[]]⟩

end Table

/-- Arguments of a function call. -/
inductive FuncArgs (ε : Type) where
  | star
  | args (es : List ε)
  deriving Repr

/-- A function call, as an aggregation reads it. -/
structure Call (ε : Type) where
  name : String
  distinct : Bool
  args : FuncArgs ε
  deriving Repr

/-- What projections ask of expressions. Evaluation may fail; which error it raises is part of
the answer. Nothing is asked of an instance, so a law about it holds whatever the functions of
the language do. -/
structure ExprLang (ε : Type) where
  /-- `eval`, with the values of the aggregates of a group for the cursor. -/
  eval : ε → Scope → Option (List Val) → Except Failure Val
  /-- `contains_aggregate`. -/
  containsAggregate : ε → Bool
  /-- `collect_aggregates`, in pre-order. -/
  aggregates : ε → List (Call ε)
  /-- The call an expression is, when it is one. -/
  asCall : ε → Option (Call ε)
  /-- `simple_readable`. -/
  simpleReadable : ε → Bool
  /-- `eval_simple`, what a pool worker evaluates over a row. -/
  evalSimple : ε → List String → List Val → Except Failure Val
  /-- `expr_name`. -/
  exprName : ε → String
  /-- `Debug` of a value. -/
  debug : Val → String
  /-- `Expr::Var`, what `*` expands to. -/
  var : String → ε
  /-- The aggregates that compute with numbers: `sum`, `avg`, `stdev`, `stdevp`. -/
  numericAgg : String → List Val → Except Failure Val
  /-- `percentile_cont` and `percentile_disc`, given the bits of the percentile. -/
  percentile : String → List Val → UInt64 → Except Failure Val

/-- Evaluation outside an aggregation. -/
def ExprLang.evalPlain {ε : Type} (L : ExprLang ε) (e : ε) (s : Scope) : Except Failure Val :=
  L.eval e s none

/-- The loop over inline properties shared by `node_ok` and `rel_ok`: each value is evaluated,
the stored one read, and the two must be definitely equal. -/
def propsOk {ε : Type} {m : Type → Type} [Monad m] (eval : ε → m Val) (read : String → m Val) :
    List (String × ε) → m Bool
  | [] => pure true
  | (k, e) :: props => do
    let want ← eval e
    let got ← read k
    if got.looseEq want = some true then propsOk eval read props else pure false

end Slater
