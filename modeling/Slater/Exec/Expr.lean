import Slater.Exec.Scope

/-!
# The read query language

The abstract syntax of `slater/src/parser.rs`: patterns, expressions, clauses and queries. Patterns
are parametrised by the expressions they hold, so that expressions can hold patterns in turn.

How a text becomes a tree is not modelled: every tree of these types is taken for a query, also those that the
parser never builds.
-/

namespace Slater

/-! ## Patterns -/

/-- A boolean expression over labels or relationship types. -/
inductive LabelExpr where
  | atom (name : String)
  | and (l r : LabelExpr)
  | or (l r : LabelExpr)
  | not (e : LabelExpr)
  deriving DecidableEq, Repr

namespace LabelExpr

/-- `as_single_atom`. -/
def asSingleAtom : LabelExpr → Option String
  | .atom a => some a
  | _ => none

/-- `positive_atoms`: the names of a single atom or of a tree of alternatives. -/
def positiveAtoms : LabelExpr → Option (List String)
  | .atom a => some [a]
  | .or l r => (positiveAtoms l).bind fun as => (positiveAtoms r).map (as ++ ·)
  | .and .. | .not _ => none

/-- `required_atoms`: the atoms every node of the expression must carry. -/
def requiredAtoms : LabelExpr → List String
  | .atom a => [a]
  | .and l r => requiredAtoms l ++ requiredAtoms r
  | .or .. | .not _ => []

/-- `LabelExpr::eval`. -/
def eval (present : String → Bool) : LabelExpr → Bool
  | .atom a => present a
  | .and l r => eval present l && eval present r
  | .or l r => eval present l || eval present r
  | .not e => !eval present e

end LabelExpr

inductive Direction where
  | outgoing
  | incoming
  | undirected
  deriving DecidableEq, Repr

/-- `flip_dir`. -/
def Direction.flip : Direction → Direction
  | .outgoing => .incoming
  | .incoming => .outgoing
  | .undirected => .undirected

@[simp] theorem Direction.flip_flip (d : Direction) : d.flip.flip = d := by
  cases d <;> rfl

/-- `*min..max`; either side may be absent. -/
structure VarLength where
  min : Option Nat
  max : Option Nat
  deriving DecidableEq, Repr

structure NodePat (ε : Type) where
  var : Option String := none
  labelExpr : Option LabelExpr := none
  props : List (String × ε) := []
  deriving Repr

/-- `required_labels`. -/
def NodePat.requiredLabels {ε : Type} (n : NodePat ε) : List String :=
  n.labelExpr.elim [] LabelExpr.requiredAtoms

structure RelPat (ε : Type) where
  var : Option String := none
  dir : Direction
  typeExpr : Option LabelExpr := none
  varLength : Option VarLength := none
  props : List (String × ε) := []
  deriving Repr

inductive PathRestrictor where
  | walk
  | trail
  | acyclic
  | simple
  deriving DecidableEq, Repr

/-- The parser refuses `SHORTEST 0`. -/
inductive PathSelector where
  | anyShortest
  | allShortest
  | shortestK (k : Nat) (pos : 0 < k)
  deriving DecidableEq, Repr

/-- One element of a quantified pattern. -/
inductive Segment (ε : Type) where
  | hop (rel : RelPat ε) (node : NodePat ε)
  | quantified (inner : List (RelPat ε × NodePat ε)) (bounds : VarLength) (exit : NodePat ε)
  deriving Repr

structure Pattern (ε : Type) where
  pathVar : Option String := none
  start : NodePat ε
  rels : List (RelPat ε × NodePat ε) := []
  segments : Option (List (Segment ε)) := none
  restrictor : Option PathRestrictor := none
  selector : Option PathSelector := none
  deriving Repr

/-! ## Expressions -/

inductive BinOp where
  | add | sub | mul | div | mod | pow
  deriving DecidableEq, Repr

inductive CmpOp where
  | eq | ne | lt | le | gt | ge
  deriving DecidableEq, Repr

inductive StrOp where
  | startsWith | endsWith | contains | regex
  deriving DecidableEq, Repr

inductive Quantifier where
  | any | all | none | single
  deriving DecidableEq, Repr

inductive MapProjItem (ε : Type) where
  | allProps
  | property (key : String)
  | literal (key : String) (e : ε)
  deriving Repr

inductive Expr where
  | literal (v : Value)
  | param (name : String)
  | var (name : String)
  | property (base : Expr) (key : String)
  | index (base idx : Expr)
  | slice (base : Expr) («from» «to» : Option Expr)
  | hasLabels (base : Expr) (labels : List String)
  | neg (e : Expr)
  | not (e : Expr)
  | and (parts : List Expr)
  | or (parts : List Expr)
  | xor (parts : List Expr)
  | arith (op : BinOp) (l r : Expr)
  | compare (op : CmpOp) (l r : Expr)
  | stringOp (op : StrOp) (l r : Expr)
  | inList (l r : Expr)
  | isNull (e : Expr) (negated : Bool)
  | case (subject : Option Expr) (whens : List (Expr × Expr)) (els : Option Expr)
  | function (name : String) (distinct : Bool) (args : FuncArgs Expr)
  | list (items : List Expr)
  | map (entries : List (String × Expr))
  | mapProjection (var : String) (items : List (MapProjItem Expr))
  | listPredicate (quant : Quantifier) (var : String) (list : Expr) (predicate : Option Expr)
  | listComprehension (var : String) (list : Expr) (predicate projection : Option Expr)
  | patternComprehension (pattern : Pattern Expr) (predicate : Option Expr) (projection : Expr)
  | reduce (accVar : String) (accInit : Expr) (var : String) (list body : Expr)
  | patternPredicate (pattern : Pattern Expr)
  | existsPatterns (patterns : List (Pattern Expr)) (predicate : Option Expr)
  | shortestPath (pattern : Pattern Expr)
  deriving Repr, Inhabited

namespace Expr

/-- `children`: the immediate sub-expressions an aggregate may hide in. -/
def children : Expr → List Expr
  | .literal _ | .param _ | .var _ => []
  | .property b _ => [b]
  | .index b i => [b, i]
  | .slice b f t => b :: f.toList ++ t.toList
  | .hasLabels b _ => [b]
  | .neg e | .not e => [e]
  | .and xs | .or xs | .xor xs | .list xs => xs
  | .arith _ l r | .compare _ l r | .stringOp _ l r | .inList l r => [l, r]
  | .isNull e _ => [e]
  | .case subject whens els => subject.toList ++ whens.flatMap (fun w => [w.1, w.2]) ++ els.toList
  | .function _ _ .star => []
  | .function _ _ (.args es) => es
  | .map entries => entries.map (·.2)
  | .mapProjection _ items => items.filterMap fun
    | .literal _ e => some e
    | _ => none
  | .listPredicate _ _ xs predicate => xs :: predicate.toList
  | .listComprehension _ xs predicate projection => xs :: predicate.toList ++ projection.toList
  | .patternComprehension _ predicate projection => projection :: predicate.toList
  | .reduce _ init _ xs body => [init, xs, body]
  | .patternPredicate _ => []
  | .existsPatterns _ predicate => predicate.toList
  | .shortestPath _ => []

end Expr

/-! ## Clauses and queries -/

structure MatchClause where
  «optional» : Bool := false
  patterns : List (Pattern Expr)
  «where» : Option Expr := none
  deriving Repr

end Slater
