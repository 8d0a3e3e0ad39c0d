import Slater.Lib.Binary64
import Slater.Value

/-!
# Runtime values

`Val` is the value that flows through the executor (`slater/src/exec.rs`): the stored cell extended
with bound nodes, relationships and paths, maps, points and temporals. Two comparisons are defined
on it. `cmpTotal` orders any two values and decides `ORDER BY`, `DISTINCT` and grouping. `looseEq`
is Cypher's three-valued `=`. Both take an integer to the nearest double before they compare it, so
neither tells two integers apart whose images coincide.

Temporal values and points are carried with what the comparisons read of them; arithmetic on them is left to the
scalar functions, which are a parameter of the evaluator.
-/

namespace Slater

open Binary64

/-- A runtime value. Floats hold IEEE bits; a relationship carries the type and the stored end
nodes it was bound with. What a row shows of a node is read from the view when it is asked for,
so a bound node is its id. -/
inductive Val where
  | null
  | bool (b : Bool)
  | int (i : Int64)
  | float (bits : UInt64)
  | str (s : String)
  | list (items : List Val)
  | vector (xs : List UInt32)
  | map (entries : List (String × Val))
  | node (id : Nat)
  | rel (id start «end» reltype : Nat)
  | path (nodes : List Nat) (rels : List Val)
  | point (latitude longitude : UInt64)
  | date (s : Int64)
  | time (s : Int64)
  | dateTime (s : Int64)
  | duration (s : Int64)
  deriving Repr, Inhabited

namespace Val

mutual

/-- Identity of model values. -/
def beq : Val → Val → Bool
  | .null, .null => true
  | .bool a, .bool b => a == b
  | .int a, .int b => a == b
  | .float a, .float b => a == b
  | .str a, .str b => a == b
  | .list a, .list b => beqItems a b
  | .vector a, .vector b => a == b
  | .map a, .map b => beqEntries a b
  | .node a, .node b => a == b
  | .rel a s e t, .rel a' s' e' t' => a == a' && s == s' && e == e' && t == t'
  | .path n r, .path n' r' => n == n' && beqItems r r'
  | .point la lo, .point la' lo' => la == la' && lo == lo'
  | .date a, .date b => a == b
  | .time a, .time b => a == b
  | .dateTime a, .dateTime b => a == b
  | .duration a, .duration b => a == b
  | _, _ => false

def beqItems : List Val → List Val → Bool
  | [], [] => true
  | a :: as, b :: bs => beq a b && beqItems as bs
  | _, _ => false

def beqEntries : List (String × Val) → List (String × Val) → Bool
  | [], [] => true
  | (k, a) :: as, (l, b) :: bs => k == l && beq a b && beqEntries as bs
  | _, _ => false

end

mutual

theorem beq_iff (a b : Val) : beq a b = true ↔ a = b := by
  cases a <;> cases b <;> simp [beq, beqItems_iff, beqEntries_iff, and_assoc]

theorem beqItems_iff : ∀ as bs : List Val, beqItems as bs = true ↔ as = bs
  | [], [] | [], _ :: _ | _ :: _, [] => by simp [beqItems]
  | a :: as, b :: bs => by simp [beqItems, beq_iff a, beqItems_iff as]

theorem beqEntries_iff : ∀ as bs : List (String × Val), beqEntries as bs = true ↔ as = bs
  | [], [] | [], _ :: _ | _ :: _, [] => by simp [beqEntries]
  | (k, a) :: as, (l, b) :: bs => by simp [beqEntries, beq_iff a, beqEntries_iff as]

end

instance : DecidableEq Val := fun a b => decidable_of_iff _ (beq_iff a b)

mutual

/-- `Val::from_value`. -/
def fromValue : Value → Val
  | .null => .null
  | .bool b => .bool b
  | .int i => .int i
  | .float f => .float f
  | .str s => .str s
  | .list xs => .list (fromValues xs)
  | .vector xs => .vector xs

def fromValues : List Value → List Val
  | [] => []
  | v :: vs => fromValue v :: fromValues vs

end

mutual

/-- `val_to_value`: the stored cell a runtime value can be planned with. -/
def toValue : Val → Option Value
  | .null => some .null
  | .bool b => some (.bool b)
  | .int i => some (.int i)
  | .float f => some (.float f)
  | .str s => some (.str s)
  | .vector xs => some (.vector xs)
  | .list xs => (toValues xs).map .list
  | .map _ | .node _ | .rel .. | .path .. | .point .. => none
  | .date _ | .time _ | .dateTime _ | .duration _ => none

def toValues : List Val → Option (List Value)
  | [] => some []
  | v :: vs => (toValue v).bind fun w => (toValues vs).map (w :: ·)

end

/-- `Val::rank`. -/
def rank : Val → Nat
  | .null => 0
  | .bool _ => 1
  | .int _ | .float _ => 2
  | .str _ => 3
  | .list _ => 4
  | .vector _ => 5
  | .map _ => 6
  | .node _ => 7
  | .rel .. => 8
  | .path .. => 9
  | .point .. => 10
  | .date _ => 11
  | .time _ => 12
  | .dateTime _ => 13
  | .duration _ => 14

/-- The double a number is compared as. -/
def num : Val → Option UInt64
  | .int i => some (ofInt64 i)
  | .float f => some f
  | _ => none

/-- The lexicographic comparison of `Vec<T>`: the first difference, then the lengths. -/
def cmpLex {α : Type} (cmp : α → α → Ordering) : List α → List α → Ordering
  | [], [] => .eq
  | [], _ :: _ => .lt
  | _ :: _, [] => .gt
  | a :: as, b :: bs => (cmp a b).then (cmpLex cmp as bs)

/-- The last arm of `cmp_total`: numbers as doubles, anything else by its rank. -/
def cmpAcross (a b : Val) : Ordering :=
  match a.num, b.num with
  | some x, some y => totalCmp x y
  | _, _ => compare a.rank b.rank

mutual

/-- `Val::cmp_total`. -/
def cmpTotal : Val → Val → Ordering
  | .null, .null => .eq
  | .bool a, .bool b => compare a b
  | .str a, .str b => compare a b
  | .node a, .node b => compare a b
  | .rel a .., .rel b .. => compare a b
  | .path na ra, .path nb rb => (cmpLex compare na nb).then (cmpItems ra rb)
  | .point la lo, .point la' lo' => (totalCmp lo lo').then (totalCmp la la')
  | .date a, .date b => compare a.toInt b.toInt
  | .time a, .time b => compare a.toInt b.toInt
  | .dateTime a, .dateTime b => compare a.toInt b.toInt
  | .duration a, .duration b => compare a.toInt b.toInt
  | .list a, .list b => cmpItems a b
  | .vector a, .vector b => cmpLex totalCmp32 a b
  | .map a, .map b => cmpEntries a b
  | a, b => cmpAcross a b

def cmpItems : List Val → List Val → Ordering
  | [], [] => .eq
  | [], _ :: _ => .lt
  | _ :: _, [] => .gt
  | a :: as, b :: bs => (cmpTotal a b).then (cmpItems as bs)

def cmpEntries : List (String × Val) → List (String × Val) → Ordering
  | [], [] => .eq
  | [], _ :: _ => .lt
  | _ :: _, [] => .gt
  | (ka, a) :: as, (kb, b) :: bs => ((compare ka kb).then (cmpTotal a b)).then (cmpEntries as bs)

end

mutual

/-- `Val::loose_eq`, Cypher's `=`: `none` is the comparison that is null. -/
def looseEq : Val → Val → Option Bool
  | .null, _ => none
  | _, .null => none
  | .bool a, .bool b => some (a == b)
  | .str a, .str b => some (a == b)
  | .node a, .node b => some (a == b)
  | .rel a .., .rel b .. => some (a == b)
  | .path na ra, .path nb rb => some (na == nb && looseEqItems ra rb)
  | .vector a, .vector b => some (a.length == b.length && (a.zip b).all fun p => eq32 p.1 p.2)
  | .point la lo, .point la' lo' => some (eq la la' && eq lo lo')
  | .date a, .date b => some (a == b)
  | .time a, .time b => some (a == b)
  | .dateTime a, .dateTime b => some (a == b)
  | .duration a, .duration b => some (a == b)
  | .list a, .list b => some (looseEqItems a b)
  | .map a, .map b => some (looseEqEntries a b)
  | a, b =>
    match a.num, b.num with
    | some x, some y => some (eq x y)
    | _, _ => some false

/-- Same length, and every pair definitely equal. -/
def looseEqItems : List Val → List Val → Bool
  | [], [] => true
  | a :: as, b :: bs => looseEq a b == some true && looseEqItems as bs
  | _, _ => false

def looseEqEntries : List (String × Val) → List (String × Val) → Bool
  | [], [] => true
  | (ka, a) :: as, (kb, b) :: bs =>
    ka == kb && looseEq a b == some true && looseEqEntries as bs
  | _, _ => false

end

/-- `three_valued`. -/
def threeValued : Val → Option Bool
  | .bool b => some b
  | _ => none

/-- `truthy`: a predicate passes only when it is definitely true. -/
def truthy : Val → Bool
  | .bool true => true
  | _ => false

end Val

end Slater
