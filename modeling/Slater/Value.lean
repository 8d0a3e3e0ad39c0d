import Mathlib

/-!
# Property values and business identities

`Value` is the property cell of `graph-format/src/ids.rs`. A float is held as its IEEE bits, so that
equality of model values is equality of the stored image, which is what every identity of the delta
compares (`identity.rs` compares "type-exactly": `{id: 1}` and `{id: 1.0}` are two nodes).

A node is identified by label, key property and value; an edge by its end nodes, its type and
optionally one identifying property. The source interns label, key and type names per memtable and
keys its maps by the encoded identity. The interner is injective and the encoding self-delimiting,
so the model keys by the names themselves.
-/

namespace Slater

/-- A property cell (`graph-format/src/ids.rs`); `float` and `vector` hold IEEE bits. Two floats
with different bits are different values, also two NaNs and the two zeros. -/
inductive Value where
  | null
  | bool (b : Bool)
  | int (i : Int64)
  | float (bits : UInt64)
  | str (s : String)
  | list (items : List Value)
  | vector (xs : List UInt32)
  deriving Repr, Inhabited

namespace Value

mutual

/-- Equality of stored images. -/
def beq : Value → Value → Bool
  | .null, .null => true
  | .bool a, .bool b => a == b
  | .int a, .int b => a == b
  | .float a, .float b => a == b
  | .str a, .str b => a == b
  | .list a, .list b => beqItems a b
  | .vector a, .vector b => a == b
  | _, _ => false

def beqItems : List Value → List Value → Bool
  | [], [] => true
  | a :: as, b :: bs => beq a b && beqItems as bs
  | _, _ => false

end

mutual

theorem beq_iff : ∀ a b : Value, beq a b = true ↔ a = b
  | .null, b => by cases b <;> simp [beq]
  | .bool a, b => by cases b <;> simp [beq]
  | .int a, b => by cases b <;> simp [beq]
  | .float a, b => by cases b <;> simp [beq]
  | .str a, b => by cases b <;> simp [beq]
  | .list a, b => by cases b <;> simp [beq, beqItems_iff a]
  | .vector a, b => by cases b <;> simp [beq]

theorem beqItems_iff : ∀ as bs : List Value, beqItems as bs = true ↔ as = bs
  | [], bs => by cases bs <;> simp [beqItems]
  | a :: as, bs => by cases bs <;> simp [beqItems, beq_iff a, beqItems_iff as]

end

instance : DecidableEq Value := fun a b => decidable_of_iff _ (beq_iff a b)

end Value

/-- Business identity of a node (`slater-delta/src/identity.rs`). Nothing relates two
identities: that they may name one node is seen only where they are resolved. -/
structure NodeIdentity where
  label : String
  key : String
  value : Value
  deriving DecidableEq, Repr, Inhabited

/-- Business identity of an edge: its end nodes, its type and, when the write spelled one
inline, the identifying edge property. -/
structure EdgeIdentity where
  src : NodeIdentity
  reltype : String
  dst : NodeIdentity
  key : Option (String × Value) := none
  deriving DecidableEq, Repr, Inhabited

end Slater
