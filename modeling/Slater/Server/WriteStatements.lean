import Slater.Server.EdgeWrite

/-!
# Write statements

A write statement with the expressions it was read with, and its execution. An expression of a statement is a
literal, a parameter or a field path into one, and under `UNWIND` also the row or a field of it (`write_value`,
`param_path_val`, `eval_row_value` of `slater/src/server/write.rs`). Everything a statement does, it does through
the state transition of its kind: `execute_write` and `execute_write_batch` for a node, `execute_create` for a
`CREATE`, `execute_edge_write` and `execute_edge_write_batch` for a relationship.

The parameters are runtime values here. How a Bolt message is decoded into them is not part of the model, nor is
the parser that builds the statement. The panic of `unreachable!` is an error here.
-/

namespace Slater

open Map Binary64 Val

/-! ## Values -/

/-- `name.eq_ignore_ascii_case(other)`. -/
def eqIgnoreAsciiCase (name other : String) : Bool := name.toLower == other.toLower

namespace Expr

/-- `is_param_path`. -/
def isParamPath : Expr → Bool
  | .param _ => true
  | .property base _ => isParamPath base
  | _ => false

/-- `as_vecf32_arg`. -/
def asVecf32Arg : Expr → Option Expr
  | .function name _ (.args [arg]) => if eqIgnoreAsciiCase name "vecf32" then some arg else none
  | _ => none

end Expr

/-- `Value::type_name`. -/
def Value.typeName : Value → String
  | .null => "null"
  | .bool _ => "bool"
  | .int _ => "int"
  | .float _ => "float"
  | .str _ => "string"
  | .list _ => "list"
  | .vector _ => "vector"

/-- A component that is not finite, as `Display` prints it. -/
def displayNonFinite (b : UInt32) : String :=
  if isNaN32 b then "NaN" else if b.toNat < 2 ^ 31 then "inf" else "-inf"

/-- `finite_f32`, with the message its caller makes of a refusal. -/
def finiteF32 (what : String) (index : Nat) (b : UInt32) : Except WriteFailure UInt32 :=
  if isFinite32 b then .ok b
  else .error ⟨.request, what ++ ": embedding component " ++ toString index ++ " is not finite (" ++
    displayNonFinite b ++ "); NaN and ±inf are not valid vector data"⟩

/-- One turn of the loop of `coerce_vecf32`. -/
def coerceComponent (what : String) (item : Value × Nat) : Except WriteFailure UInt32 :=
  match item.1 with
  | .float f => finiteF32 what item.2 (toBinary32 f)
  | .int i => finiteF32 what item.2 (toBinary32 (ofInt64 i))
  | other => .error ⟨.request, what ++ ": vecf32() elements must be numbers, got " ++ other.typeName⟩

/-- `coerce_vecf32`. -/
def coerceVecf32 (v : Value) (what : String) : Except WriteFailure Value :=
  match v with
  | .vector xs => .ok (.vector xs)
  | .list items => (items.zipIdx.mapM (coerceComponent what)).map .vector
  | other => .error ⟨.request, what ++ ": vecf32() needs a list of numbers, got " ++ other.typeName⟩

/-- A runtime value as a stored one. -/
def storable (what : String) (v : Val) : Except WriteFailure Value :=
  match v.toValue with
  | some w => .ok w
  | none => .error ⟨.request, what ++ " is not a storable scalar value"⟩

/-- The field of a map, or null. -/
def fieldOf (entries : List (String × Val)) (field : String) : Val :=
  ((entries.find? (·.1 == field)).map Prod.snd).getD .null

section

variable (params : Map String Val)

/-- The value of a parameter. -/
def paramVal (name : String) : Except WriteFailure Val :=
  match params.lookup name with
  | some v => .ok v
  | none => .error ⟨.request, "parameter $" ++ name ++ " was not supplied"⟩

/-- `param_path_val`. -/
def paramPathVal : Expr → String → Except WriteFailure Val
  | .param name, _ => paramVal params name
  | .property base field, what => do
    match ← paramPathVal base what with
    | .map m => pure (fieldOf m field)
    | .null => pure .null
    | other => throw ⟨.request, what ++ " reads the field '" ++ field ++
        "' of a parameter that is not a map (it is " ++ other.typeName ++ ")"⟩
  | _, what => .error ⟨.execution, "internal error: entered unreachable code: " ++
      "lower_write_statement rejects non-constant " ++ what⟩

/-- `write_value` (of `write.rs`). -/
def writeConstant (e : Expr) (what : String) : Except WriteFailure Value :=
  match e.asVecf32Arg with
  | some arg => do
    let val ← paramPathVal params arg what
    let v ← storable what val
    coerceVecf32 v what
  | none =>
    match e with
    | .literal v => .ok v
    | e => do
      let val ← paramPathVal params e what
      storable what val

/-- The evaluators of a write without `UNWIND`. -/
def constantEvaluator : Evaluator Expr where
  value := writeConstant params
  map := paramPathVal params

variable (var : String) (row : Val)

/-- The expression is the row. -/
def isRow : Expr → Bool
  | .var v => v == var
  | _ => false

/-- `eval_row_val`. -/
def evalRowVal (e : Expr) (what : String) : Except WriteFailure Val :=
  let elsewhere : Except WriteFailure Val := .error ⟨.request,
    what ++ " must be a literal, a parameter, or " ++ var ++ ".field in a batched write"⟩
  match e with
  | .literal v => .ok (.fromValue v)
  | .param name => paramVal params name
  | .var v => if v = var then .ok row else elsewhere
  | .property base field =>
    if isRow var base then
      match row with
      | .map m => .ok (fieldOf m field)
      | _ => .error ⟨.request, "the UNWIND row is not a map, so " ++ var ++ "." ++ field ++
          " cannot supply " ++ what⟩
    else if (Expr.property base field).isParamPath then paramPathVal params (.property base field) what
    else .error ⟨.request, what ++ " may reference only the UNWIND variable '" ++ var ++ "' (as " ++ var ++
      ".field) or a parameter"⟩
  | _ => elsewhere

/-- `eval_row_value`. -/
def evalRowValue : Expr → String → Except WriteFailure Value
  | .function name distinct (.args [arg]), what =>
    if eqIgnoreAsciiCase name "vecf32" then do
      let v ← evalRowValue arg what
      coerceVecf32 v what
    else do
      let val ← evalRowVal params var row (.function name distinct (.args [arg])) what
      storable what val
  | e, what => do
    let val ← evalRowVal params var row e what
    storable what val

/-- The evaluators of a row of a batched write. -/
def rowEvaluator : Evaluator Expr where
  value := evalRowValue params var row
  map := evalRowVal params var row

/-- The list a batched write unwinds. -/
def unwindSource : Expr → Except WriteFailure Val
  | .param name => paramVal params name
  | _ => .error ⟨.request, "the UNWIND source of a batched write must be a parameter list (e.g. " ++
      "`UNWIND $rows AS r`)"⟩

/-- The rows of a batched write. -/
def unwindRows (source : Expr) : Except WriteFailure (List Val) := do
  match ← unwindSource params source with
  | .list items => pure items
  | _ => throw ⟨.request, "the UNWIND source of a batched write is not a list"⟩

end

/-! ## Statements -/

/-- `CreateStmt`. -/
structure CreateStmt (ε : Type) where
  label : String
  props : List (String × ε)

/-- A write statement of `parser::ast::Statement`; a leading `UNWIND` has its source and its
variable. The five constructors lead to the five functions that execute a write; the expressions
are those of the query language. -/
inductive WriteRequest where
  | node (stmt : WriteStmt Expr) (unwind : Option (Expr × String))
  | create (stmt : CreateStmt Expr)
  | edge (stmt : EdgeWriteStmt Expr) (unwind : Option (Expr × String))

/-! ## Execution -/

section

variable (gen : Generation) (ev : Evaluator Expr)

/-- The property of a `CREATE` that the label's index makes its business key. -/
def createKey (label : String) (props : List (String × Value)) : Option String :=
  (gen.core.rangeIndexes.find? fun index =>
    index.label == label && props.any (·.1 == index.property)).map (·.property)

/-- The node a `CREATE` is about, and the properties it gets besides its key. -/
def createTarget (stmt : CreateStmt Expr) :
    Except WriteFailure (NodeIdentity × List (String × Value)) := do
  let props ← evalEntries ev stmt.props "a CREATE property"
  match createKey gen stmt.label props with
  | none => .error ⟨.request, "cannot CREATE (:" ++ stmt.label ++ "): none of its properties is the " ++
      "label's range-indexed business key — add a range index, or use MERGE with an inline key"⟩
  | some key =>
    match props.find? (·.1 == key) with
    | none => .error ⟨.execution, "key present"⟩
    | some (_, value) => pure (⟨stmt.label, key, value⟩, props.eraseP (·.1 == key))

end

namespace DeltaState

variable (gen : Generation) (debug : Value → String) (params : Map String Val) (st : DeltaState)

/-- `execute_create`. -/
def executeCreate (ev : Evaluator Expr) (stmt : CreateStmt Expr) : Except WriteFailure DeltaState := do
  let (id, patches) ← createTarget gen ev stmt
  let resolved ← st.resolveNodeOpFrom (gen.resolveBusinessKey id) id true true
  pure (st.commit [.node id (.upsert patches) resolved])

/-- The execution of a write statement. -/
def execute : WriteRequest → Except WriteFailure DeltaState
  | .node stmt none => st.executeWrite gen (constantEvaluator params) stmt
  | .node stmt (some (source, var)) => do
    let rows ← unwindRows params source
    st.executeWriteBatch gen stmt rows (rowEvaluator params var)
  | .create stmt => st.executeCreate gen (constantEvaluator params) stmt
  | .edge stmt none => st.executeEdgeWrite gen debug (constantEvaluator params) stmt
  | .edge stmt (some (source, var)) => do
    -- the type is looked up before the rows are
    let _ ← gen.edgeReltypeId stmt.reltype
    let rows ← unwindRows params source
    st.executeEdgeWriteBatch gen debug stmt rows (rowEvaluator params var)

end DeltaState

end Slater
