import Slater.Server.NodeWrite

/-!
# Relationship writes

The write path of a relationship statement (`slater/src/server/write.rs`): `execute_edge_write`
resolves both endpoints by their business keys, asks the core for the edge it is about, folds the
`SET` items into one pair of patches and a replace flag, and hands one operation to the writer.

`plan_edge_merge` decides what a `MERGE` is about. If the core holds the edge, a bare `MERGE` writes
nothing and a `SET` patches the core edge in place, under the identity the statement spelled. If it
does not, a statement without an identifying property adopts the one of an edge that the delta
already holds between the two nodes.

Messages quote values in the format of `Debug`, which is left a parameter.

**What it does not establish.** Which edge `find_core_edge_id` picks among parallel ones is given by the generation.
The log never fails here; calls that do are the subject of `Slater.Server.WritePath`.
-/

namespace Slater

open Map

/-! ## Statements -/

/-- `EndpointPat`: one end of a relationship, anchored by a business key. -/
structure EndpointPat (ε : Type) where
  label : String
  key : String
  keyValue : ε

/-- The identity an endpoint stands for, once its value is known. -/
def EndpointPat.identity {ε : Type} (p : EndpointPat ε) (value : Value) : NodeIdentity :=
  ⟨p.label, p.key, value⟩

/-- `EdgeWriteOp`. -/
inductive EdgeWriteOp where
  | create
  | delete
  deriving DecidableEq, Repr

/-- A relationship write statement; `key` is the inline property that identifies the edge. -/
structure EdgeWriteStmt (ε : Type) where
  src : EndpointPat ε
  reltype : String
  dst : EndpointPat ε
  op : EdgeWriteOp
  key : Option (String × ε) := none
  sets : List (SetItem ε) := []

/-! ## Equality of values in Rust -/

/-- `==` of two `f32`, on their bits. -/
def float32Eq (a b : UInt32) : Bool :=
  let isNaN (x : UInt32) : Bool := decide (0x7F800000 < (x &&& 0x7FFFFFFF))
  let isZero (x : UInt32) : Bool := (x &&& 0x7FFFFFFF) == 0
  !isNaN a && !isNaN b && (a == b || (isZero a && isZero b))

namespace Value

mutual

/-- The derived `PartialEq`: floats compare as numbers, so that no NaN equals itself. -/
def partialEq : Value → Value → Bool
  | .null, .null => true
  | .bool a, .bool b => a == b
  | .int a, .int b => a == b
  | .float a, .float b => Binary64.eq a b
  | .str a, .str b => a == b
  | .list a, .list b => partialEqs a b
  | .vector a, .vector b => a.length == b.length && (a.zip b).all fun p => float32Eq p.1 p.2
  | _, _ => false

def partialEqs : List Value → List Value → Bool
  | [], [] => true
  | a :: as, b :: bs => partialEq a b && partialEqs as bs
  | _, _ => false

end

end Value

/-! ## From items to patches -/

section Fold

variable {ε : Type} (ev : Evaluator ε)

/-- The accumulators of `edge_set_patches`. -/
structure EdgeFold where
  patches : List (String × Value) := []
  replace : Bool := false

/-- One turn of the loop of `edge_set_patches`. -/
def EdgeFold.add (f : EdgeFold) : SetItem ε → Except WriteFailure EdgeFold
  | .prop prop e => do
    let v ← ev.value e "a relationship SET value"
    pure { f with patches := f.patches ++ [(prop, v)] }
  | .mergeMap map => do
    let patches ← evalEntries ev map "a relationship merge-map value"
    pure { f with patches := f.patches ++ patches }
  | .replaceMap map => do
    let patches ← evalEntries ev map "a relationship replace-map value"
    pure { patches, replace := true }
  | .mergeParam e => do
    let v ← ev.map e "a relationship merge-map value"
    let patches ← mapValToPatches v "a relationship merge-map value"
    pure { f with patches := f.patches ++ patches }
  | .replaceParam e => do
    let v ← ev.map e "a relationship replace-map value"
    let patches ← mapValToPatches v "a relationship replace-map value"
    pure { patches, replace := true }
  | .addLabels _ => .error ⟨.execution, "relationships have a type, not labels"⟩

/-- `edge_set_patches`. -/
def edgeSetPatches (items : List (SetItem ε)) : Except WriteFailure EdgeFold :=
  items.foldlM (EdgeFold.add ev) {}

/-- `ensure_identity_not_reassigned`. -/
def ensureIdentityNotReassigned (debug : Value → String) (edgeKey : Option (String × Value))
    (patches : List (String × Value)) : Except WriteFailure Unit :=
  match edgeKey with
  | none => .ok ()
  | some (name, value) =>
    match patches.find? fun p => p.1 == name && !p.2.partialEq value with
    | none => .ok ()
    | some (_, assigned) => .error ⟨.execution,
        "SET " ++ name ++ " = " ++ debug assigned ++ " contradicts the identifying property \x7b" ++
          name ++ ": " ++ debug value ++ "\x7d of this relationship: the property a " ++
          "relationship is identified by cannot be reassigned by the same write"⟩

end Fold

/-! ## Probes of the core -/

namespace Generation

variable (gen : Generation)

/-- `resolve_endpoint`. -/
def resolveEndpoint (id : NodeIdentity) : Except WriteFailure (Option Nat) :=
  match gen.resolveBusinessKey id with
  | .unique dense => .ok (some dense)
  | .absent => .ok none
  | .ambiguous => .error ⟨.execution,
      "the business key " ++ id.label ++ "(" ++ id.key ++ " = …) matches more than one node — " ++
        "writes require a unique business key"⟩
  | .unindexed => .error ⟨.execution,
      "cannot write a relationship to " ++ id.label ++ "(" ++ id.key ++ " = …): the business key " ++
        "must be range-indexed to resolve it"⟩

/-- `edge_reltype_id`. -/
def edgeReltypeId (reltype : String) : Except WriteFailure Nat :=
  match gen.core.reltypeId reltype with
  | some id => .ok id
  | none => .error ⟨.execution,
      "cannot write a :" ++ reltype ++ " relationship: the relationship type must already exist " ++
        "in the graph"⟩

/-- The edge shows the identifying property, with the same image. -/
def edgeHasKey (edge : Nat) (key : Option (String × Value)) : Bool :=
  key.all fun kv => (gen.core.edgeProp edge kv.1).toValue.any fun got =>
    writeValue got == writeValue kv.2

/-- `find_core_edge_id`: `find_outgoing_edge_keyed` under an empty delta. -/
def findCoreEdgeId (src reltype dst : Nat) (key : Option (String × Value)) : Option Nat :=
  ((gen.core.adjOverlaid src true).find? fun a =>
    a.reltype == reltype && a.neighbour == dst && gen.edgeHasKey a.edge key).map (·.edge)

end Generation

/-! ## The plan of a `MERGE` -/

/-- `EdgeMergePlan`. An adopted identity replaces the one the statement spelled, so that the
write finds the entry of the delta. -/
structure EdgeMergePlan where
  coreEdgeId : Option Nat
  edgeKey : Option (String × Value)
  idempotent : Option (Nat × Nat × Nat)

/-- What a statement evaluates to before anything is resolved: the identity it spells and the
fold of its items. -/
structure EdgeTarget where
  id : EdgeIdentity
  reltypeId : Nat
  fold : EdgeFold

namespace DeltaState

variable {ε : Type} (gen : Generation) (st : DeltaState)

/-- `edge_identity_key_between`. -/
def edgeIdentityKeyBetween (src : Nat) (reltype : String) (dst : Nat) : Option (String × Value) :=
  ((st.snapshot.outEdges src).find? fun e =>
    !e.tombstoned && e.other == dst && e.reltype == reltype).bind (·.key)

variable (t : EdgeTarget)

/-- The key an edge that the core does not hold is stored under. -/
def adoptedKey (src dst : Option Nat) : Option (String × Value) :=
  match t.id.key with
  | some kv => some kv
  | none =>
    match src.or (st.bornSyntheticInDelta t.id.src), dst.or (st.bornSyntheticInDelta t.id.dst) with
    | some s, some d => st.edgeIdentityKeyBetween s t.id.reltype d
    | _, _ => none

/-- The core edge a `MERGE` is about; only two core nodes can have one. -/
def coreEdgeOf (srcCore dstCore : Option Nat) : Option (Nat × Nat × Nat) :=
  match srcCore, dstCore with
  | some s, some d => (gen.findCoreEdgeId s t.reltypeId d t.id.key).map fun cid => (cid, s, d)
  | _, _ => none

/-- `plan_edge_merge`. -/
def planEdgeMerge (srcCore dstCore src dst : Option Nat) : EdgeMergePlan :=
  match coreEdgeOf gen t srcCore dstCore with
  | some (cid, s, d) =>
    if t.fold.patches = [] ∧ t.fold.replace = false then ⟨some cid, t.id.key, some (cid, s, d)⟩
    else ⟨some cid, t.id.key, none⟩
  | none => ⟨none, st.adoptedKey t src dst, none⟩

variable (debug : Value → String) (ev : Evaluator ε) (stmt : EdgeWriteStmt ε)

/-- The identifying property of the statement, evaluated. -/
def evalEdgeKey : Except WriteFailure (Option (String × Value)) :=
  match stmt.key with
  | none => .ok none
  | some (prop, e) => (ev.value e "the identifying relationship value").map fun v => some (prop, v)

/-- The part of `execute_edge_write` before the endpoints are resolved. -/
def edgeTarget : Except WriteFailure EdgeTarget := do
  let reltypeId ← gen.edgeReltypeId stmt.reltype
  let src ← ev.value stmt.src.keyValue "the source business-key value"
  let dst ← ev.value stmt.dst.keyValue "the destination business-key value"
  let key ← evalEdgeKey ev stmt
  let fold ← edgeSetPatches ev stmt.sets
  ensureIdentityNotReassigned debug key fold.patches
  pure { id := ⟨stmt.src.identity src, stmt.reltype, stmt.dst.identity dst, key⟩, reltypeId, fold }

/-- The operation a target leads to, if there is one to write. -/
def edgeOp (op : EdgeWriteOp) (t : EdgeTarget) (srcCore dstCore : Option Nat) : Option ResolvedOp :=
  let src := srcCore.or (st.bornSyntheticForIdentity t.id.src)
  let dst := dstCore.or (st.bornSyntheticForIdentity t.id.dst)
  match op with
  | .create =>
    let plan := st.planEdgeMerge gen t srcCore dstCore src dst
    match plan.idempotent with
    | some _ => none
    | none => some (.upsertEdge { t.id with key := plan.edgeKey } t.fold.replace t.fold.patches
        src dst plan.coreEdgeId)
  | .delete => some (.deleteEdge { t.id with key := none } src dst)

/-- Everything `execute_edge_write` decides before the commit. -/
def planEdgeWrite : Except WriteFailure (Option ResolvedOp) := do
  let t ← edgeTarget gen debug ev stmt
  let srcCore ← gen.resolveEndpoint t.id.src
  let dstCore ← gen.resolveEndpoint t.id.dst
  pure (st.edgeOp gen stmt.op t srcCore dstCore)

/-- `execute_edge_write`. -/
def executeEdgeWrite : Except WriteFailure DeltaState := do
  let op ← st.planEdgeWrite gen debug ev stmt
  pure (st.commit op.toList)

/-- `execute_edge_write_batch`: one plan per row, all against the state before the batch. -/
def executeEdgeWriteBatch {ρ : Type} (rows : List ρ) (ev : ρ → Evaluator ε) : Except WriteFailure DeltaState := do
  -- the type is looked up before the rows, so that it is refused even without any
  let _ ← gen.edgeReltypeId stmt.reltype
  let ops ← rows.mapM fun row => st.planEdgeWrite gen debug (ev row) stmt
  pure (st.commit (ops.flatMap Option.toList))

end DeltaState

/-! ## Runs -/

/-- A step of the server on one graph, with its relationship statements. -/
inductive GraphStep (ε : Type) where
  | node (step : ServerStep ε)
  | edge (ev : Evaluator ε) (stmt : EdgeWriteStmt ε)

namespace DeltaState

variable {ε : Type} (gen : Generation) (debug : Value → String)

/-- One step; a statement that fails leaves the state as it was. -/
def serveGraph (st : DeltaState) : GraphStep ε → DeltaState
  | .node step => st.serve gen step
  | .edge ev stmt => ((st.executeEdgeWrite gen debug ev stmt).toOption).getD st

/-- The state after a run of steps. -/
def serveGraphAll (st : DeltaState) (steps : List (GraphStep ε)) : DeltaState :=
  steps.foldl (serveGraph gen debug) st

end DeltaState

end Slater
