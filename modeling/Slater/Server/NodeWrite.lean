import Slater.Lib.Effect
import Slater.Server.MergedView

/-!
# Node writes

The write path of a node statement (`slater/src/server/write.rs`): `execute_write` and its batched
form fold the items of the statement into operations of the log, probe the statement's business key
against the index of the core and against the identities of the delta, check the operations, and hand
them to the writer with the dense id they were resolved to.

Values of a statement are expressions that a plain write evaluates against the parameters and a
batched one against its row. The fold takes the evaluators as arguments, and so does the model; an
evaluator may fail with whatever failure it likes.

The writer is bound to the generation it is given (`refuse_orphaned_delta` passes), and the log never
fails.

**What it does not establish.** `RETURN` and the counters of a statement are left out, and a batch is planned row by
row on the state before it, as in the source, so that one row does not see another.
-/

namespace Slater

open Map

/-! ## Failures -/

/-- The codes of `Failure` that the write path uses. -/
inductive FailureCode where
  | execution
  | request
  deriving DecidableEq, Repr

/-- `Failure` of `slater/src/server.rs`. -/
structure WriteFailure where
  code : FailureCode
  message : String
  deriving DecidableEq, Repr

/-! ## Statements -/

/-- One `SET` assignment on the anchor. -/
inductive SetItem (ε : Type) where
  | prop (prop : String) (value : ε)
  | replaceMap (map : List (String × ε))
  | mergeMap (map : List (String × ε))
  | replaceParam (map : ε)
  | mergeParam (map : ε)
  | addLabels (labels : List String)

/-- One `REMOVE` item on the anchor. -/
inductive RemoveItem where
  | prop (prop : String)
  | labels (labels : List String)

/-- The unconditional mutation of a statement. -/
inductive WriteOp (ε : Type) where
  | set (items : List (SetItem ε))
  | remove (items : List RemoveItem)
  | delete (detach : Bool)

/-- A node write statement; `upsert` tells `MERGE` from `MATCH`. -/
structure WriteStmt (ε : Type) where
  label : String
  key : String
  keyValue : ε
  upsert : Bool
  op : WriteOp ε
  onCreate : List (SetItem ε) := []
  onMatch : List (SetItem ε) := []

/-- The two evaluators of a write: of a value, and of a whole map. -/
structure Evaluator (ε : Type) where
  value : ε → String → Except WriteFailure Value
  map : ε → String → Except WriteFailure Val

/-- `exec::type_name`. -/
def Val.typeName : Val → String
  | .null => "Null"
  | .bool _ => "Boolean"
  | .int _ => "Integer"
  | .float _ => "Float"
  | .str _ => "String"
  | .list _ => "List"
  | .vector _ => "Vectorf32"
  | .map _ => "Map"
  | .node _ => "Node"
  | .rel .. => "Edge"
  | .path .. => "Path"
  | .point .. => "Point"
  | .date _ => "Date"
  | .time _ => "Time"
  | .dateTime _ => "Datetime"
  | .duration _ => "Duration"

/-! ## From items to operations -/

section Fold

variable {ε : Type} (ev : Evaluator ε)

/-- `map_val_to_patches`. -/
def mapValToPatches (v : Val) (what : String) : Except WriteFailure (List (String × Value)) :=
  match v with
  | .map entries => entries.mapM fun kv =>
    match kv.2.toValue with
    | some value => .ok (kv.1, value)
    | none => .error ⟨.request,
        what ++ " carries '" ++ kv.1 ++ "', which is not a storable scalar value"⟩
  | v => .error ⟨.request, what ++ " must be a map, but it is " ++ v.typeName⟩

/-- The values of a literal map, each evaluated. -/
def evalEntries (map : List (String × ε)) (what : String) : Except WriteFailure (List (String × Value)) :=
  map.mapM fun kv => (ev.value kv.2 what).map (kv.1, ·)

/-- `replace_map_patches`. -/
def replaceMapPatches (map : List (String × ε)) : Except WriteFailure (List (String × Value)) :=
  evalEntries ev map "a replace-map value"

/-- The accumulators of `fold_set_items`. -/
structure SetFold where
  ops : List NodeWrite := []
  pending : List (String × Value) := []
  addedLabels : List String := []

/-- One turn of the loop of `fold_set_items`. -/
def SetFold.add (f : SetFold) : SetItem ε → Except WriteFailure SetFold
  | .prop prop e => do
    let v ← ev.value e "a SET value"
    pure { f with pending := f.pending ++ [(prop, v)] }
  | .mergeMap map => do
    let patches ← evalEntries ev map "a merge-map value"
    pure { f with pending := f.pending ++ patches }
  | .replaceMap map => do
    let patches ← replaceMapPatches ev map
    pure { f with pending := [], ops := f.ops ++ [.replace patches] }
  | .mergeParam e => do
    let v ← ev.map e "a merge-map value"
    let patches ← mapValToPatches v "a merge-map value"
    pure { f with pending := f.pending ++ patches }
  | .replaceParam e => do
    let v ← ev.map e "a replace-map value"
    let patches ← mapValToPatches v "a replace-map value"
    pure { f with pending := [], ops := f.ops ++ [.replace patches] }
  | .addLabels labels => pure { f with addedLabels := f.addedLabels ++ labels }

/-- The operations the accumulators stand for: patches last, then the added labels. -/
def SetFold.finish (f : SetFold) (ensureNonempty : Bool) : List NodeWrite :=
  let ops := f.ops ++ (if f.pending = [] then [] else [.upsert f.pending]) ++
    (if f.addedLabels = [] then [] else [.setLabels f.addedLabels []])
  if ops = [] ∧ ensureNonempty then [.upsert []] else ops

/-- `fold_set_items`. -/
def foldSetItems (items : List (SetItem ε)) (ensureNonempty : Bool) : Except WriteFailure (List NodeWrite) := do
  let f ← items.foldlM (SetFold.add ev) {}
  pure (f.finish ensureNonempty)

/-- One turn of the `REMOVE` loop: the properties and the labels dropped so far. -/
def addRemoveItem (key : String) (acc : List String × List String) :
    RemoveItem → Except WriteFailure (List String × List String)
  | .prop p =>
    if p = key then
      .error ⟨.request, "cannot REMOVE the business-key property '" ++ p ++
        "' — it is the node's identity"⟩
    else .ok (acc.1 ++ [p], acc.2)
  | .labels labels => .ok (acc.1, acc.2 ++ labels)

/-- `build_node_wal_ops`. The operations share the statement's identity, which is left to the
caller. -/
def buildNodeWalOps (stmt : WriteStmt ε) : Except WriteFailure (List NodeWrite) :=
  match stmt.op with
  | .set items => foldSetItems ev items true
  | .remove items => do
    let (props, labels) ← items.foldlM (addRemoveItem stmt.key) ([], [])
    pure ((if props = [] then [] else [.removeProps props]) ++
      if labels = [] then [] else [.setLabels [] labels])
  | .delete _ => .ok [.delete]

end Fold

/-! ## Items one by one

What a `SET` means is said of the record that a reader finds for a node: its properties and its labels. An item
changes the record by itself, whatever stands before or after it. A property that is set to null is held as null. -/

/-- The properties and labels of a node. -/
structure NodeRecord where
  props : String → Option Value
  labels : Finset String

/-- The record with the properties of a list assigned in turn. -/
def NodeRecord.assign (r : NodeRecord) (patches : List (String × Value)) : NodeRecord :=
  { r with props := patches.foldl (fun props kv => Function.update props kv.1 (some kv.2)) r.props }

/-- The record that a delta shows over the record below it, the tombstone aside. -/
def NodeDelta.readOver (d : NodeDelta) (below : NodeRecord) : NodeRecord where
  props := fun k => (d.patches.lookup k).or (bif d.hides k then none else below.props k)
  labels := (below.labels \ d.labelsRemoved) ∪ d.labelsAdded

section Items

open List NodeDelta

variable {ε : Type} (ev : Evaluator ε) (ensureNonempty : Bool)

/-- What one item of a `SET` does to a record. The item is evaluated first, so a failing one
leaves the record alone. -/
def SetItem.run (r : NodeRecord) : SetItem ε → Except WriteFailure NodeRecord
  | .prop name e => do
    let v ← ev.value e "a SET value"
    pure (r.assign [(name, v)])
  | .mergeMap map => do
    let patches ← evalEntries ev map "a merge-map value"
    pure (r.assign patches)
  | .replaceMap map => do
    let patches ← replaceMapPatches ev map
    pure (NodeRecord.assign { r with props := fun _ => none } patches)
  | .mergeParam e => do
    let v ← ev.map e "a merge-map value"
    let patches ← mapValToPatches v "a merge-map value"
    pure (r.assign patches)
  | .replaceParam e => do
    let v ← ev.map e "a replace-map value"
    let patches ← mapValToPatches v "a replace-map value"
    pure (NodeRecord.assign { r with props := fun _ => none } patches)
  | .addLabels labels => pure { r with labels := r.labels ∪ labels.toFinset }

section Over

variable (d : NodeDelta) (below : NodeRecord)

theorem readOver_resurrect : d.resurrect.readOver below = d.readOver below := rfl

theorem upsert_cons (kv : String × Value) (patches : List (String × Value)) :
    d.upsert (kv :: patches) = (d.upsert [kv]).upsert patches := by
  simp [upsert, insertAll, sdiff_sdiff_left]

theorem readOver_upsert (patches : List (String × Value)) :
    (d.upsert patches).readOver below = (d.readOver below).assign patches := by
  induction patches generalizing d with
  | nil => simp [readOver, upsert, NodeRecord.assign, hides]
  | cons kv patches ih =>
    rw [upsert_cons, ih]
    have hone : (d.upsert [kv]).readOver below = (d.readOver below).assign [kv] := by
      refine congrArg₂ NodeRecord.mk (funext fun k => ?_) rfl
      by_cases hk : k = kv.1
      · subst hk
        simp [upsert]
      · simp [upsert, readOver, hides, hk, Function.update_of_ne, Finmap.lookup_insert_of_ne]
    rw [hone]
    rfl

theorem readOver_replaceProps (patches : List (String × Value)) :
    (d.replaceProps patches).readOver below = NodeRecord.assign { d.readOver below with props := fun _ => none } patches := by
  have hempty : ({ d with replaced := true, removed := ∅, patches := ∅ } : NodeDelta).readOver below =
      { d.readOver below with props := fun _ => none } := by
    simp [readOver, hides]
  rw [← hempty, ← readOver_upsert]
  simp [replaceProps, upsert]

theorem readOver_addLabels (labels : List String) : (d.setLabels labels []).readOver below =
    { d.readOver below with labels := (d.readOver below).labels ∪ labels.toFinset } := by
  refine congrArg₂ NodeRecord.mk rfl ?_
  ext l
  simp only [readOver, setLabels, toFinset_nil, Finset.sdiff_empty, Finset.union_empty, Finset.mem_union, Finset.mem_sdiff]
  tauto

end Over

namespace SetFold

variable (f : SetFold) (d : NodeDelta) (below : NodeRecord)

/-- What the accumulators do to a delta, the tombstone aside. -/
def act : NodeDelta := ((d.writeAll f.ops).resurrect.upsert f.pending).setLabels f.addedLabels []

theorem act_finish : (d.writeAll (f.finish ensureNonempty)).resurrect = f.act d := by
  obtain ⟨ops, pending, addedLabels⟩ := f
  cases ops <;> cases pending <;> cases addedLabels <;> cases ensureNonempty <;>
    simp [finish, act, writeAll_append, write, upsert, setLabels, resurrect]

/-- What the accumulators show. -/
def shown : NodeRecord := (f.act d).readOver below

theorem shown_eq : f.shown d below =
    { NodeRecord.assign ((d.writeAll f.ops).readOver below) f.pending with
      labels := ((d.writeAll f.ops).readOver below).labels ∪ f.addedLabels.toFinset } := by
  rw [shown, act, readOver_addLabels, readOver_upsert]
  rfl

/-- One turn of the loop changes what is shown as its item does. -/
theorem shown_add (item : SetItem ε) : (shown · d below) <$> f.add ev item = item.run ev (f.shown d below) := by
  cases item with
  | prop | mergeMap | mergeParam =>
    simp [add, SetItem.run, shown_eq, NodeRecord.assign]
  | replaceMap | replaceParam =>
    -- what waits is overwritten by the replace
    simp [add, SetItem.run, shown_eq, writeAll_append, write, readOver_replaceProps, readOver_resurrect,
      NodeRecord.assign]
  | addLabels => simp [add, SetItem.run, shown_eq, NodeRecord.assign]

end SetFold

end Items

/-! ## Resolution -/

/-- The outcome of probing a business key against the index of the core. -/
inductive KeyResolution where
  | unique (id : Nat)
  | absent
  | ambiguous
  | unindexed
  deriving DecidableEq, Repr

namespace Generation

variable (gen : Generation)

/-- `index_for`, for one label: the first open index over the label and the property. -/
def indexFor (label key : String) : Option RangeIndex :=
  gen.core.rangeIndexes.find? fun index => index.property == key && index.label == label

/-- `resolve_business_key`. The index answers with the segments folded in, which may repeat an
id. -/
def resolveBusinessKey (id : NodeIdentity) : KeyResolution :=
  match gen.indexFor id.label id.key with
  | none => .unindexed
  | some index =>
    let ids := index.lookupEq id.value
    match bif gen.core.singleton then ids else ids.dedup with
    | [] => .absent
    | [only] => .unique only
    | _ => .ambiguous

end Generation

namespace DeltaState

variable (st : DeltaState)

/-- `DeltaWriter::born_synthetic_for_identity`: the sealed levels only. -/
def bornSyntheticForIdentity (id : NodeIdentity) : Option Nat :=
  st.l0.findSome? (·.bornSyntheticForIdentity id)

/-- `born_synthetic_in_delta`: the whole delta. -/
def bornSyntheticInDelta (id : NodeIdentity) : Option Nat :=
  st.snapshot.bornSyntheticForIdentity id

/-- `merge_creates_node_from`. -/
def mergeCreatesNodeFrom (resolution : KeyResolution) (id : NodeIdentity) : Bool :=
  match resolution with
  | .unique _ => false
  | .absent => (st.bornSyntheticInDelta id).isNone
  | .ambiguous | .unindexed => false

/-- `resolve_node_op_from`. -/
def resolveNodeOpFrom (resolution : KeyResolution) (id : NodeIdentity) (isSet upsert : Bool) :
    Except WriteFailure (Option Nat) :=
  match resolution with
  | .unique dense => .ok (some dense)
  | .absent =>
    if isSet && upsert then .ok (st.bornSyntheticForIdentity id)
    else match st.bornSyntheticInDelta id with
      | some dense => .ok (some dense)
      | none =>
        if isSet then .error ⟨.execution,
          "no " ++ id.label ++ "(" ++ id.key ++ " = …) node to update: the business key matches " ++
            "no existing node (use MERGE to create it)"⟩
        else .error ⟨.execution,
          "no " ++ id.label ++ "(" ++ id.key ++ " = …) node to delete: the business key matches " ++
            "no existing node"⟩
  | .ambiguous => .error ⟨.execution,
      "the business key " ++ id.label ++ "(" ++ id.key ++ " = …) matches more than one node — " ++
        "writes require a unique business key"⟩
  | .unindexed => .error ⟨.execution,
      "cannot write " ++ id.label ++ "(" ++ id.key ++ " = …): the business key must be " ++
        "range-indexed to resolve it"⟩

end DeltaState

/-! ## Checks -/

/-- The dimension of a vector written to an indexed property. -/
def Generation.checkVectorDim (gen : Generation) (label : String) (patch : String × Value) :
    Except WriteFailure Unit :=
  match patch.2, gen.vectorIndexes.find? fun d => d.1 == label && d.2.1 == patch.1 with
  | .vector xs, some d =>
    if xs.length ≠ d.2.2 then .error ⟨.request,
      "the vector index on (:" ++ label ++ " \x7b" ++ patch.1 ++ "\x7d) is " ++ toString d.2.2 ++
        "-dimensional, but the value assigned to " ++ patch.1 ++ " has " ++ toString xs.length ++
        " dimensions"⟩
    else .ok ()
  | _, _ => .ok ()

/-- `validate_vector_dims`. -/
def Generation.validateVectorDims (gen : Generation) (label : String) (ops : List NodeWrite) :
    Except WriteFailure Unit :=
  ops.forM fun
    | .upsert patches | .replace patches => patches.forM (gen.checkVectorDim label)
    | _ => .ok ()

/-- `validate_label_ops`. A label must be one of the manifest, and a node born in the delta
keeps the label of its identity. -/
def Generation.validateLabelOps (gen : Generation) (ops : List NodeWrite) (resolved : Option Nat)
    (label : String) : Except WriteFailure Unit :=
  ops.forM fun
    | .setLabels added removed => do
      added.forM fun l =>
        if (gen.core.labelId l).isNone then .error ⟨.request,
          "cannot add label ':" ++ l ++ "' — it is not defined in the graph (only pre-existing " ++
            "labels can be set)"⟩
        else .ok ()
      if (resolved.any fun id => gen.core.coreNodeCount ≤ id) && removed.contains label then
        .error ⟨.request, "cannot REMOVE the identity label ':" ++ label ++
          "' from a newly-created node"⟩
      else .ok ()
    | _ => .ok ()

/-- `delete_has_relationships_error`. -/
def deleteHasRelationshipsError : WriteFailure :=
  ⟨.execution, "Cannot delete node, because it still has relationships. To delete it and its " ++
    "relationships, use DETACH DELETE."⟩

/-- The view that `node_has_relationships` and `project_write_return` read: the generation under
the active memtable alone. -/
def DeltaState.activeView (st : DeltaState) (gen : Generation) : View :=
  gen.merged (.fromMemtable st.mem)

/-- `node_has_relationships`. -/
def DeltaState.nodeHasRelationships (st : DeltaState) (gen : Generation) (id : Nat) : Bool :=
  (st.activeView gen).hasIncidentEdge id

/-! ## Execution -/

namespace WriteStmt

variable {ε : Type} (stmt : WriteStmt ε)

def isSet : Bool :=
  match stmt.op with
  | .delete _ => false
  | _ => true

/-- The statement is a plain `DELETE`. -/
def plainDelete : Bool :=
  match stmt.op with
  | .delete detach => !detach
  | _ => false

/-- The anchor of the statement for a value of its key. -/
def identity (value : Value) : NodeIdentity := ⟨stmt.label, stmt.key, value⟩

end WriteStmt

/-- What a statement hands to the writer: its operations on one identity, and the dense id they
were resolved to. The operations of one statement are logged and applied together, all under one
identity and one resolution. -/
structure PlannedWrite where
  id : NodeIdentity
  ops : List NodeWrite
  resolved : Option Nat

/-- The operations with their resolution (`OpResolution::Node`). -/
def PlannedWrite.resolvedOps (p : PlannedWrite) : List ResolvedOp :=
  p.ops.map fun w => .node p.id w p.resolved

namespace DeltaState

variable {ε : Type} (gen : Generation) (st : DeltaState) (ev : Evaluator ε) (stmt : WriteStmt ε)

/-- The conditional items of a `MERGE`, chosen on the state before the write. -/
def conditionalOps (id : NodeIdentity) : Except WriteFailure (List NodeWrite) :=
  if stmt.upsert && (!stmt.onCreate.isEmpty || !stmt.onMatch.isEmpty) then
    let created := st.mergeCreatesNodeFrom (gen.resolveBusinessKey id) id
    foldSetItems ev (if created then stmt.onCreate else stmt.onMatch) false
  else .ok []

/-- Everything `execute_write` decides before the commit, and `execute_write_batch` for one
row. -/
def planWrite (value : Value) : Except WriteFailure PlannedWrite := do
  let id := stmt.identity value
  let ops ← buildNodeWalOps ev stmt
  let conditional ← st.conditionalOps gen ev stmt id
  let ops := ops ++ conditional
  gen.validateVectorDims id.label ops
  let resolved ← st.resolveNodeOpFrom (gen.resolveBusinessKey id) id stmt.isSet stmt.upsert
  gen.validateLabelOps ops resolved stmt.label
  if stmt.plainDelete && resolved.any (st.nodeHasRelationships gen) then
    .error deleteHasRelationshipsError
  else pure { id, ops, resolved }

/-- **What a plan carries**: the folded operations, resolved and checked on the state before it.
It is the inversion of the write path: whatever is shown of an accepted statement goes through
it. -/
theorem planWrite_ok {gen : Generation} {st : DeltaState} {ev : Evaluator ε} {stmt : WriteStmt ε}
    {value : Value} {p : PlannedWrite} (h : st.planWrite gen ev stmt value = .ok p) : p.id = stmt.identity value ∧
      (∃ ops conditional, buildNodeWalOps ev stmt = .ok ops ∧
        st.conditionalOps gen ev stmt p.id = .ok conditional ∧ p.ops = ops ++ conditional) ∧
      st.resolveNodeOpFrom (gen.resolveBusinessKey p.id) p.id stmt.isSet stmt.upsert = .ok p.resolved ∧
      gen.validateVectorDims stmt.label p.ops = .ok () ∧ gen.validateLabelOps p.ops p.resolved stmt.label = .ok () ∧
      (stmt.plainDelete && p.resolved.any (st.nodeHasRelationships gen)) = false := by
  obtain ⟨ops, hops, h⟩ := bind_eq_ok.mp h
  obtain ⟨conditional, hcond, h⟩ := bind_eq_ok.mp h
  obtain ⟨⟨⟩, hdims, h⟩ := bind_eq_ok.mp h
  obtain ⟨resolved, hres, h⟩ := bind_eq_ok.mp h
  obtain ⟨⟨⟩, hlabels, h⟩ := bind_eq_ok.mp h
  cases hdel : stmt.plainDelete && resolved.any (st.nodeHasRelationships gen) with
  | true =>
    rw [hdel] at h
    cases h
  | false =>
    rw [hdel] at h
    cases h
    exact ⟨rfl, ⟨ops, conditional, hops, hcond, rfl⟩, hres, hdims, hlabels, hdel⟩

/-- `write_batch`: the operations are applied to the active memtable and published together. -/
def commit (ops : List ResolvedOp) : DeltaState := { st with mem := st.mem.applyAll ops }

/-- The part of `execute_write` before the commit, for a statement without `UNWIND`. -/
def planStatement : Except WriteFailure PlannedWrite := do
  let value ← ev.value stmt.keyValue "the anchor business-key value"
  st.planWrite gen ev stmt value

/-- `execute_write`. Planning reads the state, and only a plan that passes every check changes
it. -/
def executeWrite : Except WriteFailure DeltaState := do
  let plan ← st.planStatement gen ev stmt
  pure (st.commit plan.resolvedOps)

/-- `execute_write_batch`: one plan per row, all against the state before the batch. -/
def executeWriteBatch {ρ : Type} (rows : List ρ) (ev : ρ → Evaluator ε) : Except WriteFailure DeltaState := do
  let keyed ← rows.mapM fun row =>
    ((ev row).value stmt.keyValue "the anchor business-key value").map (row, ·)
  let plans ← keyed.mapM fun rv => st.planWrite gen (ev rv.1) stmt rv.2
  pure (st.commit (plans.flatMap PlannedWrite.resolvedOps))

/-- The node a `RETURN` projects, looked up after the commit. -/
def returnAnchor (committed : DeltaState) (plan : PlannedWrite) : Option Nat :=
  plan.resolved.or (committed.bornSyntheticInDelta plan.id)

end DeltaState

/-! ## Runs -/

/-- A step of the server on one graph: a node statement, or a flush of the memtable.
Relationship statements are added in `Slater.Server.EdgeWrite`. -/
inductive ServerStep (ε : Type) where
  | write (ev : Evaluator ε) (stmt : WriteStmt ε)
  | flush

namespace DeltaState

variable {ε : Type} (gen : Generation) (st : DeltaState)

/-- One step; a statement that fails leaves the state as it was. -/
def serve : ServerStep ε → DeltaState
  | .write ev stmt => ((st.executeWrite gen ev stmt).toOption).getD st
  | .flush => st.flush

/-- The acknowledged write of a step. -/
def acknowledged : ServerStep ε → Option PlannedWrite
  | .write ev stmt => (st.planStatement gen ev stmt).toOption
  | .flush => none

/-- The state after a run of steps. -/
def serveAll (steps : List (ServerStep ε)) : DeltaState := steps.foldl (serve gen) st

/-- The acknowledged writes of a run, in order. -/
def log (st : DeltaState) : List (ServerStep ε) → List PlannedWrite
  | [] => []
  | step :: steps => (st.acknowledged gen step).toList ++ (st.serve gen step).log steps

theorem serve_write (ev : Evaluator ε) (stmt : WriteStmt ε) : st.serve gen (.write ev stmt) =
      st.commit (((st.acknowledged gen (.write ev stmt)).map PlannedWrite.resolvedOps).getD []) := by
  simp only [serve, acknowledged, executeWrite]
  cases st.planStatement gen ev stmt <;> rfl

end DeltaState

/-! ## A small graph -/

/-- Statements with their values written out. -/
def literal : Evaluator Value where
  value v _ := .ok v
  map v _ := .ok (.fromValue v)

/-- One person with an indexed integer key. -/
def onePerson : CoreGraph where
  labels := ["Person"]
  nodes := [{ labels := [0], props := [("id", .int 1)] }]
  edges := []
  indexes := [("person_id", "Person", "id")]
  ends := nofun

/-- `MATCH (n:Person {id: key}) SET n.prop = value`. -/
def setPerson (key : Value) (prop : String) (value : Value) : Evaluator Value × WriteStmt Value :=
  (literal, { label := "Person", key := "id", keyValue := key, upsert := false
              op := .set [.prop prop value] })

end Slater
