import Slater.Exec.View

/-!
# Anchors

How a pattern is started: `slater/src/plan.rs` picks a structure to sweep for the first node of a
pattern, and `slater/src/exec/scan.rs` turns the choice into candidates and filters them. A scan
only narrows the candidates. What it may not narrow by is decided in two places that have to agree:
`scan_guaranteed_labels` says which labels a scan has proved, and `node_ok` skips those.

The source hands candidates out in windows of growing size. The windows tile the id space in order,
so the candidates are listed here in one piece.

**What it does not establish.** Which scan is cheapest is decided by counts that are given; no cost is modelled, and
no scan is shown here to be complete (`Slater.Exec.Anchors`, `Slater.Exec.PlanChoice`).
-/

namespace Slater

/-- How candidates for a node pattern are generated. -/
inductive NodeScan where
  | idSeek (ids : List Nat)
  | rangeEq (index : String) (key : Value)
  | rangeRange (index : String) (lo hi : Option (Value × Bool))
  | labelScan (labelId : Nat)
  | allNodes
  | relTypeScan (reltypeIds : List Nat) (side : EndpointSide) (guaranteedLabel : Option Nat)
  deriving DecidableEq, Repr

/-- A constant predicate on a property of the anchor. -/
inductive Pred where
  | eq (v : Value)
  | lo (v : Value) (inclusive : Bool)
  | hi (v : Value) (inclusive : Bool)
  deriving DecidableEq, Repr

/-- The values a plan may be keyed by: the parameters of the query and the scalars of the
row. -/
structure PlanEnv where
  params : String → Option Value
  bound : String → Option Value

/-- `bound_scalars`. -/
def boundScalars (b : Binding) : String → Option Value := fun name => (b name).bind Val.toValue

namespace PlanEnv

variable (env : PlanEnv)

/-- `resolve`. -/
def resolve : Expr → Option Value
  | .literal v => some v
  | .param name => env.params name
  | .var name => env.bound name
  | _ => none

/-- `const_int`. -/
def constInt : Expr → Option Int64
  | .neg inner => (constInt inner).bind fun i => if i = Int64.minValue then none else some (-i)
  | e => match env.resolve e with
    | some (.int i) => some i
    | _ => none

end PlanEnv

/-- `is_id_of`. -/
def isIdOf (var : String) : Expr → Bool
  | .function name false (.args [.var v]) => name.toLower == "id" && v == var
  | _ => false

/-- `var_prop`. -/
def varProp (var : String) : Expr → Option String
  | .property (.var v) prop => if v = var then some prop else none
  | _ => none

namespace PlanEnv

variable (env : PlanEnv) (var : String)

/-- `id_eq_operand`. -/
def idEqOperand (l r : Expr) : Option Int64 :=
  if isIdOf var l then env.constInt r
  else if isIdOf var r then env.constInt l
  else none

/-- The integers of a constant list, when all its elements are integers. -/
def constIds : Expr → Option (List Int64)
  | .list items => items.mapM env.constInt
  | e@(.param _) | e@(.var _) =>
    match env.resolve e with
    | some (.list items) => items.mapM fun
      | .int i => some i
      | _ => none
    | _ => none
  | _ => none

mutual

/-- `collect_id_eq`: the constraints on `id(var)` among the conjuncts, in order, each with the
integers it allows. -/
def collectIdEq : Expr → List (List Int64)
  | .and parts => collectIdEqs parts
  | .compare .eq l r => ((env.idEqOperand var l r).map ([·])).toList
  | .inList l r => if isIdOf var l then (env.constIds r).toList else []
  | _ => []

def collectIdEqs : List Expr → List (List Int64)
  | [] => []
  | e :: es => collectIdEq e ++ collectIdEqs es

end

/-- `is_id_anchored`. -/
def isIdAnchored (w : Expr) : Bool := !(env.collectIdEq var w).isEmpty

/-- `id_seek_ids`: ascending, each once. A negative id is the id of no node. -/
def idSeekIds (w : Expr) (nodeCount : Nat) : Option (List Nat) :=
  match env.collectIdEq var w with
  | [] => none
  | idSets => some ((List.range nodeCount).filter fun id =>
      idSets.flatten.any fun i => 0 ≤ i.toInt && i.toInt.toNat == id)

/-- `compare_operands`: the property, the constant, and whether the property stood on the
right. -/
def compareOperands (l r : Expr) : Option (String × Value × Bool) :=
  match varProp var l, env.resolve r with
  | some prop, some v => some (prop, v, false)
  | _, _ =>
    match env.resolve l, varProp var r with
    | some v, some prop => some (prop, v, true)
    | _, _ => none

end PlanEnv

/-- `mirror`. -/
def CmpOp.mirror : CmpOp → CmpOp
  | .lt => .gt
  | .le => .ge
  | .gt => .lt
  | .ge => .le
  | op => op

/-- `pred_for`. -/
def predFor (op : CmpOp) (v : Value) (flipped : Bool) : Option Pred :=
  match bif flipped then op.mirror else op with
  | .eq => some (.eq v)
  | .gt => some (.lo v false)
  | .ge => some (.lo v true)
  | .lt => some (.hi v false)
  | .le => some (.hi v true)
  | .ne => none

namespace PlanEnv

variable (env : PlanEnv) (var : String)

mutual

/-- `collect_where_preds`. -/
def collectWherePreds : Expr → List (String × Pred)
  | .and parts => collectWherePredsAll parts
  | .compare op l r =>
    match env.compareOperands var l r with
    | some (prop, v, flipped) => ((predFor op v flipped).map (prop, ·)).toList
    | none => []
  | _ => []

def collectWherePredsAll : List Expr → List (String × Pred)
  | [] => []
  | e :: es => collectWherePreds e ++ collectWherePredsAll es

end

/-- `inline_preds`. -/
def inlinePreds (node : NodePat Expr) : List (String × Pred) :=
  node.props.filterMap fun p => (env.resolve p.2).map fun v => (p.1, .eq v)

end PlanEnv

namespace View

variable (v : View)

/-! ## Choosing a scan -/

variable (labels : List String)

/-- `index_for`. -/
def indexFor (prop : String) : Option String :=
  (v.rangeIndexes.find? fun ri => ri.property == prop && ri.label ∈ labels).map (·.name)

variable (preds : List (String × Pred))

/-- The equality lookup of `choose_from_preds`: the first equality on an indexed property. -/
def eqScan : Option NodeScan :=
  preds.findSome? fun
    | (prop, .eq key) => (v.indexFor labels prop).map fun index => .rangeEq index key
    | _ => none

/-- The last bounds on a property. -/
def boundsOn (prop : String) : Option (Value × Bool) × Option (Value × Bool) :=
  preds.foldl (fun b p =>
    if p.1 = prop then
      match p.2 with
      | .lo key incl => (some (key, incl), b.2)
      | .hi key incl => (b.1, some (key, incl))
      | .eq _ => b
    else b) (none, none)

/-- The range lookup of `choose_from_preds`. -/
def rangeScan : Option NodeScan :=
  preds.findSome? fun p =>
    (v.indexFor labels p.1).bind fun index =>
      match boundsOn preds p.1 with
      | (none, none) => none
      | (lo, hi) => some (.rangeRange index lo hi)

/-- The first of the labels with the fewest core nodes. -/
def smallestLabel : List Nat → Option Nat
  | [] => none
  | l :: ls => some (ls.foldl (fun m l => if v.labelNodeCount l < v.labelNodeCount m then l else m) l)

/-- `choose_from_preds`. -/
def chooseFromPreds (node : NodePat Expr) (preds : List (String × Pred)) : NodeScan :=
  let req := node.requiredLabels
  match v.eqScan req preds with
  | some scan => scan
  | none =>
    match v.rangeScan req preds with
    | some scan => scan
    | none =>
      match v.smallestLabel (req.filterMap v.labelId) with
      | some label => .labelScan label
      | none => .allNodes

/-- `choose_node_scan`. -/
def chooseNodeScan (node : NodePat Expr) (w : Option Expr) (env : PlanEnv) : NodeScan :=
  match node.var, w with
  | some var, some w =>
    match env.idSeekIds var w v.nodeCount with
    | some ids => .idSeek ids
    | none => v.chooseFromPreds node (env.inlinePreds node ++ env.collectWherePreds var w)
  | _, _ => v.chooseFromPreds node (env.inlinePreds node)

def sideOf : Direction → EndpointSide
  | .outgoing => .source
  | .incoming => .target
  | .undirected => .either

/-- The estimate of `maybe_rel_type_scan`; the source saturates the sum. -/
def endpointEstimate (reltypeIds : List Nat) (side : EndpointSide) : Nat :=
  (reltypeIds.map fun t => match side with
    | .source => v.reltypeSourceCount t
    | .target => v.reltypeTargetCount t
    | .either => v.reltypeSourceCount t + v.reltypeTargetCount t).sum

/-- What `maybe_rel_type_scan` may replace: the cost of the scan and the label it proves. -/
def replaceable : NodeScan → Option (Nat × Option Nat)
  | .labelScan label => some (v.labelNodeCount label, some label)
  | .allNodes => some (v.nodeCount, none)
  | _ => none

/-- `maybe_rel_type_scan`. -/
def maybeRelTypeScan (base : NodeScan) (p : Pattern Expr) : Option NodeScan :=
  if !v.hasReltypePostings || !v.singleton then none
  else do
    let (baseCost, guaranteedLabel) ← v.replaceable base
    if p.segments.isSome || p.selector.isSome then none
    else do
      let (rel, _) ← p.rels.head?
      if rel.varLength.isSome then none
      else do
        let names ← rel.typeExpr.bind LabelExpr.positiveAtoms
        let reltypeIds := names.filterMap v.reltypeId
        let side := sideOf rel.dir
        if reltypeIds.isEmpty then none
        else if !v.deltaEmpty && names.any fun n => 0 < v.deltaBornEdges n then none
        else if baseCost ≤ v.endpointEstimate reltypeIds side then none
        else some (.relTypeScan reltypeIds side guaranteedLabel)

/-! ## Candidates -/

/-- The ids a scan visits, before deleted nodes are dropped. -/
def scanIds : NodeScan → List Nat
  | .idSeek ids => ids
  | .rangeEq index key =>
    match v.rangeIndexes.find? (·.name == index) with
    | some ri => ri.lookupEq key
    | none => []
  | .rangeRange index lo hi =>
    match v.rangeIndexes.find? (·.name == index) with
    | some ri => ri.lookupRange lo hi
    | none => []
  | .labelScan label => v.labelScan label
  | .allNodes => List.range v.nodeCount
  | .relTypeScan reltypeIds side _ => v.mergeIds fun id => id ∈ v.endpointPostings reltypeIds side

/-- `candidate_stream`, drained. -/
def candidates (scan : NodeScan) : List Nat := (v.scanIds scan).filter fun id => !v.suppressed id

/-- `upper_bound`: the length of a list that is at hand, the swept id space of a stream. -/
def upperBound (scan : NodeScan) : Nat :=
  match scan with
  | .idSeek _ | .rangeEq .. | .rangeRange .. => (v.candidates scan).length
  | .labelScan _ | .allNodes | .relTypeScan .. => v.nodeCount

/-- `scan_guaranteed_labels`. -/
def scanGuaranteedLabels : NodeScan → List Nat
  | .labelScan label => bif v.deltaHasLabelOverlay then [] else [label]
  | .rangeEq index _ | .rangeRange index _ _ =>
    ((v.rangeIndexes.find? (·.name == index)).bind fun ri => v.labelId ri.label).toList
  | .idSeek _ | .allNodes => []
  | .relTypeScan _ _ guaranteedLabel => guaranteedLabel.toList

/-! ## Filtering -/

/-- The label half of `node_ok` and of `node_ok_par`. -/
def labelsOk (id : Nat) (labelExpr : Option LabelExpr) (guaranteed : List Nat) : Bool :=
  match labelExpr with
  | none => true
  | some e =>
    match e.asSingleAtom with
    | some atom =>
      match v.labelId atom with
      | some lid => lid ∈ guaranteed || lid ∈ v.labelIds id
      | none => false
    | none =>
      e.eval fun name => (v.labelId name).any fun lid => lid ∈ guaranteed || lid ∈ v.labelIds id

/-- `anchor_filter_reads`. -/
def anchorFilterReads (start : NodePat Expr) (guaranteed : List Nat) : Bool :=
  if !start.props.isEmpty then true
  else match start.labelExpr with
    | none => false
    | some e =>
      match e.asSingleAtom with
      | some atom =>
        match v.labelId atom with
        | some lid => lid ∉ guaranteed
        | none => false
      | none => true

end View

end Slater
