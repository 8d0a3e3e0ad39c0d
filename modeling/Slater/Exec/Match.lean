import Slater.Exec.Shortest
import Slater.Exec.Traverse

/-!
# Applying a `MATCH`

`apply_match` of `slater/src/exec/matchclause.rs` and what it routes to: the streamed scan of a
single node, quantified groups, path selectors, and the general matcher. Every row of the input
table seeds a match; the output row is the input row with the new variables appended, so a column of
the input is never read back from a binding.

Storage failures and budgets are left out, as in the matcher. Nothing is proved here; the laws of the clause are in
the modules on plans, selectors and limits.
-/

namespace Slater

open Binding

/-! ## Variables -/

mutual

/-- `collect_expr_vars`: every name an expression could read. The source keeps each once; only
membership is ever asked. -/
def Expr.vars : Expr → List String
  | .literal _ | .param _ => []
  | .var v => [v]
  | .property b _ | .hasLabels b _ | .neg b | .not b | .isNull b _ => b.vars
  | .index a b | .arith _ a b | .compare _ a b | .stringOp _ a b | .inList a b => a.vars ++ b.vars
  | .slice base lo hi => base.vars ++ optionVars lo ++ optionVars hi
  | .and xs | .or xs | .xor xs | .list xs => listVars xs
  | .map kvs => entryVars kvs
  | .mapProjection var items => var :: itemVars items
  | .case subject whens els => optionVars subject ++ optionVars els ++ whenVars whens
  | .function _ _ args => argVars args
  | .listPredicate _ var list predicate => var :: list.vars ++ optionVars predicate
  | .listComprehension var list predicate projection =>
    var :: list.vars ++ optionVars predicate ++ optionVars projection
  | .reduce accVar accInit var list body => accVar :: var :: accInit.vars ++ list.vars ++ body.vars
  | .patternComprehension pattern predicate projection =>
    patternVars pattern ++ optionVars predicate ++ projection.vars
  | .patternPredicate p | .shortestPath p => patternVars p
  | .existsPatterns patterns predicate => patternsVars patterns ++ optionVars predicate

def optionVars : Option Expr → List String
  | none => []
  | some e => e.vars

def listVars : List Expr → List String
  | [] => []
  | e :: es => e.vars ++ listVars es

def entryVars : List (String × Expr) → List String
  | [] => []
  | (_, e) :: kvs => e.vars ++ entryVars kvs

def whenVars : List (Expr × Expr) → List String
  | [] => []
  | (w, t) :: whens => w.vars ++ t.vars ++ whenVars whens

def argVars : FuncArgs Expr → List String
  | .star => []
  | .args es => listVars es

def itemVars : List (MapProjItem Expr) → List String
  | [] => []
  | .literal _ e :: items => e.vars ++ itemVars items
  | .allProps :: items | .property _ :: items => itemVars items

/-- `collect_pattern_referenced_vars`. -/
def patternVars : Pattern Expr → List String
  | ⟨pathVar, start, rels, segments, _, _⟩ =>
    pathVar.toList ++ nodeVars start ++ stepVars rels ++ segmentsVars segments

def patternsVars : List (Pattern Expr) → List String
  | [] => []
  | p :: ps => patternVars p ++ patternsVars ps

def nodeVars : NodePat Expr → List String
  | ⟨var, _, props⟩ => var.toList ++ entryVars props

def relVars : RelPat Expr → List String
  | ⟨var, _, _, _, props⟩ => var.toList ++ entryVars props

def stepVars : List (RelPat Expr × NodePat Expr) → List String
  | [] => []
  | (rel, node) :: rest => relVars rel ++ nodeVars node ++ stepVars rest

def segmentsVars : Option (List (Segment Expr)) → List String
  | none => []
  | some segs => segmentVars segs

/-- The variables inside a group are not in scope outside it, only its properties are read. -/
def segmentVars : List (Segment Expr) → List String
  | [] => []
  | .hop rel node :: segs => relVars rel ++ nodeVars node ++ segmentVars segs
  | .quantified inner _ exit :: segs => innerVars inner ++ nodePropVars exit ++ segmentVars segs

def innerVars : List (RelPat Expr × NodePat Expr) → List String
  | [] => []
  | (rel, node) :: rest => relPropVars rel ++ nodePropVars node ++ innerVars rest

def nodePropVars : NodePat Expr → List String
  | ⟨_, _, props⟩ => entryVars props

def relPropVars : RelPat Expr → List String
  | ⟨_, _, _, _, props⟩ => entryVars props

end

/-- The variables of a pattern: path, start, then each relationship and node. -/
def Pattern.names (p : Pattern Expr) : List String :=
  p.pathVar.toList ++ p.start.var.toList ++ p.rels.flatMap fun rn => rn.1.var.toList ++ rn.2.var.toList

/-- `collect_pattern_vars`, over the patterns of a clause: the variables that are not columns
already, in order and each once. -/
def newVars (cols : List String) (ps : List (Pattern Expr)) : List String :=
  (ps.flatMap Pattern.names).foldl (fun out v => if v ∈ cols ∨ v ∈ out then out else out ++ [v]) []

/-! ## Rows -/

/-- The output rows of one input row. -/
def matchRows («optional» : Bool) (vars : List String) (row : List Val) (found : List Binding) : List (List Val) :=
  if found.isEmpty && «optional» then [row ++ List.replicate vars.length .null]
  else found.map fun b => row ++ vars.map fun v => (b v).getD .null

/-- Rows pushed until the cap is met. -/
def pushCapped (cap : Option Nat) (out rows : List (List Val)) : List (List Val) :=
  match cap with
  | none => out ++ rows
  | some c => out ++ rows.take (c - out.length)

/-- The columns of a row that a clause can read. -/
def seedOf (referenced cols : List String) (row : List Val) : Binding :=
  ((cols.zip row).filter fun cv => cv.1 ∈ referenced).foldl (fun b cv => b.insert cv.1 cv.2) empty

/-! ## Quantified groups -/

/-- `QUANT_MAX_UNROLL`. -/
def quantMaxUnroll : Nat := 32

/-- `repeat_inner`. -/
def repeatInner (inner : List (RelPat Expr × NodePat Expr)) (k : Nat) (exit : NodePat Expr) :
    List (RelPat Expr × NodePat Expr) :=
  let copies := (List.replicate k inner).flatten
  copies.zipIdx.map fun ((rel, node), i) =>
    ({ rel with var := none },
      if i + 1 = copies.length then exit else { node with var := none })

/-- The alternatives of a segment. -/
def segmentAlts : Segment Expr → Except Failure (List (List (RelPat Expr × NodePat Expr)))
  | .hop rel node => .ok [[(rel, node)]]
  | .quantified inner bounds exit =>
    let min := bounds.min.getD 0
    match bounds.max with
    | none =>
      .error ("an unbounded quantified path pattern ('+', '*' or '\x7bm,\x7d') is not yet " ++
        "supported; use a finite upper bound such as \x7b1,5\x7d")
    | some max =>
      if min < 1 then
        .error ("a quantified path pattern with a lower bound below 1 ('\x7b0,n\x7d', '*') " ++
          "is not yet supported; use \x7b1,n\x7d")
      else if max < min then
        .error ("quantified path pattern upper bound " ++ toString max ++ " is below lower bound " ++
          toString min)
      else if quantMaxUnroll < max * inner.length then
        .error ("quantified path pattern unrolls to more than " ++ toString quantMaxUnroll ++
          " hops; tighten the bounds")
      else .ok ((List.range' min (max + 1 - min)).map fun k => repeatInner inner k exit)

/-- Every way to take one alternative of each, the first choice varying slowest. -/
def combinations {α : Type} (alts : List (List α)) : List (List α) :=
  alts.foldl (fun combos alt => combos.flatMap fun c => alt.map fun a => c ++ [a]) [[]]

/-- `expand_quantified_pattern`. -/
def expandQuantifiedPattern (p : Pattern Expr) : Except Failure (List (Pattern Expr)) :=
  match p.segments with
  | none => .ok [p]
  | some segs => do
    let alts ← segs.mapM segmentAlts
    pure ((combinations alts).map fun chain => { start := p.start, rels := chain.flatten })

/-! ## Correlated anchors -/

mutual

/-- `where_anchor_uses_col`. -/
def whereAnchorUsesCol (var : String) (cols : List String) : Expr → Bool
  | .and parts => anyAnchorUsesCol var cols parts
  | .compare op l r =>
    ((varProp var l).isSome && isCol cols r || isCol cols l && (varProp var r).isSome) ||
      op == .eq && (isIdOf var l && isCol cols r || isCol cols l && isIdOf var r)
  | .inList l r =>
    isIdOf var l &&
      match r with
      | .list items => items.any (isCol cols)
      | e => isCol cols e
  | _ => false

def anyAnchorUsesCol (var : String) (cols : List String) : List Expr → Bool
  | [] => false
  | e :: es => whereAnchorUsesCol var cols e || anyAnchorUsesCol var cols es

/-- A bound column. -/
def isCol (cols : List String) : Expr → Bool
  | .var c => c ∈ cols
  | _ => false

end

/-- `anchor_correlated`. -/
def anchorCorrelated (start : NodePat Expr) (w : Option Expr) (cols : List String) : Bool :=
  start.props.any (fun p => isCol cols p.2) ||
    match start.var, w with
    | some var, some w => whereAnchorUsesCol var cols w
    | _, _ => false

namespace Engine

variable {m : Type → Type} [Monad m] [MonadExceptOf Failure m] (eng : Engine m)

/-! ## The streamed scan -/

variable (cols : List String)

/-- The pattern `try_stream_match` takes: one node, freshly scanned. -/
def streamable (mc : MatchClause) : Option (Pattern Expr) :=
  match mc.patterns with
  | [p] =>
    if mc.optional || !p.rels.isEmpty || p.pathVar.isSome || p.segments.isSome ||
        p.start.var.any (· ∈ cols) then none
    else some p
  | _ => none

variable (start : NodePat Expr)

/-- The plan of the streamed scan, from the scalars it may be keyed by. -/
def streamScan (w : Option Expr) (bound : String → Option Value) : NodeScan :=
  eng.view.chooseNodeScan start w { eng.planEnv empty with bound }

/-- One candidate of the streamed scan: checked, and pushed when the clause's predicate
holds. -/
def streamCandidate (w : Option Expr) (row : List Val)
    (guaranteed : List Nat) (c : Nat) (out : List (List Val)) : m (List (List Val)) := do
  let ok ← eng.nodeOk c start (.map (ofRow cols row empty)) guaranteed
  if ok then
    let r := row ++ (start.var.map fun _ => Val.node c).toList
    match w with
    | none => pure (out ++ [r])
    | some w => do
      let v ← eng.eval w (.row (cols ++ start.var.toList) r)
      pure (if v.truthy then out ++ [r] else out)
  else pure out

/-- The candidates of one input row. -/
def streamRow (w : Option Expr) (row : List Val) (cap : Option Nat) (out : List (List Val)) : m (List (List Val)) :=
  let scan := eng.streamScan start w
    (if anchorCorrelated start w cols then boundScalars (ofRow cols row empty)
      else fun _ => none)
  (eng.view.candidates scan).foldlM (fun out c =>
    if capped cap out then pure out
    else eng.streamCandidate cols start w row (eng.view.scanGuaranteedLabels scan) c out) out

variable (table : Table) (mc : MatchClause)

/-- `try_stream_match`, on the pattern it takes. An uncorrelated plan is made once; the
candidates it is replayed from are those it streams. -/
def streamMatch (start : NodePat Expr) (cap : Option Nat) : m Table := do
  let rows ← table.rows.foldlM (fun out row =>
    eng.streamRow table.cols start mc.where row cap out) []
  pure ⟨table.cols ++ start.var.toList, rows⟩

/-! ## The clause -/

/-- The loop over the input rows shared by the three matchers: `found` lists the bindings of a
row, given how many are still wanted, and `push` adds its output rows. -/
def matchTable (vars : List String) (cap : Option Nat) (push : List (List Val) → List (List Val) → List (List Val))
    (found : List Val → Option Nat → m (List Binding)) : m Table := do
  let rows ← table.rows.foldlM (fun out row => do
    if capped cap out then pure out
    else
      let bs ← found row (cap.map (· - out.length))
      pure (push out (matchRows mc.optional vars row bs))) []
  pure ⟨table.cols ++ vars, rows⟩

/-- The general matcher of `apply_match`. -/
def generalMatch (cap : Option Nat) : m Table :=
  let referenced := patternsVars mc.patterns ++ optionVars mc.where
  matchTable table mc (newVars table.cols mc.patterns) cap (· ++ ·) fun row remaining =>
    eng.matchPatterns mc.where remaining mc.patterns (seedOf referenced table.cols row) []

/-- `apply_match_quantified`. -/
def applyMatchQuantified (cap : Option Nat) : m Table := do
  let alts ← MonadExcept.ofExcept (mc.patterns.mapM expandQuantifiedPattern)
  let combos := combinations alts
  matchTable table mc (newVars table.cols (combos.headD [])) cap (pushCapped cap) fun row remaining =>
    combos.foldlM (fun out combo =>
      if capped remaining out then pure out
      else eng.matchPatterns mc.where remaining combo (ofRow table.cols row empty)
        out) []

/-- `endpoint_candidates`. -/
def endpointCandidates (node : NodePat Expr) (binding : Binding) (w : Option Expr) : m (List Nat) :=
  match node.var.bind binding with
  | some (.node id) => pure [id]
  | some _ => pure []
  | none =>
    let scan := eng.view.chooseNodeScan node w (eng.planEnv binding)
    (eng.view.candidates scan).filterM fun c =>
      eng.nodeOk c node (.map binding) (eng.view.scanGuaranteedLabels scan)

/-- The binding of a selected path, unless its end contradicts one that is bound. -/
def selectedBinding (p : Pattern Expr) (rel : RelPat Expr) (endNode : NodePat Expr) (seed : Binding)
    (src dst : Nat) (hops : List Hop) : Option Binding :=
  let b := seed.insert? p.start.var (.node src)
  if nextOk b endNode dst then
    let b := match endNode.var.bind b with
      | some _ => b
      | none => b.insert? endNode.var (.node dst)
    some ((b.insert? rel.var (.list (hops.map Hop.asRel))).insert? p.pathVar (makePath src hops))
  else none

/-- The paths of `select_paths`. -/
def selectedPaths (rel : RelPat Expr) (src dst : Nat) (selector : PathSelector) : m (List (List Hop)) :=
  let bounds := rel.varLength.elim (1, 1) varlenBounds
  match eng.view.selectPaths rel src dst bounds.1 bounds.2 selector with
  | some paths => pure paths
  | none => throw "path edge re-derivable from the CSR"

/-- The matches of one input row of `apply_match_selected`. -/
def selectedMatches (p : Pattern Expr) (rel : RelPat Expr) (endNode : NodePat Expr)
    (selector : PathSelector) (w : Option Expr) (seed : Binding) : m (List Binding) := do
  let srcs ← eng.endpointCandidates p.start seed w
  let dsts ← eng.endpointCandidates endNode seed w
  (srcs.flatMap fun src => dsts.map (src, ·)).foldlM (fun out (src, dst) => do
    let paths ← eng.selectedPaths rel src dst selector
    paths.foldlM (fun out hops =>
      match selectedBinding p rel endNode seed src dst hops with
      | none => pure out
      | some b =>
        match w with
        | none => pure (out ++ [b])
        | some w => do
          let v ← eng.eval w (.map b)
          pure (if v.truthy then out ++ [b] else out)) out) []

/-- `apply_match_selected`. -/
def applyMatchSelected (p : Pattern Expr) (selector : PathSelector) (cap : Option Nat) : m Table :=
  if p.restrictor.isSome then
    throw ("combining a path selector with a path restrictor " ++
      "(WALK/TRAIL/ACYCLIC/SIMPLE) is not yet supported")
  else match p.rels with
    | [(rel, endNode)] =>
      if !rel.props.isEmpty then
        throw "filters on relationships under a path selector are not supported"
      else
        matchTable table mc (newVars table.cols [p]) cap (pushCapped cap) fun row _ =>
          eng.selectedMatches p rel endNode selector mc.where
            (ofRow table.cols row empty)
    | _ =>
      throw ("a path selector (ANY/ALL SHORTEST or SHORTEST k) currently requires a " ++
        "single relationship, e.g. MATCH ANY SHORTEST (a)-[:R*]->(b)")

/-- **`apply_match`.** The cap is a number of rows of the result that is enough; a form that
cannot use it ignores it. -/
def applyMatch (cap : Option Nat) : m Table :=
  match mc.patterns.findSome? (·.selector), mc.patterns with
  | some selector, [p] => eng.applyMatchSelected table mc p selector cap
  | some _, _ =>
    throw ("a path selector (ANY/ALL SHORTEST or SHORTEST k) must be the only " ++
      "pattern in its MATCH clause")
  | none, ps =>
    if ps.any fun p => p.restrictor.isSome && !p.rels.any fun rn => rn.1.varLength.isSome then
      throw ("a path restrictor (WALK/TRAIL/ACYCLIC/SIMPLE) currently requires a " ++
        "variable-length relationship, e.g. MATCH TRAIL (a)-[:R*]->(b)")
    else match streamable table.cols mc with
      | some p => eng.streamMatch table mc p.start cap
      | none =>
        if ps.any (·.segments.isSome) then eng.applyMatchQuantified table mc cap
        else eng.generalMatch table mc cap

end Engine

end Slater
