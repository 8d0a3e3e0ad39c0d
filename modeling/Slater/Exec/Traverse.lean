import Slater.Lib.Limit
import Slater.Exec.Scan

/-!
# Matching a pattern

The matcher of `slater/src/exec/traverse.rs`. `match_patterns` chains the patterns of a clause and
applies its `WHERE`; `match_single_pattern` picks anchors for one pattern and expands the chain from
each, depth first (`expand_chain`), breadth first in batches (`par_walk`), or by summing degrees in
the counting mode.

The source binds in place and restores on backtrack; here a binding is passed down and simply not
passed up. The rows found so far are passed along as the source's `out`. A loop that breaks once the
cap is met is a fold that does nothing from there on.

The matcher is written over a monad, so that a run that builds rows fails or answers, and a run that
counts carries its tally as well. The tally of the source is a cell of the engine; it is set for the
whole of a counting run and nowhere else, so `counting` is a field. Budgets and deadlines are left
out: they only ever stop a run.

**What it does not establish.** This module only translates. That the forms of the walk agree is shown in
`Slater.Exec.Walks`, and what they find in `Slater.Exec.Chains`.
-/

namespace Slater

/-- What the matcher reads of the engine. `eval` evaluates an expression outside an aggregation.
The mode cells of the source are fields: a run does not change them. -/
structure Engine (m : Type → Type) where
  view : View
  params : String → Option Val
  /-- A fan-out pool is configured. -/
  pool : Bool
  /-- `is_hub`. -/
  isHub : Nat → Direction → Bool
  /-- `distinct_endpoint`. -/
  distinctEndpoint : Bool
  /-- The engine is counting rows instead of building them. -/
  counting : Bool
  /-- Adds to the tally of a counting run. -/
  addCount : Nat → m Unit
  eval : Expr → Scope → m Val

/-! ## Walks -/

/-- `WalkMode`. -/
inductive WalkMode where
  | walk
  | trail
  | acyclic
  | simple
  deriving DecidableEq, Repr

/-- `walk_mode`. -/
def walkMode : Option PathRestrictor → WalkMode
  | none | some .trail => .trail
  | some .walk => .walk
  | some .acyclic => .acyclic
  | some .simple => .simple

/-- `MAX_VARLEN_HOPS`. -/
def maxVarlenHops : Nat := 15

/-- `varlen_bounds`. -/
def varlenBounds (vl : VarLength) : Nat × Nat := (vl.min.getD 1, vl.max.getD maxVarlenHops)

/-- `EXPAND_BATCH`. -/
def expandBatch : Nat := 512

/-- `SCAN_PAR_MIN`. -/
def scanParMin : Nat := 64

/-- A node variable that is bound already has to be bound to this node. -/
def nextOk (binding : Binding) (next : NodePat Expr) (nb : Nat) : Bool :=
  match next.var.bind binding with
  | none => true
  | some existing => existing.looseEq (.node nb) == some true

/-- The binding of a completed walk. -/
def pathBound (p : Pattern Expr) (start : Nat) (walk : List Hop) (binding : Binding) : Binding :=
  binding.insert? p.pathVar (makePath start walk)

/-- What a hop binds. -/
def hopBound (rel : RelPat Expr) (next : NodePat Expr) (relVal : Val) (nb : Nat) (binding : Binding) : Binding :=
  (binding.insert? rel.var relVal).insert? next.var (.node nb)

/-- The parts of a variable-length walk that do not change as it recurses. -/
structure VarLenWalk where
  start : Nat
  rel : RelPat Expr
  min : Nat
  mode : WalkMode
  binding : Binding
  next : NodePat Expr
  /-- Only the first path to an endpoint is kept. -/
  dedup : Bool

/-- `first_sight_of`: the endpoints seen are those of the paths emitted. -/
def VarLenWalk.firstSightOf (w : VarLenWalk) (out : List (List Hop × Nat)) (node : Nat) : Bool :=
  !w.dedup || out.all (·.2 != node)

/-- What `varlen` does with a hop. -/
inductive VarLenMove where
  | skip
  /-- The hop that closes a `SIMPLE` walk: emitted, never extended. -/
  | close
  | extend
  deriving DecidableEq, Repr

def VarLenWalk.move (w : VarLenWalk) (used visited : List Nat) (hop : Hop) : VarLenMove :=
  match w.mode with
  | .walk => .extend
  | .trail => if hop.edge ∈ used then .skip else .extend
  | .acyclic => if hop.neighbour ∈ visited then .skip else .extend
  | .simple =>
    if hop.neighbour ∈ visited then (if hop.neighbour = w.start then .close else .skip)
    else .extend

/-- One in-flight branch of the breadth-first walk. -/
structure ChainBranch where
  cur : Nat
  binding : Binding
  walk : List Hop

/-- `reverse_pattern`. -/
def reversePattern (p : Pattern Expr) : Pattern Expr where
  start := (p.rels.getLast?.map (·.2)).getD p.start
  rels := ((p.rels.map (·.1)).zip (p.start :: p.rels.map (·.2))).reverse.map fun rn =>
    ({ rn.1 with dir := rn.1.dir.flip }, rn.2)
  restrictor := p.restrictor

namespace Engine

variable {m : Type → Type} [Monad m] [MonadExceptOf Failure m] (eng : Engine m)

/-- `count_tally`. -/
def countTally : m Bool :=
  if eng.counting then do
    eng.addCount 1
    pure true
  else pure false

def planEnv (binding : Binding) : PlanEnv where
  params := fun name => (eng.params name).bind Val.toValue
  bound := boundScalars binding

/-- `node_ok`. -/
def nodeOk (id : Nat) (pat : NodePat Expr) (scope : Scope) (guaranteed : List Nat) : m Bool :=
  if eng.view.labelsOk id pat.labelExpr guaranteed then
    propsOk (fun e => eng.eval e scope) (fun k => pure (eng.view.nodeProp id k)) pat.props
  else pure false

/-- `rel_ok`. -/
def relOk (edge : Nat) (rel : RelPat Expr) (binding : Binding) : m Bool :=
  propsOk (fun e => eng.eval e (.map binding)) (fun k => pure (eng.view.edgeProp edge k)) rel.props

/-- `expand_with_dir`; `expand_one_hop` is it in the direction of the pattern. -/
def expandWithDir (node : Nat) (rel : RelPat Expr) (dir : Direction) (binding : Binding) : m (List Hop) :=
  (eng.view.hops node dir rel.typeExpr).filterM fun h => eng.relOk h.edge rel binding

/-! ### Variable-length walks -/

/-- The emission of `varlen`. -/
def emit (w : VarLenWalk) (node : Nat) (path : List Hop) (out : List (List Hop × Nat)) : m (List (List Hop × Nat)) :=
  if w.min ≤ path.length then do
    let ok ← eng.nodeOk node w.next (.map w.binding) []
    pure (if ok && w.firstSightOf out node then out ++ [(path, node)] else out)
  else pure out

/-- `varlen`; `steps` is what is left of the upper bound. -/
def varlen (w : VarLenWalk) (steps : Nat) (node : Nat) (path : List Hop) (used visited : List Nat)
    (out : List (List Hop × Nat)) : m (List (List Hop × Nat)) := do
  let out ← eng.emit w node path out
  match steps with
  | 0 => pure out
  | steps + 1 => do
    let hops ← eng.expandWithDir node w.rel w.rel.dir w.binding
    hops.foldlM (fun out hop =>
      match w.move used visited hop with
      | .skip => pure out
      | .close => eng.emit w hop.neighbour (path ++ [hop]) out
      | .extend => varlen w steps hop.neighbour (path ++ [hop]) (hop.edge :: used)
          (hop.neighbour :: visited) out) out

/-! ### Chains -/

variable (rel : RelPat Expr) (next : NodePat Expr)

/-- The tail shared by the loops over the hops of a node: the checks on the next node, and the
walk on from it. -/
def mergeHop (binding : Binding) (walk : List Hop)
    (onward : Nat → Binding → List Hop → List Binding → m (List Binding)) (hop : Hop)
    (out : List Binding) : m (List Binding) := do
  let ok ← eng.nodeOk hop.neighbour next (.map binding) []
  if ok && nextOk binding next hop.neighbour && walk.all (·.edge != hop.edge) then
    onward hop.neighbour (hopBound rel next hop.asRel hop.neighbour binding) (walk ++ [hop]) out
  else pure out

/-- The degree-sum terminal: the final hop is counted instead of walked. -/
def addDegree (node : Nat) (dir : Direction) (out : List Binding) : m (List Binding) := do
  let d ← MonadExcept.ofExcept (eng.view.incidentCount node dir)
  eng.addCount d
  pure out

/-- A completed walk: tallied, or emitted. -/
def complete (row : Binding) (out : List Binding) : m (List Binding) := do
  let tallied ← eng.countTally
  pure (if tallied then out else out ++ [row])

variable (p : Pattern Expr) (binding : Binding)

/-- The walk of the variable-length arm of `expand_chain`. The edges of the fixed prefix are
used already; the start is visited already when nodes may not repeat. -/
def varlenWalk (rel : RelPat Expr) (next : NodePat Expr) (vl : VarLength)
    (last : Bool) (cur : Nat) (binding : Binding) (walk : List Hop) : m (List (List Hop × Nat)) :=
  eng.varlen
    { start := cur
      rel, next, binding
      min := (varlenBounds vl).1
      mode := walkMode p.restrictor
      dedup := eng.distinctEndpoint && p.pathVar.isNone && rel.var.isNone && last }
    (varlenBounds vl).2 cur [] (walk.map (·.edge)) [cur] []

/-- `expand_chain`, on the relationships still to walk; `degree` arms the degree-sum
terminal. -/
def expandChain (p : Pattern Expr) (degree : Bool) (cap : Option Nat) (start : Nat) :
    List (RelPat Expr × NodePat Expr) → Nat → Binding → List Hop → List Binding → m (List Binding)
  | rels, cur, binding, walk, out =>
    if capped cap out then pure out
    else match rels with
      | [] => eng.complete (pathBound p start walk binding) out
      | (rel, next) :: rest =>
        if degree && rest.isEmpty then eng.addDegree cur rel.dir out
        else match rel.varLength with
          | none =>
            let step := eng.mergeHop rel next binding walk
              (fun nb b w out => expandChain p degree cap start rest nb b w out)
            if cap.isNone && eng.isHub cur rel.dir then
              -- a hub is streamed, and its relationship properties are checked hop by hop
              (eng.view.hops cur rel.dir rel.typeExpr).foldlM (fun out hop => do
                let ok ← eng.relOk hop.edge rel binding
                if ok then step hop out else pure out) out
            else do
              let hops ← eng.expandWithDir cur rel rel.dir binding
              hops.foldlM (fun out hop => if capped cap out then pure out else step hop out) out
          | some vl => do
            let paths ← eng.varlenWalk p rel next vl rest.isEmpty cur binding walk
            paths.foldlM (fun out (hops, endNode) =>
              if capped cap out || !nextOk binding next endNode then pure out
              else expandChain p degree cap start rest endNode
                (hopBound rel next (.list (hops.map Hop.asRel)) endNode binding) (walk ++ hops) out)
              out

/-- `walk_merge_hop`, up to the branch it adds. -/
def walkMergeHop (trackWalk : Bool) (b : ChainBranch)
    (hop : Hop) : m (Option ChainBranch) := do
  let ok ← eng.nodeOk hop.neighbour next (.map b.binding) []
  if ok && nextOk b.binding next hop.neighbour &&
      (!trackWalk || b.walk.all (·.edge != hop.edge)) then
    pure (some
      { cur := hop.neighbour
        binding := hopBound rel next hop.asRel hop.neighbour b.binding
        walk := if trackWalk then b.walk ++ [hop] else [] })
  else pure none

/-- The loop over the hops of a branch in `par_walk`: a full batch of branches is walked on
before the next hop is read. -/
def addHop (trackWalk : Bool) (flush : List ChainBranch → List Binding → m (List Binding)) (b : ChainBranch)
    (acc : List ChainBranch × List Binding) (hop : Hop) : m (List ChainBranch × List Binding) := do
  match ← eng.walkMergeHop rel next trackWalk b hop with
  | none => pure acc
  | some branch =>
    let pending := acc.1 ++ [branch]
    if expandBatch ≤ pending.length then do
      let out ← flush pending acc.2
      pure ([], out)
    else pure (pending, acc.2)

/-- `par_walk`. The source reads adjacency in chunks of the frontier and streams hubs, which
changes no hop and no order. -/
def parWalk (p : Pattern Expr) (degree : Bool) (start : Nat) :
    List (RelPat Expr × NodePat Expr) → List ChainBranch → List Binding → m (List Binding)
  | [], frontier, out =>
    frontier.foldlM (fun out b => eng.complete (pathBound p start b.walk b.binding) out) out
  | (rel, next) :: rest, frontier, out =>
    if degree && rest.isEmpty then
      frontier.foldlM (fun out b => eng.addDegree b.cur rel.dir out) out
    else do
      let trackWalk := p.pathVar.isSome || 1 < p.rels.length
      let flush := fun pending out => parWalk p degree start rest pending out
      let acc ← frontier.foldlM (fun acc b =>
        (eng.view.hops b.cur rel.dir rel.typeExpr).foldlM
          (eng.addHop rel next trackWalk flush b) acc) ([], out)
      if acc.1.isEmpty then pure acc.2 else flush acc.1 acc.2

/-! ### Patterns -/

/-- `chain_parallelizable`. -/
def chainParallelizable : Bool :=
  eng.pool && p.segments.isNone && !p.rels.isEmpty && p.rels.all fun rn => rn.1.varLength.isNone && rn.1.props.isEmpty

/-- `degree_terminal_dir`, whether there is one. -/
def degreeTerminal : Bool :=
  match p.rels.getLast? with
  | none => false
  | some (rel, node) =>
    p.pathVar.isNone && p.segments.isNone && p.selector.isNone && p.restrictor.isNone &&
      p.rels.all (fun rn => rn.1.varLength.isNone) && rel.props.isEmpty &&
      (match rel.typeExpr with
        | none => true
        | some e => match eng.view.reltypes with
          | [t] => e.eval (· == t)
          | _ => false) &&
      node.labelExpr.isNone && node.props.isEmpty &&
      (match node.var with
        | none => true
        | some v => p.start.var != some v &&
          p.rels.dropLast.all fun rn => rn.1.var != some v && rn.2.var != some v) &&
      eng.view.degreesNotExact.isNone

/-- `maybe_reroot`. -/
def maybeReroot (w : Option Expr) : Option (Pattern Expr) :=
  if p.pathVar.isSome || p.rels.any (fun rn => rn.1.varLength.isSome) ||
      (p.start.var.bind binding).isSome then none
  else do
    let (_, endNode) ← p.rels.getLast?
    let endVar ← endNode.var
    match binding endVar with
    | some (.node _) => some (reversePattern p)
    | some _ => none
    | none => do
      let w ← w
      let env := eng.planEnv binding
      let startAnchored := p.start.var.any fun v => env.isIdAnchored v w
      if startAnchored || !env.isIdAnchored endVar w then none else some (reversePattern p)

/-- The filter of the prefiltered anchors, `node_ok_par`. -/
def nodeOkPar (id : Nat) (labelExpr : Option LabelExpr) (wants : List (String × Val)) (guaranteed : List Nat) : Bool :=
  eng.view.labelsOk id labelExpr guaranteed && wants.all fun w => (eng.view.nodeProp id w.1).looseEq w.2 == some true

/-- What the start node's inline properties must be, read once for the prefilter. -/
def anchorWants : m (List (String × Val)) :=
  p.start.props.mapM fun ke => do
    let want ← eng.eval ke.2 (.map binding)
    pure (ke.1, want)

/-- The walk from one anchor of `match_single_pattern`. -/
def walkAnchor (par degree : Bool) (cap : Option Nat) (c : Nat) (out : List Binding) : m (List Binding) :=
  let frame := binding.insert? p.start.var (.node c)
  if par then eng.parWalk p degree c p.rels [⟨c, frame, []⟩] out
  else eng.expandChain p degree cap c p.rels c frame [] out

/-- The anchor loop of `match_single_pattern`, over the anchors a check lets through. -/
def walkAnchorsBy (ok : Nat → m Bool) (p : Pattern Expr) (binding : Binding) (par degree : Bool)
    (cap : Option Nat) (ids : List Nat) (out : List Binding) : m (List Binding) :=
  ids.foldlM (fun out c =>
    if capped cap out then pure out
    else do
      let ok ← ok c
      if ok then eng.walkAnchor p binding par degree cap c out else pure out) out

/-- The anchor loop of `match_single_pattern`. -/
def walkAnchors (w : Option Expr) (ids : List Nat)
    (upperBound : Nat) (guaranteed : List Nat) (out : List Binding) (cap : Option Nat) : m (List Binding) :=
  let par := cap.isNone && eng.chainParallelizable p
  let degree := eng.counting && w.isNone && eng.degreeTerminal p
  if cap.isNone && eng.pool && decide (scanParMin ≤ upperBound) &&
      eng.view.anchorFilterReads p.start guaranteed then do
    let wants ← eng.anchorWants p binding
    eng.walkAnchorsBy (fun c => pure (eng.nodeOkPar c p.start.labelExpr wants guaranteed))
      p binding par degree cap ids out
  else
    eng.walkAnchorsBy (fun c => eng.nodeOk c p.start (.map binding) guaranteed) p binding par degree cap ids out

/-- The scan an unbound anchor is driven from. -/
def anchorScan (w : Option Expr) : NodeScan :=
  let scan := eng.view.chooseNodeScan p.start w (eng.planEnv binding)
  (eng.view.maybeRelTypeScan scan p).getD scan

/-- `match_single_pattern`. -/
def matchSinglePattern (w : Option Expr) (out : List Binding) (cap : Option Nat) : m (List Binding) :=
  let p := (eng.maybeReroot p binding w).getD p
  match p.start.var.bind binding with
  | some (.node id) => eng.walkAnchors p binding w [id] 1 [] out cap
  | some _ => pure out
  | none =>
    let scan := eng.anchorScan p binding w
    eng.walkAnchors p binding w (eng.view.candidates scan) (eng.view.upperBound scan)
      (eng.view.scanGuaranteedLabels scan) out cap

/-- `match_patterns`. -/
def matchPatterns (w : Option Expr) (cap : Option Nat) :
    List (Pattern Expr) → Binding → List Binding → m (List Binding)
  | ps, binding, out =>
    if capped cap out then pure out
    else match ps with
      | [] =>
        match w with
        | none => pure (out ++ [binding])
        | some w => do
          let ok ← eng.eval w (.map binding)
          pure (if ok.truthy then out ++ [binding] else out)
      | p :: rest => do
        let spCap := if rest.isEmpty && w.isNone then cap.map (· - out.length) else none
        let found ← eng.matchSinglePattern p binding w [] spCap
        found.foldlM (fun out b =>
          if capped cap out then pure out else matchPatterns w cap rest b out) out

end Engine

end Slater
