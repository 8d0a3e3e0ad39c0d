import Slater.Exec.GraphView

/-!
# Shortest paths

The searches behind `ANY SHORTEST`, `ALL SHORTEST`, `SHORTEST k` and `shortestPath()`
(`slater/src/exec/matchclause.rs`). One path is found by a breadth-first search from both ends that
expands the smaller frontier and keeps nodes only; its hops are read again afterwards. Several paths
are found layer by layer over prefixes that each carry the nodes they have visited.

Every caller refuses a relationship with properties, so a hop is a hop of the view. The cap on the
nodes explored is a budget and left out. Depths are bounded by the upper bound, so the source's
`u32` sums do not overflow.
-/

namespace Slater

/-! ## One path -/

/-- One side of the bidirectional search. `par` maps a node to its neighbour towards the seed
and to its depth. The source keeps hash maps and reads them by key only, so maps and lists
without order serve. -/
structure Side where
  vis : List Nat
  par : List (Nat × Nat × Nat)
  front : List Nat
  depth : Nat
  deriving Repr

namespace Side

def seeded (seed : Nat) : Side := ⟨[seed], [], [seed], 0⟩

/-- The depth of a node the side has visited. -/
def depthOf (s : Side) (seed node : Nat) : Nat :=
  if node = seed then 0 else (s.par.lookup node).elim 0 (·.2)

end Side

/-- A level under expansion: the side so far, the next frontier and the best meeting. -/
structure SearchLevel where
  vis : List Nat
  par : List (Nat × Nat × Nat)
  next : List Nat
  best : Option (Nat × Nat)
  deriving Repr

/-- A meeting replaces the best one when it is shorter. -/
def meetAt (min total node : Nat) (best : Option (Nat × Nat)) : Option (Nat × Nat) :=
  if min ≤ total && best.all (total < ·.1) then some (total, node) else best

/-- The merge of one neighbour `nb` of `node`. -/
def visit (min depth : Nat) (theirs : Side) (theirSeed node : Nat) (lv : SearchLevel) (nb : Nat) : SearchLevel :=
  if nb ∈ lv.vis then lv
  else
    { vis := nb :: lv.vis
      par := (nb, node, depth) :: lv.par
      next := lv.next ++ [nb]
      best := if nb ∈ theirs.vis then meetAt min (depth + theirs.depthOf theirSeed nb) nb lv.best
        else lv.best }

/-- The expansion of a frontier by one level. -/
def expandSide (neighbours : Nat → List Nat) (min : Nat) (mine theirs : Side) (theirSeed : Nat)
    (best : Option (Nat × Nat)) : Side × Option (Nat × Nat) :=
  let lv := mine.front.foldl (fun lv node =>
    (neighbours node).foldl (visit min (mine.depth + 1) theirs theirSeed node) lv)
    ⟨mine.vis, mine.par, [], best⟩
  (⟨lv.vis, lv.par, lv.next, mine.depth + 1⟩, lv.best)

structure Search where
  fwd : Side
  bwd : Side
  best : Option (Nat × Nat)
  deriving Repr

/-- The radii add up to the best length found, or to the upper bound, or a side is exhausted. -/
def Search.stops (s : Search) (max : Nat) : Bool :=
  (s.best.elim max fun b => Nat.min b.1 max) ≤ s.fwd.depth + s.bwd.depth || s.fwd.front.isEmpty || s.bwd.front.isEmpty

/-- The loop. Each turn adds one to the sum of the radii, so the upper bound bounds the
turns. -/
def searchLoop (forth back : Nat → List Nat) (src dst min max : Nat) : Nat → Search → Search
  | 0, s => s
  | turns + 1, s =>
    if s.stops max then s
    else if s.fwd.front.length ≤ s.bwd.front.length then
      let (side, best) := expandSide forth min s.fwd s.bwd dst s.best
      searchLoop forth back src dst min max turns ⟨side, s.bwd, best⟩
    else
      let (side, best) := expandSide back min s.bwd s.fwd src s.best
      searchLoop forth back src dst min max turns ⟨s.fwd, side, best⟩

/-- The walk from a node to the seed along the parents; `none` is the `expect` that fires. -/
def climb (par : List (Nat × Nat × Nat)) (seed : Nat) : Nat → Nat → Option (List Nat)
  | 0, node => if node = seed then some [node] else none
  | fuel + 1, node =>
    if node = seed then some [node]
    else (par.lookup node).bind fun p => (climb par seed fuel p.1).map (node :: ·)

/-- `bidir_node_path`. A parent lies one level closer to the seed, so the radius bounds the
walk. -/
def bidirNodePath (src dst meet : Nat) (fwd bwd : Side) : Option (List Nat) := do
  let up ← climb fwd.par src fwd.depth meet
  let down ← climb bwd.par dst bwd.depth meet
  pure (up.reverse ++ down.tail)

namespace View

variable (v : View) (rel : RelPat Expr)

/-- `neighbours_par`, and the neighbours of `expand_with_dir`. -/
def neighbours (dir : Direction) (node : Nat) : List Nat :=
  (v.hops node dir rel.typeExpr).map (·.neighbour)

/-- `reconstruct_from_node_path`: the first matching edge of each step. -/
def reconstruct : List Nat → Option (List Hop)
  | u :: w :: nodes => do
    let hop ← (v.hops u rel.dir rel.typeExpr).find? (·.neighbour == w)
    let hops ← reconstruct (w :: nodes)
    pure (hop :: hops)
  | _ => some []

/-- `any_shortest_path`; `none` is a panic. -/
def anyShortestPath (src dst min max : Nat) : Option (List (List Hop)) :=
  if min = 0 ∧ src = dst then some [[]]
  else if max = 0 then some []
  else
    let s := searchLoop (v.neighbours rel rel.dir) (v.neighbours rel rel.dir.flip) src dst min max
      max ⟨Side.seeded src, Side.seeded dst, none⟩
    match s.best with
    | some (total, meet) =>
      if min ≤ total ∧ total ≤ max then do
        let nodes ← bidirNodePath src dst meet s.fwd s.bwd
        let hops ← v.reconstruct rel nodes
        pure [hops]
      else some []
    | none => some []

/-! ## Several paths -/

/-- A loopless prefix. -/
structure PathPrefix where
  node : Nat
  path : List Hop
  visited : List Nat
  deriving Repr

/-- A layer under expansion. -/
structure Layer where
  next : List PathPrefix
  results : List (List Hop)
  found : Bool
  /-- The selector has all the paths it wants. -/
  full : Bool
  deriving Repr

/-- The body of the loop over the hops of a prefix. A loopless path is never extended past its
destination. -/
def layerHop (dst min : Nat) (want : Option Nat) (e : PathPrefix) (l : Layer) (hop : Hop) : Layer :=
  if l.full || hop.neighbour ∈ e.visited then l
  else if hop.neighbour = dst then
    if min ≤ e.path.length + 1 then
      { l with
        results := l.results ++ [e.path ++ [hop]]
        found := true
        full := want.any (· ≤ l.results.length + 1) }
    else l
  else { l with next := l.next ++ [⟨hop.neighbour, e.path ++ [hop], hop.neighbour :: e.visited⟩] }

/-- One layer. -/
def layer (dst min : Nat) (want : Option Nat) (frontier : List PathPrefix)
    (results : List (List Hop)) (found : Bool) : Layer :=
  frontier.foldl (fun l e =>
    (v.hops e.node rel.dir rel.typeExpr).foldl (layerHop dst min want e) l)
    ⟨[], results, found, false⟩

/-- The loop of `select_paths`; `layers` is what is left of the upper bound. -/
def layerLoop (dst min : Nat) (want : Option Nat) (all : Bool) :
    Nat → List PathPrefix → List (List Hop) → Bool → List (List Hop)
  | 0, _, results, _ => results
  | layers + 1, frontier, results, found =>
    if frontier.isEmpty then results
    else
      let l := v.layer rel dst min want frontier results found
      if l.full || (l.found && all) then l.results
      else layerLoop dst min want all layers l.next l.results l.found

/-- The part of `select_paths` after `AnyShortest` is served. -/
def severalPaths (src dst min max : Nat) (want : Option Nat) (all : Bool) : List (List Hop) :=
  let results := if min = 0 ∧ src = dst then [[]] else []
  if results ≠ [] ∧ want.any (· ≤ results.length) then results
  else v.layerLoop rel dst min want all max [⟨src, [], [src]⟩] results false

/-- `select_paths`. -/
def selectPaths (src dst min max : Nat) : PathSelector → Option (List (List Hop))
  | .anyShortest => v.anyShortestPath rel src dst min max
  | .allShortest => some (v.severalPaths rel src dst min max none true)
  | .shortestK k _ => some (v.severalPaths rel src dst min max (some k) false)

end View

end Slater
