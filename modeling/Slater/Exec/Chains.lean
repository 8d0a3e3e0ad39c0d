import Slater.Exec.AsWritten
import Slater.Lib.Routes

/-!
# The chains of a pattern

What a match is, without saying how it is found: a chain of relationships through the graph, one leg
for each relationship pattern, where a leg is a hop or, for a variable length, a walk. A chain counts
if each leg passes (`legOk`): its length, its relationships, its node, the variables bound before,
and that none of its relationships is used again. The rows of a pattern as written are exactly the
rows of the chains that count, each as often as the graph has the chain (`asWritten_chains`).

**What it does not establish.** Relationships may not repeat here, which is the mode of a pattern
without a restrictor. The modes that restrict nodes instead are left out, and so is a search that
keeps one path to each end.
-/

namespace Slater

open List Option Fallible Route

namespace View

variable (v : View) (rel : RelPat Expr)

/-- The walks of at most so many hops, with where they end. -/
def walksWithin : Nat → Nat → List (List Hop × Nat)
  | 0, n => [([], n)]
  | k + 1, n => ([], n) :: (v.leg rel n).flatMap fun h =>
      (walksWithin k h.neighbour).map fun r => (h :: r.1, r.2)

/-- The legs a relationship pattern may take. -/
def legs (n : Nat) : List (List Hop × Nat) :=
  match rel.varLength with
  | none => (v.leg rel n).map fun h => ([h], h.neighbour)
  | some vl => v.walksWithin rel (varlenBounds vl).2 n

end View

namespace Engine

variable (eng : Engine Option)

/-! ## What counts -/

variable (rel : RelPat Expr)

/-- The relationships of a leg: each passes, none is used twice. -/
def hopsOk (b : Binding) (used : List Nat) (hops : List Hop) : Bool :=
  hops.all (fun h => eng.relOk h.edge rel b == some true) &&
    decide ((hops.map (·.edge)).Nodup) && hops.all fun h => decide (h.edge ∉ used)

/-- **What a leg has to pass.** -/
def legOk (next : NodePat Expr) (b : Binding) (walk : List Hop) (leg : List Hop × Nat) : Bool :=
  (rel.varLength.all fun vl => decide ((varlenBounds vl).1 ≤ leg.1.length)) &&
    eng.hopsOk rel b (walk.map (·.edge)) leg.1 &&
    eng.nodeOk leg.2 next (.map b) [] == some true && nextOk b next leg.2

/-- What the variable of a relationship stands for. -/
def legVal (hops : List Hop) : Val :=
  match rel.varLength, hops with
  | none, h :: _ => h.asRel
  | none, [] => .null
  | some _, hops => .list (hops.map Hop.asRel)

/-- **What a chain has to pass**, leg after leg. -/
def chainOk : List (RelPat Expr × NodePat Expr) → Binding → List Hop → List (List Hop × Nat) → Bool
  | (rel, next) :: rels, b, walk, leg :: legs =>
    eng.legOk rel next b walk leg && chainOk rels (hopBound rel next (legVal rel leg.1) leg.2 b) (walk ++ leg.1) legs
  | _, _, _, _ => true

/-- The row of a chain. -/
def chainRow (p : Pattern Expr) (start : Nat) :
    List (RelPat Expr × NodePat Expr) → Binding → List Hop → List (List Hop × Nat) → Binding
  | (rel, next) :: rels, b, walk, leg :: legs =>
    chainRow p start rels (hopBound rel next (legVal rel leg.1) leg.2 b) (walk ++ leg.1) legs
  | _, b, walk, _ => pathBound p start walk b

variable {eng} {rels : List (RelPat Expr × NodePat Expr)} {path : List Hop} {w : VarLenWalk}

/-! ## Walks of variable length -/

/-- What `varlen` does with a hop. -/
def varlenHop (eng : Engine Option) (w : VarLenWalk) (steps : Nat) (path : List Hop)
    (used visited : List Nat) (out : List (List Hop × Nat)) (hop : Hop) : Option (List (List Hop × Nat)) :=
  match w.move used visited hop with
  | .skip => pure out
  | .close => eng.emit w hop.neighbour (path ++ [hop]) out
  | .extend => eng.varlen w steps hop.neighbour (path ++ [hop]) (hop.edge :: used) (hop.neighbour :: visited) out

theorem varlen_succ (w : VarLenWalk) (steps node : Nat) (path : List Hop) (used visited : List Nat)
    (out : List (List Hop × Nat)) :
    eng.varlen w (steps + 1) node path used visited out = eng.emit w node path out >>= fun out =>
        eng.expandWithDir node w.rel w.rel.dir w.binding >>= fun hops =>
          hops.foldlM (eng.varlenHop w steps path used visited) out := rfl

/-- A walk that starts with a hop passes when the hop does, and the rest does without it. -/
theorem hopsOk_cons (b : Binding) (used : List Nat) (h : Hop) (hs : List Hop) :
    eng.hopsOk rel b used (h :: hs) = (eng.relOk h.edge rel b == some true &&
      (decide (h.edge ∉ used) && eng.hopsOk rel b (h.edge :: used) hs)) := by
  rw [Bool.eq_iff_iff]
  simp only [hopsOk, all_cons, map_cons, nodup_cons, Bool.and_eq_true,
    decide_eq_true_eq, List.all_eq_true, List.mem_map, List.mem_cons, not_or, not_exists, not_and]
  constructor
  · rintro ⟨⟨⟨hrel, hrels⟩, hfirst, hnodup⟩, hused, hunused⟩
    exact ⟨hrel, hused, ⟨hrels, hnodup⟩, fun g hg => ⟨hfirst g hg, hunused g hg⟩⟩
  · rintro ⟨hrel, hused, ⟨hrels, hnodup⟩, hunused⟩
    exact ⟨⟨⟨hrel, hrels⟩, fun g hg => (hunused g hg).1, hnodup⟩, hused, fun g hg => (hunused g hg).2⟩

theorem emit_some {node : Nat} {out : List (List Hop × Nat)}
    (h : eng.emit w node path [] = some out) : out = if decide (w.min ≤ path.length) &&
        eng.nodeOk node w.next (.map w.binding) [] == some true then [(path, node)] else [] := by
  unfold emit at h
  split at h
  · rename_i hmin
    obtain ⟨ok, hok, h⟩ := bind_eq_some_iff.1 h
    cases h
    cases ok <;> simp [hmin, hok, VarLenWalk.firstSightOf]
  · rename_i hmin
    cases h
    simp [hmin]

section

variable {w : VarLenWalk} (hdedup : w.dedup = false)

include hdedup

theorem emit_adds (node : Nat) (path : List Hop) (out : List (List Hop × Nat)) :
    eng.emit w node path out = (eng.emit w node path []).map (out ++ ·) := by
  unfold emit
  split
  · cases eng.nodeOk node w.next (.map w.binding) [] with
    | none => rfl
    | some ok => cases ok <;> simp [VarLenWalk.firstSightOf, hdedup]
  · simp

theorem varlenHop_adds {steps : Nat}
    (ih : ∀ node path used visited out, eng.varlen w steps node path used visited out =
      (eng.varlen w steps node path used visited []).map (out ++ ·))
    (path : List Hop) (used visited : List Nat) (hop : Hop) (out : List (List Hop × Nat)) :
    eng.varlenHop w steps path used visited out hop =
      (eng.varlenHop w steps path used visited [] hop).map (out ++ ·) := by
  unfold varlenHop
  cases w.move used visited hop with
  | skip => simp
  | close => exact emit_adds hdedup _ _ _
  | extend => exact ih _ _ _ _ _

theorem varlen_adds (steps node : Nat) (path : List Hop) (used visited : List Nat) (out : List (List Hop × Nat)) :
    eng.varlen w steps node path used visited out = (eng.varlen w steps node path used visited []).map (out ++ ·) := by
  induction steps generalizing node path used visited out with
  | zero =>
    simp only [varlen, emit_adds hdedup node path out]
    cases eng.emit w node path [] <;> rfl
  | succ steps ih =>
    rw [varlen_succ, varlen_succ, emit_adds hdedup node path out]
    cases eng.emit w node path [] with
    | none => rfl
    | some emitted =>
      cases eng.expandWithDir node w.rel w.rel.dir w.binding with
      | none => rfl
      | some hops =>
        simp only [map_some, bind_eq_bind, bind_some]
        rw [foldlM_adds (varlenHop_adds hdedup ih path used visited),
          foldlM_adds (varlenHop_adds hdedup ih path used visited), Option.map_map]
        exact congrArg (Option.map · _) (funext fun rss => append_assoc _ _ _)

variable (hmode : w.mode = .trail)

include hmode

/-- **A search without repeats finds the walks that pass.** -/
theorem varlen_walks (steps : Nat) {node : Nat} {path : List Hop} {used visited : List Nat}
    {out : List (List Hop × Nat)} (h : eng.varlen w steps node path used visited [] = some out) :
    out = ((eng.view.walksWithin w.rel steps node).filter fun r =>
        decide (w.min ≤ path.length + r.1.length) && eng.hopsOk w.rel w.binding used r.1 &&
          eng.nodeOk r.2 w.next (.map w.binding) [] == some true).map fun r => (path ++ r.1, r.2) := by
  have hself : ∀ {node : Nat} {path : List Hop} {used : List Nat} {out : List (List Hop × Nat)},
      eng.emit w node path [] = some out → out = ([(([] : List Hop), node)].filter fun r =>
        decide (w.min ≤ path.length + r.1.length) && eng.hopsOk w.rel w.binding used r.1 &&
          eng.nodeOk r.2 w.next (.map w.binding) [] == some true).map
        fun r => (path ++ r.1, r.2) := by
    intro node path used out h
    rw [emit_some h, filter_singleton]
    simp only [hopsOk, all_nil, map_nil, nodup_nil,
      decide_true, Bool.and_true]
    cases decide (w.min ≤ path.length) && eng.nodeOk node w.next (.map w.binding) [] == some true with
    | true => simp
    | false => rfl
  induction steps generalizing node path used visited out with
  | zero =>
    obtain ⟨emitted, hemit, h⟩ := bind_eq_some_iff.1 h
    cases h
    exact hself hemit
  | succ steps ih =>
    rw [varlen_succ] at h
    obtain ⟨emitted, hemit, h⟩ := bind_eq_some_iff.1 h
    obtain ⟨hops, hhops, h⟩ := bind_eq_some_iff.1 h
    rw [foldlM_adds (varlenHop_adds hdedup (varlen_adds hdedup steps) path used visited)] at h
    obtain ⟨rss, hrss, rfl⟩ := map_eq_some_iff.1 h
    obtain ⟨-, rfl⟩ := filterM_eq_some_iff.1 hhops
    let further (hop : Hop) : List (List Hop × Nat) := if hop.edge ∈ used then [] else
      ((eng.view.walksWithin w.rel steps hop.neighbour).filter fun r =>
        decide (w.min ≤ (path ++ [hop]).length + r.1.length) && eng.hopsOk w.rel w.binding (hop.edge :: used) r.1 &&
          eng.nodeOk r.2 w.next (.map w.binding) [] == some true).map
        fun r => (path ++ [hop] ++ r.1, r.2)
    have hfurther : ∀ hop rs, eng.varlenHop w steps path used visited [] hop = some rs → rs = further hop := by
      intro hop rs hrs
      simp only [varlenHop, VarLenWalk.move, hmode] at hrs
      dsimp only [further]
      split_ifs at hrs ⊢
      · cases hrs
        rfl
      · exact ih hrs
    rw [mapM_eq_map hrss fun hop _ => hfurther hop, ← flatMap_def, filter_flatMap_eq, View.walksWithin, ← singleton_append,
      filter_append, map_append, ← hself hemit, filter_flatMap, map_flatMap]
    refine congrArg (emitted ++ ·) (flatMap_congr fun hop _ => ?_)
    rw [List.filter_map]
    simp only [further, Function.comp_def, hopsOk_cons]
    by_cases hrel : (eng.relOk hop.edge w.rel w.binding == some true) = true
    · by_cases hused : hop.edge ∈ used
      · simp [hused]
      · simp [hrel, hused, Nat.add_assoc, Nat.add_comm 1]
    · simp [hrel]

end

/-! ## Chains -/

section

variable {p : Pattern Expr} (hrows : eng.counting = false) (hmode : walkMode p.restrictor = .trail)
  {rel : RelPat Expr} {next : NodePat Expr} {rels : List (RelPat Expr × NodePat Expr)} {start : Nat}

/-- The rows of the chains that start with a leg. -/
def legRows (eng : Engine Option) (p : Pattern Expr) (start : Nat) (rel : RelPat Expr)
    (next : NodePat Expr) (rels : List (RelPat Expr × NodePat Expr)) (b : Binding)
    (walk : List Hop) (leg : List Hop × Nat) : List Binding :=
  ((onward Prod.snd (rels.map fun rn => eng.view.legs rn.1) leg.2).filter
    (eng.chainOk rels (hopBound rel next (legVal rel leg.1) leg.2 b) (walk ++ leg.1))).map
    (chainRow p start rels (hopBound rel next (legVal rel leg.1) leg.2 b) (walk ++ leg.1))

theorem chains_cons (b : Binding) (walk : List Hop) (cur : Nat) :
    ((onward Prod.snd (((rel, next) :: rels).map fun rn => eng.view.legs rn.1) cur).filter
        (eng.chainOk ((rel, next) :: rels) b walk)).map (chainRow p start ((rel, next) :: rels) b walk) =
      ((eng.view.legs rel cur).filter (eng.legOk rel next b walk)).flatMap
        (eng.legRows p start rel next rels b walk) := by
  rw [filter_flatMap_eq, map_cons, onward, filter_flatMap, map_flatMap]
  refine flatMap_congr fun leg _ => ?_
  rw [List.filter_map, List.map_map]
  simp only [legRows, Function.comp_def, chainOk, chainRow]
  cases eng.legOk rel next b walk leg <;> simp

variable (hdistinct : eng.distinctEndpoint = false ∨ rel.varLength = none)
  {cur : Nat} {b : Binding} {walk : List Hop} {rows : List Binding}
  (ih : ∀ {cur b walk rows}, eng.expandChain p false none start rels cur b walk [] = some rows →
    rows = ((onward Prod.snd (rels.map fun rn => eng.view.legs rn.1) cur).filter
      (eng.chainOk rels b walk)).map (chainRow p start rels b walk))
  (h : eng.expandChain p false none start ((rel, next) :: rels) cur b walk [] = some rows)

include hrows ih h

/-- The rows of a chain whose first relationship is one hop. -/
theorem expandChain_leg (hfixed : rel.varLength = none) :
    rows = ((eng.view.legs rel cur).filter (eng.legOk rel next b walk)).flatMap
      (eng.legRows p start rel next rels b walk) := by
  rw [expandChain_hops hrows hfixed] at h
  obtain ⟨hops, hhops, h⟩ := bind_eq_some_iff.1 h
  obtain ⟨rss, hrss, rfl⟩ := map_eq_some_iff.1 h
  obtain ⟨-, rfl⟩ := filterM_eq_some_iff.1 hhops
  let further (hop : Hop) : List Binding :=
    if (eng.nodeOk hop.neighbour next (.map b) [] == some true && nextOk b next hop.neighbour &&
        walk.all (·.edge != hop.edge)) then
      eng.legRows p start rel next rels b walk ([hop], hop.neighbour)
    else []
  have hfurther : ∀ hop rs, eng.mergeHop rel next b walk (fun nb b w out =>
      eng.expandChain p false none start rels nb b w out) hop [] = some rs → rs = further hop := by
    intro hop rs hrs
    rcases mergeHop_cases hrs with ⟨hpass, honward⟩ | ⟨hfail, rfl⟩
    · simp only [further, hpass, legRows, legVal, hfixed]
      exact ih honward
    · simp only [further, hfail, Bool.false_eq_true, if_false]
  rw [mapM_eq_map hrss fun hop _ => hfurther hop, ← flatMap_def,
    filter_flatMap_eq, filter_flatMap_eq]
  simp only [View.legs, hfixed, flatMap_map]
  refine flatMap_congr fun hop _ => ?_
  have hleg : eng.legOk rel next b walk ([hop], hop.neighbour) =
      (eng.relOk hop.edge rel b == some true &&
        (eng.nodeOk hop.neighbour next (.map b) [] == some true && nextOk b next hop.neighbour &&
          walk.all (·.edge != hop.edge))) := by
    rw [Bool.eq_iff_iff]
    simp only [legOk, hopsOk, hfixed, all_cons, map_cons,
      map_nil, nodup_singleton,
      Bool.and_eq_true, decide_eq_true_eq, List.mem_map, not_exists, List.all_eq_true,
      bne_iff_ne]
    tauto
  rw [hleg]
  simp only [further]
  cases eng.relOk hop.edge rel b == some true <;> simp

include hmode hdistinct

/-- The rows of a chain whose first relationship is of variable length. -/
theorem expandChain_walk {vl : VarLength} (hvar : rel.varLength = some vl) :
    rows = ((eng.view.legs rel cur).filter (eng.legOk rel next b walk)).flatMap
      (eng.legRows p start rel next rels b walk) := by
  have hdedup : eng.distinctEndpoint = false := by
    rcases hdistinct with h | h
    · exact h
    · rw [hvar] at h
      cases h
  rw [expandChain_paths hrows hvar] at h
  obtain ⟨paths, hpaths, h⟩ := bind_eq_some_iff.1 h
  obtain ⟨rss, hrss, rfl⟩ := map_eq_some_iff.1 h
  have hwalks : paths = (eng.view.legs rel cur).filter fun r =>
      decide ((varlenBounds vl).1 ≤ r.1.length) && eng.hopsOk rel b (walk.map (·.edge)) r.1 &&
        eng.nodeOk r.2 next (.map b) [] == some true := by
    have hfound := varlen_walks (by simp [hdedup]) hmode _ hpaths
    simpa [View.legs, hvar] using hfound
  let further (leg : List Hop × Nat) : List Binding :=
    if nextOk b next leg.2 then eng.legRows p start rel next rels b walk leg else []
  have hfurther : ∀ (leg : List Hop × Nat) (rs : List Binding), (if !nextOk b next leg.2 then some []
      else eng.expandChain p false none start rels leg.2
        (hopBound rel next (.list (leg.1.map Hop.asRel)) leg.2 b) (walk ++ leg.1) []) = some rs →
      rs = further leg := by
    intro leg rs hrs
    cases hnext : nextOk b next leg.2 with
    | false =>
      rw [hnext] at hrs
      cases hrs
      simp [further, hnext]
    | true =>
      rw [hnext] at hrs
      simp only [further, hnext, legRows, legVal, hvar]
      exact ih hrs
  rw [mapM_eq_map hrss fun leg _ => hfurther leg, ← flatMap_def, hwalks,
    filter_flatMap_eq, filter_flatMap_eq]
  refine flatMap_congr fun leg _ => ?_
  simp only [further, legOk, hvar]
  cases nextOk b next leg.2 <;> simp

end

/-- **The rows of `expand_chain` are those of the chains that count.** -/
theorem expandChain_chains {p : Pattern Expr} (hrows : eng.counting = false)
    (hmode : walkMode p.restrictor = .trail) {start : Nat}
    (hdistinct : eng.distinctEndpoint = false ∨ ∀ rn ∈ rels, rn.1.varLength = none) {cur : Nat}
    {b : Binding} {walk : List Hop} {rows : List Binding}
    (h : eng.expandChain p false none start rels cur b walk [] = some rows) :
    rows = ((onward Prod.snd (rels.map fun rn => eng.view.legs rn.1) cur).filter
      (eng.chainOk rels b walk)).map (chainRow p start rels b walk) := by
  induction rels generalizing cur b walk rows with
  | nil =>
    rw [expandChain_nil, complete_rows hrows] at h
    cases h
    rfl
  | cons rn rels ih =>
    obtain ⟨rel, next⟩ := rn
    have hrest := @ih (hdistinct.imp_right fun h rn hrn => h rn (.tail _ hrn))
    rw [chains_cons]
    cases hrel : rel.varLength with
    | none => exact expandChain_leg hrows hrest h hrel
    | some vl =>
      exact expandChain_walk hrows hmode (hdistinct.imp_right fun h => h _ (.head _)) hrest h hrel

/-- No relationship occurs twice in a chain that counts. -/
theorem chainOk_nodup {b : Binding} {walk : List Hop}
    {legs : List (List Hop × Nat)} (h : eng.chainOk rels b walk legs = true)
    (hlen : legs.length = rels.length) (hwalk : (walk.map (·.edge)).Nodup) :
    ((walk ++ legs.flatMap (·.1)).map (·.edge)).Nodup := by
  induction rels generalizing b walk legs with
  | nil =>
    rw [length_eq_zero_iff.1 hlen]
    simpa using hwalk
  | cons rn rels ih =>
    cases legs with
    | nil => cases hlen
    | cons leg legs =>
      rw [chainOk, Bool.and_eq_true] at h
      obtain ⟨hleg, hrest⟩ := h
      simp only [legOk, hopsOk, Bool.and_eq_true, decide_eq_true_eq, List.all_eq_true] at hleg
      obtain ⟨⟨⟨-, ⟨-, hnodup⟩, hunused⟩, -⟩, -⟩ := hleg
      have hboth : ((walk ++ leg.1).map (·.edge)).Nodup := by
        rw [map_append]
        refine hwalk.append hnodup fun e he he' => ?_
        obtain ⟨h, hh, rfl⟩ := mem_map.1 he'
        exact hunused h hh he
      rw [flatMap_cons, ← append_assoc]
      exact ih hrest (Nat.succ.inj hlen) hboth

end Engine

/-! ## Patterns -/

/-- The chains of relationships through the graph that have the shape of the pattern: where they
start, and their legs. -/
def View.chains (v : View) (p : Pattern Expr) : List (Nat × List (List Hop × Nat)) :=
  routes Prod.snd v.liveNodes (p.rels.map fun rn => v.legs rn.1)

namespace Engine

/-- **A chain counts as a match.** -/
def counts (eng : Engine Option) (p : Pattern Expr) (b : Binding) (chain : Nat × List (List Hop × Nat)) : Bool :=
  nextOk b p.start chain.1 && eng.nodeOk chain.1 p.start (.map b) [] == some true &&
    eng.chainOk p.rels (b.insert? p.start.var (.node chain.1)) [] chain.2

/-- What a match binds. -/
def matchRow (p : Pattern Expr) (b : Binding) (chain : Nat × List (List Hop × Nat)) : Binding :=
  chainRow p chain.1 p.rels (b.insert? p.start.var (.node chain.1)) [] chain.2

variable {eng : Engine Option} {p : Pattern Expr} {b : Binding} {rows : List Binding}

/-- **A pattern as written has one row for each chain that counts.** The order of the rows is
that of the chains, which is the order of the anchors and of the adjacency lists. -/
theorem asWritten_chains (hrows : eng.counting = false) (hmode : walkMode p.restrictor = .trail)
    (hdistinct : eng.distinctEndpoint = false ∨ ∀ rn ∈ p.rels, rn.1.varLength = none)
    (h : eng.asWritten p b = some rows) : rows = ((eng.view.chains p).filter (eng.counts p b)).map (matchRow p b) := by
  rw [asWritten, walkAnchorsBy_rows hrows] at h
  obtain ⟨rss, hrss, rfl⟩ := Option.map_eq_some_iff.1 h
  let rowsAt (c : Nat) : List Binding :=
    if eng.nodeOk c p.start (.map b) [] == some true then
      ((onward Prod.snd (p.rels.map fun rn => eng.view.legs rn.1) c).filter
        (eng.chainOk p.rels (b.insert? p.start.var (.node c)) [])).map
        (chainRow p c p.rels (b.insert? p.start.var (.node c)) [])
    else []
  have hrowsAt : ∀ c rs, eng.anchorRows (fun c => eng.nodeOk c p.start (.map b) []) p b c = some rs →
      rs = rowsAt c := by
    intro c rs hrs
    obtain ⟨ok, hok, hrs⟩ := bind_eq_some_iff.1 hrs
    cases ok with
    | false =>
      cases hrs
      simp [rowsAt, hok]
    | true =>
      simp only [rowsAt, hok]
      exact expandChain_chains hrows hmode hdistinct hrs
  rw [mapM_eq_map hrss fun c _ => hrowsAt c, ← flatMap_def, View.anchors_eq,
    filter_flatMap_eq, View.chains, routes, filter_flatMap, map_flatMap]
  refine flatMap_congr fun c _ => ?_
  rw [List.filter_map, List.map_map]
  simp only [rowsAt, Function.comp_def, counts, matchRow]
  cases nextOk b p.start c <;> cases eng.nodeOk c p.start (.map b) [] == some true <;> simp

end Engine

end Slater
