import Slater.Exec.AsWritten
import Slater.Lib.Routes

/-!
# A pattern walked from its other end

`maybe_reroot` may start a chain at its last node. The reversed chain has the same rows, as often,
when three things hold: the inline properties have one value whatever the walk has bound
(`Pattern.Steady`), relationship variables are new and stand for one relationship each
(`Pattern.Apart`), and no hop leaves the live nodes (`EndsLive`).

A row is then a route through the graph with checks that do not depend on the order they are made in
(`routePasses_iff`): each node and each relationship on its own, no relationship twice, and the
variables agree. The routes of the reversed chain are the routes turned round.

**What it does not establish.** Patterns with a path variable or a variable length are never turned round, so they
are not looked at. The rows are compared up to order: from the other end they come in another one.
-/

namespace Slater

open List Option Route Pattern Binding Hop

/-! ## Variables that agree -/

namespace Binding

variable {b : Binding} {occs occs' : List (String × Val)}

/-- The variables bound one after the other. -/
def insertAll (b : Binding) (occs : List (String × Val)) : Binding :=
  occs.foldl (fun b o => b.insert o.1 o.2) b

theorem insertAll_append (b : Binding) (occs occs' : List (String × Val)) :
    b.insertAll (occs ++ occs') = (b.insertAll occs).insertAll occs' := foldl_append

/-- Each variable has one value, the bound one if there is one. -/
def Agree (b : Binding) (occs : List (String × Val)) : Prop :=
  ∀ o ∈ occs, (∀ v, b o.1 = some v → v = o.2) ∧ ∀ o' ∈ occs, o'.1 = o.1 → o'.2 = o.2

theorem agree_nil (b : Binding) : b.Agree [] := fun _ h => absurd h not_mem_nil

theorem agree_cons {x : String} {v : Val} :
    b.Agree ((x, v) :: occs) ↔ (∀ u, b x = some u → u = v) ∧ (b.insert x v).Agree occs := by
  constructor
  · intro h
    refine ⟨(h _ (.head _)).1, fun o ho => ⟨fun u hu => ?_, fun o' ho' => ?_⟩⟩
    · by_cases hx : o.1 = x
      · rw [hx, insert_self] at hu
        rw [← some.inj hu]
        exact (h o (.tail _ ho)).2 (x, v) (.head _) hx.symm
      · rw [insert_of_ne b hx] at hu
        exact (h o (.tail _ ho)).1 u hu
    · exact (h o (.tail _ ho)).2 o' (.tail _ ho')
  · rintro ⟨hx, h⟩
    have hsame : ∀ o ∈ occs, o.1 = x → o.2 = v := fun o ho heq =>
      ((h o ho).1 v (by rw [heq, insert_self])).symm
    refine fun o ho => ⟨fun u hu => ?_, fun o' ho' heq => ?_⟩
    · rcases mem_cons.1 ho with rfl | ho
      · exact hx u hu
      · by_cases hox : o.1 = x
        · rw [hsame o ho hox]
          exact hx u (hox ▸ hu)
        · exact (h o ho).1 u (by rwa [insert_of_ne b hox])
    · rcases mem_cons.1 ho with rfl | ho <;> rcases mem_cons.1 ho' with rfl | ho'
      · rfl
      · exact hsame o' ho' heq
      · exact (hsame o ho heq.symm).symm
      · exact (h o ho).2 o' ho' heq

theorem agree_congr (hmem : ∀ o, o ∈ occs ↔ o ∈ occs') : b.Agree occs ↔ b.Agree occs' := by
  simp only [Agree, hmem]

/-- What is bound in the end, whatever the order. -/
theorem insertAll_eq_some (h : b.Agree occs) (x : String) (v : Val) :
    b.insertAll occs x = some v ↔ (x, v) ∈ occs ∨ (∀ o ∈ occs, o.1 ≠ x) ∧ b x = some v := by
  induction occs generalizing b with
  | nil => simp [insertAll]
  | cons o occs ih =>
    obtain ⟨y, u⟩ := o
    obtain ⟨-, htail⟩ := agree_cons.1 h
    have hfirst := (h _ (.head _)).2
    refine (ih htail).trans ?_
    by_cases hx : x = y
    · subst hx
      simp only [insert_self, mem_cons, Prod.mk.injEq, true_and, some.injEq]
      constructor
      · rintro (hmem | ⟨-, rfl⟩)
        · exact .inl (.inr hmem)
        · exact .inl (.inl rfl)
      · rintro ((rfl | hmem) | ⟨hnone, -⟩)
        · by_cases hlater : ∃ o ∈ occs, o.1 = x
          · obtain ⟨⟨z, w⟩, ho, rfl⟩ := hlater
            have : w = v := hfirst _ (.tail _ ho) rfl
            exact .inl (this ▸ ho)
          · exact .inr ⟨fun o ho heq => hlater ⟨o, ho, heq⟩, rfl⟩
        · exact .inl hmem
        · exact absurd rfl (hnone (x, u) (.inl rfl))
    · have hy : y ≠ x := fun heq => hx heq.symm
      simp [insert_of_ne b hx, hx, hy]

theorem insertAll_congr (hmem : ∀ o, o ∈ occs ↔ o ∈ occs') (h : b.Agree occs) :
    b.insertAll occs = b.insertAll occs' := by
  funext x
  refine ext fun v => ?_
  rw [insertAll_eq_some h, insertAll_eq_some ((agree_congr hmem).1 h)]
  simp only [hmem]

end Binding

/-! ## Nodes and relationships of a pattern -/

namespace Pattern

variable (p : Pattern Expr)

/-- The node patterns, in order. -/
def nodes : List (NodePat Expr) := p.start :: p.rels.map (·.2)

/-- The relationship patterns, in order. -/
def steps : List (RelPat Expr) := p.rels.map (·.1)

theorem length_nodes : p.nodes.length = p.rels.length + 1 := by simp [nodes]

theorem length_steps : p.steps.length = p.rels.length := by simp [steps]

end Pattern

/-! ## Steady properties -/

namespace Engine

variable (eng : Engine Option) {rels : List (RelPat Expr × NodePat Expr)} {r : Nat × List Hop}

/-- Every property has a value, the same under whatever is bound in addition. -/
def SteadyProps (b : Binding) (props : List (String × Expr)) : Prop :=
  ∀ ke ∈ props, ∃ v, ∀ b', b.Extends b' → eng.eval ke.2 (.map b') = some v

def nodePasses (b : Binding) (pat : NodePat Expr) (id : Nat) : Bool :=
  eng.nodeOk id pat (.map b) [] == some true

def relPasses (b : Binding) (rel : RelPat Expr) (edge : Nat) : Bool :=
  eng.relOk edge rel b == some true

variable {eng} {b b' : Binding} {rel : RelPat Expr}

theorem SteadyProps.propsOk {props : List (String × Expr)} (h : eng.SteadyProps b props)
    (hext : b.Extends b') (read : String → Val) :
    ∃ ok, Slater.propsOk (fun e => eng.eval e (.map b')) (fun k => pure (read k)) props = some ok ∧
      Slater.propsOk (fun e => eng.eval e (.map b)) (fun k => pure (read k)) props = some ok := by
  induction props with
  | nil => exact ⟨true, rfl, rfl⟩
  | cons ke props ih =>
    obtain ⟨v, hv⟩ := h _ (.head _)
    obtain ⟨ok, hok', hok⟩ := ih fun ke hke => h ke (.tail _ hke)
    simp only [Slater.propsOk, hv b' hext, hv b (Binding.Extends.refl b), bind_eq_bind,
      Option.bind_some, Option.pure_def]
    split
    · exact ⟨ok, hok', hok⟩
    · exact ⟨false, rfl, rfl⟩

theorem nodeOk_steady {pat : NodePat Expr} (h : eng.SteadyProps b pat.props) (hext : b.Extends b')
    (id : Nat) : eng.nodeOk id pat (.map b') [] = some (eng.nodePasses b pat id) := by
  obtain ⟨ok, hok', hok⟩ := h.propsOk hext (eng.view.nodeProp id)
  unfold nodePasses nodeOk
  rw [hok', hok]
  split
  · cases ok <;> rfl
  · rfl

theorem relOk_steady (h : eng.SteadyProps b rel.props) (hext : b.Extends b')
    (edge : Nat) : eng.relOk edge rel b' = some (eng.relPasses b rel edge) := by
  obtain ⟨ok, hok', hok⟩ := h.propsOk hext (eng.view.edgeProp edge)
  unfold relPasses relOk
  rw [hok', hok]
  cases ok <;> rfl

/-! ## Rows of routes -/

section

variable (eng) (b)

/-- The checks along the steps of a route, in the order they are made. -/
def stepsPass : List (RelPat Expr × NodePat Expr) → Binding → List Hop → List Hop → Bool
  | (rel, next) :: rels, b', walk, h :: hs =>
    eng.relPasses b rel h.edge && eng.nodePasses b next h.neighbour && nextOk b' next h.neighbour &&
      walk.all (·.edge != h.edge) &&
      stepsPass rels (hopBound rel next h.asRel h.neighbour b') (walk ++ [h]) hs
  | _, _, _, _ => true

end

/-- What the steps of a route bind. -/
def stepsRow : List (RelPat Expr × NodePat Expr) → Binding → List Hop → Binding
  | (rel, next) :: rels, b, h :: hs => stepsRow rels (hopBound rel next h.asRel h.neighbour b) hs
  | _, b, _ => b

variable (hrows : eng.counting = false) {p : Pattern Expr} {walk : List Hop}

include hrows in
/-- **The rows of a steady chain**: those of the routes that pass. -/
theorem expandChain_steady (hpath : p.pathVar = none) {start : Nat} (hfixed : ∀ rn ∈ rels, rn.1.varLength = none)
    (hsteady : ∀ rn ∈ rels, eng.SteadyProps b rn.1.props ∧ eng.SteadyProps b rn.2.props) {cur : Nat}
    (hext : b.Extends b') (hapart : Apart p rels b') : eng.expandChain p false none start rels cur b' walk [] =
      some (((onward neighbour (rels.map fun rn => eng.view.leg rn.1) cur).filter
        (eng.stepsPass b rels b' walk)).map (stepsRow rels b')) := by
  induction rels generalizing cur b' walk with
  | nil =>
    rw [expandChain_nil, complete_rows hrows, pathBound, hpath]
    rfl
  | cons rn rels ih =>
    obtain ⟨rel, next⟩ := rn
    obtain ⟨hrel, hnext⟩ := hsteady _ (.head _)
    have hhops : eng.expandWithDir cur rel rel.dir b' =
        some ((eng.view.leg rel cur).filter fun h => eng.relPasses b rel h.edge) := by
      refine Fallible.filterM_eq_some_iff.2 ⟨fun h _ => ⟨_, relOk_steady hrel hext h.edge⟩, ?_⟩
      refine filter_congr fun h _ => ?_
      rw [relOk_steady hrel hext]
      cases eng.relPasses b rel h.edge <;> rfl
    let further (h : Hop) : List Binding :=
      if eng.nodePasses b next h.neighbour && nextOk b' next h.neighbour &&
          walk.all (·.edge != h.edge) then
        ((onward neighbour (rels.map fun rn => eng.view.leg rn.1) h.neighbour).filter
          (eng.stepsPass b rels (hopBound rel next h.asRel h.neighbour b') (walk ++ [h]))).map
          (stepsRow rels (hopBound rel next h.asRel h.neighbour b'))
      else []
    have hmerge : ∀ h, eng.mergeHop rel next b' walk
        (eng.expandChain p false none start rels) h [] =
        some (further h) := by
      intro h
      simp only [mergeHop, nodeOk_steady hnext hext, bind_eq_bind, bind_some, further]
      split
      · rename_i hpass
        simp only [Bool.and_eq_true] at hpass
        exact ih (fun rn hrn => hfixed rn (.tail _ hrn))
          (fun rn hrn => hsteady rn (.tail _ hrn))
          (hext.trans (hapart.extends_hop _ hpass.1.2)) (hapart.hop _ _)
      · rfl
    rw [expandChain_hops hrows (hfixed _ (.head _)), hhops, bind_eq_bind,
      bind_some, Fallible.mapM_some fun h _ => hmerge h, map_some,
      ← flatMap_def, filter_flatMap_eq]
    rw [map_cons, onward, filter_flatMap, map_flatMap]
    refine congrArg some (flatMap_congr fun h _ => ?_)
    rw [List.filter_map, List.map_map]
    simp only [further, Function.comp_def, stepsPass, stepsRow]
    cases eng.relPasses b rel h.edge <;> cases eng.nodePasses b next h.neighbour <;>
      cases nextOk b' next h.neighbour <;> cases walk.all (·.edge != h.edge) <;> simp

/-! ## Checks in any order -/

/-- What a step binds. -/
def hopOccs (rel : RelPat Expr) (next : NodePat Expr) (h : Hop) : List (String × Val) :=
  (rel.var.map (·, h.asRel)).toList ++ (next.var.map (·, Val.node h.neighbour)).toList

/-- What the steps of a route bind. -/
def stepOccs (rels : List (RelPat Expr × NodePat Expr)) (hs : List Hop) : List (String × Val) :=
  (rels.zip hs).flatMap fun o => hopOccs o.1.1 o.1.2 o.2

theorem stepOccs_cons (rn : RelPat Expr × NodePat Expr) (rels : List (RelPat Expr × NodePat Expr))
    (h : Hop) (hs : List Hop) :
    stepOccs (rn :: rels) (h :: hs) = hopOccs rn.1 rn.2 h ++ stepOccs rels hs := rfl

theorem stepsRow_eq (rels : List (RelPat Expr × NodePat Expr)) (b : Binding) (hs : List Hop) :
    stepsRow rels b hs = b.insertAll (stepOccs rels hs) := by
  induction rels generalizing b hs with
  | nil => rfl
  | cons rn rels ih =>
    cases hs with
    | nil => rfl
    | cons h hs =>
      have hbound : hopBound rn.1 rn.2 h.asRel h.neighbour b = b.insertAll (hopOccs rn.1 rn.2 h) := by
        unfold hopBound hopOccs
        cases rn.1.var <;> cases rn.2.var <;> rfl
      rw [stepsRow, ih, hbound, stepOccs_cons, insertAll_append]

theorem agree_hop {next : NodePat Expr} (hapart : Apart p ((rel, next) :: rels) b) (h : Hop)
    (occs : List (String × Val)) : b.Agree (hopOccs rel next h ++ occs) ↔ nextOk b next h.neighbour = true ∧
        (hopBound rel next h.asRel h.neighbour b).Agree occs := by
  have hfresh : ∀ x, rel.var = some x → b x = none ∧ next.var ≠ some x := fun x hx => by
    have hmem : x ∈ edgeVars p ((rel, next) :: rels) := by
      rw [edgeVars_cons, hx]
      exact (.head _)
    exact ⟨hapart.fresh x hmem, fun hnext => hapart.nodes x hmem (by simp [hnext])⟩
  unfold hopOccs hopBound
  rw [nextOk_iff]
  cases hrel : rel.var with
  | none =>
    cases hnext : next.var with
    | none => simp
    | some y => simp [agree_cons]
  | some x =>
    obtain ⟨hx, hne⟩ := hfresh x hrel
    cases hnext : next.var with
    | none => simp [agree_cons, hx]
    | some y =>
      have hyx : y ≠ x := fun heq => hne (hnext.trans (congrArg some heq))
      simp [agree_cons, hx, insert_of_ne b hyx]

/-- **The checks of the steps do not depend on their order.** -/
theorem stepsPass_iff {hs : List Hop} (hapart : Apart p rels b') (hlen : hs.length = rels.length) :
    eng.stepsPass b rels b' walk hs = true ↔ (∀ o ∈ rels.zip hs, eng.relPasses b o.1.1 o.2.edge = true ∧
        eng.nodePasses b o.1.2 o.2.neighbour = true) ∧
      (∀ h ∈ hs, ∀ g ∈ walk, g.edge ≠ h.edge) ∧ (hs.map (·.edge)).Nodup ∧ b'.Agree (stepOccs rels hs) := by
  induction rels generalizing b' walk hs with
  | nil =>
    obtain rfl := length_eq_zero_iff.1 hlen
    simp [stepsPass, stepOccs, agree_nil]
  | cons rn rels ih =>
    cases hs with
    | nil => cases hlen
    | cons h hs =>
      have hrest := @ih _ (walk ++ [h]) hs (hapart.hop h.asRel h.neighbour) (Nat.succ.inj hlen)
      rw [stepsPass, stepOccs_cons, agree_hop hapart]
      simp only [Bool.and_eq_true, hrest, zip_cons_cons, mem_cons, forall_eq_or_imp,
        List.map_cons, List.nodup_cons, List.all_eq_true, bne_iff_ne, List.mem_append,
        List.mem_map, not_exists, not_and, List.not_mem_nil, or_false]
      constructor
      · rintro ⟨⟨⟨⟨hrel, hnode⟩, hnext⟩, hunused⟩, hall, hwalk, hnodup, hagree⟩
        exact ⟨⟨⟨hrel, hnode⟩, hall⟩, ⟨hunused, fun k hk g hg => hwalk k hk g (.inl hg)⟩,
          ⟨fun k hk heq => hwalk k hk h (.inr rfl) heq.symm, hnodup⟩, hnext, hagree⟩
      · rintro ⟨⟨⟨hrel, hnode⟩, hall⟩, ⟨hunused, hwalk⟩, ⟨hfirst, hnodup⟩, hnext, hagree⟩
        refine ⟨⟨⟨⟨hrel, hnode⟩, hnext⟩, hunused⟩, hall, fun k hk g hg => ?_, hnodup, hagree⟩
        rcases hg with hg | rfl
        · exact hwalk k hk g hg
        · exact fun heq => hfirst k hk heq.symm

/-! ## Routes -/

/-- The nodes of a route under their patterns. -/
def nodesAt (p : Pattern Expr) (r : Nat × List Hop) : List (NodePat Expr × Nat) :=
  p.nodes.zip (r.1 :: r.2.map (·.neighbour))

/-- The relationships of a route under their patterns. -/
def relsAt (p : Pattern Expr) (r : Nat × List Hop) : List (RelPat Expr × (Nat × Val)) :=
  p.steps.zip (r.2.map fun h => (h.edge, h.asRel))

/-- What a route binds. -/
def routeOccs (p : Pattern Expr) (r : Nat × List Hop) : List (String × Val) :=
  (nodesAt p r).filterMap (fun o => o.1.var.map (·, Val.node o.2)) ++
    (relsAt p r).filterMap fun o => o.1.var.map (·, o.2.2)

/-- The checks of a route, in the order they are made. -/
def routePasses (eng : Engine Option) (p : Pattern Expr) (b : Binding) (r : Nat × List Hop) : Bool :=
  nextOk b p.start r.1 && eng.nodePasses b p.start r.1 &&
    eng.stepsPass b p.rels (b.insert? p.start.var (.node r.1)) [] r.2

/-- The row of a route. -/
def routeRow (p : Pattern Expr) (b : Binding) (r : Nat × List Hop) : Binding :=
  stepsRow p.rels (b.insert? p.start.var (.node r.1)) r.2

theorem nodesAt_eq (p : Pattern Expr) (r : Nat × List Hop) :
    nodesAt p r = (p.start, r.1) :: (p.rels.zip r.2).map fun o => (o.1.2, o.2.neighbour) := by
  rw [nodesAt, nodes, zip_cons_cons, zip_map]
  rfl

theorem relsAt_eq (p : Pattern Expr) (r : Nat × List Hop) :
    relsAt p r = (p.rels.zip r.2).map fun o => (o.1.1, (o.2.edge, o.2.asRel)) := by
  rw [relsAt, steps, zip_map]
  rfl

/-- What a route binds, in the order it does. -/
theorem mem_routeOccs {o : String × Val} :
    o ∈ routeOccs p r ↔ o ∈ (p.start.var.map (·, Val.node r.1)).toList ++ stepOccs p.rels r.2 := by
  rw [routeOccs, nodesAt_eq, relsAt_eq, stepOccs]
  simp only [List.mem_append, List.mem_filterMap, List.mem_cons, List.mem_map, List.mem_flatMap,
    hopOccs, mem_toList]
  constructor
  · rintro (⟨x, rfl | ⟨y, hy, rfl⟩, ho⟩ | ⟨x, ⟨y, hy, rfl⟩, ho⟩)
    · exact .inl ho
    · exact .inr ⟨y, hy, .inr ho⟩
    · exact .inr ⟨y, hy, .inl ho⟩
  · rintro (ho | ⟨y, hy, ho | ho⟩)
    · exact .inl ⟨_, .inl rfl, ho⟩
    · exact .inr ⟨_, ⟨y, hy, rfl⟩, ho⟩
    · exact .inl ⟨_, .inr ⟨y, hy, rfl⟩, ho⟩

theorem agree_start : b.Agree (routeOccs p r) ↔ nextOk b p.start r.1 = true ∧
    (b.insert? p.start.var (.node r.1)).Agree (stepOccs p.rels r.2) := by
  rw [agree_congr fun _ => mem_routeOccs, nextOk_iff]
  cases hvar : p.start.var with
  | none => simp
  | some x => simp [agree_cons]

/-- **What a route has to pass**, in any order. Each part is symmetric under turning the route,
which is how the two ends are compared. -/
theorem routePasses_iff (hapart : p.Apart b) (hlen : r.2.length = p.rels.length) : eng.routePasses p b r = true ↔
      (∀ o ∈ nodesAt p r, eng.nodePasses b o.1 o.2 = true) ∧
      (∀ o ∈ relsAt p r, eng.relPasses b o.1 o.2.1 = true) ∧ (r.2.map (·.edge)).Nodup ∧ b.Agree (routeOccs p r) := by
  rw [routePasses, Bool.and_eq_true, Bool.and_eq_true, stepsPass_iff (hapart.frame r.1) hlen,
    agree_start, nodesAt_eq, relsAt_eq]
  simp only [List.mem_cons, forall_eq_or_imp, List.mem_map, forall_exists_index, and_imp,
    forall_apply_eq_imp_iff₂, not_mem_nil, false_imp_iff, implies_true, true_and]
  constructor
  · rintro ⟨⟨hnext, hstart⟩, hall, hnodup, hagree⟩
    exact ⟨⟨hstart, fun o ho => (hall o ho).2⟩, fun o ho => (hall o ho).1, hnodup, hnext, hagree⟩
  · rintro ⟨⟨hstart, hnodes⟩, hrels, hnodup, hnext, hagree⟩
    exact ⟨⟨hnext, hstart⟩, fun o ho => ⟨hrels o ho, hnodes o ho⟩, hnodup, hagree⟩

theorem routeRow_eq (hagree : b.Agree (routeOccs p r)) : routeRow p b r = b.insertAll (routeOccs p r) := by
  rw [insertAll_congr (fun _ => mem_routeOccs) hagree, routeRow, stepsRow_eq]
  cases p.start.var <;> rfl

end Engine

/-- Every inline property of the pattern is steady. -/
structure Pattern.Steady (p : Pattern Expr) (eng : Engine Option) (b : Binding) : Prop where
  nodes : ∀ node ∈ p.nodes, eng.SteadyProps b node.props
  steps : ∀ rel ∈ p.steps, eng.SteadyProps b rel.props

namespace Engine

variable {eng : Engine Option} {b : Binding} {p : Pattern Expr}

/-- **The rows of a steady pattern, as written.** -/
theorem asWritten_routes (hrows : eng.counting = false) (hpath : p.pathVar = none)
    (hfixed : ∀ rn ∈ p.rels, rn.1.varLength = none) (hsteady : p.Steady eng b)
    (hapart : p.Apart b) : eng.asWritten p b = some (((routes neighbour eng.view.liveNodes
        (p.steps.map eng.view.leg)).filter (eng.routePasses p b)).map (routeRow p b)) := by
  have hstart : eng.SteadyProps b p.start.props := hsteady.nodes _ (.head _)
  have hrels : ∀ rn ∈ p.rels, eng.SteadyProps b rn.1.props ∧ eng.SteadyProps b rn.2.props :=
    fun rn hrn => ⟨hsteady.steps _ (mem_map_of_mem hrn),
      hsteady.nodes _ (.tail _ (mem_map_of_mem hrn))⟩
  let rowsAt (c : Nat) : List Binding :=
    if eng.nodePasses b p.start c then
      ((onward neighbour (p.rels.map fun rn => eng.view.leg rn.1) c).filter
        (eng.stepsPass b p.rels (b.insert? p.start.var (.node c)) [])).map
        (stepsRow p.rels (b.insert? p.start.var (.node c)))
    else []
  have hrowsAt : ∀ c ∈ eng.view.anchors p.start b,
      eng.anchorRows (fun c => eng.nodeOk c p.start (.map b) []) p b c = some (rowsAt c) := by
    intro c hc
    have hext : b.Extends (b.insert? p.start.var (.node c)) := by
      refine extends_insert? fun x hx => ?_
      cases hbx : b x with
      | none => exact .inl rfl
      | some v => exact .inr (congrArg some (nextOk_iff.1 (View.mem_anchors.1 hc).2 x hx v hbx))
    simp only [anchorRows, nodeOk_steady hstart (Binding.Extends.refl b), bind_eq_bind,
      bind_some, rowsAt]
    split
    · exact expandChain_steady hrows hpath hfixed hrels hext (hapart.frame c)
    · rfl
  rw [asWritten, walkAnchorsBy_rows hrows, Fallible.mapM_some hrowsAt, map_some,
    ← flatMap_def]
  rw [View.anchors_eq, filter_flatMap_eq, routes, filter_flatMap, map_flatMap,
    steps, List.map_map]
  refine congrArg some (flatMap_congr fun c _ => ?_)
  rw [List.filter_map, List.map_map]
  simp only [rowsAt, Function.comp_def, routePasses, routeRow]
  cases nextOk b p.start c <;> cases eng.nodePasses b p.start c <;> simp

end Engine

/-! ## Hops from the other end -/

/-- No hop leads from a live node to one that is not. -/
def View.EndsLive (v : View) : Prop :=
  ∀ n, v.live n → ∀ outgoing, ∀ a ∈ v.adjOverlaid n outgoing, v.live a.neighbour

theorem CoreGraph.endsLive (g : CoreGraph) : g.view.EndsLive := by
  intro n _ outgoing a ha
  have hadj : a ∈ g.adj n outgoing :=
    g.storedAdj_view n outgoing ▸ (View.adjOverlaid_sublist n outgoing).mem ha
  obtain ⟨e, he, -, -, hfar⟩ := g.mem_adj.1 hadj
  exact g.live_view (hfar ▸ g.near_lt he (!outgoing))

namespace GraphView

variable (g : GraphView) {leg : Nat → List Hop}

theorem arcs_nodup (hleg : ∀ n, (leg n).Nodup) : (arcs g.liveNodes leg).Nodup := by
  refine nodup_flatMap.2 ⟨fun n _ => (hleg n).map fun _ _ h => (Prod.mk.inj h).2, ?_⟩
  have hnodes : g.liveNodes.Nodup := nodup_range.filter _
  refine hnodes.imp fun {n m} hne a hn hm => hne ?_
  obtain ⟨h, -, rfl⟩ := mem_map.1 hn
  obtain ⟨h', -, heq⟩ := mem_map.1 hm
  exact (Prod.mk.inj heq).1.symm

theorem mem_arcs {v : View} {n : Nat} {h : Hop} : (n, h) ∈ arcs v.liveNodes leg ↔ v.live n ∧ h ∈ leg n := by
  simp [arcs, View.mem_liveNodes]

variable {g} (hlive : g.EndsLive)

include hlive

/-- The entries of one side are the entries of the other, at their other ends. -/
theorem turned_side (te : Option LabelExpr) (incoming : Bool) :
    Route.Turned neighbour back g.liveNodes (fun n => g.hopsSide n te incoming)
      fun n => g.hopsSide n te (!incoming) := by
  have hback : ∀ {n h side}, g.live n → h ∈ g.hopsSide n te side →
      g.live h.neighbour ∧ h.back n ∈ g.hopsSide h.neighbour te (!side) := fun hn hh =>
    ⟨hlive _ hn _ _ (View.mem_hopsSide.1 hh).2.1,
      g.mem_hopsSide_back (View.deltaDead_of_live hn) hh⟩
  refine (perm_ext_iff_of_nodup ?_ (g.arcs_nodup fun n => g.hopsSide_nodup n te _)).2 ?_
  · refine (g.arcs_nodup fun n => g.hopsSide_nodup n te _).map fun a a' heq => ?_
    obtain ⟨n, ⟨e, w, rt, s, t⟩⟩ := a
    simp_all [back]
  · rintro ⟨w, k⟩
    rw [mem_arcs, List.mem_map]
    constructor
    · rintro ⟨⟨n, h⟩, ha, heq⟩
      obtain ⟨hn, hh⟩ := mem_arcs.1 ha
      cases heq
      exact hback hn hh
    · rintro ⟨hw, hk⟩
      obtain ⟨hn, hh⟩ := hback hw hk
      rw [Bool.not_not] at hh
      exact ⟨(k.neighbour, k.back w), mem_arcs.2 ⟨hn, hh⟩, rfl⟩

/-- **A leg turned round is the leg against its direction.** -/
theorem turned_leg (rel : RelPat Expr) : Route.Turned neighbour back g.liveNodes (g.leg rel)
      (g.leg { rel with dir := rel.dir.flip }) := by
  unfold View.leg View.hops
  cases rel.dir with
  | outgoing => exact turned_side hlive rel.typeExpr false
  | incoming => exact turned_side hlive rel.typeExpr true
  | undirected =>
    exact Route.Turned.append (turned_side hlive rel.typeExpr false) (turned_side hlive rel.typeExpr true)

end GraphView

/-! ## The reversed pattern -/

namespace Pattern

variable (p : Pattern Expr)

/-- Each relationship with the node before it. -/
theorem map_zip_before {α β : Type} (a : α) (l : List (β × α)) :
    ((l.map (·.1)).zip (a :: l.map (·.2))).map (·.1) = l.map (·.1) ∧
      ((l.map (·.1)).zip (a :: l.map (·.2))).map (·.2) = (a :: l.map (·.2)).dropLast := by
  induction l generalizing a with
  | nil => exact ⟨rfl, rfl⟩
  | cons x l ih =>
    obtain ⟨hfst, hsnd⟩ := ih x.2
    exact ⟨congrArg (x.1 :: ·) hfst, congrArg (a :: ·) hsnd⟩

theorem nodes_reverse : (reversePattern p).nodes = p.nodes.reverse := by
  have hrels : (reversePattern p).rels.map (·.2) = p.nodes.dropLast.reverse := by
    rw [reversePattern, List.map_map, List.map_reverse]
    exact congrArg reverse (map_zip_before p.start p.rels).2
  rw [nodes, hrels]
  have hlast : p.nodes = p.nodes.dropLast ++ [(reversePattern p).start] := by
    unfold reversePattern nodes
    rcases eq_nil_or_concat' p.rels with h | ⟨init, x, h⟩
    · simp [h]
    · rw [h, map_append, map_singleton, ← cons_append, dropLast_concat,
        getLast?_concat]
      rfl
  conv_rhs => rw [hlast, reverse_append]
  rfl

theorem steps_reverse : (reversePattern p).steps =
    p.steps.reverse.map fun rel => { rel with dir := rel.dir.flip } := by
  have hrels := congrArg (fun l => l.reverse.map fun rel : RelPat Expr =>
    { rel with dir := rel.dir.flip }) (map_zip_before p.start p.rels).1
  simp only [← List.map_reverse, List.map_map] at hrels
  rw [steps, steps, reversePattern, List.map_map, ← List.map_reverse, List.map_map]
  exact hrels

variable {p} {b : Binding}

theorem apart_iff (hpath : p.pathVar = none) : p.Apart b ↔ (p.steps.filterMap (·.var)).Nodup ∧
      ∀ x ∈ p.steps.filterMap (·.var), x ∉ p.nodes.filterMap (·.var) ∧ b x = none := by
  have hvars : edgeVars p p.rels = p.steps.filterMap (·.var) := by
    simp [edgeVars, hpath, steps]
  have hnodes : ∀ x, x ∉ p.nodes.filterMap (·.var) ↔
      p.start.var ≠ some x ∧ x ∉ p.rels.filterMap (·.2.var) := fun x => by
    rw [nodes, mem_filterMap, mem_filterMap]
    simp only [List.mem_cons, List.mem_map]
    constructor
    · intro h
      refine ⟨fun hx => h ⟨_, .inl rfl, hx⟩, ?_⟩
      rintro ⟨rn, hrn, hx⟩
      exact h ⟨_, .inr ⟨rn, hrn, rfl⟩, hx⟩
    · rintro ⟨hstart, hrels⟩ ⟨node, rfl | ⟨rn, hrn, rfl⟩, hx⟩
      · exact hstart hx
      · exact hrels ⟨rn, hrn, hx⟩
  constructor
  · intro h
    exact ⟨hvars ▸ h.once, fun x hx => ⟨(hnodes x).2 ⟨h.start x (hvars ▸ hx), h.nodes x (hvars ▸ hx)⟩,
      h.fresh x (hvars ▸ hx)⟩⟩
  · rintro ⟨honce, h⟩
    rw [← hvars] at honce h
    exact ⟨⟨honce, fun x hx => ((hnodes x).1 (h x hx).1).2, fun x hx => (h x hx).2⟩,
      fun x hx => ((hnodes x).1 (h x hx).1).1⟩

theorem steps_reverse_vars : (reversePattern p).steps.filterMap (·.var) = (p.steps.filterMap (·.var)).reverse := by
  rw [steps_reverse, filterMap_map, ← filterMap_reverse]
  rfl

theorem Apart.reverse (hpath : p.pathVar = none) (h : p.Apart b) : (reversePattern p).Apart b := by
  obtain ⟨honce, h⟩ := (apart_iff hpath).1 h
  refine (apart_iff rfl).2 ⟨?_, fun x hx => ?_⟩
  · rw [steps_reverse_vars]
    exact nodup_reverse.2 honce
  · rw [steps_reverse_vars, mem_reverse] at hx
    rw [nodes_reverse, filterMap_reverse, mem_reverse]
    exact h x hx

theorem Steady.reverse {eng : Engine Option} (h : p.Steady eng b) : (reversePattern p).Steady eng b where
  nodes node hnode := by
    rw [nodes_reverse, mem_reverse] at hnode
    exact h.nodes node hnode
  steps rel hrel := by
    rw [steps_reverse] at hrel
    obtain ⟨rel', hrel', rfl⟩ := mem_map.1 hrel
    exact h.steps rel' (mem_reverse.1 hrel')

end Pattern

namespace Engine

variable {eng : Engine Option} {b : Binding} {p : Pattern Expr}

/-- A route walked from its other end. -/
def turned (r : Nat × List Hop) : Nat × List Hop := turn neighbour back r.1 r.2

theorem zip_reverse {α β : Type} {l : List α} {l' : List β} (h : l.length = l'.length) :
    l.reverse.zip l'.reverse = (l.zip l').reverse := (reverse_zipWith h).symm

/-- What of a hop does not depend on the end it is read from. -/
theorem turned_labels {L : Type} {label : Hop → L} (hlabel : ∀ h n, label (back h n) = label h)
    (r : Nat × List Hop) : (turned r).2.map label = (r.2.map label).reverse :=
  turn_labels hlabel r.1 r.2

section

variable {r : Nat × List Hop} (hlen : r.2.length = p.rels.length)

include hlen

theorem nodesAt_turned : nodesAt (reversePattern p) (turned r) = (nodesAt p r).reverse := by
  have hplaces : (turned r).1 :: (turned r).2.map (·.neighbour) =
      (r.1 :: r.2.map (·.neighbour)).reverse := turn_places (fun _ _ => rfl) r.1 r.2
  rw [nodesAt, nodes_reverse, hplaces, zip_reverse, nodesAt]
  simp [length_nodes, hlen]

theorem relsAt_turned : relsAt (reversePattern p) (turned r) =
    (relsAt p r).reverse.map fun o => ({ o.1 with dir := o.1.dir.flip }, o.2) := by
  rw [relsAt, steps_reverse, turned_labels fun _ _ => rfl, zip_map_left, zip_reverse]
  · rfl
  · simp [length_steps, hlen]

theorem mem_routeOccs_turned (o : String × Val) : o ∈ routeOccs (reversePattern p) (turned r) ↔ o ∈ routeOccs p r := by
  rw [routeOccs, routeOccs, nodesAt_turned hlen, relsAt_turned hlen, filterMap_map,
    filterMap_reverse, filterMap_reverse, mem_append, mem_append,
    mem_reverse, mem_reverse]
  rfl

/-- **A route passes from either end**, and binds the same. -/
theorem routePasses_turned (hpath : p.pathVar = none) (hapart : p.Apart b) :
    eng.routePasses (reversePattern p) b (turned r) = eng.routePasses p b r := by
  have hlen' : (turned r).2.length = (reversePattern p).rels.length := by
    have hedges : (turned r).2.map edge = (r.2.map edge).reverse :=
      turned_labels (fun _ _ => rfl) r
    have hedges := congrArg length hedges
    simp only [length_map, length_reverse] at hedges
    rw [hedges, hlen, ← length_steps, ← length_steps, steps_reverse]
    simp
  rw [Bool.eq_iff_iff, routePasses_iff (hapart.reverse hpath) hlen', routePasses_iff hapart hlen,
    nodesAt_turned hlen, relsAt_turned hlen, turned_labels fun _ _ => rfl, nodup_reverse]
  simp only [List.mem_reverse, List.mem_map, forall_exists_index, and_imp,
    forall_apply_eq_imp_iff₂, agree_congr (mem_routeOccs_turned hlen)]
  rfl

theorem routeRow_turned (hapart : p.Apart b) (hpasses : eng.routePasses p b r = true) :
    routeRow (reversePattern p) b (turned r) = routeRow p b r := by
  have hagree := ((routePasses_iff hapart hlen).1 hpasses).2.2.2
  have hturned := (agree_congr (mem_routeOccs_turned hlen)).2 hagree
  rw [routeRow_eq hagree, routeRow_eq hturned, insertAll_congr (mem_routeOccs_turned hlen) hturned]

end

/-- **A steady pattern has the same rows from either end.** Both sides answer: with steady
properties nothing can fail on the way. -/
theorem asWritten_reverse {g : GraphView} (hview : eng.view = g.toView)
    (hrows : eng.counting = false) (hpath : p.pathVar = none)
    (hfixed : ∀ rn ∈ p.rels, rn.1.varLength = none) (hsteady : p.Steady eng b) (hapart : p.Apart b)
    (hlive : g.EndsLive) : ∃ rows rows', eng.asWritten p b = some rows ∧
      eng.asWritten (reversePattern p) b = some rows' ∧ rows.Perm rows' := by
  have hfixed' : ∀ rn ∈ (reversePattern p).rels, rn.1.varLength = none := by
    intro rn hrn
    have hmem : rn.1 ∈ (reversePattern p).steps := mem_map_of_mem hrn
    rw [steps_reverse] at hmem
    obtain ⟨rel, hrel, heq⟩ := mem_map.1 hmem
    obtain ⟨rn', hrn', rfl⟩ := mem_map.1 (mem_reverse.1 hrel)
    rw [← heq]
    exact hfixed rn' hrn'
  refine ⟨_, _, asWritten_routes hrows hpath hfixed hsteady hapart,
    asWritten_routes hrows rfl hfixed' hsteady.reverse (hapart.reverse hpath), ?_⟩
  let legs := p.steps.map fun rel =>
    (eng.view.leg rel, eng.view.leg { rel with dir := rel.dir.flip })
  have hturned : ∀ l ∈ legs, Route.Turned neighbour back eng.view.liveNodes l.1 l.2 := by
    intro l hl
    obtain ⟨rel, -, rfl⟩ := mem_map.1 hl
    rw [hview]
    exact GraphView.turned_leg hlive rel
  have hroutes := routes_turned (fun _ _ => rfl) hturned
  have hlegs : legs.map (·.1) = p.steps.map eng.view.leg := map_map
  have hlegs' : (legs.map (·.2)).reverse = (reversePattern p).steps.map eng.view.leg := by
    rw [steps_reverse, List.map_map, ← List.map_reverse, List.map_reverse, List.map_map,
      map_reverse]
    rfl
  rw [hlegs, hlegs'] at hroutes
  refine List.Perm.trans (List.Perm.of_eq ?_) ((hroutes.filter _).map _)
  rw [List.filter_map, List.map_map]
  have hlen : ∀ r ∈ routes neighbour eng.view.liveNodes (p.steps.map eng.view.leg),
      r.2.length = p.rels.length := by
    intro r hr
    obtain ⟨c, -, hr⟩ := mem_flatMap.1 hr
    obtain ⟨hs, hhs, rfl⟩ := mem_map.1 hr
    rw [length_of_mem_onward hhs, length_map, length_steps]
  have hpass : ∀ r ∈ routes neighbour eng.view.liveNodes (p.steps.map eng.view.leg),
      eng.routePasses p b r = eng.routePasses (reversePattern p) b (turned r) := fun r hr =>
    (routePasses_turned (hlen r hr) hpath hapart).symm
  rw [filter_congr hpass]
  refine map_congr_left fun r hr => ?_
  obtain ⟨hmem, hr⟩ := mem_filter.1 hr
  rw [routePasses_turned (hlen r hmem) hpath hapart] at hr
  exact (routeRow_turned (hlen r hmem) hapart hr).symm

end Engine

end Slater
