import Slater.Exec.Anchors
import Slater.Exec.Prefix

/-!
# A pattern matched as it is written

What a plan is measured against: the walks of a pattern from every live node, in order, with every
label checked (`asWritten`). `Walked` says what such a walk is, relationship by relationship, and
`mem_expandChain` that the rows of `expand_chain` are exactly the bindings of its walks.

A row keeps what was bound before the pattern under every name that is not one of its relationship
and path variables (`Walked.keeps`). Node variables need no such care: one that is bound has to meet
its node again.

Matching as written is a definition for comparison. The source has no such function: it is `match_single_pattern`
without a plan, over the same `expand_chain`.
-/

namespace Slater

open List Binding

/-! ## Bindings that grow -/

namespace Binding

variable {b : Binding} {name : Option String}

/-- What one binding binds, the other binds to the same value. -/
def Extends (b b' : Binding) : Prop := ∀ x v, b x = some v → b' x = some v

theorem Extends.refl (b : Binding) : b.Extends b := fun _ _ h => h

theorem Extends.trans {a c : Binding} (hab : a.Extends b) (hbc : b.Extends c) : a.Extends c :=
  fun x v h => hbc x v (hab x v h)

theorem extends_insert? {v : Val} (h : ∀ x, name = some x → b x = none ∨ b x = some v) :
    b.Extends (b.insert? name v) := by
  cases name with
  | none => exact Extends.refl b
  | some x =>
    intro y u hy
    rw [insert?_some]
    by_cases hxy : y = x
    · subst hxy
      rcases h y rfl with hb | hb
      · rw [hb] at hy
        cases hy
      · rw [insert_self, ← hb, hy]
    · rwa [insert_of_ne b hxy]

theorem insert?_of_ne {x : String} (h : name ≠ some x) (v : Val) : b.insert? name v x = b x := by
  cases name with
  | none => rfl
  | some y => exact insert_of_ne b (fun heq => h (congrArg some heq.symm)) v

end Binding

theorem nextOk_iff {b : Binding} {next : NodePat Expr} {n : Nat} :
    nextOk b next n = true ↔ ∀ x, next.var = some x → ∀ v, b x = some v → v = .node n := by
  unfold nextOk
  cases hvar : next.var with
  | none => simp
  | some x =>
    cases hb : b x with
    | none => simp [hb]
    | some v =>
      simp only [Option.bind_some, hb, beq_iff_eq, Option.some.injEq, forall_eq']
      refine ⟨fun h => by cases v <;> simp_all [Val.looseEq, Val.num], ?_⟩
      rintro rfl
      simp [Val.looseEq]

/-! ## Variables of relationships and paths -/

/-- The variables of the relationships still to walk, and of the path. -/
def edgeVars (p : Pattern Expr) (rels : List (RelPat Expr × NodePat Expr)) : List String :=
  rels.filterMap (·.1.var) ++ p.pathVar.toList

/-- Relationship and path variables are new, and each stands for one thing. The planner does not
test this; a pattern that is not apart may lose its meaning when it is turned round. -/
structure Apart (p : Pattern Expr) (rels : List (RelPat Expr × NodePat Expr)) (b : Binding) : Prop where
  once : (edgeVars p rels).Nodup
  nodes : ∀ x ∈ edgeVars p rels, x ∉ rels.filterMap (·.2.var)
  fresh : ∀ x ∈ edgeVars p rels, b x = none

/-- The same for a whole pattern. -/
structure Pattern.Apart (p : Pattern Expr) (b : Binding) : Prop extends Slater.Apart p p.rels b where
  start : ∀ x ∈ edgeVars p p.rels, p.start.var ≠ some x

theorem Pattern.Apart.frame {p : Pattern Expr} {b : Binding} (h : p.Apart b) (c : Nat) :
    Slater.Apart p p.rels (b.insert? p.start.var (.node c)) where
  once := h.once
  nodes := h.nodes
  fresh x hx := by rw [insert?_of_ne (h.start x hx), h.fresh x hx]

section

variable {p : Pattern Expr} {rel : RelPat Expr} {next : NodePat Expr}
  {rest : List (RelPat Expr × NodePat Expr)} {b : Binding}

theorem edgeVars_cons : edgeVars p ((rel, next) :: rest) = rel.var.toList ++ edgeVars p rest := by
  cases hvar : rel.var <;> simp [edgeVars, hvar]

theorem Apart.hop (h : Apart p ((rel, next) :: rest) b) (relVal : Val) (n : Nat) :
    Apart p rest (hopBound rel next relVal n b) := by
  have hmem : ∀ x ∈ edgeVars p rest, x ∈ edgeVars p ((rel, next) :: rest) := fun x hx => by
    rw [edgeVars_cons]
    exact mem_append_right _ hx
  refine ⟨?_, fun x hx hn => ?_, fun x hx => ?_⟩
  · have := h.once
    rw [edgeVars_cons] at this
    exact this.of_append_right
  · refine h.nodes x (hmem x hx) ?_
    cases hvar : next.var <;> simp_all
  · have hrel : rel.var ≠ some x := fun hvar => by
      have := h.once
      rw [edgeVars_cons, hvar] at this
      exact (nodup_cons.1 this).1 hx
    have hnext : next.var ≠ some x := fun hvar => h.nodes x (hmem x hx) (by simp [hvar])
    rw [hopBound, insert?_of_ne hnext, insert?_of_ne hrel, h.fresh x (hmem x hx)]

theorem Apart.extends_hop (h : Apart p ((rel, next) :: rest) b) (relVal : Val) {n : Nat}
    (hnext : nextOk b next n = true) : b.Extends (hopBound rel next relVal n b) := by
  have hmem : ∀ x, rel.var = some x → x ∈ edgeVars p ((rel, next) :: rest) := fun x hx => by
    rw [edgeVars_cons, hx]
    exact (.head _)
  refine (extends_insert? fun x hx => .inl (h.fresh x (hmem x hx))).trans
    (extends_insert? fun x hx => ?_)
  have hrel : rel.var ≠ some x := fun hvar => h.nodes x (hmem x hvar) (by simp [hx])
  rw [insert?_of_ne hrel]
  cases hb : b x with
  | none => exact .inl rfl
  | some v => exact .inr (congrArg some (nextOk_iff.1 hnext x hx v hb))

end

/-! ## Walks -/

namespace Engine

variable {b : Binding} {walk : List Hop}

/-- **The walks of a chain**, with the binding each ends in. -/
inductive Walked (eng : Engine Option) (p : Pattern Expr) (start : Nat) :
    List (RelPat Expr × NodePat Expr) → Nat → Binding → List Hop → Binding → Prop where
  | done (cur : Nat) (b : Binding) (walk : List Hop) : Walked eng p start [] cur b walk (pathBound p start walk b)
  | hop {rel : RelPat Expr} {next : NodePat Expr} {rest : List (RelPat Expr × NodePat Expr)}
    {cur : Nat} {b : Binding} {walk : List Hop} {row : Binding} (h : Hop)
    (fixed : rel.varLength = none) (mem : h ∈ eng.view.hops cur rel.dir rel.typeExpr)
    (edge : eng.relOk h.edge rel b = some true)
    (node : eng.nodeOk h.neighbour next (.map b) [] = some true)
    (known : nextOk b next h.neighbour = true) (unused : ∀ g ∈ walk, g.edge ≠ h.edge)
    (onward : Walked eng p start rest h.neighbour (hopBound rel next h.asRel h.neighbour b)
      (walk ++ [h]) row) : Walked eng p start ((rel, next) :: rest) cur b walk row
  | varlen {rel : RelPat Expr} {next : NodePat Expr} {rest : List (RelPat Expr × NodePat Expr)}
    {cur : Nat} {b : Binding} {walk : List Hop} {row : Binding} {vl : VarLength}
    {paths : List (List Hop × Nat)} {hops : List Hop} {last : Nat} (var : rel.varLength = some vl)
    (walks : eng.varlenWalk p rel next vl rest.isEmpty cur b walk = some paths)
    (mem : (hops, last) ∈ paths) (known : nextOk b next last = true)
    (onward : Walked eng p start rest last
      (hopBound rel next (.list (hops.map Hop.asRel)) last b) (walk ++ hops) row) :
    Walked eng p start ((rel, next) :: rest) cur b walk row

variable {eng : Engine Option} {p : Pattern Expr} {start cur : Nat} {rows : List Binding} {row : Binding}

section

variable (hrows : eng.counting = false) {rel : RelPat Expr} {next : NodePat Expr}
  {rest : List (RelPat Expr × NodePat Expr)} {cur : Nat} {b : Binding} {walk : List Hop}

include hrows

theorem expandChain_hops (hrel : rel.varLength = none) :
    eng.expandChain p false none start ((rel, next) :: rest) cur b walk [] =
      eng.expandWithDir cur rel rel.dir b >>= fun hops => (hops.mapM fun hop => eng.mergeHop rel next b walk
          (eng.expandChain p false none start rest) hop []).map flatten := by
  rw [expandChain_hop eng hrel (Bool.false_and _)]
  refine bind_congr fun hops => ?_
  exact Limited.foldlM_flatten (limited_mergeHop rel next b walk
    (fun nb b w => limited_expandChain hrows p start rest nb b w)) hops

theorem expandChain_paths {vl : VarLength} (hrel : rel.varLength = some vl) :
    eng.expandChain p false none start ((rel, next) :: rest) cur b walk [] =
      eng.varlenWalk p rel next vl rest.isEmpty cur b walk >>= fun paths =>
        (paths.mapM fun path => if !nextOk b next path.2 then some []
          else eng.expandChain p false none start rest path.2
            (hopBound rel next (.list (path.1.map Hop.asRel)) path.2 b) (walk ++ path.1) []).map flatten := by
  conv_lhs => unfold expandChain
  simp only [hrel]
  refine bind_congr fun paths => ?_
  exact Limited.foldlM_flatten (fun path : List Hop × Nat => .ite ((!nextOk b next path.2) = true)
    .skip (limited_expandChain hrows p start rest path.2 _ _)) paths

end

/-- A hop is walked on, or leads nowhere. -/
theorem mergeHop_cases {rel : RelPat Expr} {next : NodePat Expr}
    {onward : Nat → Binding → List Hop → List Binding → Option (List Binding)} {hop : Hop}
    (h : eng.mergeHop rel next b walk onward hop [] = some rows) :
    (eng.nodeOk hop.neighbour next (.map b) [] == some true && nextOk b next hop.neighbour &&
        walk.all (·.edge != hop.edge)) = true ∧
      onward hop.neighbour (hopBound rel next hop.asRel hop.neighbour b) (walk ++ [hop]) [] = some rows ∨
    (eng.nodeOk hop.neighbour next (.map b) [] == some true && nextOk b next hop.neighbour &&
        walk.all (·.edge != hop.edge)) = false ∧ rows = [] := by
  obtain ⟨ok, hok, h⟩ := Option.bind_eq_some_iff.1 h
  have hbeq : (eng.nodeOk hop.neighbour next (.map b) [] == some true) = ok := by
    rw [hok]
    cases ok <;> rfl
  rw [hbeq]
  split at h
  · exact .inl ⟨‹_›, h⟩
  · cases h
    exact .inr ⟨Bool.eq_false_iff.2 ‹_›, rfl⟩

/-- **The rows of `expand_chain` are the bindings of its walks.** The walks that fail on the way
do not matter, as the walk is known to answer. -/
theorem mem_expandChain (hrows : eng.counting = false) (rels : List (RelPat Expr × NodePat Expr))
    (h : eng.expandChain p false none start rels cur b walk [] = some rows)
    : row ∈ rows ↔ Walked eng p start rels cur b walk row := by
  induction rels generalizing cur b walk rows with
  | nil =>
    rw [expandChain_nil, complete_rows hrows] at h
    cases h
    rw [nil_append, mem_singleton]
    constructor
    · rintro rfl
      exact .done cur b walk
    · rintro ⟨⟩
      rfl
  | cons rn rest ih =>
    obtain ⟨rel, next⟩ := rn
    cases hrel : rel.varLength with
    | none =>
      rw [expandChain_hops hrows hrel] at h
      obtain ⟨hops, hhops, h⟩ := Option.bind_eq_some_iff.1 h
      obtain ⟨rss, hrss, rfl⟩ := Option.map_eq_some_iff.1 h
      obtain ⟨-, rfl⟩ := Fallible.filterM_eq_some_iff.1 hhops
      rw [mem_flatten]
      constructor
      · rintro ⟨rs, hrs, hrow⟩
        obtain ⟨hop, hhop, hmerge⟩ := (Fallible.mem_mapM_some hrss).1 hrs
        obtain ⟨hmem, hedge⟩ := mem_filter.1 hhop
        rcases mergeHop_cases hmerge with ⟨hpass, honward⟩ | ⟨-, rfl⟩
        · simp only [Bool.and_eq_true, all_eq_true, bne_iff_ne, beq_iff_eq] at hpass
          exact .hop hop hrel hmem (by simpa using hedge) hpass.1.1 hpass.1.2 hpass.2 ((ih honward).1 hrow)
        · cases hrow
      · rintro (_ | ⟨hop, -, hmem, hedge, hnode, hnext, hunused, honward⟩ | ⟨hvar, -, -, -, -⟩)
        · obtain ⟨rs, hrs, hmerge⟩ := Fallible.mapM_some_of_mem hrss (mem_filter.2 ⟨hmem, by simpa using hedge⟩)
          refine ⟨rs, hrs, ?_⟩
          have hunused' : walk.all (·.edge != hop.edge) = true := by simpa using hunused
          simp only [mergeHop, hnode, hnext, hunused'] at hmerge
          exact (ih hmerge).2 honward
        · rw [hrel] at hvar
          cases hvar
    | some vl =>
      rw [expandChain_paths hrows hrel] at h
      obtain ⟨paths, hpaths, h⟩ := Option.bind_eq_some_iff.1 h
      obtain ⟨rss, hrss, rfl⟩ := Option.map_eq_some_iff.1 h
      rw [mem_flatten]
      constructor
      · rintro ⟨rs, hrs, hrow⟩
        obtain ⟨⟨hops, last⟩, hmem, hpath⟩ := (Fallible.mem_mapM_some hrss).1 hrs
        split at hpath
        · cases hpath
          cases hrow
        · rename_i hnext
          exact .varlen hrel hpaths hmem (by simpa using hnext) ((ih hpath).1 hrow)
      · rintro (_ | ⟨hop, hfixed, -, -, -, -, -, -⟩ | ⟨hvar, hwalks, hmem, hnext, honward⟩)
        · rw [hrel] at hfixed
          cases hfixed
        · obtain rfl : vl = _ := Option.some.inj (hrel.symm.trans hvar)
          obtain rfl : paths = _ := Option.some.inj (hpaths.symm.trans hwalks)
          obtain ⟨rs, hrs, hpath⟩ := Fallible.mapM_some_of_mem hrss hmem
          simp only [hnext] at hpath
          exact ⟨rs, hrs, (ih hpath).2 honward⟩

/-- A hop keeps what is bound, but for the name of its relationship. -/
theorem hopBound_keeps {rel : RelPat Expr} {next : NodePat Expr} {n : Nat} {x : String} {v : Val} (relVal : Val)
    (hrel : rel.var ≠ some x) (hnext : nextOk b next n = true) (hb : b x = some v) :
    hopBound rel next relVal n b x = some v := by
  by_cases hvar : next.var = some x
  · rw [hopBound, hvar, insert?_some, insert_self, nextOk_iff.1 hnext x hvar v hb]
  · rw [hopBound, insert?_of_ne hvar, insert?_of_ne hrel, hb]

/-- **A walk keeps what was bound before it**, but for the names it gives to relationships and
to the path: those are bound anew, whatever they stood for. -/
theorem Walked.keeps {rels : List (RelPat Expr × NodePat Expr)}
    (h : Walked eng p start rels cur b walk row) {x : String} {v : Val} (hx : x ∉ edgeVars p rels)
    (hb : b x = some v) : row x = some v := by
  induction h with
  | done cur b walk =>
    have hpath : p.pathVar ≠ some x := fun hvar => hx (by simp [edgeVars, hvar])
    rw [pathBound, insert?_of_ne hpath, hb]
  | hop hop fixed mem edge node known unused onward ih | varlen var walks mem known onward ih =>
    rw [edgeVars_cons, mem_append, not_or] at hx
    exact ih hx.2 (hopBound_keeps _ (fun hvar => hx.1 (by simp [hvar])) known hb)

/-! ## Anchors -/

/-- The rows of one anchor, if the check lets it through. -/
def anchorRows {m : Type → Type} [Monad m] [MonadExceptOf Failure m] (eng : Engine m)
    (ok : Nat → m Bool) (p : Pattern Expr) (binding : Binding) (c : Nat) : m (List Binding) := do
  let pass ← ok c
  if pass then eng.walkAnchor p binding false false none c [] else pure []

theorem walkAnchorsBy_rows (hrows : eng.counting = false) (ok : Nat → Option Bool)
    (binding : Binding) (ids : List Nat) : eng.walkAnchorsBy ok p binding false false none ids [] =
      (ids.mapM (eng.anchorRows ok p binding)).map flatten := by
  exact Limited.foldlM_flatten (fun c => .bind fun _ => .ite _
    (limited_expandChain hrows p c p.rels c _ []) .skip) ids

/-- The anchors are prefiltered: `node_ok_par` tests them against the properties of the start,
read once before the first of them. -/
def prefilters (eng : Engine Option) (p : Pattern Expr) (upperBound : Nat) (guaranteed : List Nat) : Bool :=
  eng.pool && decide (scanParMin ≤ upperBound) && eng.view.anchorFilterReads p.start guaranteed

/-- Anchors in parallel and prefiltered, or one by one. -/
theorem walkAnchors_seq (hrows : eng.counting = false) {binding : Binding} {upperBound : Nat} {guaranteed : List Nat}
    (hwants : eng.prefilters p upperBound guaranteed = true → ∃ wants, eng.anchorWants p binding = some wants)
    (w : Option Expr) (ids : List Nat) :
    eng.walkAnchors p binding w ids upperBound guaranteed [] none =
      eng.walkAnchorsBy (fun c => eng.nodeOk c p.start (.map binding) guaranteed) p binding
        false false none ids [] := by
  have hpar : ∀ ok, eng.walkAnchorsBy ok p binding
      ((none : Option Nat).isNone && eng.chainParallelizable p) false none ids [] =
      eng.walkAnchorsBy ok p binding false false none ids [] := fun ok =>
    walkAnchorsBy_par (by simp) ok binding false ids []
  unfold walkAnchors
  simp only [hrows, Bool.false_and, hpar]
  split
  · rename_i hpre
    obtain ⟨wants, hwants⟩ := hwants (by simpa [prefilters] using hpre)
    simp [hwants, nodeOk_of_wants hwants]
  · rfl

end Engine

/-! ## The reference -/

variable (v : View)

/-- The hops a relationship pattern may take. -/
def View.leg (rel : RelPat Expr) (n : Nat) : List Hop := v.hops n rel.dir rel.typeExpr

/-- The live nodes, in order. -/
def View.liveNodes : List Nat :=
  (range v.nodeCount).filter fun id => !v.suppressed id

variable {v : View} {id : Nat}

theorem View.mem_liveNodes : id ∈ v.liveNodes ↔ v.live id := by
  simp [liveNodes, live]

/-- The live nodes a pattern may start from: all, or the one its variable is bound to. -/
def View.anchors (v : View) (start : NodePat Expr) (binding : Binding) : List Nat :=
  (range v.nodeCount).filter fun id => !v.suppressed id && nextOk binding start id

theorem View.mem_anchors {start : NodePat Expr} {binding : Binding} :
    id ∈ v.anchors start binding ↔ v.live id ∧ nextOk binding start id = true := by
  simp [anchors, live, and_assoc]

theorem View.anchors_eq (v : View) (start : NodePat Expr) (binding : Binding) :
    v.anchors start binding = v.liveNodes.filter fun id => nextOk binding start id := by
  rw [liveNodes, filter_filter]
  exact filter_congr fun id _ => Bool.and_comm _ _

/-- **Matching as written**: every live node is a candidate, and every label is checked. It
walks the anchors with the walk of the source, so that only the choice of a plan is compared. -/
def Engine.asWritten {m : Type → Type} [Monad m] [MonadExceptOf Failure m] (eng : Engine m)
    (p : Pattern Expr) (binding : Binding) : m (List Binding) :=
  eng.walkAnchorsBy (fun c => eng.nodeOk c p.start (.map binding) []) p binding false false none
    (eng.view.anchors p.start binding) []

end Slater
