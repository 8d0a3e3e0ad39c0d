import Slater.Lib.Effect
import Slater.Exec.Match

/-!
# One matcher, several monads

The matcher is written over a monad, and does the same in each: on engines that differ only in
related evaluators and tallies, all of its functions are related. This is proved once, function by
function, and used to pass from a run that may fail to the run that only says what it answers.

A match evaluates no other expressions than those of its patterns and its predicate, so the
evaluators need only be related on a class of expressions that holds these.

**What it does not establish.** A relation between monads says nothing about which rows are found; it only carries a
fact found in one to the other.
-/

namespace Slater

open List

variable {p : Pattern Expr}

/-! ## The expressions of a match -/

section

variable (P : Expr → Prop)

def NodePat.Over (n : NodePat Expr) : Prop := ∀ ke ∈ n.props, P ke.2

def RelPat.Over (r : RelPat Expr) : Prop := ∀ ke ∈ r.props, P ke.2

def StepsOver (rels : List (RelPat Expr × NodePat Expr)) : Prop :=
  ∀ rn ∈ rels, rn.1.Over P ∧ rn.2.Over P

def Segment.Over : Segment Expr → Prop
  | .hop rel node => rel.Over P ∧ node.Over P
  | .quantified inner _ exit => StepsOver P inner ∧ exit.Over P

/-- The expressions of a pattern belong to a class. -/
structure Pattern.Over (p : Pattern Expr) : Prop where
  start : p.start.Over P
  rels : StepsOver P p.rels
  segments : ∀ segs ∈ p.segments, ∀ seg ∈ segs, seg.Over P

/-- The expressions of a clause belong to a class. -/
structure MatchClause.Over (mc : MatchClause) : Prop where
  patterns : ∀ p ∈ mc.patterns, p.Over P
  «where» : ∀ e ∈ mc.where, P e

end

theorem Pattern.over_true (p : Pattern Expr) : p.Over fun _ => True where
  start _ _ := trivial
  rels _ _ := ⟨fun _ _ => trivial, fun _ _ => trivial⟩
  segments _ _ seg _ := by
    cases seg with
    | hop rel node => exact ⟨fun _ _ => trivial, fun _ _ => trivial⟩
    | quantified inner bounds exit =>
      exact ⟨fun _ _ => ⟨fun _ _ => trivial, fun _ _ => trivial⟩, fun _ _ => trivial⟩

theorem MatchClause.over_true (mc : MatchClause) : mc.Over fun _ => True where
  patterns p _ := p.over_true
  «where» _ _ := trivial

variable {P : Expr → Prop} {ps : List (Pattern Expr)} {m : Type → Type} {α : Type} {a : α}

theorem reversePattern_over (hp : p.Over P) : (reversePattern p).Over P where
  start := by
    unfold reversePattern
    cases hlast : p.rels.getLast? with
    | none => exact hp.start
    | some rn => exact (hp.rels rn (mem_of_getLast? hlast)).2
  rels := by
    intro rn hrn
    obtain ⟨⟨rel, node⟩, hmem, rfl⟩ := mem_map.1 hrn
    obtain ⟨hrel, hnode⟩ := of_mem_zip (mem_reverse.1 hmem)
    obtain ⟨step, hstep, rfl⟩ := mem_map.1 hrel
    refine ⟨(hp.rels step hstep).1, ?_⟩
    obtain rfl | hnode := mem_cons.1 hnode
    · exact hp.start
    · obtain ⟨rn', hrn', rfl⟩ := mem_map.1 hnode
      exact (hp.rels rn' hrn').2
  segments := nofun

/-- A pattern is matched as it is, or reversed. -/
theorem Engine.maybeReroot_eq (eng : Engine m) (p : Pattern Expr) (binding : Binding) (w : Option Expr) :
    eng.maybeReroot p binding w = none ∨ eng.maybeReroot p binding w = some (reversePattern p) := by
  unfold Engine.maybeReroot
  split
  · exact .inl rfl
  cases p.rels.getLast? with
  | none => exact .inl rfl
  | some rn =>
    obtain ⟨rel, endNode⟩ := rn
    cases hvar : endNode.var with
    | none => exact .inl (by simp [hvar])
    | some v =>
      simp only [Option.bind_eq_bind, Option.bind_some, hvar]
      split
      · exact .inr rfl
      · exact .inl rfl
      · cases w with
        | none => exact .inl rfl
        | some w =>
          simp only [Option.bind_some]
          split
          · exact .inl rfl
          · exact .inr rfl

theorem Engine.maybeReroot_over (eng : Engine m) (hp : p.Over P) (binding : Binding)
    (w : Option Expr) : ((eng.maybeReroot p binding w).getD p).Over P := by
  obtain hnone | hsome := eng.maybeReroot_eq p binding w
  · rw [hnone]
    exact hp
  · rw [hsome]
    exact reversePattern_over hp

theorem streamable_over {cols : List String} {mc : MatchClause} (hmc : mc.Over P)
    (h : Engine.streamable cols mc = some p) : p.start.Over P := by
  unfold Engine.streamable at h
  split at h
  · rename_i q hq
    split at h
    · cases h
    · cases h
      exact (hmc.patterns p (hq ▸ mem_cons_self)).start
  · cases h

theorem repeatInner_over {inner : List (RelPat Expr × NodePat Expr)} (hinner : StepsOver P inner)
    {exit : NodePat Expr} (hexit : exit.Over P) (k : Nat) : StepsOver P (repeatInner inner k exit) := by
  intro rn hrn
  obtain ⟨⟨⟨rel, node⟩, i⟩, hmem, rfl⟩ := mem_map.1 hrn
  obtain ⟨copy, hcopy, hmem⟩ := mem_flatten.1 (fst_mem_of_mem_zipIdx hmem)
  rw [eq_of_mem_replicate hcopy] at hmem
  refine ⟨(hinner _ hmem).1, ?_⟩
  dsimp only
  split
  · exact hexit
  · exact (hinner _ hmem).2

theorem segmentAlts_over {seg : Segment Expr} (hseg : seg.Over P)
    {alts : List (List (RelPat Expr × NodePat Expr))} (h : segmentAlts seg = .ok alts) :
    ∀ chain ∈ alts, StepsOver P chain := by
  cases seg with
  | hop rel node =>
    cases h
    intro chain hchain rn hrn
    rw [mem_singleton.1 hchain] at hrn
    rw [mem_singleton.1 hrn]
    exact hseg
  | quantified inner bounds exit =>
    unfold segmentAlts at h
    dsimp only at h
    split at h
    · cases h
    split at h
    · cases h
    split at h
    · cases h
    split at h
    · cases h
    · cases h
      intro chain hchain
      obtain ⟨k, -, rfl⟩ := mem_map.1 hchain
      exact repeatInner_over hseg.1 hseg.2 k

theorem mem_extended_combinations (alts combos : List (List α)) {combo : List α}
    (h : combo ∈ alts.foldl (fun combos alt => combos.flatMap fun c => alt.map fun a => c ++ [a])
      combos) (ha : a ∈ combo) : (∃ c ∈ combos, a ∈ c) ∨ ∃ alt ∈ alts, a ∈ alt := by
  induction alts generalizing combos with
  | nil => exact .inl ⟨combo, h, ha⟩
  | cons alt alts ih =>
    obtain ⟨c, hc, hac⟩ | ⟨alt', halt', ha'⟩ := ih _ h
    · obtain ⟨c', hc', hmem⟩ := mem_flatMap.1 hc
      obtain ⟨b, hb, rfl⟩ := mem_map.1 hmem
      obtain hac | hac := mem_append.1 hac
      · exact .inl ⟨c', hc', hac⟩
      · rw [mem_singleton.1 hac]
        exact .inr ⟨alt, .head _, hb⟩
    · exact .inr ⟨alt', .tail _ halt', ha'⟩

/-- A combination takes its members from the alternatives. -/
theorem mem_combinations {alts : List (List α)} {combo : List α}
    (h : combo ∈ combinations alts) (ha : a ∈ combo) : ∃ alt ∈ alts, a ∈ alt := by
  obtain ⟨c, hc, hac⟩ | h := mem_extended_combinations alts [[]] h ha
  · rw [mem_singleton.1 hc] at hac
    cases hac
  · exact h

/-- The unrolled patterns hold the expressions of the groups. -/
theorem expandQuantifiedPattern_over (hp : p.Over P)
    (h : expandQuantifiedPattern p = .ok ps) : ∀ q ∈ ps, q.Over P := by
  unfold expandQuantifiedPattern at h
  split at h
  · cases h
    intro q hq
    rw [mem_singleton.1 hq]
    exact hp
  · rename_i segs hsegs
    obtain ⟨alts, halts, h⟩ := bind_eq_ok.1 h
    cases h
    intro q hq
    obtain ⟨chain, hchain, rfl⟩ := mem_map.1 hq
    refine ⟨hp.start, fun rn hrn => ?_, nofun⟩
    obtain ⟨steps, hsteps, hrn⟩ := mem_flatten.1 hrn
    obtain ⟨alt, halt, hsteps⟩ := mem_combinations hchain hsteps
    obtain ⟨seg, hseg, hsegAlts⟩ := Fallible.mem_mapM_ok halts halt
    exact segmentAlts_over (hp.segments segs hsegs seg hseg) hsegAlts steps hsteps rn hrn

theorem combinations_over (hps : ∀ p ∈ ps, p.Over P)
    {alts : List (List (Pattern Expr))} (h : ps.mapM expandQuantifiedPattern = .ok alts) :
    ∀ combo ∈ combinations alts, ∀ q ∈ combo, q.Over P := by
  intro combo hcombo q hq
  obtain ⟨alt, halt, hq⟩ := mem_combinations hcombo hq
  obtain ⟨p, hp, hexpand⟩ := Fallible.mem_mapM_ok h halt
  exact expandQuantifiedPattern_over (hps p hp) hexpand q hq

namespace Engine

variable {m n : Type → Type} [Monad m] [Monad n] [MonadExceptOf String m] [MonadExceptOf String n]

/-- Two engines over the same view and settings; the evaluators are related on the expressions
of a class. What the two engines read of the view is the same, so they take the same branches up
to what an evaluation answers. -/
structure SameReads (R : MonadRel m n) (P : Expr → Prop) (eng : Engine m) (eng' : Engine n) : Prop where
  view : eng'.view = eng.view
  params : eng'.params = eng.params
  pool : eng'.pool = eng.pool
  isHub : eng'.isHub = eng.isHub
  distinctEndpoint : eng'.distinctEndpoint = eng.distinctEndpoint
  eval : ∀ e, P e → ∀ scope, R.Rel (eng.eval e scope) (eng'.eval e scope)

/-- The engines count alike as well. -/
structure Related (R : MonadRel m n) (P : Expr → Prop) (eng : Engine m) (eng' : Engine n) : Prop
    extends SameReads R P eng eng' where
  counting : eng'.counting = eng.counting
  addCount : ∀ k, R.Rel (eng.addCount k) (eng'.addCount k)

theorem propsOk_rel (R : MonadRel m n) {ev : Expr → m Val} {ev' : Expr → n Val}
    (read : String → Val) : ∀ {props : List (String × Expr)},  (∀ ke ∈ props, R.Rel (ev ke.2) (ev' ke.2)) →
      R.Rel (propsOk ev (fun k => pure (read k)) props) (propsOk ev' (fun k => pure (read k)) props)
  | [], _ => R.ret true
  | (k, e) :: props, h => by
    exact R.seq (h _ (.head _)) fun want => R.seq (R.ret _) fun got =>
      R.ite (propsOk_rel R read fun ke hke => h ke (.tail _ hke)) (R.ret false)

/-! ## Checks and walks -/

namespace SameReads

variable {R : MonadRel m n} {P : Expr → Prop} {eng : Engine m} {eng' : Engine n} (h : SameReads R P eng eng')
variable {rel : RelPat Expr} {next start : NodePat Expr} {w : Option Expr}
include h

theorem planEnv (binding : Binding) : eng'.planEnv binding = eng.planEnv binding := by
  unfold Engine.planEnv
  rw [h.params]

theorem chainParallelizable (p : Pattern Expr) : eng'.chainParallelizable p = eng.chainParallelizable p := by
  unfold Engine.chainParallelizable
  rw [h.pool]

theorem degreeTerminal (p : Pattern Expr) : eng'.degreeTerminal p = eng.degreeTerminal p := by
  unfold Engine.degreeTerminal
  rw [h.view]

theorem maybeReroot (p : Pattern Expr) (binding : Binding) (w : Option Expr) :
    eng'.maybeReroot p binding w = eng.maybeReroot p binding w := by
  unfold Engine.maybeReroot
  rw [h.planEnv]

theorem nodeOk (id : Nat) {pat : NodePat Expr} (hpat : pat.Over P) (scope : Scope) (guaranteed : List Nat) :
    R.Rel (eng.nodeOk id pat scope guaranteed) (eng'.nodeOk id pat scope guaranteed) := by
  unfold Engine.nodeOk
  rw [h.view]
  exact R.ite (propsOk_rel R _ fun ke hke => h.eval ke.2 (hpat ke hke) scope) (R.ret false)

theorem relOk (edge : Nat) (hrel : rel.Over P) (binding : Binding) :
    R.Rel (eng.relOk edge rel binding) (eng'.relOk edge rel binding) := by
  unfold Engine.relOk
  rw [h.view]
  exact propsOk_rel R _ fun ke hke => h.eval ke.2 (hrel ke hke) _

theorem emit {w : VarLenWalk} (hnext : w.next.Over P) (node : Nat) (path : List Hop)
    (out : List (List Hop × Nat)) : R.Rel (eng.emit w node path out) (eng'.emit w node path out) := by
  unfold Engine.emit
  exact R.ite (R.seq (h.nodeOk node hnext _ _) fun ok => R.ret _) (R.ret out)

theorem mergeHop (rel : RelPat Expr) (hnext : next.Over P) (binding : Binding) (walk : List Hop)
    {onward : Nat → Binding → List Hop → List Binding → m (List Binding)}
    {onward' : Nat → Binding → List Hop → List Binding → n (List Binding)}
    (ho : ∀ nb b w out, R.Rel (onward nb b w out) (onward' nb b w out)) (hop : Hop) (out : List Binding) :
    R.Rel (eng.mergeHop rel next binding walk onward hop out)
      (eng'.mergeHop rel next binding walk onward' hop out) :=
  R.seq (h.nodeOk hop.neighbour hnext _ _) fun _ => R.ite (ho _ _ _ _) (R.ret out)

theorem walkMergeHop (rel : RelPat Expr) (hnext : next.Over P) (trackWalk : Bool) (b : ChainBranch) (hop : Hop) :
    R.Rel (eng.walkMergeHop rel next trackWalk b hop) (eng'.walkMergeHop rel next trackWalk b hop) :=
  R.seq (h.nodeOk hop.neighbour hnext _ _) fun _ => R.ite (R.ret _) (R.ret none)

theorem selectedPaths (rel : RelPat Expr) (src dst : Nat) (selector : PathSelector) :
    R.Rel (eng.selectedPaths rel src dst selector) (eng'.selectedPaths rel src dst selector) := by
  unfold Engine.selectedPaths
  rw [h.view]
  dsimp only
  split
  · exact R.ret _
  · exact R.fail _

theorem streamCandidate (cols : List String) (hstart : start.Over P)
    (hw : ∀ e ∈ w, P e) (row : List Val) (guaranteed : List Nat) (c : Nat) (out : List (List Val)) :
    R.Rel (eng.streamCandidate cols start w row guaranteed c out)
      (eng'.streamCandidate cols start w row guaranteed c out) := by
  refine R.seq (h.nodeOk c hstart _ _) fun ok => ?_
  split
  · cases w with
    | none => exact R.ret _
    | some w => exact R.seq (h.eval w (hw w rfl) _) fun v => R.ret _
  · exact R.ret out

theorem streamMatch (table : Table) {mc : MatchClause} (hw : ∀ e ∈ mc.where, P e)
    (hstart : start.Over P) (cap : Option Nat) :
    R.Rel (eng.streamMatch table mc start cap) (eng'.streamMatch table mc start cap) := by
  unfold Engine.streamMatch Engine.streamRow Engine.streamScan
  rw [h.view, h.planEnv]
  exact R.seq (R.foldlM (fun out row => R.foldlM (fun out c =>
    R.ite (R.ret out) (h.streamCandidate _ hstart hw _ _ _ _)) _ out) _ _) fun rows => R.ret _

variable [LawfulMonad m] [LawfulMonad n] {p : Pattern Expr}

theorem expandWithDir (node : Nat) (hrel : rel.Over P) (dir : Direction) (binding : Binding) :
    R.Rel (eng.expandWithDir node rel dir binding) (eng'.expandWithDir node rel dir binding) := by
  unfold Engine.expandWithDir
  rw [h.view]
  exact R.filterM (fun hop : Hop => h.relOk hop.edge hrel binding) _

theorem varlen {w : VarLenWalk} (hrel : w.rel.Over P) (hnext : w.next.Over P) (steps node : Nat)
    (path : List Hop) (used visited : List Nat) (out : List (List Hop × Nat)) :
    R.Rel (eng.varlen w steps node path used visited out) (eng'.varlen w steps node path used visited out) := by
  induction steps generalizing node path used visited out with
  | zero =>
    exact R.seq (h.emit hnext node path out) R.ret
  | succ steps ih =>
    refine R.seq (h.emit hnext node path out) fun out =>
      R.seq (h.expandWithDir node hrel w.rel.dir w.binding) fun hops =>
        R.foldlM (fun out hop => ?_) hops out
    split
    · exact R.ret out
    · exact h.emit hnext hop.neighbour _ out
    · exact ih _ _ _ _ _

theorem varlenWalk (p : Pattern Expr) (hrel : rel.Over P) (hnext : next.Over P) (vl : VarLength) (last : Bool)
    (cur : Nat) (binding : Binding) (walk : List Hop) : R.Rel (eng.varlenWalk p rel next vl last cur binding walk)
      (eng'.varlenWalk p rel next vl last cur binding walk) := by
  unfold Engine.varlenWalk
  rw [h.distinctEndpoint]
  exact h.varlen hrel hnext _ _ _ _ _ _

theorem anchorWants (hstart : p.start.Over P) (binding : Binding) :
    R.Rel (eng.anchorWants p binding) (eng'.anchorWants p binding) :=
  R.mapM fun ke hke => R.seq (h.eval ke.2 (hstart ke hke) _) fun _ => R.ret _

theorem endpointCandidates {node : NodePat Expr} (hnode : node.Over P) (binding : Binding) (w : Option Expr) :
    R.Rel (eng.endpointCandidates node binding w) (eng'.endpointCandidates node binding w) := by
  unfold Engine.endpointCandidates
  rw [h.view, h.planEnv]
  split
  · exact R.ret _
  · exact R.ret _
  · exact R.filterM (fun c => h.nodeOk c hnode _ _) _

theorem selectedMatches (rel : RelPat Expr) {endNode : NodePat Expr}
    (hstart : p.start.Over P) (hend : endNode.Over P) (selector : PathSelector)
    (hw : ∀ e ∈ w, P e) (seed : Binding) : R.Rel (eng.selectedMatches p rel endNode selector w seed)
      (eng'.selectedMatches p rel endNode selector w seed) := by
  refine R.seq (h.endpointCandidates hstart _ _) fun srcs =>
    R.seq (h.endpointCandidates hend _ _) fun dsts => R.foldlM (fun out ends => ?_) _ _
  refine R.seq (h.selectedPaths rel ends.1 ends.2 selector) fun paths =>
    R.foldlM (fun out hops => ?_) _ _
  split
  · exact R.ret out
  · cases w with
    | none => exact R.ret _
    | some w => exact R.seq (h.eval w (hw w rfl) _) fun v => R.ret _

end SameReads

/-! ## Chains -/

theorem matchTable_rel (R : MonadRel m n) (table : Table) (mc : MatchClause) (vars : List String)
    (cap : Option Nat) (push : List (List Val) → List (List Val) → List (List Val))
    {found : List Val → Option Nat → m (List Binding)} {found' : List Val → Option Nat → n (List Binding)}
    (hf : ∀ row remaining, R.Rel (found row remaining) (found' row remaining)) :
    R.Rel (matchTable table mc vars cap push found) (matchTable table mc vars cap push found') := by
  exact R.seq (R.foldlM (fun out row => R.ite (R.ret out) (R.seq (hf _ _) fun bs => R.ret _)) _ _)
    fun rows => R.ret _

namespace Related

variable {R : MonadRel m n} {P : Expr → Prop} {eng : Engine m} {eng' : Engine n} (h : Related R P eng eng')
variable {p : Pattern Expr} {mc : MatchClause} {rels : List (RelPat Expr × NodePat Expr)}
include h

theorem addDegree (node : Nat) (dir : Direction) (out : List Binding) :
    R.Rel (eng.addDegree node dir out) (eng'.addDegree node dir out) := by
  unfold Engine.addDegree
  rw [h.view]
  exact R.seq (R.ofExcept _) fun d => R.seq (h.addCount d) fun _ => R.ret out

theorem complete (row : Binding) (out : List Binding) : R.Rel (eng.complete row out) (eng'.complete row out) := by
  unfold Engine.complete Engine.countTally
  rw [h.counting]
  exact R.seq (R.ite (R.seq (h.addCount 1) fun _ => R.ret true) (R.ret false)) fun tallied => R.ret _

theorem addHop (rel : RelPat Expr) {next : NodePat Expr} (hnext : next.Over P) (trackWalk : Bool)
    {flush : List ChainBranch → List Binding → m (List Binding)}
    {flush' : List ChainBranch → List Binding → n (List Binding)}
    (hf : ∀ pending out, R.Rel (flush pending out) (flush' pending out)) (b : ChainBranch)
    (acc : List ChainBranch × List Binding) (hop : Hop) :
    R.Rel (eng.addHop rel next trackWalk flush b acc hop) (eng'.addHop rel next trackWalk flush' b acc hop) := by
  refine R.seq (h.walkMergeHop rel hnext trackWalk b hop) fun branch => ?_
  cases branch with
  | none => exact R.ret _
  | some branch =>
    exact R.ite (R.seq (hf _ _) fun out => R.ret _) (R.ret _)

theorem parWalk (p : Pattern Expr) (degree : Bool) (start : Nat) (hrels : StepsOver P rels)
    (frontier : List ChainBranch) (out : List Binding) :
    R.Rel (eng.parWalk p degree start rels frontier out) (eng'.parWalk p degree start rels frontier out) := by
  induction rels generalizing frontier out with
  | nil => exact R.foldlM (fun out b => h.complete _ out) frontier out
  | cons rn rest ih =>
    obtain ⟨rel, next⟩ := rn
    have hnext := (hrels _ (.head _)).2
    have hrest := ih fun rn hrn => hrels rn (.tail _ hrn)
    rw [Engine.parWalk, Engine.parWalk, h.view]
    split
    · exact R.foldlM (fun out (b : ChainBranch) => h.addDegree b.cur rel.dir out) frontier out
    exact R.seq (R.foldlM (fun acc b => R.foldlM (h.addHop rel hnext _ hrest b) _ acc) frontier _) fun acc =>
      R.ite (R.ret _) (hrest _ _)

variable [LawfulMonad m] [LawfulMonad n]

theorem expandChain (p : Pattern Expr) (degree : Bool) (cap : Option Nat) (start : Nat)
    (hrels : StepsOver P rels) (cur : Nat) (binding : Binding) (walk : List Hop) (out : List Binding) :
    R.Rel (eng.expandChain p degree cap start rels cur binding walk out)
      (eng'.expandChain p degree cap start rels cur binding walk out) := by
  induction rels generalizing cur binding walk out with
  | nil =>
    unfold Engine.expandChain
    exact R.ite (R.ret out) (h.complete _ out)
  | cons rn rest ih =>
    obtain ⟨rel, next⟩ := rn
    obtain ⟨hrel, hnext⟩ := hrels _ (.head _)
    have hrest := ih fun rn hrn => hrels rn (.tail _ hrn)
    unfold Engine.expandChain
    rw [h.view, h.isHub]
    split
    · exact R.ret out
    dsimp only
    split
    · exact h.addDegree cur rel.dir out
    split
    · have hstep := fun hop out => h.mergeHop rel hnext binding walk hrest hop out
      split
      · exact R.foldlM (fun out (hop : Hop) =>
          R.seq (h.relOk hop.edge hrel binding) fun ok => R.ite (hstep hop out) (R.ret out)) _ out
      · exact R.seq (h.expandWithDir cur hrel rel.dir binding) fun hops =>
          R.foldlM (fun out hop => R.ite (R.ret out) (hstep hop out)) hops out
    · exact R.seq (h.varlenWalk p hrel hnext _ _ cur binding walk) fun paths =>
        R.foldlM (fun out path => R.ite (R.ret out) (hrest _ _ _ _)) paths out

/-! ## Patterns -/

theorem walkAnchor (hp : StepsOver P p.rels) (binding : Binding) (par degree : Bool) (cap : Option Nat)
    (c : Nat) (out : List Binding) :
    R.Rel (eng.walkAnchor p binding par degree cap c out) (eng'.walkAnchor p binding par degree cap c out) := by
  unfold Engine.walkAnchor
  exact R.ite (h.parWalk _ _ _ hp _ _) (h.expandChain _ _ _ _ hp _ _ _ _)

theorem walkAnchorsBy {ok : Nat → m Bool} {ok' : Nat → n Bool} (hok : ∀ c, R.Rel (ok c) (ok' c))
    (hp : StepsOver P p.rels) (binding : Binding) (par degree : Bool) (cap : Option Nat) (ids : List Nat)
    (out : List Binding) : R.Rel (eng.walkAnchorsBy ok p binding par degree cap ids out)
      (eng'.walkAnchorsBy ok' p binding par degree cap ids out) := by
  refine R.foldlM (fun out c => R.ite (R.ret out) ?_) ids out
  exact R.seq (hok c) fun ok => R.ite (h.walkAnchor hp _ _ _ _ _ _) (R.ret out)

theorem walkAnchors (hp : p.Over P) (binding : Binding) (w : Option Expr) (ids : List Nat) (upperBound : Nat)
    (guaranteed : List Nat) (out : List Binding) (cap : Option Nat) :
    R.Rel (eng.walkAnchors p binding w ids upperBound guaranteed out cap)
      (eng'.walkAnchors p binding w ids upperBound guaranteed out cap) := by
  unfold Engine.walkAnchors Engine.nodeOkPar
  rw [h.chainParallelizable, h.degreeTerminal, h.view, h.pool, h.counting]
  split
  · exact R.seq (h.anchorWants hp.start binding) fun wants =>
      h.walkAnchorsBy (fun c => R.ret _) hp.rels _ _ _ _ _ _
  · exact h.walkAnchorsBy (fun c => h.nodeOk c hp.start _ _) hp.rels _ _ _ _ _ _

theorem matchSinglePattern (hp : p.Over P) (binding : Binding) (w : Option Expr) (out : List Binding)
    (cap : Option Nat) :
    R.Rel (eng.matchSinglePattern p binding w out cap) (eng'.matchSinglePattern p binding w out cap) := by
  have hp' := (eng.maybeReroot_over hp binding w)
  unfold Engine.matchSinglePattern Engine.anchorScan
  rw [h.maybeReroot, h.planEnv, h.view]
  dsimp only
  split
  · exact h.walkAnchors hp' _ _ _ _ _ _ _
  · exact R.ret out
  · exact h.walkAnchors hp' _ _ _ _ _ _ _

theorem matchPatterns {w : Option Expr} (hw : ∀ e ∈ w, P e) (cap : Option Nat)
    {ps : List (Pattern Expr)} (hps : ∀ p ∈ ps, p.Over P) (binding : Binding) (out : List Binding) :
    R.Rel (eng.matchPatterns w cap ps binding out) (eng'.matchPatterns w cap ps binding out) := by
  induction ps generalizing binding out with
  | nil =>
    unfold Engine.matchPatterns
    split
    · exact R.ret out
    cases w with
    | none => exact R.ret _
    | some w => exact R.seq (h.eval w (hw w rfl) _) fun ok => R.ret _
  | cons p rest ih =>
    have hrest := ih fun p hp => hps p (.tail _ hp)
    unfold Engine.matchPatterns
    split
    · exact R.ret out
    exact R.seq (h.matchSinglePattern (hps p (.head _)) binding w [] _) fun found =>
      R.foldlM (fun out b => R.ite (R.ret out) (hrest b out)) found out

/-! ## Clauses -/

variable (table : Table) (hmc : mc.Over P)
include hmc

theorem applyMatchQuantified (cap : Option Nat) :
    R.Rel (eng.applyMatchQuantified table mc cap) (eng'.applyMatchQuantified table mc cap) := by
  refine R.ofExcept_seq fun alts halts => ?_
  have hcombos := combinations_over hmc.patterns halts
  exact matchTable_rel R _ _ _ _ _ fun row remaining => R.foldlM_mem (fun out combo hcombo =>
    R.ite (R.ret out) (h.matchPatterns hmc.where _ (hcombos combo hcombo) _ _)) _

theorem applyMatchSelected (hp : p.Over P) (selector : PathSelector) (cap : Option Nat) :
    R.Rel (eng.applyMatchSelected table mc p selector cap) (eng'.applyMatchSelected table mc p selector cap) := by
  unfold Engine.applyMatchSelected
  split
  · exact R.fail _
  split
  · rename_i rel endNode hrels
    split
    · exact R.fail _
    · exact matchTable_rel R _ _ _ _ _ fun row _ => h.selectedMatches rel hp.start
        (hp.rels _ (hrels ▸ mem_cons_self)).2 _ hmc.where _
  · exact R.fail _

/-- **`apply_match` does the same in each monad.** It is the last of a chain of lemmas, one for
each function that `apply_match` calls. -/
theorem applyMatch (cap : Option Nat) : R.Rel (eng.applyMatch table mc cap) (eng'.applyMatch table mc cap) := by
  unfold Engine.applyMatch
  split
  · rename_i p _ hps
    exact h.applyMatchSelected _ hmc (hmc.patterns p (hps ▸ mem_cons_self)) _ _
  · exact R.fail _
  split
  · exact R.fail _
  split
  · rename_i hstream
    exact h.streamMatch _ hmc.where (streamable_over hmc hstream) _
  split
  · exact h.applyMatchQuantified _ hmc _
  · unfold Engine.generalMatch
    exact matchTable_rel R _ _ _ _ _ fun row remaining =>
      h.matchPatterns hmc.where _ hmc.patterns _ _

end Related

/-! ## Success -/

/-- The engine that only says what it answers. -/
def success (eng : Engine (Except Failure)) : Engine Option where
  view := eng.view
  params := eng.params
  pool := eng.pool
  isHub := eng.isHub
  distinctEndpoint := eng.distinctEndpoint
  counting := eng.counting
  addCount k := (eng.addCount k).toOption
  eval e scope := (eng.eval e scope).toOption

theorem related_success (eng : Engine (Except Failure)) : Related successRel (fun _ => True) eng eng.success where
  view := rfl
  params := rfl
  pool := rfl
  isHub := rfl
  distinctEndpoint := rfl
  counting := rfl
  addCount _ := rfl
  eval _ _ _ := rfl

end Engine

end Slater
