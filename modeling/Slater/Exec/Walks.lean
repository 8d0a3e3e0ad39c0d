import Slater.Exec.Related

/-!
# The parallel walk is the sequential one

`par_walk` expands a chain breadth first, a batch of branches at a time, and `expand_chain` streams
the hops of a hub instead of listing them. Where the effects of independent steps commute, neither is
observable: both add the rows of the depth-first walk, in its order. Success is such an effect, so a
walk answers in one form exactly when it answers in the other.

**What it does not establish.** Which rows a walk finds is not said here, nor anything about a walk with a cap: a
parallel walk is only started without one.
-/

namespace Slater

open List

namespace Engine

variable {m : Type → Type} [Monad m] {rel : RelPat Expr} {next : NodePat Expr}
  {rest : List (RelPat Expr × NodePat Expr)} {p : Pattern Expr} {degree track : Bool} {cap : Option Nat}
  {start cur : Nat} {binding : Binding} {walk : List Hop} {out : List Binding} {b : ChainBranch}

theorem expandWithDir_of_props_nil [LawfulMonad m] (eng : Engine m) (h : rel.props = []) {dir : Direction} :
    eng.expandWithDir cur rel dir binding = pure (eng.view.hops cur dir rel.typeExpr) := by
  have hok : ∀ edge, eng.relOk edge rel binding = pure true := by
    intro edge
    unfold relOk
    rw [h]
    rfl
  unfold expandWithDir
  simp only [hok]
  exact Fallible.filterM_true _

variable [MonadExceptOf Failure m] (eng : Engine m)

/-- The depth-first walk on from a branch. -/
def walkBranch (p : Pattern Expr) (degree : Bool) (start : Nat)
    (rels : List (RelPat Expr × NodePat Expr)) (b : ChainBranch) (out : List Binding) : m (List Binding) :=
  eng.expandChain p degree none start rels b.cur b.binding b.walk out

theorem expandChain_nil : eng.expandChain p degree none start [] cur binding walk out =
      eng.complete (pathBound p start walk binding) out := by
  unfold expandChain
  simp

variable [CommMonad m]

/-- A fixed hop, whether or not it leaves a hub. -/
theorem expandChain_hop (hrel : rel.varLength = none) (hdegree : (degree && rest.isEmpty) = false) :
    eng.expandChain p degree cap start ((rel, next) :: rest) cur binding walk out =
      if capped cap out then pure out
      else eng.expandWithDir cur rel rel.dir binding >>= fun hops =>
        hops.foldlM (fun out hop => if capped cap out then pure out
          else eng.mergeHop rel next binding walk (eng.expandChain p degree cap start rest) hop out) out := by
  conv_lhs => unfold expandChain
  simp only [hrel, hdegree, Bool.false_eq_true, if_false]
  split
  · rfl
  split
  · rename_i hhub
    obtain rfl : cap = none := by
      simp only [Bool.and_eq_true, Option.isNone_iff_eq_none] at hhub
      exact hhub.1
    exact (filterM_bind_foldlM _ _ _ _).symm
  · rfl

/-- Whether `par_walk` keeps the walk of a branch; when it does not, the walk is never read. -/
def walkUnread (p : Pattern Expr) (rels : List (RelPat Expr × NodePat Expr)) (frontier : List ChainBranch) : Prop :=
  p.pathVar = none ∧ (rels = [] ∨ rels.length = 1 ∧ ∀ b ∈ frontier, b.walk = [])

/-- Walking on from the branches that wait. -/
def drain (p : Pattern Expr) (degree : Bool) (start : Nat) (rest : List (RelPat Expr × NodePat Expr))
    (acc : List ChainBranch × List Binding) : m (List Binding) :=
  acc.1.foldlM (fun out b => eng.walkBranch p degree start rest b out) acc.2

section

variable (ht : track = true ∨ walkUnread p ((rel, next) :: rest) [b])
include ht

/-- A hop of the depth-first walk is the hop of `par_walk`, walked on from. -/
theorem mergeHop_eq (hop : Hop) (out : List Binding) : eng.mergeHop rel next b.binding b.walk
        (eng.expandChain p degree none start rest) hop out =
      eng.walkMergeHop rel next track b hop >>= fun branch =>
        branch.elim (pure out) fun branch => eng.walkBranch p degree start rest branch out := by
  unfold mergeHop walkMergeHop walkBranch
  rw [bind_assoc]
  refine bind_congr fun ok => ?_
  obtain rfl | ⟨hpath, hnil | ⟨hlen, hwalk⟩⟩ := ht
  · simp only [Bool.not_true, Bool.false_or]
    split <;> simp
  · cases hnil
  · obtain rfl : rest = [] := by simpa using hlen
    have hb : b.walk = [] := hwalk b (by simp)
    have hbound : ∀ walk binding, pathBound p start walk binding = binding := fun walk binding => by
      simp [pathBound, hpath]
    simp only [hb, all_nil, Bool.or_true]
    split <;> simp [expandChain_nil, hbound]

variable {flush : List ChainBranch → List Binding → m (List Binding)}
  (hflush : ∀ pending out, flush pending out = eng.drain p degree start rest (pending, out))
  (acc : List ChainBranch × List Binding)
include hflush

/-- One hop of `par_walk`: drained later, it is the hop of the depth-first walk. -/
theorem addHop_drain (hop : Hop) : (eng.addHop rel next track flush b acc hop >>= eng.drain p degree start rest) =
      eng.drain p degree start rest acc >>= fun out => eng.mergeHop rel next b.binding b.walk
          (eng.expandChain p degree none start rest) hop out := by
  simp only [mergeHop_eq eng ht]
  -- the check of the hop may run after the branches that wait
  rw [CommMonad.bind_comm]
  unfold addHop
  rw [bind_assoc]
  refine bind_congr fun branch => ?_
  cases branch with
  | none => simp
  | some branch =>
    have hadd : eng.drain p degree start rest (acc.1 ++ [branch], acc.2) =
        eng.drain p degree start rest acc >>= fun out =>
          eng.walkBranch p degree start rest branch out := by
      simp [drain]
    simp only [Option.elim]
    rw [← hadd]
    split
    · simp [hflush, drain]
    · simp

omit [CommMonad m] ht in
/-- The end of `par_walk`: the branches that still wait are walked on from. -/
theorem drain_end : (if acc.1.isEmpty then pure acc.2 else flush acc.1 acc.2) =
      eng.drain p degree start rest acc := by
  rw [hflush]
  split
  · rename_i hacc
    rw [List.isEmpty_iff] at hacc
    simp [drain, hacc]
  · rfl

/-- All hops of a branch. -/
theorem addHops_drain (hrel : rel.varLength = none ∧ rel.props = []) (hdegree : (degree && rest.isEmpty) = false) :
    ((eng.view.hops b.cur rel.dir rel.typeExpr).foldlM (eng.addHop rel next track flush b) acc >>=
        eng.drain p degree start rest) = eng.drain p degree start rest acc >>= fun out =>
        eng.walkBranch p degree start ((rel, next) :: rest) b out := by
  rw [foldlM_bind_eq _ (fun acc hop _ => addHop_drain eng ht hflush acc hop) acc]
  refine bind_congr fun out => ?_
  unfold walkBranch
  rw [expandChain_hop eng hrel.1 hdegree, expandWithDir_of_props_nil eng hrel.2]
  simp

end

/-- **`par_walk` adds the rows of the depth-first walks from its branches, in order.** The
induction is on the chain; a batch is a part of the frontier, and parts are walked in order. -/
theorem parWalk_eq (rels : List (RelPat Expr × NodePat Expr))
    (hrels : ∀ rn ∈ rels, rn.1.varLength = none ∧ rn.1.props = []) (frontier : List ChainBranch)
    (ht : (p.pathVar.isSome || decide (1 < p.rels.length)) = true ∨ walkUnread p rels frontier) (out : List Binding) :
    eng.parWalk p degree start rels frontier out =
      frontier.foldlM (fun out b => eng.walkBranch p degree start rels b out) out := by
  induction rels generalizing frontier out with
  | nil =>
    unfold parWalk walkBranch
    simp only [expandChain_nil]
  | cons rn rest ih =>
    obtain ⟨rel, next⟩ := rn
    rw [parWalk]
    split
    · rename_i hdegree
      simp only [Bool.and_eq_true, List.isEmpty_iff] at hdegree
      obtain ⟨rfl, rfl⟩ := hdegree
      simp [walkBranch, expandChain]
    rename_i hdegree
    have hflush : ∀ pending out, eng.parWalk p degree start rest pending out =
        eng.drain p degree start rest (pending, out) := fun pending out =>
      ih (fun rn hrn => hrels rn (.tail _ hrn)) pending
        (ht.imp_right fun h => ⟨h.1, .inl (by
          obtain h | ⟨hlen, -⟩ := h.2
          · cases h
          · simpa using hlen)⟩) out
    have htb : ∀ b ∈ frontier, (p.pathVar.isSome || decide (1 < p.rels.length)) = true ∨
        walkUnread p ((rel, next) :: rest) [b] := fun b hb =>
      ht.imp_right fun h => ⟨h.1, h.2.imp_right fun h => ⟨h.1, fun c hc => by
        rw [mem_singleton.1 hc]
        exact h.2 b hb⟩⟩
    simp only [drain_end eng hflush]
    rw [foldlM_bind_eq frontier (fun acc b hb => addHops_drain eng (htb b hb) hflush acc
      (hrels _ (.head _)) (by simpa using hdegree)) ([], out)]
    simp [drain]

/-! ## Anchors -/

/-- A chain `par_walk` takes is walked depth first with the same outcome. -/
theorem parWalk_start (hp : eng.chainParallelizable p = true) (degree : Bool)
    (c : Nat) (frame : Binding) (out : List Binding) :
    eng.parWalk p degree c p.rels [⟨c, frame, []⟩] out = eng.expandChain p degree none c p.rels c frame [] out := by
  unfold chainParallelizable at hp
  simp only [Bool.and_eq_true, List.all_eq_true, Option.isNone_iff_eq_none, List.isEmpty_iff] at hp
  rw [parWalk_eq eng p.rels hp.2]
  · simp [walkBranch]
  by_cases ht : (p.pathVar.isSome || decide (1 < p.rels.length)) = true
  · exact .inl ht
  · simp only [Bool.or_eq_true, not_or, Bool.not_eq_true,
      Option.isSome_eq_false_iff, Option.isNone_iff_eq_none] at ht
    refine .inr ⟨ht.1, ?_⟩
    rcases hlen : p.rels with _ | ⟨rn, _ | ⟨_, _⟩⟩
    · exact .inl rfl
    · exact .inr ⟨rfl, by simp⟩
    · exact absurd ht.2 (by simp [hlen])

/-- **Anchors are walked alike, in parallel or not.** -/
theorem walkAnchor_par {par : Bool}
    (hpar : par = true → eng.chainParallelizable p = true) (binding : Binding) (degree : Bool)
    (c : Nat) (out : List Binding) :
    eng.walkAnchor p binding par degree none c out = eng.walkAnchor p binding false degree none c out := by
  cases par with
  | false => rfl
  | true => exact parWalk_start eng (hpar rfl) degree c _ out

end Engine

end Slater
