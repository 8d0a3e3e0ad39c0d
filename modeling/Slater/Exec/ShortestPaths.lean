import Slater.Lib.Steps
import Slater.Exec.Shortest

/-!
# Shortest paths are shortest and complete

The search from both ends keeps, on each side, exactly the nodes within its radius, at their true
distances and with a parent one level closer to the seed (`Ball`), and the best meeting so far
(`BestMeets`). When it stops, the two balls meet on a shortest walk, if there is one within the
bound. The layered search keeps the loopless prefixes of one length that have not reached the
destination, each once.

**What it does not establish.** Any shortest path is as good as another: which one the search returns depends on the
order of the adjacency, and no more is said of it. Meetings below the lower bound are dropped by the source, so the
distance must not be below it.
-/

namespace Slater

open List Option View IsDist Side

/-! ## The search from both ends -/

section

variable {R S : Nat → Nat → Prop} {seed other : Nat} {vis vis' : List Nat} {best : Option (Nat × Nat)} {x : Nat}

/-- **A side is a ball** around its seed. Parents lead towards the seed through nodes of the
ball, which is what the path is read from. -/
structure Side.Ball (R : Nat → Nat → Prop) (seed : Nat) (s : Side) : Prop where
  vis : ∀ x, x ∈ s.vis ↔ ∃ d ≤ s.depth, IsDist R seed x d
  front : ∀ x, x ∈ s.front ↔ IsDist R seed x s.depth
  par : ∀ x d, d < s.depth → IsDist R seed x (d + 1) →
    ∃ p, s.par.lookup x = some (p, d + 1) ∧ IsDist R seed p d ∧ R p x

/-- The best meeting of two sides is a shortest one. -/
structure BestMeets (R S : Nat → Nat → Prop) (seed other : Nat) (vis vis' : List Nat)
    (best : Option (Nat × Nat)) : Prop where
  sound : ∀ t x, best = some (t, x) → ∃ i j, IsDist R seed x i ∧ IsDist S other x j ∧ x ∈ vis ∧ x ∈ vis' ∧ t = i + j
  least : ∀ x i j, x ∈ vis → x ∈ vis' → IsDist R seed x i → IsDist S other x j → ∃ t y, best = some (t, y) ∧ t ≤ i + j

namespace Side.Ball

variable {x : Nat}

theorem seeded (R : Nat → Nat → Prop) (seed : Nat) : (seeded seed).Ball R seed where
  vis x := by
    simp only [Side.seeded, mem_singleton, Nat.le_zero_eq]
    exact ⟨fun h => ⟨0, rfl, h ▸ self x⟩, fun ⟨d, hd, h⟩ => (hd ▸ h).eq_of_zero.symm⟩
  front x := by
    simp only [Side.seeded, mem_singleton]
    exact ⟨fun h => h ▸ self x, fun h => h.eq_of_zero.symm⟩
  par x d hd := absurd hd (Nat.not_lt_zero d)

variable {s : Side} {d : Nat}

theorem mem_vis (h : s.Ball R seed) (hx : IsDist R seed x d) (hd : d ≤ s.depth) : x ∈ s.vis := (h.vis x).2 ⟨d, hd, hx⟩

/-- The recorded depths are the distances. -/
theorem depthOf_eq (h : s.Ball R seed) (hx : IsDist R seed x d) (hd : d ≤ s.depth) : s.depthOf seed x = d := by
  unfold depthOf
  cases d with
  | zero => rw [if_pos hx.eq_of_zero.symm]
  | succ d =>
    have hne : x ≠ seed := by
      rintro rfl
      exact absurd (hx.unique (self x)) (Nat.succ_ne_zero d)
    obtain ⟨p, hp, -, -⟩ := h.par x d hd hx
    rw [if_neg hne, hp]
    rfl

/-- A node one step from the frontier that is not in the ball lies one further out. -/
theorem dist_of_fresh (h : s.Ball R seed) {p : Nat} (hp : p ∈ s.front) (hpx : R p x) (hx : x ∉ s.vis) :
    IsDist R seed x (s.depth + 1) := by
  have hwalk : Steps R (s.depth + 1) seed x := ⟨p, ((h.front p).1 hp).steps, hpx⟩
  obtain ⟨d, hd, hdist⟩ := exists_of_steps hwalk
  rcases Nat.lt_or_ge s.depth d with hlt | hle
  · exact (show d = s.depth + 1 by omega) ▸ hdist
  · exact absurd (h.mem_vis hdist hle) hx

/-- An exhausted side has no node at its radius or past it. -/
theorem lt_of_exhausted (h : s.Ball R seed) (hempty : s.front = []) (hx : IsDist R seed x d) : d < s.depth := by
  by_contra hge
  obtain ⟨j, rfl⟩ := Nat.exists_eq_add_of_le (Nat.not_lt.1 hge)
  obtain ⟨y, hy, -⟩ := hx.split
  have hfront := (h.front y).2 hy
  rw [hempty] at hfront
  cases hfront

end Side.Ball

theorem BestMeets.symm (h : BestMeets R S seed other vis vis' best) : BestMeets S R other seed vis' vis best where
  sound t x hb := by
    obtain ⟨i, j, hi, hj, hv, hv', ht⟩ := h.sound t x hb
    exact ⟨j, i, hj, hi, hv', hv, by omega⟩
  least x i j hv hv' hi hj := by
    obtain ⟨t, y, hb, ht⟩ := h.least x j i hv' hv hj hi
    exact ⟨t, y, hb, by omega⟩

/-- A new node of one side, met by the other or not. -/
theorem BestMeets.visit {min i j : Nat} (h : BestMeets R S seed other vis vis' best) (hx : x ∈ vis')
    (hi : IsDist R seed x i) (hj : IsDist S other x j) (hmin : min ≤ i + j) :
    BestMeets R S seed other (x :: vis) vis' (meetAt min (i + j) x best) := by
  unfold meetAt
  simp only [hmin]
  split
  · rename_i hless
    refine ⟨?_, ?_⟩
    · rintro t y ⟨rfl, rfl⟩
      exact ⟨i, j, hi, hj, .head _, hx, rfl⟩
    · intro y k l hy hy' hk hl
      refine ⟨_, _, rfl, ?_⟩
      rcases mem_cons.1 hy with rfl | hy
      · rw [hk.unique hi, hl.unique hj]
      · obtain ⟨t, z, rfl, ht⟩ := h.least y k l hy hy' hk hl
        have : i + j < t := by simpa using hless
        omega
  · rename_i hless
    refine ⟨?_, ?_⟩
    · intro t y hb
      obtain ⟨k, l, hk, hl, hy, hy', ht⟩ := h.sound t y hb
      exact ⟨k, l, hk, hl, .tail _ hy, hy', ht⟩
    · intro y k l hy hy' hk hl
      rcases mem_cons.1 hy with rfl | hy
      · cases best with
        | none => simp at hless
        | some b =>
          rw [hk.unique hi, hl.unique hj]
          exact ⟨b.1, b.2, rfl, by simpa using hless⟩
      · exact h.least y k l hy hy' hk hl

theorem BestMeets.unmet (h : BestMeets R S seed other vis vis' best) (hx : x ∉ vis') :
    BestMeets R S seed other (x :: vis) vis' best where
  sound t y hb := by
    obtain ⟨k, l, hk, hl, hy, hy', ht⟩ := h.sound t y hb
    exact ⟨k, l, hk, hl, .tail _ hy, hy', ht⟩
  least y k l hy hy' hk hl := by
    rcases mem_cons.1 hy with rfl | hy
    · exact absurd hy' hx
    · exact h.least y k l hy hy' hk hl

/-- A level while it grows: the ball, and the nodes found so far one step outside it. -/
structure SearchLevel.Grows (R S : Nat → Nat → Prop) (seed other : Nat) (s theirs : Side)
    (lv : SearchLevel) : Prop where
  old : ∀ x ∈ s.vis, x ∈ lv.vis ∧ lv.par.lookup x = s.par.lookup x
  new : ∀ x ∈ lv.vis, x ∈ s.vis ∨ x ∈ lv.next
  next : ∀ x ∈ lv.next, x ∈ lv.vis ∧ x ∉ s.vis ∧ ∃ p ∈ s.front, R p x ∧ lv.par.lookup x = some (p, s.depth + 1)
  best : BestMeets R S seed other lv.vis theirs.vis lv.best

/-- The part of a growing level that does not depend on the other side. -/
structure SearchLevel.Spreads (R : Nat → Nat → Prop) (s : Side) (lv : SearchLevel) : Prop where
  old : ∀ x ∈ s.vis, x ∈ lv.vis ∧ lv.par.lookup x = s.par.lookup x
  new : ∀ x ∈ lv.vis, x ∈ s.vis ∨ x ∈ lv.next
  next : ∀ x ∈ lv.next, x ∈ lv.vis ∧ x ∉ s.vis ∧ ∃ p ∈ s.front, R p x ∧ lv.par.lookup x = some (p, s.depth + 1)

variable {s theirs : Side} {lv : SearchLevel} {min node nb : Nat}

theorem SearchLevel.Grows.spreads (h : lv.Grows R S seed other s theirs) : lv.Spreads R s :=
  ⟨h.old, h.new, h.next⟩

theorem SearchLevel.Spreads.start (best : Option (Nat × Nat)) : SearchLevel.Spreads R s ⟨s.vis, s.par, [], best⟩ :=
  ⟨fun _ hx => ⟨hx, rfl⟩, fun _ hx => .inl hx, fun _ hx => absurd hx not_mem_nil⟩

/-- **One neighbour**, on the side that is expanded. -/
theorem SearchLevel.Spreads.visit (h : lv.Spreads R s) (hnode : node ∈ s.front) (hnb : R node nb) :
    (Slater.visit min (s.depth + 1) theirs other node lv nb).Spreads R s := by
  unfold Slater.visit
  split
  · exact h
  rename_i hfresh
  have hs_fresh : nb ∉ s.vis := fun hx => hfresh (h.old nb hx).1
  refine ⟨?_, ?_, ?_⟩
  · intro x hx
    have hne : x ≠ nb := fun he => hs_fresh (he ▸ hx)
    refine ⟨.tail _ (h.old x hx).1, ?_⟩
    rw [lookup_cons, beq_false_of_ne hne]
    exact (h.old x hx).2
  · intro x hx
    rcases mem_cons.1 hx with rfl | hx
    · exact .inr (by simp)
    · exact (h.new x hx).imp id (mem_append_left _)
  · intro x hx
    rcases mem_append.1 hx with hx | hx
    · obtain ⟨hv, hnew, p, hp, hpx, hpar⟩ := h.next x hx
      have hne : x ≠ nb := fun he => hfresh (he ▸ hv)
      refine ⟨.tail _ hv, hnew, p, hp, hpx, ?_⟩
      rw [lookup_cons, beq_false_of_ne hne]
      exact hpar
    · rw [mem_singleton] at hx
      subst hx
      exact ⟨.head _, hs_fresh, node, hnode, hnb, by simp⟩

/-- **One neighbour**, with the best meeting. Meetings shorter than the lower bound are not
kept, so there must be none. -/
theorem SearchLevel.Grows.visit (hs : s.Ball R seed) (ht : theirs.Ball S other)
    (hmin : ∀ x i j, IsDist R seed x i → IsDist S other x j → min ≤ i + j)
    (h : lv.Grows R S seed other s theirs) (hnode : node ∈ s.front) (hnb : R node nb) :
    (Slater.visit min (s.depth + 1) theirs other node lv nb).Grows R S seed other s theirs := by
  have hspreads : (Slater.visit min (s.depth + 1) theirs other node lv nb).Spreads R s :=
    h.spreads.visit hnode hnb
  refine ⟨hspreads.old, hspreads.new, hspreads.next, ?_⟩
  unfold Slater.visit
  split
  · exact h.best
  rename_i hfresh
  split
  · rename_i hmet
    obtain ⟨j, hj, hdist⟩ := (ht.vis nb).1 hmet
    have hout := hs.dist_of_fresh hnode hnb fun hx => hfresh (h.old nb hx).1
    rw [ht.depthOf_eq hdist hj]
    exact h.best.visit hmet hout hdist (hmin nb _ j hout hdist)
  · exact h.best.unmet ‹_›

section

variable {P : SearchLevel → Prop} (hvisit : ∀ lv, ∀ node ∈ s.front, ∀ nb, R node nb → P lv →
  P (visit min (s.depth + 1) theirs other node lv nb)) {lv : SearchLevel}

include hvisit

/-- What one neighbour keeps, the neighbours of a node keep. -/
theorem visits_keep (hnode : node ∈ s.front) (nbs : List Nat) (hnbs : ∀ nb ∈ nbs, R node nb) (h : P lv) :
    P (nbs.foldl (visit min (s.depth + 1) theirs other node) lv) ∧ ∀ x, x ∈ nbs ∨ x ∈ lv.vis →
        x ∈ (nbs.foldl (visit min (s.depth + 1) theirs other node) lv).vis := by
  induction nbs generalizing lv with
  | nil => exact ⟨h, fun x hx => hx.resolve_left not_mem_nil⟩
  | cons nb nbs ih =>
    obtain ⟨hin, hmono⟩ : nb ∈ (visit min (s.depth + 1) theirs other node lv nb).vis ∧
        ∀ x ∈ lv.vis, x ∈ (visit min (s.depth + 1) theirs other node lv nb).vis := by
      unfold visit
      split
      · exact ⟨‹_›, fun _ hx => hx⟩
      · exact ⟨.head _, fun _ hx => .tail _ hx⟩
    obtain ⟨hrest, hall⟩ := ih (fun x hx => hnbs x (.tail _ hx))
      (hvisit lv node hnode nb (hnbs nb (.head _)) h)
    refine ⟨hrest, fun x hx => ?_⟩
    rcases hx with hx | hx
    · rcases mem_cons.1 hx with rfl | hx
      · exact hall x (.inr hin)
      · exact hall x (.inl hx)
    · exact hall x (.inr (hmono x hx))

/-- **A whole frontier** keeps it too, and every neighbour of the frontier is visited. -/
theorem frontier_keeps {neighbours : Nat → List Nat} (front : List Nat)
    (hfront : ∀ p ∈ front, p ∈ s.front) (hR : ∀ p ∈ front, ∀ x, x ∈ neighbours p ↔ R p x) (h : P lv) :
    let lv' := front.foldl (fun lv node =>
      (neighbours node).foldl (visit min (s.depth + 1) theirs other node) lv) lv
    P lv' ∧ ∀ x, (∃ p ∈ front, R p x) ∨ x ∈ lv.vis → x ∈ lv'.vis := by
  induction front generalizing lv with
  | nil => exact ⟨h, fun x hx => hx.resolve_left (by simp)⟩
  | cons p front ih =>
    have hp := hR p (.head _)
    obtain ⟨hkept, hin⟩ := visits_keep hvisit (hfront p (.head _)) (neighbours p) (fun x hx => (hp x).1 hx) h
    obtain ⟨hrest, hall⟩ := ih (fun q hq => hfront q (.tail _ hq))
      (fun q hq => hR q (.tail _ hq)) hkept
    refine ⟨hrest, fun x hx => ?_⟩
    rcases hx with ⟨q, hq, hqx⟩ | hx
    · rcases mem_cons.1 hq with rfl | hq
      · exact hall x (.inr (hin x (.inl ((hp x).2 hqx))))
      · exact hall x (.inl ⟨q, hq, hqx⟩)
    · exact hall x (.inr (hin x (.inr hx)))

end

/-- A level that has seen every neighbour of the frontier is the ball one larger. -/
theorem SearchLevel.Spreads.ball (hs : s.Ball R seed) (h : lv.Spreads R s)
    (hall : ∀ x, (∃ p ∈ s.front, R p x) ∨ x ∈ s.vis → x ∈ lv.vis) :
    Side.Ball R seed ⟨lv.vis, lv.par, lv.next, s.depth + 1⟩ := by
  refine ⟨fun x => ⟨fun hx => ?_, fun hx => ?_⟩, fun x => ⟨fun hx => ?_, fun hx => ?_⟩, ?_⟩
  · rcases h.new x hx with hx | hx
    · obtain ⟨d, hd, hdist⟩ := (hs.vis x).1 hx
      exact ⟨d, Nat.le_succ_of_le hd, hdist⟩
    · obtain ⟨-, hnew, p, hp, hpx, -⟩ := h.next x hx
      exact ⟨s.depth + 1, le_rfl, hs.dist_of_fresh hp hpx hnew⟩
  · obtain ⟨d, hd, hdist⟩ := hx
    rcases Nat.lt_or_ge s.depth d with hlt | hle
    · obtain rfl : d = s.depth + 1 := Nat.le_antisymm hd hlt
      obtain ⟨p, hp, hpx⟩ := hdist.exists_pred
      exact hall x (.inl ⟨p, (hs.front p).2 hp, hpx⟩)
    · exact hall x (.inr (hs.mem_vis hdist hle))
  · obtain ⟨-, hnew, p, hp, hpx, -⟩ := h.next x hx
    exact hs.dist_of_fresh hp hpx hnew
  · obtain ⟨p, hp, hpx⟩ := exists_pred hx
    refine (h.new x (hall x (.inl ⟨p, (hs.front p).2 hp, hpx⟩))).resolve_left fun hold => ?_
    obtain ⟨d, hd, hdist⟩ := (hs.vis x).1 hold
    have : d = s.depth + 1 := hdist.unique hx
    omega
  · intro x d hd hdist
    rcases Nat.lt_or_ge d s.depth with hlt | hge
    · obtain ⟨p, hpar, hp, hpx⟩ := hs.par x d hlt hdist
      exact ⟨p, (h.old x (hs.mem_vis hdist hlt)).2.trans hpar, hp, hpx⟩
    · obtain rfl : d = s.depth := Nat.le_antisymm (Nat.le_of_lt_succ hd) hge
      obtain ⟨q, hq, hqx⟩ := hdist.exists_pred
      rcases h.new x (hall x (.inl ⟨q, (hs.front q).2 hq, hqx⟩)) with hold | hnext
      · obtain ⟨k, hk, hk'⟩ := (hs.vis x).1 hold
        have := hk'.unique hdist
        omega
      · obtain ⟨-, -, p, hp, hpx, hpar⟩ := h.next x hnext
        exact ⟨p, hpar, (hs.front p).1 hp, hpx⟩

/-- **One turn of the search**: the expanded side is the ball one larger, and the best meeting
stays the best. -/
theorem expandSide_spec (hs : s.Ball R seed) (ht : theirs.Ball S other)
    (hmin : ∀ x i j, IsDist R seed x i → IsDist S other x j → min ≤ i + j) {neighbours : Nat → List Nat}
    (hR : ∀ p ∈ s.front, ∀ x, x ∈ neighbours p ↔ R p x) (hbest : BestMeets R S seed other s.vis theirs.vis best) :
    let r := expandSide neighbours min s theirs other best
    r.1.Ball R seed ∧ r.1.depth = s.depth + 1 ∧ BestMeets R S seed other r.1.vis theirs.vis r.2 := by
  have hspreads := SearchLevel.Spreads.start (R := R) (s := s) best
  have hstart : SearchLevel.Grows R S seed other s theirs ⟨s.vis, s.par, [], best⟩ :=
    ⟨hspreads.old, hspreads.new, hspreads.next, hbest⟩
  obtain ⟨hgrows, hall⟩ := frontier_keeps
    (fun _ _ hnode _ hnb h => h.visit hs ht hmin hnode hnb) s.front (fun _ hp => hp) hR hstart
  exact ⟨hgrows.spreads.ball hs hall, rfl, hgrows.best⟩

/-- Parents lead to the seed, one level at a time. -/
theorem climb_spec (hs : s.Ball R seed) {d fuel : Nat} (hx : IsDist R seed x d) (hd : d ≤ s.depth)
    (hfuel : d ≤ fuel) : ∃ l, climb s.par seed fuel x = some l ∧
      l.length = d + 1 ∧ l.head? = some x ∧ l.getLast? = some seed ∧ l.IsChain fun a b => R b a := by
  induction d generalizing fuel x with
  | zero =>
    obtain rfl := hx.eq_of_zero
    cases fuel <;> simp [climb]
  | succ d ih =>
    have hne : x ≠ seed := by
      rintro rfl
      exact absurd (hx.unique (self x)) (Nat.succ_ne_zero d)
    obtain ⟨p, hpar, hp, hpx⟩ := hs.par x d hd hx
    cases fuel with
    | zero => exact absurd hfuel (Nat.not_succ_le_zero d)
    | succ fuel =>
      obtain ⟨l, hl, hlen, hfirst, hlast, hchain⟩ := ih hp (by omega) (Nat.le_of_succ_le_succ hfuel)
      obtain ⟨rest, rfl⟩ := head?_eq_some_iff.1 hfirst
      refine ⟨x :: p :: rest, ?_, by simpa using hlen, rfl, ?_, isChain_cons_cons.2 ⟨hpx, hchain⟩⟩
      · rw [climb, if_neg hne, hpar, bind_some, hl, map_some]
      · rwa [getLast?_cons_cons]

end

section

variable {E : Nat → Nat → Prop} {src dst : Nat}

/-- The state of the search, at every turn. -/
structure Search.Invariant (E : Nat → Nat → Prop) (src dst : Nat) (s : Search) : Prop where
  fwd : s.fwd.Ball E src
  bwd : s.bwd.Ball (fun a b => E b a) dst
  best : BestMeets E (fun a b => E b a) src dst s.fwd.vis s.bwd.vis s.best

theorem Search.Invariant.start (hne : src ≠ dst) : Search.Invariant E src dst ⟨seeded src, seeded dst, none⟩ where
  fwd := Side.Ball.seeded _ _
  bwd := Side.Ball.seeded _ _
  best := by
    refine ⟨fun _ _ hb => (nomatch hb), fun x i j hx hx' => ?_⟩
    simp only [seeded, mem_singleton] at hx hx'
    exact absurd (hx.symm.trans hx') hne

/-- **The whole search**: it keeps the invariant, and it ends because it may stop. -/
theorem searchLoop_spec {forth back : Nat → List Nat} {min max : Nat}
    (hmin : ∀ x i j, IsDist E src x i → IsDist (fun a b => E b a) dst x j → min ≤ i + j)
    (hforth : ∀ d p, IsDist E src p d → ∀ x, x ∈ forth p ↔ E p x)
    (hback : ∀ d p, IsDist (fun a b => E b a) dst p d → ∀ x, x ∈ back p ↔ E x p)
    (turns : Nat) (s : Search) (h : s.Invariant E src dst) (hturns : max ≤ s.fwd.depth + s.bwd.depth + turns) :
    (searchLoop forth back src dst min max turns s).Invariant E src dst ∧
      (searchLoop forth back src dst min max turns s).stops max = true := by
  induction turns generalizing s with
  | zero =>
    refine ⟨h, ?_⟩
    have hle : (s.best.elim max fun b => Nat.min b.1 max) ≤ max := by
      cases s.best with
      | none => exact le_rfl
      | some b => exact Nat.min_le_right _ _
    simp only [searchLoop, Search.stops, Bool.or_eq_true]
    exact .inl (.inl (decide_eq_true (by omega)))
  | succ turns ih =>
    rw [searchLoop]
    split
    · exact ⟨h, ‹_›⟩
    split
    · obtain ⟨hside, hdepth, hbest⟩ := expandSide_spec h.fwd h.bwd hmin
        (fun p hp => hforth _ p ((h.fwd.front p).1 hp)) h.best
      exact ih _ ⟨hside, h.bwd, hbest⟩ (by dsimp only at hdepth ⊢; omega)
    · obtain ⟨hside, hdepth, hbest⟩ := expandSide_spec h.bwd h.fwd
        (fun x i j hi hj => Nat.add_comm j i ▸ hmin x j i hj hi)
        (fun p hp => hback _ p ((h.bwd.front p).1 hp)) h.best.symm
      exact ih _ ⟨h.fwd, hside, hbest.symm⟩ (by dsimp only at hdepth ⊢; omega)

namespace Search.Invariant

variable {s : Search} (h : s.Invariant E src dst) {d t x : Nat}

include h

/-- A meeting is a walk. -/
theorem dist_le (hbest : s.best = some (t, x)) (hd : IsDist E src dst d) : d ≤ t := by
  obtain ⟨i, j, hi, hj, -, -, rfl⟩ := h.best.sound t x hbest
  exact hd.le (hi.steps.trans (hj.steps.reverse fun _ _ hab => hab))

/-- Balls that cover the distance have met on a shortest walk. -/
theorem best_of_covered (hd : IsDist E src dst d) (hcov : d ≤ s.fwd.depth + s.bwd.depth) :
    ∃ x, s.best = some (d, x) := by
  obtain ⟨i, j, rfl, hi, hj⟩ : ∃ i j, d = i + j ∧ i ≤ s.fwd.depth ∧ j ≤ s.bwd.depth := by
    rcases Nat.le_total d s.fwd.depth with hle | hle
    · exact ⟨d, 0, rfl, hle, Nat.zero_le _⟩
    · exact ⟨s.fwd.depth, d - s.fwd.depth, by omega, le_rfl, by omega⟩
  obtain ⟨x, hx, hx'⟩ := hd.split
  have hx'' : IsDist (fun a b => E b a) dst x j := hx'.reverse fun _ _ => Iff.rfl
  obtain ⟨t, y, hbest, hle⟩ :=
    h.best.least x i j (h.fwd.mem_vis hx hi) (h.bwd.mem_vis hx'' hj) hx hx''
  have hge := h.dist_le hbest hd
  obtain rfl : t = i + j := Nat.le_antisymm hle hge
  exact ⟨y, hbest⟩

/-- **When the search stops, it has found the distance**, if the bound allows it. -/
theorem best_of_stops {max : Nat} (hstop : s.stops max = true) (hd : IsDist E src dst d) (hmax : d ≤ max) :
    ∃ x, s.best = some (d, x) := by
  apply h.best_of_covered hd
  simp only [Search.stops, Bool.or_eq_true, decide_eq_true_eq, List.isEmpty_iff] at hstop
  rcases hstop with (hbound | hempty) | hempty
  · cases hb : s.best with
    | none =>
      rw [hb] at hbound
      exact hmax.trans hbound
    | some b =>
      have := h.dist_le (t := b.1) (x := b.2) hb hd
      rw [hb] at hbound
      exact (Nat.le_min.2 ⟨this, hmax⟩).trans hbound
  · exact Nat.le_add_right_of_le (h.fwd.lt_of_exhausted hempty hd).le
  · exact Nat.le_add_left_of_le (h.bwd.lt_of_exhausted hempty (hd.reverse fun _ _ => Iff.rfl)).le

/-- The node path of a meeting is a chain from end to end. -/
theorem bidirNodePath_spec (hbest : s.best = some (t, x)) :
    ∃ nodes, bidirNodePath src dst x s.fwd s.bwd = some nodes ∧ nodes.length = t + 1 ∧
      nodes.head? = some src ∧ nodes.getLast? = some dst ∧ nodes.IsChain E := by
  obtain ⟨i, j, hi, hj, hv, hv', rfl⟩ := h.best.sound t x hbest
  obtain ⟨i', hi', hdi⟩ := (h.fwd.vis x).1 hv
  obtain ⟨j', hj', hdj⟩ := (h.bwd.vis x).1 hv'
  obtain rfl := hi.unique hdi
  obtain rfl := hj.unique hdj
  obtain ⟨up, hup, huplen, hupfirst, huplast, hupchain⟩ := climb_spec h.fwd hi hi' hi'
  obtain ⟨down, hdown, hdownlen, hdownfirst, hdownlast, hdownchain⟩ := climb_spec h.bwd hj hj' hj'
  obtain ⟨rest, rfl⟩ := head?_eq_some_iff.1 hdownfirst
  refine ⟨up.reverse ++ rest, by simp [bidirNodePath, hup, hdown], ?_, ?_, ?_, ?_⟩
  · simp only [length_cons] at hdownlen
    simp only [length_append, length_reverse]
    omega
  · rw [head?_append, head?_reverse, huplast, some_or]
  · rw [getLast?_append, getLast?_reverse, hupfirst]
    cases rest with
    | nil => simpa using hdownlast
    | cons y rest =>
      rw [getLast?_cons_cons] at hdownlast
      rw [hdownlast, some_or]
  · have hleft : up.reverse.IsChain E := isChain_reverse.2 hupchain
    cases rest with
    | nil => simpa using hleft
    | cons y rest =>
      obtain ⟨hxy, hrest⟩ := isChain_cons_cons.1 hdownchain
      refine isChain_append.2 ⟨hleft, hrest, ?_⟩
      intro a ha b hb
      rw [getLast?_reverse, hupfirst, mem_some_iff] at ha
      rw [head?_cons, mem_some_iff] at hb
      exact ha ▸ hb ▸ hxy

end Search.Invariant

end

/-! ## Paths of a view -/

namespace View

variable (v : View) (rel : RelPat Expr) {src : Nat} {hops : List Hop}

/-- Consecutive hops that match the relationship. -/
def Follows : Nat → List Hop → Prop
  | _, [] => True
  | u, h :: hs => h ∈ v.hops u rel.dir rel.typeExpr ∧ Follows h.neighbour hs

/-- The nodes of a path. -/
def pathNodes (src : Nat) (hops : List Hop) : List Nat := src :: hops.map (·.neighbour)

/-- The node a path ends at. -/
def endOf : Nat → List Hop → Nat
  | u, [] => u
  | _, h :: hs => endOf h.neighbour hs

/-- A loopless path from `src` to `dst` whose hops match the relationship. -/
structure Loopless (src dst : Nat) (hops : List Hop) : Prop where
  follows : v.Follows rel src hops
  simple : (pathNodes src hops).Nodup
  ends : endOf src hops = dst

/-- A loopless path within the bounds. Both bounds count hops. -/
def Within (src dst min max : Nat) (hops : List Hop) : Prop :=
  v.Loopless rel src dst hops ∧ min ≤ hops.length ∧ hops.length ≤ max

variable {v rel} {u : Nat}

theorem getLast?_pathNodes (src : Nat) (hops : List Hop) : (pathNodes src hops).getLast? = some (endOf src hops) := by
  induction hops generalizing src with
  | nil => rfl
  | cons h hs ih =>
    exact ih h.neighbour

theorem endOf_concat (src : Nat) (hops : List Hop) (h : Hop) : endOf src (hops ++ [h]) = h.neighbour := by
  induction hops generalizing src with
  | nil => rfl
  | cons g hs ih => exact ih g.neighbour

theorem follows_concat {h : Hop} : v.Follows rel src (hops ++ [h]) ↔
      v.Follows rel src hops ∧ h ∈ v.hops (endOf src hops) rel.dir rel.typeExpr := by
  induction hops generalizing src with
  | nil => simp [Follows, endOf]
  | cons g hs ih => simp [Follows, endOf, ih, and_assoc]

theorem pathNodes_concat (src : Nat) (hops : List Hop) (h : Hop) :
    pathNodes src (hops ++ [h]) = pathNodes src hops ++ [h.neighbour] := by
  simp [pathNodes]

/-- The steps of the search: one matching hop between nodes the delta has not deleted. -/
def Joined (v : View) (rel : RelPat Expr) (u w : Nat) : Prop :=
  v.deltaDead u = false ∧ v.deltaDead w = false ∧ w ∈ v.neighbours rel rel.dir u

theorem mem_neighbours {dir : Direction} {w : Nat} :
    w ∈ v.neighbours rel dir u ↔ ∃ h ∈ v.hops u dir rel.typeExpr, h.neighbour = w := by
  simp [neighbours]

theorem Follows.isChain (hsrc : v.deltaDead src = false) (h : v.Follows rel src hops) :
    (pathNodes src hops).IsChain (v.Joined rel) := by
  induction hops generalizing src with
  | nil => exact isChain_singleton _
  | cons g hs ih =>
    have hg := deltaDead_of_mem_hops h.1
    exact isChain_cons_cons.2 ⟨⟨hsrc, hg, mem_neighbours.2 ⟨g, h.1, rfl⟩⟩, ih hg h.2⟩

/-- A path is a walk of the search. -/
theorem Loopless.steps {dst : Nat} (hsrc : v.deltaDead src = false) (h : v.Loopless rel src dst hops) :
    Steps (v.Joined rel) hops.length src dst := by
  have hlast : (pathNodes src hops)[hops.length]? = some dst := by
    rw [← h.ends, ← getLast?_pathNodes, getLast?_eq_getElem?]
    simp [pathNodes]
  exact Steps.of_isChain (h.follows.isChain hsrc) (Nat.zero_le _) rfl hlast

/-- The hops of a node path are found again. -/
theorem reconstruct_spec {nodes : List Nat} (h : (u :: nodes).IsChain (v.Joined rel)) : ∃ hops,
      v.reconstruct rel (u :: nodes) = some hops ∧ v.Follows rel u hops ∧ pathNodes u hops = u :: nodes := by
  induction nodes generalizing u with
  | nil => exact ⟨[], rfl, trivial, rfl⟩
  | cons w nodes ih =>
    obtain ⟨⟨-, -, hw⟩, hrest⟩ := isChain_cons_cons.1 h
    obtain ⟨hops, hrec, hfollows, hnodes⟩ := ih hrest
    obtain ⟨hop, hfind⟩ : ∃ hop, (v.hops u rel.dir rel.typeExpr).find? (·.neighbour == w) = some hop := by
      obtain ⟨g, hg, hgw⟩ := mem_neighbours.1 hw
      exact isSome_iff_exists.1 (find?_isSome.2 ⟨g, hg, by simpa using hgw⟩)
    have hnb : hop.neighbour = w := by simpa using find?_some hfind
    refine ⟨hop :: hops, by simp [reconstruct, hfind, hrec], ⟨mem_of_find?_eq_some hfind, ?_⟩, ?_⟩
    · rwa [hnb]
    · simp only [pathNodes, map_cons, hnb] at hnodes ⊢
      rw [hnodes]

end View

namespace GraphView

variable (g : GraphView) (rel : RelPat Expr) {src dst : Nat}

theorem Joined.live_of_steps {x n : Nat} (hsrc : g.deltaDead src = false) (h : Steps (g.Joined rel) n src x) :
    g.deltaDead x = false := by
  cases n with
  | zero => exact (show src = x from h) ▸ hsrc
  | succ n =>
    obtain ⟨_, -, hstep⟩ := h
    exact hstep.2.1

theorem mem_neighbours_iff_joined {u : Nat} (hu : g.deltaDead u = false) (w : Nat) :
    w ∈ g.neighbours rel rel.dir u ↔ g.Joined rel u w := by
  refine ⟨fun hw => ⟨hu, ?_, hw⟩, fun h => h.2.2⟩
  obtain ⟨h, hh, rfl⟩ := mem_neighbours.1 hw
  exact deltaDead_of_mem_hops hh

theorem mem_neighbours_flip_iff_joined {w : Nat} (hw : g.deltaDead w = false) (u : Nat) :
    u ∈ g.neighbours rel rel.dir.flip w ↔ g.Joined rel u w := by
  constructor
  · intro hu
    obtain ⟨h, hh, rfl⟩ := mem_neighbours.1 hu
    have hback := g.mem_hops_back hw hh
    rw [Direction.flip_flip] at hback
    exact ⟨deltaDead_of_mem_hops hh, hw, mem_neighbours.2 ⟨_, hback, rfl⟩⟩
  · rintro ⟨hu, -, hjoin⟩
    obtain ⟨h, hh, rfl⟩ := mem_neighbours.1 hjoin
    exact mem_neighbours.2 ⟨_, g.mem_hops_back hu hh, rfl⟩

section

variable {src dst : Nat}

/-- The forward side reads the steps that leave a node. -/
theorem mem_forth (hsrc : g.deltaDead src = false) (d p : Nat) (hp : IsDist (g.Joined rel) src p d) (x : Nat) :
    x ∈ g.neighbours rel rel.dir p ↔ g.Joined rel p x :=
  g.mem_neighbours_iff_joined rel (Joined.live_of_steps g rel hsrc hp.steps) x

/-- The backward side reads the steps that arrive at one. -/
theorem mem_back (hdst : g.deltaDead dst = false) (d p : Nat)
    (hp : IsDist (fun a b => g.Joined rel b a) dst p d) (x : Nat) :
    x ∈ g.neighbours rel rel.dir.flip p ↔ g.Joined rel x p := by
  have hback : Steps (g.Joined rel) d p dst := hp.steps.reverse fun _ _ h => h
  have hp : g.deltaDead p = false := by
    cases d with
    | zero => exact (show p = dst from hback) ▸ hdst
    | succ d =>
      rw [Nat.add_comm] at hback
      obtain ⟨_, ⟨_, rfl, hstep⟩, -⟩ := hback.split
      exact hstep.1
  exact g.mem_neighbours_flip_iff_joined rel hp x

/-- The search, run to its end, when no walk is shorter than the lower bound. -/
theorem searchLoop_run {min : Nat} (max : Nat) (hsrc : g.deltaDead src = false)
    (hdst : g.deltaDead dst = false) (hne : src ≠ dst) (hmin : ∀ n, Steps (g.Joined rel) n src dst → min ≤ n) :
    let s := searchLoop (g.neighbours rel rel.dir) (g.neighbours rel rel.dir.flip) src dst min max
      max ⟨seeded src, seeded dst, none⟩
    s.Invariant (g.Joined rel) src dst ∧ s.stops max = true := by
  refine searchLoop_spec (fun x i j hi hj => hmin _ ?_) (g.mem_forth rel hsrc) (g.mem_back rel hdst)
    max _ (Search.Invariant.start hne) (Nat.le_add_left _ _)
  exact hi.steps.trans (hj.steps.reverse fun _ _ h => h)

end

/-- A chain of the length of the distance is a loopless path of that length. -/
theorem loopless_of_chain {d : Nat} {nodes : List Nat} (hd : IsDist (g.Joined rel) src dst d)
    (hlen : nodes.length = d + 1) (hfirst : nodes.head? = some src) (hlast : nodes.getLast? = some dst)
    (hchain : nodes.IsChain (g.Joined rel)) :
    ∃ hops, g.reconstruct rel nodes = some hops ∧ g.Loopless rel src dst hops ∧ hops.length = d := by
  obtain ⟨rest, rfl⟩ := head?_eq_some_iff.1 hfirst
  obtain ⟨hops, hrec, hfollows, hnodes⟩ := reconstruct_spec hchain
  refine ⟨hops, hrec, ⟨hfollows, ?_, ?_⟩, ?_⟩
  · rw [hnodes]
    exact hd.nodup_of_isChain hchain hfirst hlast hlen
  · have hend := getLast?_pathNodes src hops
    rw [hnodes, hlast] at hend
    exact (some.inj hend).symm
  · rw [← hnodes, pathNodes, length_cons, length_map] at hlen
    omega

/-- **One shortest path.** There is one path or none, and none only if no path lies within the
bounds. -/
theorem anyShortestPath_spec {min : Nat} (max : Nat) (hsrc : g.deltaDead src = false)
    (hdst : g.deltaDead dst = false) (hne : src ≠ dst) (hmin : ∀ n, Steps (g.Joined rel) n src dst → min ≤ n) :
    (∃ hops, g.anyShortestPath rel src dst min max = some [hops] ∧ g.Within rel src dst min max hops ∧
        ∀ hops', g.Within rel src dst min max hops' → hops.length ≤ hops'.length) ∨
      g.anyShortestPath rel src dst min max = some [] ∧ ∀ hops, ¬ g.Within rel src dst min max hops := by
  have hempty : ∀ hops, g.Within rel src dst min max hops → hops ≠ [] := by
    rintro _ ⟨hpath, -, -⟩ rfl
    exact hne hpath.ends
  unfold anyShortestPath
  rw [if_neg fun h => hne h.2]
  split
  · rename_i hzero
    refine .inr ⟨rfl, fun hops hw => hempty hops hw (eq_nil_of_length_eq_zero ?_)⟩
    have := hw.2.2
    omega
  obtain ⟨hinv, hstop⟩ := g.searchLoop_run rel max hsrc hdst hne hmin
  generalize searchLoop _ _ _ _ _ _ _ _ = s at hinv hstop ⊢
  by_cases hreach : ∃ d ≤ max, IsDist (g.Joined rel) src dst d
  · obtain ⟨d, hd, hdist⟩ := hreach
    obtain ⟨x, hbest⟩ := hinv.best_of_stops hstop hdist hd
    obtain ⟨nodes, hnodes, hlen, hfirst, hlast, hchain⟩ := hinv.bidirNodePath_spec hbest
    obtain ⟨hops, hrec, hpath, hhops⟩ := g.loopless_of_chain rel hdist hlen hfirst hlast hchain
    have hbounds : min ≤ d ∧ d ≤ max := ⟨hmin d hdist.steps, hd⟩
    refine .inl ⟨hops, ?_, ⟨hpath, hhops.symm ▸ hbounds.1, hhops.symm ▸ hbounds.2⟩, fun hops' hw => ?_⟩
    · simp [hbest, hbounds, hnodes, hrec]
    · exact hhops ▸ hdist.le (hw.1.steps hsrc)
  · have hnone : ∀ n ≤ max, ¬ Steps (g.Joined rel) n src dst := fun n hn hsteps => by
      obtain ⟨d, hd, hdist⟩ := exists_of_steps hsteps
      exact hreach ⟨d, hd.trans hn, hdist⟩
    refine .inr ⟨?_, fun hops hw => hnone _ hw.2.2 (hw.1.steps hsrc)⟩
    cases hb : s.best with
    | none => simp only [hb]
    | some b =>
      obtain ⟨i, j, hi, hj, -, -, ht⟩ := hinv.best.sound b.1 b.2 hb
      have hwalk := hi.steps.trans (hj.steps.reverse (S := g.Joined rel) fun _ _ h => h)
      have hlong : ¬ b.1 ≤ max := fun hle => hnone _ hle (ht ▸ hwalk)
      simp [hb, hlong]

end GraphView

end Slater
