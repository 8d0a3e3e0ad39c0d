import Slater.Lib.UnionFind

/-!
# Connected components

`wcc` of `slater/src/algo.rs` gives every node of a graph the least node of its weakly connected component. It
keeps the components found so far as a forest of parents, in which every lookup shortens the way it takes.
Endpoints are nodes of the graph, so that no index is out of bounds. The interrupt hook is a deadline check: the
answer of each of its calls is a parameter, and so may be an error.

**What it does not establish.** The time `wcc` takes is not bounded here, and the other algorithms of the file are not
modelled.
-/

namespace Slater.Algo

variable {n : Nat}

/-- `INTERRUPT_STRIDE`. -/
def interruptStride : Nat := 4096

/-- `Ticker`, with the number of calls of the hook so far. -/
structure Ticker where
  since : Nat := 0
  calls : Nat := 0

/-- `tick`; the sum saturates. -/
def Ticker.tick (interrupt : Nat → Except String Unit) (t : Ticker) (work : Nat) : Except String Ticker := do
  let t ← if t.since = 0 ∨ t.since ≥ interruptStride then do
      interrupt t.calls
      pure { since := 0, calls := t.calls + 1 }
    else pure t
  pure { t with since := min (t.since + max work 1) (2 ^ 64 - 1) }

theorem Ticker.tick_ok (t : Ticker) (work : Nat) : ∃ t', t.tick (fun _ => .ok ()) work = .ok t' := by
  unfold tick
  split <;> exact ⟨_, rfl⟩

/-- `uf_find`: the root of a node, and the forest after the path to it is halved. -/
def ufFind (f : Forest n) (x : Fin n) : Fin n × Forest n :=
  if _h : f.parent x = x then (x, f) else ufFind (f.halve x) (f.parent (f.parent x))
termination_by x.val
decreasing_by exact lt_of_le_of_lt (f.le _) (f.parent_lt _h)

/-- The union of two roots, toward the lower index. -/
def link (f : Forest n) (ra rb : Fin n) : Forest n :=
  if ra = rb then f
  else if h : ra < rb then f.set rb ra h.le
  else f.set ra rb (not_lt.mp h)

/-- An edge joins the components of its ends. -/
def join (f : Forest n) (a b : Fin n) : Forest n :=
  let (ra, f) := ufFind f a
  let (rb, f) := ufFind f b
  link f ra rb

/-- The body of the loop of `wcc` over the edges. -/
def joinStep (interrupt : Nat → Except String Unit) (st : Ticker × Forest n) (e : Fin n × Fin n) :
    Except String (Ticker × Forest n) := do
  let tick ← st.1.tick interrupt 1
  pure (tick, join st.2 e.1 e.2)

/-- The last line of `wcc`: the lookups change the forest as they go. -/
def representatives : Forest n → List (Fin n) → List (Fin n)
  | _, [] => []
  | f, i :: is =>
    let (r, f) := ufFind f i
    r :: representatives f is

def wcc (n : Nat) (edges : List (Fin n × Fin n)) (interrupt : Nat → Except String Unit) :
    Except String (List (Fin n)) := do
  let (_, f) ← edges.foldlM (joinStep interrupt) ({}, .singletons n)
  pure (representatives f (List.finRange n))

/-! ## The components -/

/-- An undirected path of listed edges joins two nodes. -/
def Joined (edges : List (Fin n × Fin n)) : Fin n → Fin n → Prop :=
  Relation.ReflTransGen fun a b => (a, b) ∈ edges ∨ (b, a) ∈ edges

variable {edges : List (Fin n × Fin n)} {f f' : Forest n} {a b : Fin n}

theorem Joined.symm (h : Joined edges a b) : Joined edges b a :=
  Relation.ReflTransGen.mono (fun _ _ => Or.symm) _ _ h.swap

/-- The trees of a forest lie within the components of a graph. -/
def Sound (edges : List (Fin n × Fin n)) (f : Forest n) : Prop := ∀ x, Joined edges x (f.parent x)

theorem Sound.root (h : Sound edges f) (x : Fin n) : Joined edges x (f.root x) :=
  f.rel_root (fun _ => .refl) (fun _ _ _ => .trans) h x

theorem Sound.set (h : Sound edges f) {p : Fin n} (hle : p ≤ a) (hp : Joined edges a p) : Sound edges (f.set a p hle) := by
  intro x
  show Joined edges x (Function.update f.parent a p x)
  rw [Function.update_apply]
  split
  next heq => exact heq ▸ hp
  next => exact h x

/-- A lookup returns the root, and changes no root. -/
theorem ufFind_spec (f : Forest n) (x : Fin n) : (ufFind f x).1 = f.root x ∧ (∀ y, (ufFind f x).2.root y = f.root y) ∧
    (Sound edges f → Sound edges (ufFind f x).2) := by
  fun_induction ufFind f x with
  | case1 f x h => exact ⟨(f.root_of_isRoot h).symm, fun _ => rfl, id⟩
  | case2 f x h ih =>
    obtain ⟨hroot, hroots, hsound⟩ := ih
    refine ⟨?_, fun y => (hroots y).trans (Forest.root_halve x y), fun hf => hsound ?_⟩
    · rw [hroot, Forest.root_halve, f.root_parent, f.root_parent]
    · exact hf.set _ ((hf x).trans (hf (f.parent x)))

theorem root_link (ha : f.parent a = a) (hb : f.parent b = b) (y : Fin n) :
    (link f a b).root y = if f.root y = a ∨ f.root y = b then min a b else f.root y := by
  unfold link
  split
  next heq => simp [heq]
  next hne =>
    split
    next hlt =>
      rw [Forest.root_set ha hb hlt, min_eq_left hlt.le]
      by_cases hy : f.root y = a <;> simp [hy]
    next hlt =>
      have hlt : b < a := lt_of_le_of_ne (not_lt.mp hlt) (Ne.symm hne)
      rw [Forest.root_set hb ha hlt, min_eq_right hlt.le]
      by_cases hy : f.root y = b <;> simp [hy]

theorem Sound.link (h : Sound edges f) (hab : Joined edges a b) : Sound edges (link f a b) := by
  unfold Algo.link
  split
  · exact h
  · split
    · exact h.set _ hab.symm
    · exact h.set _ hab

/-- An edge joins the trees of its ends. -/
theorem join_spec (f : Forest n) (a b : Fin n) : (∀ y, (join f a b).root y =
      if f.root y = f.root a ∨ f.root y = f.root b then min (f.root a) (f.root b) else f.root y) ∧
    ((a, b) ∈ edges → Sound edges f → Sound edges (join f a b)) := by
  obtain ⟨hra, hroots₁, hsound₁⟩ := @ufFind_spec n edges f a
  obtain ⟨hrb, hroots₂, hsound₂⟩ := @ufFind_spec n edges (ufFind f a).2 b
  have hroots : ∀ y, (ufFind (ufFind f a).2 b).2.root y = f.root y := fun y => (hroots₂ y).trans (hroots₁ y)
  have hjoin : join f a b = link (ufFind (ufFind f a).2 b).2 (f.root a) (f.root b) := by
    rw [← hra, ← hroots₁ b, ← hrb]
    rfl
  rw [hjoin]
  refine ⟨fun y => ?_, fun hab hf => (hsound₂ (hsound₁ hf)).link ?_⟩
  · rw [root_link _ _, hroots]
    · rw [← hroots]
      exact Forest.parent_root _ a
    · rw [← hroots]
      exact Forest.parent_root _ b
  · exact (hf.root a).symm.trans ((Relation.ReflTransGen.single (.inl hab)).trans (hf.root b))

theorem representatives_eq (f : Forest n) (is : List (Fin n)) : representatives f is = is.map f.root := by
  induction is generalizing f with
  | nil => rfl
  | cons i is ih =>
    obtain ⟨hroot, hroots, -⟩ := @ufFind_spec n [] f i
    show (ufFind f i).1 :: representatives (ufFind f i).2 is = _
    rw [ih, hroot, List.map_cons, List.map_congr_left fun j _ => hroots j]

/-- The loop over the edges, with a hook that never fires. -/
theorem joins_spec {listed : List (Fin n × Fin n)} (hsub : listed ⊆ edges) (tick : Ticker) (hf : Sound edges f) :
    ∃ tick' f', listed.foldlM (joinStep fun _ => .ok ()) (tick, f) = .ok (tick', f') ∧ Sound edges f' ∧
      (∀ x y, f.root x = f.root y → f'.root x = f'.root y) ∧ ∀ e ∈ listed, f'.root e.1 = f'.root e.2 := by
  induction listed generalizing tick f with
  | nil => exact ⟨tick, f, rfl, hf, fun _ _ => id, nofun⟩
  | cons e listed ih =>
    obtain ⟨a, b⟩ := e
    obtain ⟨hroot, hsound⟩ := @join_spec n edges f a b
    obtain ⟨tick₁, htick⟩ := tick.tick_ok 1
    obtain ⟨tick', f', hrun, hf', hkept, hjoined⟩ :=
      ih (fun e he => hsub (.tail _ he)) tick₁ (hsound (hsub (.head _)) hf)
    refine ⟨tick', f', ?_, hf', fun x y hxy => hkept x y ?_, List.forall_mem_cons.mpr ⟨hkept a b ?_, hjoined⟩⟩
    · rw [List.foldlM_cons, joinStep, htick]
      exact hrun
    · rw [hroot, hroot, hxy]
    · rw [hroot, hroot, if_pos (.inl rfl), if_pos (.inr rfl)]

/-- **`wcc` is exact**: it returns for every node the least node of its component. The hook
never stops the run here; if it does, its error is what `wcc` returns. Edges are taken without
their direction, and `Joined` is the equivalence they generate. -/
theorem wcc_components (n : Nat) (edges : List (Fin n × Fin n)) : ∃ label : Fin n → Fin n,
    wcc n edges (fun _ => .ok ()) = .ok ((List.finRange n).map label) ∧
      (∀ v, IsLeast {w | Joined edges v w} (label v)) ∧ ∀ v w, label v = label w ↔ Joined edges v w := by
  obtain ⟨tick, f, hrun, hsound, -, hedges⟩ :=
    joins_spec (List.Subset.refl edges) {} (f := .singletons n) fun _ => .refl
  have hsame : ∀ {v w}, Joined edges v w → f.root v = f.root w := by
    intro v w h
    induction h with
    | refl => rfl
    | tail _ hstep ih =>
      obtain h | h := hstep
      · exact ih.trans (hedges _ h)
      · exact ih.trans (hedges _ h).symm
  refine ⟨f.root, ?_, fun v => ⟨hsound.root v, fun w hw => ?_⟩, fun v w => ⟨fun h => ?_, hsame⟩⟩
  · rw [wcc, hrun]
    exact congrArg Except.ok (representatives_eq f _)
  · rw [hsame hw]
    exact f.root_le w
  · exact (hsound.root v).trans (h ▸ (hsound.root w).symm)

end Slater.Algo
