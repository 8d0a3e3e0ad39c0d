import Slater.Lib.Fallible

/-!
# Computations in related monads

One computation may be run in several monads: with errors, with success only, with a tally. A
`MonadRel` relates the runs. It is kept by `pure`, by `bind` and by a failure, so two programs built
the same way from related parts are related. The rules below carry it through loops.

In a commutative monad the order of independent steps does not matter. Success without the reason of
a failure is commutative.

`Returns` says of a run with a state what it can return, and nothing about the state or about whether
it returns. An invariant of a loop is carried by `Returns.foldlM`.

A relation of this kind is about answers and errors. It does not compare how many steps two runs take.
-/

namespace Slater

open List

/-- A relation between the runs of a computation in two monads. The three closure rules are
fields, so that an instance is a relation with its proofs, and a program is related by following
its text. -/
structure MonadRel (m n : Type → Type) [Monad m] [Monad n] [MonadExceptOf String m] [MonadExceptOf String n] where
  Rel : ∀ {α : Type}, m α → n α → Prop
  ret : ∀ {α : Type} (a : α), Rel (pure a : m α) (pure a : n α)
  seq : ∀ {α β : Type} {x : m α} {y : n α} {f : α → m β} {g : α → n β},
    Rel x y → (∀ a, Rel (f a) (g a)) → Rel (x >>= f) (y >>= g)
  fail : ∀ {α : Type} (e : String), Rel (throw e : m α) (throw e : n α)
  halt : ∀ {α β : Type} (e : String) (f : α → m β) (g : α → n β), Rel (throw e >>= f) (throw e >>= g)

namespace MonadRel

variable {m n : Type → Type} [Monad m] [Monad n] [MonadExceptOf String m] [MonadExceptOf String n]
  (R : MonadRel m n) {α β σ : Type} {f : σ → α → m σ} {g : σ → α → n σ}

theorem ofExcept (x : Except String α) : R.Rel (MonadExcept.ofExcept x : m α) (MonadExcept.ofExcept x : n α) := by
  cases x with
  | error e => exact R.fail e
  | ok a => exact R.ret a

/-- What follows a given outcome need only be related there. -/
theorem ofExcept_seq [LawfulMonad m] [LawfulMonad n] {x : Except String α} {f : α → m β}
    {g : α → n β} (h : ∀ a, x = .ok a → R.Rel (f a) (g a)) :
    R.Rel (MonadExcept.ofExcept x >>= f) (MonadExcept.ofExcept x >>= g) := by
  cases x with
  | error e => exact R.halt e f g
  | ok a =>
    have hf : (MonadExcept.ofExcept (.ok a : Except String α) >>= f) = f a := pure_bind a f
    have hg : (MonadExcept.ofExcept (.ok a : Except String α) >>= g) = g a := pure_bind a g
    rw [hf, hg]
    exact h a rfl

theorem ite {c : Prop} [Decidable c] {x y : m α} {x' y' : n α} (hx : R.Rel x x') (hy : R.Rel y y') :
    R.Rel (if c then x else y) (if c then x' else y') := by
  split
  · exact hx
  · exact hy

theorem foldlM_mem : ∀ {l : List α},
    (∀ s, ∀ a ∈ l, R.Rel (f s a) (g s a)) → ∀ s : σ, R.Rel (l.foldlM f s) (l.foldlM g s)
  | [], _, s => R.ret s
  | _ :: _, h, s => R.seq (h s _ (.head _)) fun s' =>
      foldlM_mem (fun s a ha => h s a (.tail _ ha)) s'

theorem foldlM (h : ∀ s a, R.Rel (f s a) (g s a)) (l : List α) (s : σ) : R.Rel (l.foldlM f s) (l.foldlM g s) :=
  R.foldlM_mem (fun s a _ => h s a) s

theorem mapM [LawfulMonad m] [LawfulMonad n] {f : α → m β} {g : α → n β} : ∀ {l : List α},
    (∀ a ∈ l, R.Rel (f a) (g a)) → R.Rel (l.mapM f) (l.mapM g)
  | [], _ => R.ret []
  | a :: l, h => by
    rw [mapM_cons, mapM_cons]
    exact R.seq (h a (.head _)) fun b =>
      R.seq (mapM fun a ha => h a (.tail _ ha)) fun bs => R.ret _

theorem filterM [LawfulMonad m] [LawfulMonad n] {f : α → m Bool} {g : α → n Bool}
    (h : ∀ a, R.Rel (f a) (g a)) : ∀ l : List α, R.Rel (l.filterM f) (l.filterM g)
  | [] => by
    simp only [List.filterM, List.filterAuxM, pure_bind]
    exact R.ret []
  | a :: l => by
    rw [Fallible.filterM_cons, Fallible.filterM_cons]
    exact R.seq (h a) fun b => R.seq (filterM h l) fun bs => R.ret _

end MonadRel

/-! ## Commutative monads -/

/-- A monad in which independent steps may be swapped. -/
class CommMonad (m : Type → Type) [Monad m] : Prop extends LawfulMonad m where
  bind_comm : ∀ {α β γ : Type} (x : m α) (y : m β) (f : α → β → m γ),
    (x >>= fun a => y >>= fun b => f a b) = y >>= fun b => x >>= fun a => f a b

instance : CommMonad Option where
  bind_comm x y f := by
    cases x <;> cases y <;> rfl

section

variable {m : Type → Type} [Monad m] {α σ τ : Type}

/-- **Loops that run alike.** When a reading `d` of the state turns a step of one loop into a
step of another, it turns the whole loop into the other. The reading may itself have effects;
the hypothesis says that it can be moved past a step. -/
theorem foldlM_bind_eq [LawfulMonad m] {f : σ → α → m σ} {g : τ → α → m τ} {d : σ → m τ}
    (l : List α) (h : ∀ s, ∀ a ∈ l, (f s a >>= d) = d s >>= fun t => g t a) (s : σ) :
    (l.foldlM f s >>= d) = d s >>= fun t => l.foldlM g t := by
  induction l generalizing s with
  | nil => simp
  | cons a l ih =>
    have hl := ih fun s b hb => h s b (.tail _ hb)
    calc ((a :: l).foldlM f s >>= d)
      _ = f s a >>= fun s => l.foldlM f s >>= d := by rw [foldlM_cons, bind_assoc]
      _ = (f s a >>= d) >>= fun t => l.foldlM g t := by simp only [hl, bind_assoc]
      _ = d s >>= fun t => (a :: l).foldlM g t := by
        rw [h s a (.head _)]
        simp

/-- Filtering ahead of a loop is testing inside it. -/
theorem filterM_bind_foldlM [CommMonad m] (p : α → m Bool) (f : σ → α → m σ) (l : List α) (s : σ) :
    (l.filterM p >>= fun kept => kept.foldlM f s) =
      l.foldlM (fun s a => p a >>= fun b => if b then f s a else pure s) s := by
  induction l generalizing s with
  | nil => simp [filterM, filterAuxM]
  | cons a l ih =>
    rw [Fallible.filterM_cons, foldlM_cons, bind_assoc, bind_assoc]
    refine bind_congr fun b => ?_
    rw [bind_assoc]
    cases b with
    | false => simpa using ih s
    | true =>
      -- the tests of the rest run before the first step, or after it
      simp only [pure_bind, if_true, foldlM_cons]
      rw [CommMonad.bind_comm]
      exact bind_congr ih

end

/-! ## Success -/

/-- In the monad of success a failure has no reason. -/
instance successThrows : MonadExceptOf String Option where
  throw _ := none
  tryCatch x _ := x

/-- A run with errors, and the run that only says what it answers. -/
def successRel : MonadRel (Except String) Option where
  Rel x y := x.toOption = y
  ret _ := rfl
  seq {α β x y f g} hxy hfg := by
    subst hxy
    cases x with
    | error e => rfl
    | ok a => exact hfg a
  fail _ := rfl
  halt _ _ _ := rfl

/-! ## What a run returns -/

/-- From whatever state it starts, the run returns only such values, if it returns. -/
def Returns {ε σ α : Type} (P : α → Prop) (x : StateT σ (Except ε) α) : Prop :=
  ∀ s a s', x.run s = .ok (a, s') → P a

namespace Returns

variable {ε σ α β : Type} {P : α → Prop} {Q : β → Prop}

theorem pure {a : α} (h : P a) : Returns P (Pure.pure a : StateT σ (Except ε) α) := by
  intro s a' s' hrun
  cases hrun
  exact h

theorem bind {x : StateT σ (Except ε) α} {f : α → StateT σ (Except ε) β} (hx : Returns P x)
    (hf : ∀ a, P a → Returns Q (f a)) : Returns Q (x >>= f) := by
  intro s b s' hrun
  obtain ⟨a, t, ha, hb⟩ := Fallible.run_bind_eq_ok.mp hrun
  exact hf a (hx s a t ha) t b s' hb

/-- What the first step returns does not matter. -/
theorem after {x : StateT σ (Except ε) α} {f : α → StateT σ (Except ε) β} (hf : ∀ a, Returns Q (f a)) :
    Returns Q (x >>= f) :=
  bind (P := fun _ => True) (fun _ _ _ _ => trivial) fun a _ => hf a

theorem ite {c : Prop} [Decidable c] {x y : StateT σ (Except ε) α} (hx : Returns P x) (hy : Returns P y) :
    Returns P (if c then x else y) := by
  split
  · exact hx
  · exact hy

/-- An invariant of the steps of a loop holds of what the loop returns. -/
theorem foldlM {f : β → α → StateT σ (Except ε) β} (hstep : ∀ b a, Q b → Returns Q (f b a)) (l : List α) :
    ∀ b, Q b → Returns Q (l.foldlM f b) := by
  induction l with
  | nil => exact fun b hb => pure hb
  | cons a l ih => exact fun b hb => bind (hstep b a hb) ih

end Returns

end Slater
