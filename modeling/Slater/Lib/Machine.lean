import Mathlib

/-!
# Runs of a partial machine

A machine is a partial step function: `step s a = none` says that the action `a` cannot happen in the state
`s`. `runFrom` runs a list of actions, `Along` asks a condition of every step of a run, on the state before
it, and `runFrom_invariant` is the one induction over runs. Where one party runs a fixed list of actions among
the actions of others (`Interleaved`), `Establishes` is the triple for its list: a condition before it, which the others
keep, and one after it. Its rules go along the list; what the list itself keeps (`Establishes.keep`) needs
no look at its order.

There is no fairness and no time: a run is finite, and nothing says that an action is ever taken.
-/

namespace Slater

open List

variable {σ α : Type*} {step : σ → α → Option σ} {cond : σ → α → Prop} {P : σ → Prop} {s s' : σ}
  {a : α} {as bs mine : List α} {foreign : α → Prop}

/-- The state after a list of actions. -/
def runFrom (step : σ → α → Option σ) : σ → List α → Option σ
  | s, [] => some s
  | s, a :: as => (step s a).bind fun s' => runFrom step s' as

/-- Every step of the run meets a condition on the state before it and its action. A run that
stops early meets it vacuously from there on. -/
def Along (step : σ → α → Option σ) (cond : σ → α → Prop) : σ → List α → Prop
  | _, [] => True
  | s, a :: as => cond s a ∧ ∀ s', step s a = some s' → Along step cond s' as

@[simp] theorem runFrom_nil : runFrom step s [] = some s := rfl

/-- Along a run, step by step. -/
theorem along_cons_of_step {t : σ} (h : step s a = some t) :
    Along step cond s (a :: as) ↔ cond s a ∧ Along step cond t as :=
  ⟨fun hall => ⟨hall.1, hall.2 t h⟩,
    fun ⟨hcond, hrest⟩ => ⟨hcond, fun _ ht' => Option.some.inj (h.symm.trans ht') ▸ hrest⟩⟩

theorem along_cons_of_stuck (h : step s a = none) : Along step cond s (a :: as) ↔ cond s a :=
  ⟨And.left, fun hcond => ⟨hcond, fun _ ht' => absurd (h.symm.trans ht') nofun⟩⟩

theorem along_of_forall (h : ∀ s, ∀ a ∈ as, cond s a) : Along step cond s as := by
  induction as generalizing s with
  | nil => trivial
  | cons a as ih =>
    exact ⟨h s a (.head _), fun _ _ => ih fun t b hb => h t b (mem_cons_of_mem a hb)⟩

theorem Along.and {cond' : σ → α → Prop} (h : Along step cond s as) (h' : Along step cond' s as) :
    Along step (fun s a => cond s a ∧ cond' s a) s as := by
  induction as generalizing s with
  | nil => trivial
  | cons a as ih => exact ⟨⟨h.1, h'.1⟩, fun t ht => ih (h.2 t ht) (h'.2 t ht)⟩

instance Along.decidable [∀ s a, Decidable (cond s a)] : (s : σ) → (as : List α) → Decidable (Along step cond s as)
  | _, [] => .isTrue trivial
  | s, a :: as =>
    match h : step s a with
    | none => decidable_of_iff (cond s a) (along_cons_of_stuck h).symm
    | some t =>
      have := Along.decidable t as
      decidable_of_iff (cond s a ∧ Along step cond t as) (along_cons_of_step h).symm

/-- **What every step keeps, every run keeps**, if the steps meet the condition. The condition
may depend on the state, so an assumption about the environment is made at the moment it is
used. -/
theorem runFrom_invariant (hstep : ∀ s a s', P s → cond s a → step s a = some s' → P s') (hs : P s)
    (hcond : Along step cond s as) (hrun : runFrom step s as = some s') : P s' := by
  induction as generalizing s with
  | nil => exact Option.some.inj hrun ▸ hs
  | cons a as ih =>
    obtain ⟨t, ht, hrest⟩ := Option.bind_eq_some_iff.mp hrun
    exact ih (hstep s a t hs hcond.1 ht) (hcond.2 t ht) hrest

theorem runFrom_append : runFrom step s (as ++ bs) = (runFrom step s as).bind fun t => runFrom step t bs := by
  induction as generalizing s with
  | nil => rfl
  | cons a as ih =>
    show (step s a).bind _ = ((step s a).bind _).bind _
    rw [Option.bind_assoc]
    exact congrArg _ (funext fun t => ih)

/-! ## Among others -/

/-- One party's actions in their order, among actions of others. Actions of others may come
before, between and after. -/
inductive Interleaved (foreign : α → Prop) : List α → List α → Prop
  | nil : Interleaved foreign [] []
  | own {a : α} {mine all : List α} : Interleaved foreign mine all → Interleaved foreign (a :: mine) (a :: all)
  | other {a : α} {mine all : List α} : foreign a → Interleaved foreign mine all → Interleaved foreign mine (a :: all)

theorem Interleaved.self (foreign : α → Prop) : (mine : List α) → Interleaved foreign mine mine
  | [] => .nil
  | _ :: mine => .own (Interleaved.self foreign mine)

theorem Interleaved.append {others : List α} (hothers : ∀ a ∈ others, foreign a) :
    (mine : List α) → Interleaved foreign mine (mine ++ others)
  | a :: mine => .own (Interleaved.append hothers mine)
  | [] => by
    induction others with
    | nil => exact .nil
    | cons a others ih => exact .other (hothers a (.head _)) (ih fun b hb => hothers b (.tail _ hb))

/-- A run in which one party goes through two lists is one with the first, then one with the
second. -/
theorem Interleaved.split {first second all : List α} (h : Interleaved foreign (first ++ second) all) :
    ∃ before after, all = before ++ after ∧ Interleaved foreign first before ∧ Interleaved foreign second after := by
  generalize hmine : first ++ second = mine at h
  induction h generalizing first with
  | nil =>
    obtain ⟨rfl, rfl⟩ := append_eq_nil_iff.mp hmine
    exact ⟨[], [], rfl, .nil, .nil⟩
  | @own a mine all hall ih =>
    cases first with
    | nil =>
      subst hmine
      exact ⟨[], a :: all, rfl, .nil, .own hall⟩
    | cons b first =>
      obtain ⟨rfl, hrest⟩ := cons_eq_cons.mp hmine
      obtain ⟨before, after, rfl, hbefore, hafter⟩ := ih hrest
      exact ⟨b :: before, after, rfl, .own hbefore, hafter⟩
  | @other a mine all hforeign _ ih =>
    obtain ⟨before, after, rfl, hbefore, hafter⟩ := ih hmine
    exact ⟨a :: before, after, rfl, .other hforeign hbefore, hafter⟩

variable (step foreign) (inv : σ → Prop)

/-- No action of others ends a condition; every state meets `inv`. -/
def Stable (P : σ → Prop) : Prop := ∀ ⦃s a s'⦄, foreign a → inv s → P s → step s a = some s' → P s'

/-- **The triple of a list of actions among others**: a run from a state with `P`, in which one
party goes through its list and the others do what they may, ends with `Q`. The invariant is
kept by everybody and the foreign actions keep what is established, so a rule for the list never
mentions them. -/
def Establishes (P : σ → Prop) (mine : List α) (Q : σ → Prop) : Prop :=
  ∀ ⦃s s' all⦄, Interleaved foreign mine all → inv s → P s → runFrom step s all = some s' → Q s'

variable {step foreign inv} {Q R : σ → Prop}

theorem Establishes.and (hQ : Establishes step foreign inv P mine Q) (hR : Establishes step foreign inv P mine R) :
    Establishes step foreign inv P mine (fun s => Q s ∧ R s) :=
  fun _ _ _ hall hinv hP hrun => ⟨hQ hall hinv hP hrun, hR hall hinv hP hrun⟩

section Rules

variable (hinv : ∀ ⦃s a s'⦄, inv s → step s a = some s' → inv s')
include hinv

theorem Establishes.nil (hP : Stable step foreign inv P) : Establishes step foreign inv P [] P := by
  intro s s' all hall hs hPs hrun
  generalize hmine : [] = mine at hall
  induction hall generalizing s with
  | nil =>
    cases hrun
    exact hPs
  | own => cases hmine
  | other hforeign _ ih =>
    obtain ⟨t, ht, hrun⟩ := Option.bind_eq_some_iff.mp hrun
    exact ih (hinv hs ht) (hP hforeign hs hPs ht) hrun hmine

theorem Establishes.cons (hP : Stable step foreign inv P)
    (ha : ∀ ⦃s s'⦄, inv s → P s → step s a = some s' → R s')
    (hrest : Establishes step foreign inv R mine Q) : Establishes step foreign inv P (a :: mine) Q := by
  intro s s' all hall hs hPs hrun
  generalize hmine : a :: mine = whole at hall
  induction hall generalizing s with
  | nil => cases hmine
  | own hall =>
    cases hmine
    obtain ⟨t, ht, hrun⟩ := Option.bind_eq_some_iff.mp hrun
    exact hrest hall (hinv hs ht) (ha hs hPs ht) hrun
  | other hforeign _ ih =>
    obtain ⟨t, ht, hrun⟩ := Option.bind_eq_some_iff.mp hrun
    exact ih (hinv hs ht) (hP hforeign hs hPs ht) hrun hmine

/-- The list keeps what each of its actions keeps. -/
theorem Establishes.keep (hP : Stable step foreign inv P)
    (hmine : ∀ a ∈ mine, ∀ ⦃s s'⦄, inv s → P s → step s a = some s' → P s') :
    Establishes step foreign inv P mine P := by
  induction mine with
  | nil => exact .nil hinv hP
  | cons a mine ih => exact .cons hinv hP (hmine a (.head _)) (ih fun b hb => hmine b (.tail _ hb))

theorem Establishes.append {first second : List α} (hfirst : Establishes step foreign inv P first R)
    (hsecond : Establishes step foreign inv R second Q) : Establishes step foreign inv P (first ++ second) Q := by
  intro s s' all hall hs hPs hrun
  obtain ⟨before, after, rfl, hbefore, hafter⟩ := hall.split
  rw [runFrom_append] at hrun
  obtain ⟨t, ht, hrun⟩ := Option.bind_eq_some_iff.mp hrun
  have hinvt : inv t :=
    runFrom_invariant (fun _ _ _ hs _ hstep => hinv hs hstep) hs (along_of_forall fun _ _ _ => trivial) ht
  exact hsecond hafter hinvt (hfirst hbefore hs hPs ht) hrun

end Rules

end Slater
