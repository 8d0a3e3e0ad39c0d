import Slater.Exec.AsWritten
import Slater.Exec.Eval

/-!
# Seeking a node by its id

The planner reads the conjuncts of a `WHERE` that pin `id(v)` to integers and starts from those nodes
alone. A row whose node is not among them fails the predicate: a conjunction is true only if each of
its parts is, and a part that pins the id is true only of an id it names (`mem_idSeekIds`).

`=` compares integers as doubles, so this needs ids that a double holds exactly.

The scope is the one at the end of the match. That the plan read the same values before it is asked by
`PlanEnv.Seen`, and fails for a name that the pattern binds anew.
-/

namespace Slater

open List Option Fallible PlanEnv Val

/-- `id(n)` is the id of the node. It is the only thing that is asked of the scalar
functions. -/
def Scalars.ReadsIds (sc : Scalars) : Prop :=
  ∀ name : String, name.toLower = "id" → ∀ c, sc.call name [.node c] = .ok (.int (Int64.ofNat c))

/-- What a plan takes for a constant, an evaluation in the scope reads as well. -/
structure PlanEnv.Seen (env : PlanEnv) (s : Session) (scope : Scope) : Prop where
  params : ∀ name u, env.params name = some u → ∃ v, s.params name = some v ∧ v.toValue = some u
  bound : ∀ x u, env.bound x = some u → ∃ v, scope.get x = some v ∧ v.toValue = some u

namespace Val

variable {i : Int64} {v : Val}

theorem eq_int_of_toValue (h : v.toValue = some (.int i)) : v = .int i := by
  cases v <;> simp_all [toValue]

theorem eq_ints_of_toValues {xs : List Val} {us : List Value} (h : toValues xs = some us)
    {is : List Int64} (hints : (us.mapM fun
      | .int i => some i
      | _ => none) = some is) : xs = is.map .int := by
  induction xs generalizing us is with
  | nil =>
    cases h
    cases hints
    rfl
  | cons x xs ih =>
    obtain ⟨u, hu, h⟩ := bind_eq_some_iff.1 h
    obtain ⟨us', hus, rfl⟩ := map_eq_some_iff.1 h
    rw [mapM_cons] at hints
    obtain ⟨i, hi, hints⟩ := bind_eq_some_iff.1 hints
    obtain ⟨is', his, hints⟩ := bind_eq_some_iff.1 hints
    cases hints
    have hint : u = .int i := by
      cases u <;> simp_all
    subst hint
    rw [map_cons, ih hus his, eq_int_of_toValue hu]

/-- `=` on a small id is equality. -/
theorem eq_of_looseEq_id {c : Nat} (hc : c < 2 ^ 53) (h : (int (Int64.ofNat c)).looseEq (.int i) = some true ∨
      (int i).looseEq (.int (Int64.ofNat c)) = some true) : i.toInt = c := by
  have hto : (Int64.ofNat c).toInt = c := Int64.toInt_ofNat_of_lt (by omega)
  have hsmall : (Int64.ofNat c).toInt.natAbs < 2 ^ 53 := by omega
  have heq : Int64.ofNat c = i := by
    rcases h with h | h
    · exact Binary64.eq_of_ofInt64_eq hsmall ((Binary64.eq_ofInt64_iff _ _).1 (by
        simpa [looseEq, num] using h))
    · exact Binary64.eq_of_ofInt64_eq hsmall ((Binary64.eq_ofInt64_iff _ _).1 (by
        simpa [looseEq, num] using h)).symm
  rw [← heq, hto]

end Val

namespace Session

variable {s : Session} {mode : Mode (Except Failure)} {scope : Scope} {env : PlanEnv}
variable {k : Nat} {st st' : Option (List Val)} {v : Val} {e : Expr} {is : List Int64} {name : String}

/-! ## Operands -/

theorem evalAt_param (h : (s.evalAt mode k (.param name) scope).run st = .ok (v, st')) : s.params name = some v := by
  cases k with
  | zero => cases h
  | succ k =>
    rw [evalAt, evalStep] at h
    split at h
    · rename_i u hu
      cases h
      exact hu
    · cases h

theorem evalAt_var (h : (s.evalAt mode k (.var name) scope).run st = .ok (v, st')) : scope.get name = some v := by
  cases k with
  | zero => cases h
  | succ k =>
    rw [evalAt, evalStep] at h
    split at h
    · rename_i u hu
      cases h
      exact hu
    · cases h

/-- A parameter or a variable that the plan resolves. -/
theorem evalAt_resolved (hseen : env.Seen s scope) {u : Value} (hu : env.resolve e = some u)
    (hplain : ∀ u, e ≠ .literal u) (h : (s.evalAt mode k e scope).run st = .ok (v, st')) : v.toValue = some u := by
  cases e with
  | literal u => exact absurd rfl (hplain u)
  | param name =>
    obtain ⟨w, hw, hval⟩ := hseen.params name u hu
    rwa [some.inj (hw.symm.trans (evalAt_param h))] at hval
  | var name =>
    obtain ⟨w, hw, hval⟩ := hseen.bound name u hu
    rwa [some.inj (hw.symm.trans (evalAt_var h))] at hval
  | _ => cases hu

/-- A constant integer of the plan. -/
theorem evalAt_constInt (hseen : env.Seen s scope) {i : Int64} (hi : env.constInt e = some i)
    (h : (s.evalAt mode k e scope).run st = .ok (v, st')) : v = .int i := by
  induction k generalizing e i st st' v with
  | zero => cases h
  | succ k ih =>
    cases e with
    | literal u =>
      cases u <;> simp [constInt, resolve] at hi
      cases h
      rw [hi]
      rfl
    | param name | var name =>
      simp only [constInt] at hi
      split at hi
      · rename_i j hj
        cases hi
        exact eq_int_of_toValue (evalAt_resolved hseen hj nofun h)
      · cases hi
    | neg inner =>
      obtain ⟨j, hj, hi⟩ := bind_eq_some_iff.1 hi
      obtain ⟨u, t, hu, hneg⟩ := run_bind_eq_ok.1 h
      obtain rfl := ih hj hu
      split at hi
      · cases hi
      · rename_i hmin
        cases hi
        have hok : negVal s.scalars (.int j) = .ok (.int (-j)) := if_neg hmin
        rw [hok] at hneg
        cases hneg
        rfl
    | _ => simp [constInt, resolve] at hi

/-- A list of constant integers, evaluated. -/
theorem mapM_constInt (hseen : env.Seen s scope) {items : List Expr}
    (hi : items.mapM env.constInt = some is) {vs : List Val}
    (h : (items.mapM fun e => s.evalAt mode k e scope).run st = .ok (vs, st')) : vs = is.map .int := by
  induction items generalizing is st vs with
  | nil =>
    cases hi
    cases h
    rfl
  | cons e items ih =>
    rw [mapM_cons] at hi h
    obtain ⟨i, hi', hi⟩ := bind_eq_some_iff.1 hi
    obtain ⟨is', his, hi⟩ := bind_eq_some_iff.1 hi
    cases hi
    obtain ⟨v, t, hv, h⟩ := run_bind_eq_ok.1 h
    obtain ⟨vs', t', hvs, h⟩ := run_bind_eq_ok.1 h
    cases h
    rw [map_cons, evalAt_constInt hseen hi' hv, ih his hvs]

/-- The constant list of an `IN`. -/
theorem evalAt_constIds (hseen : env.Seen s scope) (hi : env.constIds e = some is)
    (h : (s.evalAt mode k e scope).run st = .ok (v, st')) : v = .list (is.map .int) := by
  cases k with
  | zero => cases h
  | succ k =>
    cases e with
    | list items =>
      obtain ⟨vs, t, hvs, h⟩ := run_bind_eq_ok.1 h
      cases h
      rw [mapM_constInt hseen hi hvs]
    | param name | var name =>
      simp only [constIds] at hi
      split at hi
      · rename_i us hus
        have hv := evalAt_resolved hseen hus nofun h
        obtain ⟨xs, rfl, hxs⟩ : ∃ xs, v = .list xs ∧ toValues xs = some us := by cases v <;> simp_all [toValue]
        rw [eq_ints_of_toValues hxs hi]
      · cases hi
    | _ => simp [constIds] at hi

variable (hids : s.scalars.ReadsIds) {var : String} {c : Nat} (hvar : scope.get var = some (.node c))

include hids hvar

/-- `id(var)`. -/
theorem evalAt_isIdOf (he : isIdOf var e = true) (h : (s.evalAt mode k e scope).run st = .ok (v, st')) :
    v = .int (Int64.ofNat c) := by
  cases k with
  | zero => cases h
  | succ k =>
    unfold isIdOf at he
    split at he
    · rename_i name x
      simp only [Bool.and_eq_true, beq_iff_eq] at he
      obtain ⟨hname, rfl⟩ := he
      have hagg : isAggregate name = false := by
        rw [isAggregate, hname]
        decide
      rw [evalAt, evalStep, if_neg (by simp [hagg])] at h
      obtain ⟨vals, t, hvals, hcall⟩ := run_bind_eq_ok.1 h
      rw [mapM_cons] at hvals
      obtain ⟨u, t', hu, hvals⟩ := run_bind_eq_ok.1 hvals
      cases hvals
      obtain rfl : node c = u := some.inj (hvar.symm.trans (evalAt_var hu))
      rw [reverse_nil, hids name hname c] at hcall
      cases hcall
      rfl
    · cases he

/-! ## Conjuncts -/

omit hids hvar in
/-- A conjunction is true only if every part is. -/
theorem foldBool_and_true {ev : Expr → EvalM (Except Failure) Val} {es : List Expr} {acc sawNull : Bool}
    (h : (foldBool .and ev acc sawNull es).run st = .ok (v, st')) (hv : v.truthy = true) :
    sawNull = false ∧ ∀ e ∈ es, ∃ t t' u, (ev e).run t = .ok (u, t') ∧ u.truthy = true := by
  induction es generalizing sawNull st with
  | nil =>
    cases h
    cases sawNull
    · exact ⟨rfl, fun _ he => absurd he not_mem_nil⟩
    · cases hv
  | cons e es ih =>
    obtain ⟨u, t, hu, h⟩ := run_bind_eq_ok.1 h
    cases hb : u.threeValued with
    | none =>
      rw [hb] at h
      exact absurd (ih h).1 (by simp)
    | some b =>
      rw [hb] at h
      cases b with
      | false =>
        cases h
        cases hv
      | true =>
        obtain ⟨hnull, hall⟩ := ih h
        refine ⟨hnull, fun e' he' => ?_⟩
        rcases mem_cons.1 he' with rfl | he'
        · refine ⟨st, t, u, hu, ?_⟩
          cases u <;> simp_all [threeValued, truthy]
        · exact hall e' he'

/-- **A conjunct that pins the id names it.** -/
theorem mem_collectIdEq (hseen : env.Seen s scope) (hc : c < 2 ^ 53)
    (h : (s.evalAt mode k e scope).run st = .ok (v, st')) (hv : v.truthy = true) :
    ∀ is ∈ env.collectIdEq var e, ∃ i ∈ is, i.toInt = c := by
  induction k generalizing e st st' v with
  | zero => cases h
  | succ k ih =>
    cases e with
    | and parts =>
      obtain ⟨-, hparts⟩ := foldBool_and_true h hv
      clear h
      induction parts with
      | nil => exact fun is his => absurd his not_mem_nil
      | cons e parts ihparts =>
        intro is his
        rcases mem_append.1 his with his | his
        · obtain ⟨t, t', u, hu, htrue⟩ := hparts e (.head _)
          exact ih hu htrue is his
        · exact ihparts (fun e he => hparts e (.tail _ he)) is his
    | compare op l r =>
      cases op with
      | eq =>
        obtain ⟨a, t, ha, h⟩ := run_bind_eq_ok.1 h
        obtain ⟨b, t', hb, h⟩ := run_bind_eq_ok.1 h
        cases h
        have hloose : a.looseEq b = some true := by
          cases heq : a.looseEq b with
          | none => simp [compareVals, heq, truthy] at hv
          | some eq => cases eq <;> simp_all [compareVals, truthy]
        intro is his
        rw [collectIdEq, mem_toList, map_eq_some_iff] at his
        obtain ⟨i, hi, rfl⟩ := his
        refine ⟨i, mem_singleton_self i, ?_⟩
        unfold idEqOperand at hi
        split at hi
        · rw [evalAt_isIdOf hids hvar ‹_› ha, evalAt_constInt hseen hi hb] at hloose
          exact eq_of_looseEq_id hc (.inl hloose)
        · split at hi
          · rw [evalAt_isIdOf hids hvar ‹_› hb, evalAt_constInt hseen hi ha] at hloose
            exact eq_of_looseEq_id hc (.inr hloose)
          · cases hi
      | _ => simp [collectIdEq]
    | inList l r =>
      obtain ⟨a, t, ha, h⟩ := run_bind_eq_ok.1 h
      obtain ⟨b, t', hb, h⟩ := run_bind_eq_ok.1 h
      cases h
      intro is his
      rw [collectIdEq] at his
      split at his
      · rename_i hid
        rw [mem_toList] at his
        rw [evalAt_isIdOf hids hvar hid ha, evalAt_constIds hseen his hb, inList] at hv
        split at hv
        · rename_i hany
          obtain ⟨x, hx, hloose⟩ := any_eq_true.1 hany
          obtain ⟨i, hi, rfl⟩ := mem_map.1 hx
          exact ⟨i, hi, eq_of_looseEq_id hc (.inl (by simpa using hloose))⟩
        · split at hv <;> cases hv
      · exact absurd his not_mem_nil
    | _ => simp [collectIdEq]

/-- **A node whose row passes the predicate is among those sought.** Only truth is used: a
predicate that fails or is unknown may name any ids. -/
theorem mem_idSeekIds (hseen : env.Seen s scope) {nodeCount : Nat} (hcount : nodeCount ≤ 2 ^ 53)
    (hlt : c < nodeCount) (h : (s.evalAt mode k e scope).run st = .ok (v, st')) (hv : v.truthy = true)
    {ids : List Nat} (hids' : env.idSeekIds var e nodeCount = some ids) : c ∈ ids := by
  have hnamed := mem_collectIdEq hids hvar hseen (by omega : c < 2 ^ 53) h hv
  unfold idSeekIds at hids'
  split at hids'
  · cases hids'
  · rename_i idSets hne
    cases hids'
    cases hsets : env.collectIdEq var e with
    | nil => exact absurd hsets hne
    | cons is rest =>
      obtain ⟨i, hi, hic⟩ := hnamed is (hsets ▸ mem_cons_self)
      refine mem_filter.2 ⟨mem_range.2 hlt, any_eq_true.2 ⟨i, ?_, ?_⟩⟩
      · exact mem_flatten.2 ⟨is, .head _, hi⟩
      · simp [hic]

end Session

end Slater
