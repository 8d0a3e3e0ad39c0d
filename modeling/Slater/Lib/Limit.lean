import Slater.Lib.Fallible

/-!
# Loops that stop at a limit

A producer adds items to the end of a list and may fail. Given a limit it may stop once the list is
that long. `Limited` says what is owed in return: without a limit the producer only appends, and
under a limit it does what the unlimited one does, cut to the limit. A failure the cut run does not
reach is allowed to disappear.

The rules build limited producers from limited parts. The list is checked before each part is run, so
a part only has to meet its obligation below the limit.
-/

namespace Slater

open List Option

variable {α β γ : Type}

/-- A limit is met. -/
def capped (cap : Option Nat) (out : List α) : Bool := cap.any (· ≤ out.length)

@[simp]
theorem capped_none (out : List α) : capped none out = false := rfl

theorem capped_some (c : Nat) (out : List α) : capped (some c) out = true ↔ c ≤ out.length := by
  simp [capped]

/-- A producer that a limit only cuts. -/
structure Limited (f : Option Nat → List α → Option (List α)) : Prop where
  append : ∀ out, f none out = (f none []).map (out ++ ·)
  cut : ∀ {new}, f none [] = some new → ∀ {c out}, out.length < c →
    f (some c) out = some (out ++ new.take (c - out.length))

namespace Limited

theorem skip : Limited (fun _ out => some out : Option Nat → List α → Option (List α)) where
  append out := by simp
  cut h c out _ := by
    cases h
    simp

theorem push (a : α) : Limited fun _ out => some (out ++ [a]) where
  append out := by simp
  cut h c out hlt := by
    cases h
    rw [nil_append, take_of_length_le (by simp only [length_singleton]; omega)]

theorem ite {f g : Option Nat → List α → Option (List α)} (b : Prop) [Decidable b] (hf : Limited f)
    (hg : Limited g) : Limited fun cap out => if b then f cap out else g cap out := by
  split
  · exact hf
  · exact hg

theorem bind {x : Option β} {f : β → Option Nat → List α → Option (List α)}
    (h : ∀ b, Limited (f b)) : Limited fun cap out => x >>= fun b => f b cap out := by
  cases x with
  | none => exact ⟨fun _ => rfl, fun h => nomatch h⟩
  | some b => exact h b

theorem guard {f : Option Nat → List α → Option (List α)} (h : Limited f) :
    Limited fun cap out => if capped cap out then some out else f cap out where
  append out := by simpa using h.append out
  cut hnew c out hlt := by
    rw [if_neg (by rw [capped_some]; omega)]
    exact h.cut (by simpa using hnew) hlt

/-- At the limit the check stops the producer, so the cut is right wherever the run stands. -/
theorem guard_cut {f : Option Nat → List α → Option (List α)} (h : Limited f) {new : List α}
    (hnew : f none [] = some new) (c : Nat) (out : List α) :
    (if capped (some c) out then some out else f (some c) out) =
      some (out ++ new.take (c - out.length)) := by
  by_cases hc : c ≤ out.length
  · rw [if_pos ((capped_some c out).2 hc), Nat.sub_eq_zero_of_le hc]
    simp
  · rw [if_neg (by rwa [capped_some]), h.cut hnew (by omega)]

/-- Cutting twice is cutting the whole. -/
theorem take_append_take (out new rest : List α) (c : Nat) :
    (out ++ new.take (c - out.length)) ++ rest.take (c - (out ++ new.take (c - out.length)).length) =
      out ++ (new ++ rest).take (c - out.length) := by
  have hlen : c - (out ++ new.take (c - out.length)).length = c - out.length - new.length := by
    rw [length_append, length_take]
    omega
  rw [hlen, take_append, append_assoc]

variable {f : γ → Option Nat → List α → Option (List α)}

section

variable (h : ∀ a, Limited (f a))
include h

theorem foldlM_append (l : List γ) (out : List α) : l.foldlM (fun out a => f a none out) out =
      (l.foldlM (fun out a => f a none out) []).map (out ++ ·) := by
  rw [Fallible.foldlM_adds (fun a => (h a).append), Fallible.foldlM_adds fun a => (h a).append,
    Option.map_map]
  rfl

/-- Without a limit a loop answers what its steps answer, one after the other. -/
theorem foldlM_flatten
    (l : List γ) : l.foldlM (fun out a => f a none out) [] = (l.mapM fun a => f a none []).map flatten :=
  Fallible.foldlM_adds (fun a => (h a).append) l []

theorem foldlM_cut (c : Nat)
    (l : List γ) (new out : List α) (hnew : l.foldlM (fun out a => f a none out) [] = some new) :
    l.foldlM (fun out a => if capped (some c) out then some out else f a (some c) out) out =
      some (out ++ new.take (c - out.length)) := by
  induction l generalizing new out with
  | nil =>
    cases hnew
    simp
  | cons a l ih =>
    obtain ⟨first, hfirst, hrest⟩ := bind_eq_some_iff.1 hnew
    rw [foldlM_append h] at hrest
    obtain ⟨rest, hl, rfl⟩ := map_eq_some_iff.1 hrest
    rw [foldlM_cons, (h a).guard_cut hfirst, bind_eq_bind, bind_some,
      ih rest _ hl, take_append_take]

theorem foldlM (l : List γ) : Limited fun cap out =>
      l.foldlM (fun out a => if capped cap out then some out else f a cap out) out where
  append out := by simpa using foldlM_append h l out
  cut hnew c out _ := foldlM_cut h c l _ out (by simpa using hnew)


end
theorem foldlM_push (l out : List α) : l.foldlM (fun out a => some (out ++ [a])) out = some (out ++ l) := by
  induction l generalizing out with
  | nil => simp
  | cons a l ih =>
    rw [foldlM_cons, bind_eq_bind, bind_some, ih, append_assoc]
    rfl

/-- A producer run on its own, for as many items as are still wanted. -/
theorem collect {f : Option Nat → List α → Option (List α)} (h : Limited f) : Limited fun cap out =>
      f (cap.map (· - out.length)) [] >>= fun new =>
        new.foldlM (fun out a => if capped cap out then some out else some (out ++ [a])) out where
  append out := by
    simp only [map_none, capped_none, Bool.false_eq_true, if_false, foldlM_push]
    cases f none [] <;> rfl
  cut hnew c out hlt := by
    obtain ⟨found, hfound, hpush⟩ := bind_eq_some_iff.1 hnew
    obtain rfl : found = _ := by simpa [foldlM_push] using hpush
    have hcut : f (some (c - out.length)) [] = some (found.take (c - out.length)) :=
      h.cut hfound (Nat.sub_pos_of_lt hlt)
    simp only [map_some, hcut, bind_eq_bind, bind_some]
    rw [foldlM_cut push c _ _ out (foldlM_push _ _), nil_append, take_take,
      Nat.min_self]

/-- Past its limit a loop does nothing. -/
theorem foldlM_capped {f : γ → List α → Option (List α)} {cap : Option Nat} {out : List α}
    (hc : capped cap out = true) (l : List γ) :
    l.foldlM (fun out a => if capped cap out then some out else f a out) out = some out := by
  induction l with
  | nil => rfl
  | cons a l ih =>
    rw [foldlM_cons, if_pos hc]
    exact ih

/-- A loop whose steps check the limit themselves. -/
theorem foldlM_stopped (hstop : ∀ a cap out, capped cap out = true → f a cap out = some out) (cap : Option Nat)
    (l : List γ) (out : List α) : l.foldlM (fun out a => f a cap out) out =
      l.foldlM (fun out a => if capped cap out then some out else f a cap out) out := by
  congr
  funext out a
  split
  · exact hstop a cap out ‹_›
  · rfl

end Limited

end Slater
