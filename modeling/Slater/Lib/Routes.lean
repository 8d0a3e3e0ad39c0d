import Mathlib

/-!
# Routes

A leg lists, for each place, the steps that may be taken from it. A route takes one step of each leg
in turn. A leg is turned round when every step is listed at its other end; the routes of the turned
legs in reverse order are then the routes turned round, each as often (`routes_turned`). A step that
is listed twice makes two routes, so the statement is about lists up to order and not about sets.

Places and steps are of any types, and there may be none; no route is asked to avoid a place.
-/

namespace Slater

open List

namespace Route

variable {V E : Type} (dst : E → V) (back : E → V → E)

/-- The steps of the routes from a place. -/
def onward : List (V → List E) → V → List (List E)
  | [], _ => [[]]
  | leg :: legs, v => (leg v).flatMap fun e => (onward legs (dst e)).map (e :: ·)

variable (vs : List V) (legs : List (V → List E))

/-- The routes from any of the places. -/
def routes : List (V × List E) :=
  vs.flatMap fun v => (onward dst legs v).map (v, ·)

/-- Where a route ends. -/
def last (r : V × List E) : V := (r.2.getLast?.map dst).getD r.1

/-- A route walked back, from its end. -/
def turn : V → List E → V × List E
  | v, [] => (v, [])
  | v, e :: es => ((turn (dst e) es).1, (turn (dst e) es).2 ++ [back e v])

/-- The steps of a leg, each with the place it is taken from. -/
def arcs (leg : V → List E) : List (V × E) :=
  vs.flatMap fun v => (leg v).map (v, ·)

/-- The second leg lists the steps of the first at their other ends. -/
def Turned (leg leg' : V → List E) : Prop :=
  ((arcs vs leg).map fun a => (dst a.2, back a.2 a.1)).Perm (arcs vs leg')

variable {dst back}

/-! ## Onward -/

/-- A loop over the elements that pass. -/
theorem filter_flatMap_eq {α β : Type} (l : List α) (pass : α → Bool) (f : α → List β) :
    (l.filter pass).flatMap f = l.flatMap fun a => if pass a then f a else [] := by
  induction l with
  | nil => rfl
  | cons a l ih =>
    rw [flatMap_cons, ← ih, filter_cons]
    split <;> simp

theorem length_of_mem_onward {legs : List (V → List E)} {v : V} {es : List E}
    (h : es ∈ onward dst legs v) : es.length = legs.length := by
  induction legs generalizing v es with
  | nil => rw [mem_singleton.1 h]; rfl
  | cons leg legs ih =>
    obtain ⟨e, -, h⟩ := mem_flatMap.1 h
    obtain ⟨es', hes, rfl⟩ := mem_map.1 h
    rw [length_cons, length_cons, ih hes]

theorem last_cons (v : V) (e : E) (es : List E) : last dst (v, e :: es) = last dst (dst e, es) := by
  cases es with
  | nil => rfl
  | cons e' es =>
    rfl

/-- The routes of one more leg. -/
theorem onward_concat (leg : V → List E) (v : V) :
    onward dst (legs ++ [leg]) v = (onward dst legs v).flatMap fun es =>
      (leg (last dst (v, es))).map fun e => es ++ [e] := by
  induction legs generalizing v with
  | nil =>
    simp only [onward, flatMap_singleton]
    exact flatMap_pure_eq_map _ _
  | cons leg' legs ih =>
    simp only [cons_append, onward, ih, flatMap_assoc, map_flatMap, flatMap_map,
      map_map, last_cons]
    rfl

theorem routes_concat (leg : V → List E) :
    routes dst vs (legs ++ [leg]) = (routes dst vs legs).flatMap fun r =>
      (leg (last dst r)).map fun e => (r.1, r.2 ++ [e]) := by
  simp only [routes, onward_concat, map_flatMap, flatMap_assoc, flatMap_map,
    map_map]
  rfl

theorem routes_cons (leg : V → List E) (legs : List (V → List E)) :
    routes dst vs (leg :: legs) = (arcs vs leg).flatMap fun a =>
      (onward dst legs (dst a.2)).map fun es => (a.1, a.2 :: es) := by
  simp only [routes, arcs, onward, map_flatMap, flatMap_assoc, flatMap_map,
    map_map]
  rfl

/-! ## Turning round -/

section

variable (hback : ∀ e v, dst (back e v) = v)

include hback

/-- A turned route ends where the route starts. -/
theorem last_turn (v : V) (es : List E) : last dst (turn dst back v es) = v := by
  cases es with
  | nil => rfl
  | cons e es => simp [turn, last, hback]

/-- The places of a turned route. -/
theorem turn_places (v : V) (es : List E) :
    (turn dst back v es).1 :: (turn dst back v es).2.map dst = (v :: es.map dst).reverse := by
  induction es generalizing v with
  | nil => rfl
  | cons e es ih =>
    rw [turn, map_append, map_singleton, hback, ← cons_append, ih, map_cons,
      ← reverse_cons]

end

/-- The labels of a turned route, for labels that turning does not change. -/
theorem turn_labels {L : Type} {label : E → L} (hlabel : ∀ e v, label (back e v) = label e) (v : V)
    (es : List E) : (turn dst back v es).2.map label = (es.map label).reverse := by
  induction es generalizing v with
  | nil => rfl
  | cons e es ih =>
    rw [turn, map_append, ih, map_singleton, hlabel, map_cons, reverse_cons]

theorem flatMap_swap {A B C : Type} (l : List A) (m : List B) (f : A → B → C) :
    (l.flatMap fun a => m.map (f a)).Perm (m.flatMap fun b => l.map fun a => f a b) := by
  have h := Multiset.bind_map_comm (l : Multiset A) (m : Multiset B) (f := f)
  simpa only [Multiset.map_coe, Multiset.coe_bind, Multiset.coe_eq_coe] using h

theorem arcs_append (leg leg' : V → List E) :
    (arcs vs fun v => leg v ++ leg' v).Perm (arcs vs leg ++ arcs vs leg') := by
  simp only [arcs, map_append]
  exact (flatMap_append_perm _ _ _).symm

/-- Two legs turned round that may both be taken; the order of the turned legs is free. -/
theorem Turned.append {vs : List V} {f f' g g' : V → List E} (hf : Turned dst back vs f f')
    (hg : Turned dst back vs g g') : Turned dst back vs (fun v => f v ++ g v) fun v => g' v ++ f' v := by
  refine ((arcs_append vs f g).map _).trans (List.Perm.trans ?_ (arcs_append vs g' f').symm)
  rw [map_append]
  exact (List.Perm.append hf hg).trans perm_append_comm

/-- **Routes turned round.** The legs are given with their turned legs. The places are those the
route may start and end at, so every step has to be listed within them. -/
theorem routes_turned (hback : ∀ e v, dst (back e v) = v) {vs : List V} {legs : List ((V → List E) × (V → List E))}
    (hturned : ∀ l ∈ legs, Turned dst back vs l.1 l.2) :
    ((routes dst vs (legs.map (·.1))).map fun r => turn dst back r.1 r.2).Perm
      (routes dst vs (legs.map (·.2)).reverse) := by
  induction legs with
  | nil =>
    simp only [routes, map_flatMap]
    exact List.Perm.refl _
  | cons l legs ih =>
    obtain ⟨leg, leg'⟩ := l
    have hleg := hturned _ (.head _)
    have hrest := ih fun l hl => hturned l (.tail _ hl)
    -- a step back from the start of the turned route, for every route of the other legs
    let extended (v : V) (k : E) : List (V × List E) :=
      (onward dst (legs.map (·.1)) v).map fun es =>
        ((turn dst back v es).1, (turn dst back v es).2 ++ [k])
    calc ((routes dst vs (leg :: legs.map (·.1))).map fun r => turn dst back r.1 r.2)
      _ = ((arcs vs leg).map fun a => (dst a.2, back a.2 a.1)).flatMap fun a =>
            extended a.1 a.2 := by
          simp only [routes_cons, map_flatMap, map_map, flatMap_map]
          rfl
      List.Perm _ ((arcs vs leg').flatMap fun a => extended a.1 a.2) := hleg.flatMap_right _
      _ = vs.flatMap fun v => (leg' v).flatMap (extended v) := by
          simp only [arcs, flatMap_assoc, flatMap_map]
      List.Perm _ (vs.flatMap fun v => (onward dst (legs.map (·.1)) v).flatMap fun es =>
            (leg' v).map fun k => ((turn dst back v es).1, (turn dst back v es).2 ++ [k])) := by
          refine List.Perm.flatMap_left _ fun v _ => ?_
          exact flatMap_swap _ _ _
      _ = ((routes dst vs (legs.map (·.1))).map fun r => turn dst back r.1 r.2).flatMap fun r =>
            (leg' (last dst r)).map fun k => (r.1, r.2 ++ [k]) := by
          simp only [routes, flatMap_assoc, flatMap_map, last_turn hback]
      List.Perm _ _ := hrest.flatMap_right _
      _ = routes dst vs (((leg, leg') :: legs).map (·.2)).reverse := by
          rw [map_cons, reverse_cons, routes_concat]

end Route

end Slater
