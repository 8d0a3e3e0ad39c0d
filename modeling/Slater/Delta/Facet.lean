import Slater.Delta.Node

/-!
# What node writes decide

A node write decides facets of the node: single properties, or single labels. A delta *touches* a
facet when it says anything about it. `touches_writeAll` reads the touched facets off the writes: they
are the ones that some write since the last delete decides. `writeAll_eq_of_covered` is the converse
use: writes that decide every facet a delta touches come to the same delta from it as from scratch.

A replace-all decides every property, touched or not. Whether a node is there at all is no facet: that is the
tombstone.
-/

namespace Slater

open Map List

/-- What a node write can decide: one property or one label. A delta is read facet by facet, so
two deltas that agree on all of them are the same to every reader. -/
inductive Facet where
  | prop (name : String)
  | label (name : String)
  deriving DecidableEq

/-- Whether a write decides a facet. A replace-all decides every property. -/
def NodeWrite.Writes : NodeWrite → Facet → Prop
  | .upsert patches, .prop k => k ∈ patches.map Prod.fst
  | .removeProps props, .prop k => k ∈ props
  | .replace _, .prop _ => True
  | .setLabels added removed, .label l => l ∈ added ∨ l ∈ removed
  | _, _ => False

namespace NodeDelta

variable {d a b : NodeDelta} {w : NodeWrite} {ws : List NodeWrite}

/-- Whether a delta says anything about a facet. -/
def Touches (d : NodeDelta) : Facet → Prop
  | .prop k => d.patches.lookup k ≠ none ∨ d.hides k = true
  | .label l => l ∈ d.labelsAdded ∨ l ∈ d.labelsRemoved

theorem not_touches_tombstone (f : Facet) : ¬ tombstone.Touches f := by
  cases f <;> simp [Touches, tombstone, hides]

theorem not_touches_empty (f : Facet) : ¬ ({} : NodeDelta).Touches f := by
  cases f <;> simp [Touches, hides]

theorem touches_write (hw : w ≠ .delete) (f : Facet) : (d.write w).Touches f ↔ w.Writes f ∨ d.Touches f := by
  cases w with
  | delete => exact absurd rfl hw
  | upsert patches =>
    cases f with
    | label l => simp [Touches, NodeWrite.Writes, write, upsert]
    | prop k =>
      simp only [Touches, NodeWrite.Writes, write]
      by_cases hk : k ∈ patches.map Prod.fst
      · obtain ⟨v, hv⟩ := exists_lookup_insertAll hk
        simp [upsert, hv, hk]
      · rw [hides_upsert _ hk]
        simp [upsert, lookup_insertAll_of_notMem _ hk, hk]
  | removeProps props =>
    cases f with
    | label l => simp [Touches, NodeWrite.Writes, write, removeProps]
    | prop k =>
      simp only [Touches, NodeWrite.Writes, write, hides_removeProps]
      by_cases hk : k ∈ props <;> simp [removeProps, lookup_eraseAll, hk]
  | replace patches =>
    cases f with
    | label l => simp [Touches, NodeWrite.Writes, write, replaceProps]
    | prop k => simp [Touches, NodeWrite.Writes, write, replaceProps, hides]
  | setLabels added removed =>
    cases f with
    | prop k =>
      simp only [NodeWrite.Writes, false_or]
      rfl
    | label l =>
      simp only [Touches, NodeWrite.Writes, write, setLabels, resurrect_labelsAdded,
        resurrect_labelsRemoved, Finset.mem_union, Finset.mem_sdiff, mem_toFinset]
      grind

/-- The writes since the last delete. -/
def sinceDelete (ws : List NodeWrite) : List NodeWrite := ws.rtakeWhile (· ≠ .delete)

theorem touches_writeAll (ws : List NodeWrite) (f : Facet) :
    (({} : NodeDelta).writeAll ws).Touches f ↔ ∃ w ∈ sinceDelete ws, w.Writes f := by
  induction ws using List.reverseRecOn with
  | nil => simp [not_touches_empty, sinceDelete]
  | append_singleton ws w ih =>
    rw [writeAll_append, writeAll_cons, writeAll_nil]
    by_cases hw : w = .delete
    · subst hw
      simp [sinceDelete, not_touches_tombstone]
    · rw [touches_write hw, ih]
      simp [sinceDelete, hw, or_comm]

theorem touches_writeAll_of_notMem (hdel : .delete ∉ ws) (f : Facet) :
    (d.writeAll ws).Touches f ↔ (∃ w ∈ ws, w.Writes f) ∨ d.Touches f := by
  induction ws generalizing d with
  | nil => simp
  | cons w ws ih =>
    rw [mem_cons, not_or] at hdel
    rw [writeAll_cons, ih hdel.2, touches_write (Ne.symm hdel.1)]
    simp only [mem_cons, or_and_right, exists_or, exists_eq_left, or_assoc, or_left_comm]

/-- Two deltas that agree on every facet the writes to come will not decide. -/
structure AgreeBefore (ws : List NodeWrite) (a b : NodeDelta) : Prop where
  prop : ∀ k, (∃ w ∈ ws, w.Writes (.prop k)) ∨
    a.patches.lookup k = b.patches.lookup k ∧ (k ∈ a.removed ↔ k ∈ b.removed)
  replaced : (∃ patches, .replace patches ∈ ws) ∨ a.replaced = b.replaced
  label : ∀ l, (∃ w ∈ ws, w.Writes (.label l)) ∨
    (l ∈ a.labelsAdded ↔ l ∈ b.labelsAdded) ∧ (l ∈ a.labelsRemoved ↔ l ∈ b.labelsRemoved)

theorem AgreeBefore.eq (h : AgreeBefore [] a b) (ht : a.tombstoned = b.tombstoned) : a = b := by
  have hp := fun k => (h.prop k).resolve_left (by simp)
  have hl := fun l => (h.label l).resolve_left (by simp)
  exact ext_lookup (fun k => (hp k).1) (fun k => (hp k).2) (h.replaced.resolve_left (by simp))
    (fun l => (hl l).1) (fun l => (hl l).2) ht

theorem AgreeBefore.write_prop (h : AgreeBefore (w :: ws) a b) (ha : a.Consistent) (hb : b.Consistent)
    (hw : w ≠ .delete) (k : String) : (∃ u ∈ ws, u.Writes (.prop k)) ∨
      (a.write w).patches.lookup k = (b.write w).patches.lookup k ∧
        (k ∈ (a.write w).removed ↔ k ∈ (b.write w).removed) := by
  by_cases hlater : ∃ u ∈ ws, u.Writes (.prop k)
  · exact .inl hlater
  have hnow : w.Writes (.prop k) ∨ a.patches.lookup k = b.patches.lookup k ∧ (k ∈ a.removed ↔ k ∈ b.removed) := by
    refine (h.prop k).imp_left ?_
    rintro ⟨u, hu, hk⟩
    rcases mem_cons.mp hu with rfl | hu
    · exact hk
    · exact absurd ⟨u, hu, hk⟩ hlater
  have hrep : w.Writes (.prop k) ∧ (∃ patches, w = .replace patches) ∨ a.replaced = b.replaced := by
    refine h.replaced.imp_left ?_
    rintro ⟨patches, hp⟩
    rcases mem_cons.mp hp with rfl | hp
    · exact ⟨trivial, patches, rfl⟩
    · exact absurd ⟨_, hp, trivial⟩ hlater
  refine .inr ?_
  cases w with
  | delete => exact absurd rfl hw
  | replace patches => exact ⟨rfl, Iff.rfl⟩
  | setLabels added removed => exact hnow.resolve_left id
  | upsert patches =>
    simp only [NodeDelta.write, upsert, resurrect_patches, resurrect_removed, Finset.mem_sdiff,
      mem_toFinset]
    by_cases hk : k ∈ patches.map Prod.fst
    · obtain ⟨v, hv⟩ := exists_lookup_insertAll hk
      simp [hv, hk]
    · rw [lookup_insertAll_of_notMem _ hk, lookup_insertAll_of_notMem _ hk]
      obtain ⟨hp, hr⟩ := hnow.resolve_left hk
      exact ⟨hp, and_congr_left' hr⟩
  | removeProps props =>
    have hreq : a.replaced = b.replaced := by
      refine hrep.resolve_left ?_
      rintro ⟨-, _, heq⟩
      cases heq
    simp only [NodeDelta.write, removeProps, resurrect_removed,
      resurrect_replaced, lookup_eraseAll, hreq]
    cases hbr : b.replaced with
    | true =>
      rw [ha.replaced (hreq.trans hbr), hb.replaced hbr]
      by_cases hk : k ∈ props
      · simp [hk]
      · simp [hk, (hnow.resolve_left hk).1]
    | false =>
      by_cases hk : k ∈ props
      · simp [hk]
      · simp [hk, (hnow.resolve_left hk).1, (hnow.resolve_left hk).2]

theorem AgreeBefore.write (h : AgreeBefore (w :: ws) a b) (ha : a.Consistent) (hb : b.Consistent)
    (hw : w ≠ .delete) : AgreeBefore ws (a.write w) (b.write w) where
  prop := h.write_prop ha hb hw
  replaced := by
    rcases h.replaced with ⟨patches, hp⟩ | heq
    · rcases mem_cons.mp hp with rfl | hp
      · exact .inr rfl
      · exact .inl ⟨patches, hp⟩
    · exact .inr (by cases w <;> first | exact heq | rfl)
  label := fun l => by
    rcases h.label l with ⟨u, hu, hl⟩ | ⟨hadd, hrem⟩
    · rcases mem_cons.mp hu with rfl | hu
      · cases u with
        | setLabels added removed =>
          simp only [NodeWrite.Writes] at hl
          simp only [NodeDelta.write, setLabels, resurrect_labelsAdded,
            Finset.mem_union, Finset.mem_sdiff, mem_toFinset]
          grind
        | _ => exact hl.elim
      · exact .inl ⟨u, hu, hl⟩
    · refine .inr ?_
      cases w with
      | setLabels added removed =>
        simp [NodeDelta.write, setLabels, hadd, hrem]
      | delete => exact absurd rfl hw
      | _ => exact ⟨hadd, hrem⟩

theorem AgreeBefore.writeAll (h : AgreeBefore ws a b) (ha : a.Consistent) (hb : b.Consistent) (hne : ws ≠ [])
    (hd : .delete ∉ ws) : a.writeAll ws = b.writeAll ws := by
  induction ws generalizing a b with
  | nil => exact absurd rfl hne
  | cons w ws ih =>
    rw [mem_cons, not_or] at hd
    have hstep := h.write ha hb (Ne.symm hd.1)
    by_cases hws : ws = []
    · subst hws
      exact hstep.eq (by rw [write_tombstoned, write_tombstoned])
    · exact ih hstep (write_consistent ha w) (write_consistent hb w) hws hd.2

theorem exists_replace_of_writes_all (h : ∀ k, ∃ w ∈ ws, w.Writes (.prop k)) : ∃ patches, .replace patches ∈ ws := by
  by_contra hno
  -- without a replace-all the writes name finitely many properties
  let names : Finset String := (ws.flatMap fun
    | .upsert patches => patches.map Prod.fst
    | .removeProps props => props
    | _ => []).toFinset
  obtain ⟨k, hk⟩ := Infinite.exists_notMem_finset names
  obtain ⟨w, hw, hwk⟩ := h k
  refine hk (mem_toFinset.mpr (mem_flatMap.mpr ⟨w, hw, ?_⟩))
  cases w with
  | upsert patches => exact hwk
  | removeProps props => exact hwk
  | replace patches => exact absurd ⟨patches, hw⟩ hno
  | setLabels added removed => exact hwk.elim
  | delete => exact hwk.elim

/-- **Starting over and starting from `d` come to the same delta** when the writes decide every
facet that `d` touches. A delete among the writes is excluded, as it starts over by itself. -/
theorem writeAll_eq_of_covered (hd : d.Consistent) (hne : ws ≠ []) (hdel : .delete ∉ ws)
    (hcov : ∀ f, d.Touches f → ∃ w ∈ ws, w.Writes f) : d.writeAll ws = ({} : NodeDelta).writeAll ws := by
  refine AgreeBefore.writeAll ⟨fun k => ?_, ?_, fun l => ?_⟩ hd consistent_empty hne hdel
  · by_cases ht : d.Touches (.prop k)
    · exact .inl (hcov _ ht)
    · simp only [Touches, not_or, not_not, hides_iff] at ht
      exact .inr ⟨by rw [ht.1, Finmap.lookup_empty], iff_of_false ht.2.2 (Finset.notMem_empty k)⟩
  · cases hr : d.replaced with
    | false => exact .inr rfl
    | true =>
      exact .inl (exists_replace_of_writes_all fun k => hcov _ (.inr (hides_iff.mpr (.inl hr))))
  · by_cases ht : d.Touches (.label l)
    · exact .inl (hcov _ ht)
    · simp only [Touches, not_or] at ht
      exact .inr ⟨iff_of_false ht.1 (Finset.notMem_empty l), iff_of_false ht.2 (Finset.notMem_empty l)⟩

end NodeDelta

end Slater
