import Slater.Delta.NodeSteps
import Slater.Server.NodeWrite

/-!
# Two keys of one node

`resolve_business_key` compares with `Value::cmp_key`, which takes `1` and `1.0` for the same key, and
one node may be reached through several indexed labels and properties. The memtable files the writes
under the key as it was written, and leads from the dense id to one of these entries: the one written
last. What was written under another key of the node is then not read.

**What it does not establish.** The statements are those of one memtable over one generation; a flush between them
is not considered, and neither are labels.
-/

namespace Slater

open Map List DeltaState PlannedWrite

/-! ## The last value -/

/-- What a write says about a property: nothing, that it is gone, or its value. -/
def NodeWrite.decides (k : String) : NodeWrite → Option (Option Value)
  | .upsert patches =>
    if k ∈ patches.map Prod.fst then some ((insertAll ∅ patches).lookup k) else none
  | .removeProps props => if k ∈ props then some none else none
  | .replace patches => some ((insertAll ∅ patches).lookup k)
  | .setLabels _ _ => none
  | .delete => some none

variable (ws : List NodeWrite)

/-- The last value set for a property that was not later removed, replaced away or deleted. -/
def lastSet (k : String) : Option Value :=
  (ws.reverse.findSome? (NodeWrite.decides k)).join

/-- A write changes a delta's value of a property as it says. -/
theorem NodeDelta.lookup_write (δ : NodeDelta) (w : NodeWrite) (k : String) :
    (δ.write w).patches.lookup k = (w.decides k).getD (δ.patches.lookup k) := by
  cases w with
  | upsert patches =>
    by_cases hk : k ∈ patches.map Prod.fst
    · obtain ⟨v, hv⟩ := exists_lookup_insertAll hk
      simp [write, upsert, NodeWrite.decides, if_pos hk, hv]
    · simp [write, upsert, NodeWrite.decides, if_neg hk, lookup_insertAll_of_notMem _ hk]
  | removeProps props =>
    by_cases hk : k ∈ props <;> simp [write, removeProps, NodeWrite.decides, lookup_eraseAll, hk]
  | replace patches => rfl
  | setLabels added removed => rfl
  | delete => exact Finmap.lookup_empty k

/-- **The delta of a run of writes holds the last values.** -/
theorem NodeDelta.lookup_writeAll (k : String) : (({} : NodeDelta).writeAll ws).patches.lookup k = lastSet ws k := by
  induction ws using reverseRecOn with
  | nil => exact Finmap.lookup_empty k
  | append_singleton ws w ih =>
    rw [writeAll_append, writeAll_cons, writeAll_nil, lookup_write, ih]
    simp only [lastSet, reverse_append, reverse_singleton, singleton_append, findSome?_cons]
    cases w.decides k <;> rfl

/-! ## Writes to one dense id -/

/-- The writes made under one key. -/
def writesUnder (id : NodeIdentity) (log : List (NodeIdentity × NodeWrite)) : List NodeWrite :=
  (log.filter (·.1 = id)).map Prod.snd

/-- With one key in use, the writes made under it are all of them. -/
theorem writesUnder_eq {id : NodeIdentity} {log : List (NodeIdentity × NodeWrite)}
    (h : ∀ x ∈ log, x.1 = id) : writesUnder id log = log.map Prod.snd := by
  rw [writesUnder, filter_eq_self.mpr fun x hx => decide_eq_true (h x hx)]

/-- The operations of a log whose keys all resolved to `d`. -/
def opsAt (d : Nat) (log : List (NodeIdentity × NodeWrite)) : List ResolvedOp :=
  log.map fun x => .node x.1 x.2 (some d)

namespace Memtable

variable (nodeBase edgeBase d : Nat)

/-- An entry holds the writes made under its key, and the dense id leads to the key written
last. -/
theorem applyAll_opsAt (log : List (NodeIdentity × NodeWrite)) :
    let m := (withBases nodeBase edgeBase).applyAll (opsAt d log)
    (∀ id, (m.entryOf id).delta = ({} : NodeDelta).writeAll (writesUnder id log)) ∧
      m.byDense.lookup d = log.getLast?.map Prod.fst ∧
      ∀ x ∈ log, (m.nodes.lookup x.1).isSome := by
  induction log using reverseRecOn with
  | nil => exact ⟨fun id => rfl, rfl, nofun⟩
  | append_singleton log x ih =>
    obtain ⟨hentry, -, hstored⟩ := ih
    simp only [opsAt, map_append, applyAll_append, map_cons, map_nil, applyAll_cons,
      applyAll_nil, apply] at hentry hstored ⊢
    rw [writeNode_some]
    refine ⟨fun id => ?_, ?_, fun y hy => ?_⟩
    · by_cases hid : id = x.1
      · subst hid
        have hunder : writesUnder x.1 (log ++ [x]) = writesUnder x.1 log ++ [x.2] := by
          simp [writesUnder]
        rw [hunder, NodeDelta.writeAll_append, ← hentry]
        simp [entryOf]
      · have hunder : writesUnder id (log ++ [x]) = writesUnder id log := by
          simp [writesUnder, Ne.symm hid]
        rw [hunder, ← hentry]
        simp only [entryOf, Finmap.lookup_insert_of_ne _ hid]
    · simp
    · rw [lookup_insert_ite]
      by_cases hid : y.1 = x.1
      · rw [if_pos hid]
        rfl
      · rw [if_neg hid]
        rcases mem_append.mp hy with hy | hy
        · exact hstored y hy
        · exact absurd (congrArg Prod.fst (mem_singleton.mp hy)) hid

/-- **What is read under the dense id** is what was written under the last key. -/
theorem nodePatch_opsAt (log : List (NodeIdentity × NodeWrite)) (k : String) :
    (((withBases nodeBase edgeBase).applyAll (opsAt d log)).nodePatch d).bind (·.patches.lookup k) =
      (log.getLast?.map Prod.fst).bind fun id => lastSet (writesUnder id log) k := by
  obtain ⟨hentry, hdense, hstored⟩ := applyAll_opsAt nodeBase edgeBase d log
  cases hlast : log.getLast? with
  | none =>
    rw [hlast] at hdense
    simp [nodePatch, hdense]
  | some x =>
    rw [hlast] at hdense
    obtain ⟨e, he⟩ := Option.isSome_iff_exists.mp (hstored x (mem_of_getLast? hlast))
    have hdelta : e.delta = ({} : NodeDelta).writeAll (writesUnder x.1 log) := by
      rw [← hentry, entryOf, he, Option.getD_some]
    rw [nodePatch_eq hdense, he, Option.map_some, Option.bind_some, hdelta,
      NodeDelta.lookup_writeAll, Option.map_some, Option.bind_some]

end Memtable

/-! ## Statements -/

/-- The writes of a statement, each with the key it is filed under. -/
def PlannedWrite.entries (p : PlannedWrite) : List (NodeIdentity × NodeWrite) :=
  p.ops.map (p.id, ·)

namespace DeltaState

variable {ε : Type} {gen : Generation}

/-- Statements alone only write to the active memtable. -/
theorem serveAll_writes (st : DeltaState) (stmts : List (Evaluator ε × WriteStmt ε)) :
    let steps := stmts.map fun x => ServerStep.write x.1 x.2
    st.serveAll gen steps = st.commit ((st.log gen steps).flatMap resolvedOps) := by
  induction stmts generalizing st with
  | nil => rfl
  | cons x stmts ih =>
    have hstep := st.serve_write gen x.1 x.2
    simp only [map_cons, serveAll, foldl_cons, log] at ih ⊢
    rw [ih (st.serve gen (.write x.1 x.2)), hstep]
    cases st.acknowledged gen (.write x.1 x.2) with
    | none => rfl
    | some p => simp [commit, Memtable.applyAll_append]

/-- Every acknowledged write is the plan of one of the statements. -/
theorem mem_log_writes {st : DeltaState} {stmts : List (Evaluator ε × WriteStmt ε)} {p : PlannedWrite}
    (h : p ∈ st.log gen (stmts.map fun x => .write x.1 x.2)) :
    ∃ x ∈ stmts, ∃ value st', x.1.value x.2.keyValue "the anchor business-key value" = .ok value ∧
      planWrite gen st' x.1 x.2 value = .ok p := by
  induction stmts generalizing st with
  | nil => cases h
  | cons x stmts ih =>
    simp only [map_cons, log, mem_append, Option.mem_toList] at h
    rcases h with h | h
    · obtain ⟨value, hvalue, hplan⟩ := bind_eq_ok.mp (toOption_eq_some.mp h)
      exact ⟨x, .head _, value, st, hvalue, hplan⟩
    · obtain ⟨y, hy, hrest⟩ := ih h
      exact ⟨y, .tail _ hy, hrest⟩

end DeltaState

section Reflects

variable {ε : Type} (gen : Generation) (nodeCount edgeCount d : Nat)

/-- **A node's patch reflects every statement** that resolves to it exactly if the statements
made under other keys than the last one decide no last value. Only properties are compared. A
statement under another key does no harm if each property it decides is decided again under the
last one. -/
theorem nodePatch_reflects_iff (stmts : List (Evaluator ε × WriteStmt ε))
    (hkeys : ∀ x ∈ stmts, ∀ value, x.1.value x.2.keyValue "the anchor business-key value" = .ok value →
      gen.resolveBusinessKey (x.2.identity value) = .unique d) :
    let steps := stmts.map fun x => ServerStep.write x.1 x.2
    let st := (start nodeCount edgeCount).serveAll gen steps
    let log := ((start nodeCount edgeCount).log gen steps).flatMap entries
    (∀ k, (st.mem.nodePatch d).bind (·.patches.lookup k) = lastSet (log.map Prod.snd) k) ↔
      ∀ id ∈ log.getLast?.map Prod.fst, ∀ k, lastSet (writesUnder id log) k = lastSet (log.map Prod.snd) k := by
  intro steps st log
  have hops : ((start nodeCount edgeCount).log gen steps).flatMap
      resolvedOps = opsAt d log := by
    rw [opsAt, map_flatMap]
    refine flatMap_congr fun p hp => ?_
    obtain ⟨x, hx, value, st', hvalue, hplan⟩ := mem_log_writes hp
    obtain ⟨hid, -, hres, -⟩ := planWrite_ok hplan
    rw [hid, hkeys x hx value hvalue] at hres
    rw [resolvedOps, entries, map_map, ← Except.ok.inj hres]
    rfl
  have hmem : st.mem = (Memtable.withBases nodeCount edgeCount).applyAll (opsAt d log) := by
    rw [← hops]
    exact congrArg mem (serveAll_writes _ stmts)
  simp only [hmem, Memtable.nodePatch_opsAt]
  cases hlast : log.getLast? with
  | none =>
    rw [getLast?_eq_none_iff.mp hlast]
    simp [lastSet]
  | some x => simp

end Reflects

/-- Two statements that name the person by the same key are both read. -/
theorem nodePatch_reflects_onePerson :
    let steps := [setPerson (.int 1) "a" (.int 5), setPerson (.int 1) "b" (.int 6)].map
      fun x => ServerStep.write x.1 x.2
    let st := (start 1 0).serveAll onePerson.generation steps
    (st.mem.nodePatch 0).bind (·.patches.lookup "a") = some (.int 5) := by
  have hkeys : ∀ x ∈ [setPerson (.int 1) "a" (.int 5), setPerson (.int 1) "b" (.int 6)], ∀ value,
      x.1.value x.2.keyValue "the anchor business-key value" = .ok value →
      onePerson.generation.resolveBusinessKey (x.2.identity value) = .unique 0 := by
    intro x hx value hvalue
    simp only [mem_cons, not_mem_nil, or_false] at hx
    rcases hx with rfl | rfl <;> cases hvalue <;> decide +kernel
  refine ((nodePatch_reflects_iff _ 1 0 0 _ hkeys).mpr ?_ "a").trans (by decide +kernel)
  intro id hid k
  rw [writesUnder_eq]
  revert id
  decide +kernel

/-- The person is written under the key `1` and under the key `1.0`: the first property is
lost. -/
theorem nodePatch_loses_alias : ¬ ∀ (gen : Generation) (nodeCount edgeCount d : Nat)
      (stmts : List (Evaluator Value × WriteStmt Value)),
      (∀ x ∈ stmts, ∀ value, x.1.value x.2.keyValue "the anchor business-key value" = .ok value →
        gen.resolveBusinessKey (x.2.identity value) = .unique d) →
      let steps := stmts.map fun x => ServerStep.write x.1 x.2
      let st := (start nodeCount edgeCount).serveAll gen steps
      let log := ((start nodeCount edgeCount).log gen steps).flatMap entries
      ∀ k, (st.mem.nodePatch d).bind (·.patches.lookup k) = lastSet (log.map Prod.snd) k := by
  intro h
  have hkeys : ∀ x ∈ [setPerson (.int 1) "a" (.int 5), setPerson (.float 0x3FF0000000000000) "b"
      (.int 6)], ∀ value, x.1.value x.2.keyValue "the anchor business-key value" = .ok value →
      onePerson.generation.resolveBusinessKey (x.2.identity value) = .unique 0 := by
    intro x hx value hvalue
    simp only [mem_cons, not_mem_nil, or_false] at hx
    rcases hx with rfl | rfl <;> cases hvalue <;> decide +kernel
  have hread := h onePerson.generation 1 0 0 _ hkeys "a"
  revert hread
  decide +kernel

end Slater
