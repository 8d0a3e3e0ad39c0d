import Slater.Delta.Stack
import Slater.Delta.LevelSplit
import Slater.Delta.NodeSteps

/-!
# Writing a deleted node again

`delete_node` empties a node's delta and sets its tombstone; the next write of the key clears the
tombstone and nothing else. What the node had below the level in which it is written again is then
read again: the core row always, and the older levels as long as the tombstone was not sealed between
the two operations.

`recreate_reads_iff` says for which core rows and which older levels the node nevertheless starts
empty.

**What it does not establish.** Only steps that spare the node lie between the delete and the new write, and
relationships are not looked at: what a deleted node was connected to is the subject of `Slater.Server.Deleted`.
-/

namespace Slater

open Map List Option NodeDelta Memtable DeltaState

def DeltaStep.seals : DeltaStep → Bool
  | .write _ => false
  | .flush => true

namespace DeltaState

/-- The node is deleted, other steps follow, and the node is written again. The steps in between
are any that spare the node; a flush among them seals the tombstone. -/
def recreate (st : DeltaState) (id : NodeIdentity) (d : Nat) (between : List DeltaStep)
    (patches : List (String × Value)) : DeltaState :=
  ((st.step (.write (.node id .delete (some d)))).run between).step (.write (.node id (.upsert patches) (some d)))

/-- What the delta still says of the deleted node: nothing once the tombstone is sealed, and
till then what the sealed levels hold. -/
def remains (st : DeltaState) (d : Nat) (tombstoneSealed : Bool) : NodeDelta :=
  bif tombstoneSealed then {} else (nodeFold st.l0 d).getD {}

/-! ## Between the two operations -/

/-- Where the tombstone is. -/
structure Buried (st₀ st : DeltaState) (id : NodeIdentity) (d : Nat) (tombstoneSealed : Bool) : Prop
    where
  base : d < st.mem.syntheticBase
  active : tombstoneSealed = false → st.l0 = st₀.l0 ∧ st.mem.byDense.lookup d = some id ∧
    ∃ e, st.mem.nodes.lookup id = some e ∧ e.delta = .tombstone
  below : tombstoneSealed = true → nodeFold st.l0 d = some .tombstone ∧
    st.mem.nodes.lookup id = none ∧ st.mem.byDense.lookup d = none

section Buried

variable {st₀ st : DeltaState} {id : NodeIdentity} {d : Nat} {tombstoneSealed : Bool}

theorem buried_delete (hd : d < st.mem.syntheticBase) :
    Buried st (st.step (.write (.node id .delete (some d)))) id d false where
  base := by
    have hbase := st.mem.apply_syntheticBase (.node id .delete (some d))
    exact hbase.symm ▸ hd
  active _ := by
    simp only [step, apply, writeNode_some]
    exact ⟨trivial, Finmap.lookup_insert _, _, Finmap.lookup_insert _, rfl⟩
  below hsealed := by cases hsealed

variable (h : Buried st₀ st id d tombstoneSealed)
include h

theorem Buried.keep {m : Memtable}
    (hm : Memtable.KeepsNode id d st.mem m) : Buried st₀ { st with mem := m } id d tombstoneSealed where
  base := hm.base.symm ▸ h.base
  active ha := by
    obtain ⟨hl0, hdense, hnode⟩ := h.active ha
    exact ⟨hl0, hm.dense.trans hdense, hm.nodes.symm ▸ hnode⟩
  below hb := by
    obtain ⟨hfold, hnode, hdense⟩ := h.below hb
    exact ⟨hfold, hm.nodes.trans hnode, hm.dense.trans hdense⟩

theorem Buried.flush : Buried st₀ st.flush id d true := by
  cases hs : tombstoneSealed with
  | true =>
    obtain ⟨hfold, hnode, hdense⟩ := h.below hs
    unfold DeltaState.flush
    cases st.mem.isEmpty with
    | true => exact ⟨h.base, nofun, fun _ => ⟨hfold, hnode, hdense⟩⟩
    | false =>
      refine ⟨h.base.trans_le (Nat.le_add_right _ _), nofun, fun _ => ⟨?_, rfl, rfl⟩⟩
      have hpatch : st.mem.nodePatch d = none := by simp only [nodePatch, hdense]; rfl
      rw [cond_false, nodeFold_cons, hpatch]
      exact hfold
  | false =>
    obtain ⟨-, hdense, e, he, htomb⟩ := h.active hs
    have hempty : st.mem.isEmpty = false := by
      have hne : st.mem.nodes ≠ ∅ := fun hnil => by rw [hnil] at he; cases he
      simp [Memtable.isEmpty, hne]
    simp only [DeltaState.flush, hempty, cond_false]
    refine ⟨h.base.trans_le (Nat.le_add_right _ _), nofun, fun _ => ⟨?_, rfl, rfl⟩⟩
    have hpatch : st.mem.nodePatch d = some .tombstone := by
      rw [nodePatch_eq hdense, he, map_some, htomb]
    rw [nodeFold_cons, hpatch]
    cases nodeFold st.l0 d with
    | none => rfl
    | some older => exact congrArg some (foldNewer_of_tombstoned older rfl)

/-- A step that leaves the node alone leaves the tombstone where it is, or seals it. -/
theorem Buried.step {step : DeltaStep}
    (hs : step.Spares id d) : Buried st₀ (st.step step) id d (tombstoneSealed || step.seals) := by
  cases step with
  | write op =>
    rw [DeltaStep.seals, Bool.or_false]
    exact h.keep (.apply hs h.base)
  | flush =>
    rw [DeltaStep.seals, Bool.or_true]
    exact h.flush

theorem Buried.run {steps : List DeltaStep} (hs : ∀ step ∈ steps, step.Spares id d) :
    Buried st₀ (st.run steps) id d (tombstoneSealed || steps.any DeltaStep.seals) := by
  induction steps generalizing st tombstoneSealed with
  | nil =>
    rw [any_nil, Bool.or_false]
    exact h
  | cons step steps ih =>
    rw [any_cons, ← Bool.or_assoc]
    exact ih (h.step (hs step (.head _))) fun s hm => hs s (.tail _ hm)

end Buried

/-! ## The second operation -/

/-- Folding an upsert onto what lies below is the upsert itself. -/
theorem foldNewer_upsert (δ : NodeDelta) (patches : List (String × Value)) :
    δ.foldNewer (({} : NodeDelta).write (.upsert patches)) = δ.write (.upsert patches) := by
  have live : (({} : NodeDelta).write (.upsert patches)).tombstoned = false := rfl
  apply ext_lookup
  · intro k
    have hhides : (({} : NodeDelta).write (.upsert patches)).hides k = false := by
      simp [hides, write, upsert]
    rw [foldNewer_lookup δ live, hhides]
    exact (lookup_insertAll δ.patches patches k).symm
  · intro k
    rw [mem_foldNewer_removed δ live]
    have hnone : (insertAll ∅ patches).lookup k = none ↔ k ∉ patches.map Prod.fst := by
      rw [← lookup_insertAll_isSome, not_isSome_iff_eq_none]
    simp [write, upsert, hnone, and_comm]
  · exact foldNewer_replaced δ live
  · intro l
    rw [mem_foldNewer_labelsAdded δ live]
    simp [write, upsert]
  · intro l
    rw [mem_foldNewer_labelsRemoved δ live]
    simp [write, upsert]
  · exact foldNewer_tombstoned ..

variable {st : DeltaState} {id : NodeIdentity} {d : Nat} {between : List DeltaStep}

/-- **What the delta says of a node written again**: the upsert on what remains. -/
theorem recreate_nodePatch (hd : d < st.mem.syntheticBase)
    (hb : ∀ step ∈ between, step.Spares id d) (patches : List (String × Value)) :
    (st.recreate id d between patches).snapshot.nodePatch d =
      some ((st.remains d (between.any DeltaStep.seals)).write (.upsert patches)) := by
  have hbur := (buried_delete hd).run hb
  set st' := (st.step (.write (.node id .delete (some d)))).run between with hst'
  -- in the level it lands in the upsert starts from nothing, whether the tombstone is there or not
  have hactive : (st'.mem.entryOf id).delta.write (.upsert patches) = ({} : NodeDelta).write (.upsert patches) := by
    cases hs : between.any DeltaStep.seals with
    | true => rw [entryOf, (hbur.below hs).2.1]; rfl
    | false =>
      obtain ⟨-, -, e, he, htomb⟩ := hbur.active hs
      rw [entryOf, he, getD_some, htomb]
      rfl
  have hpatch : (st'.mem.writeNode id (some d) (.upsert patches)).nodePatch d =
      some (({} : NodeDelta).write (.upsert patches)) := by
    rw [writeNode_some, ← hactive]
    simp [nodePatch]
  have hbelow : (nodeFold st'.l0 d).getD {} = st.remains d (between.any DeltaStep.seals) ∨
      nodeFold st'.l0 d = some .tombstone ∧ st.remains d (between.any DeltaStep.seals) = {} := by
    cases hs : between.any DeltaStep.seals with
    | true => exact .inr ⟨(hbur.below hs).1, rfl⟩
    | false => exact .inl (by rw [(hbur.active hs).1]; rfl)
  show (snapshotOf (st'.mem.writeNode id (some d) (.upsert patches)) st'.l0).nodePatch d = _
  rw [snapshotOf_nodePatch, nodeFold_cons, hpatch]
  rcases hbelow with hrem | ⟨hfold, hrem⟩
  · rw [← hrem]
    cases nodeFold st'.l0 d with
    | none => rfl
    | some older => exact congrArg some (foldNewer_upsert older patches)
  · rw [hfold, hrem]
    exact congrArg some (foldNewer_upsert .tombstone patches)

variable (st : DeltaState) (id : NodeIdentity) (d : Nat) (between : List DeltaStep) (patches : List (String × Value))

/-- The delta knows the node by the key it was written again under. -/
theorem recreate_nodeIdentity : (st.recreate id d between patches).snapshot.nodeIdentity d = some id := by
  set st' := (st.step (.write (.node id .delete (some d)))).run between
  have hid : (st'.mem.writeNode id (some d) (.upsert patches)).nodeIdentity d = some id := by
    rw [writeNode_some]
    simp [nodeIdentity]
  show findSome? _ ((st'.mem.writeNode id (some d) (.upsert patches)).level :: _) = _
  simp [level, hid]

theorem recreate_isEmpty : (st.recreate id d between patches).snapshot.isEmpty = false := by
  set st' := (st.step (.write (.node id .delete (some d)))).run between
  have hne : (st'.mem.writeNode id (some d) (.upsert patches)).nodes ≠ ∅ := by
    rw [writeNode_some]
    intro hnil
    have hlook := congrArg (·.lookup id) hnil
    simp at hlook
  have hempty : (st'.mem.writeNode id (some d) (.upsert patches)).isEmpty = false := by
    simp [Memtable.isEmpty, hne]
  show all ((st'.mem.writeNode id (some d) (.upsert patches)).level :: _) _ = _
  simp [level, hempty]

end DeltaState

/-! ## What a read shows -/

/-- What a read shows at property `k` of a core node under the delta `δ`, known by the key
`id`. -/
def NodeDelta.reads (δ : NodeDelta) (id : NodeIdentity) (core : Map String Value) (k : String) : Option Value :=
  (δ.patches.lookup k).or (if k ∈ δ.removed then none
    else bif δ.replaced then (if k = id.key then some id.value else none) else core.lookup k)

/-- Nothing is left of the node but its key, its anchor label, and properties the new write
sets. This is what a node that was never there would show after the same write. -/
structure NodeDelta.LeavesBare (δ : NodeDelta) (id : NodeIdentity)
    (patches : List (String × Value)) (core : Map String Value) (labels : Finset String) : Prop where
  props : ∀ k ∉ patches.map Prod.fst, δ.reads id core k = if k = id.key then some id.value else none
  labels : (labels \ δ.labelsRemoved) ∪ δ.labelsAdded = {id.label}

theorem NodeDelta.reads_upsert (δ : NodeDelta) (id : NodeIdentity) (patches : List (String × Value))
    (core : Map String Value) (k : String) :
    (δ.write (.upsert patches)).reads id core k = ((insertAll ∅ patches).lookup k).or (δ.reads id core k) := by
  by_cases hk : k ∈ patches.map Prod.fst
  · obtain ⟨v, hv⟩ := exists_lookup_insertAll hk
    simp [reads, write, upsert, hv]
  · simp [reads, write, upsert, lookup_insertAll_of_notMem _ hk, hk]

/-- **A node written again starts empty** exactly if nothing else is left of it: in the core row
alone once its tombstone is sealed, in the core row under the sealed levels till then. The
history before the delete is any run, and the core row and labels are any, so the condition is
one on what the reader finds and not on how it came about. -/
theorem recreate_reads_iff (nodeCount edgeCount : Nat) (history between : List DeltaStep)
    {id : NodeIdentity} {d : Nat} (hd : d < nodeCount) (hb : ∀ step ∈ between, step.Spares id d)
    (patches : List (String × Value)) (core : Map String Value) (labels : Finset String) :
    let st := (start nodeCount edgeCount).run history
    let s := (st.recreate id d between patches).snapshot
    s.overlayNodeProps false d core = insertAll ∅ ((id.key, id.value) :: patches) ∧
        s.overlayLabels d labels = {id.label} ↔
      (st.remains d (between.any DeltaStep.seals)).LeavesBare id patches core labels := by
  intro st s
  have hbase : d < st.mem.syntheticBase :=
    hd.trans_le (le_syntheticBase_run (Nat.le_refl nodeCount) history)
  have hpatch := recreate_nodePatch hbase hb patches
  have hident := st.recreate_nodeIdentity id d between patches
  have hempty := st.recreate_isEmpty id d between patches
  set δ := st.remains d (between.any DeltaStep.seals)
  have hreads : ∀ k, (s.overlayNodeProps false d core).lookup k =
      ((insertAll ∅ patches).lookup k).or (δ.reads id core k) := fun k =>
    (lookup_overlayNodeProps hempty hpatch hident core k).trans (δ.reads_upsert id patches core k)
  have hbare : ∀ k, (insertAll ∅ ((id.key, id.value) :: patches)).lookup k =
      ((insertAll ∅ patches).lookup k).or (if k = id.key then some id.value else none) := fun k => by
    rw [insertAll_cons, lookup_insertAll, lookup_insert_ite, Finmap.lookup_empty]
  have hlabels : s.overlayLabels d labels = (labels \ δ.labelsRemoved) ∪ δ.labelsAdded :=
    overlayLabels_eq hempty hpatch labels
  constructor
  · rintro ⟨hprops, hlab⟩
    refine ⟨fun k hk => ?_, hlabels ▸ hlab⟩
    have hnone : (insertAll (∅ : Map String Value) patches).lookup k = none :=
      (lookup_insertAll_of_notMem ∅ hk).trans (Finmap.lookup_empty k)
    have hlook := (hreads k).symm.trans ((congrArg (·.lookup k) hprops).trans (hbare k))
    rwa [hnone, none_or, none_or] at hlook
  · rintro ⟨hprops, hlab⟩
    refine ⟨Finmap.ext_lookup fun k => ?_, hlabels.trans hlab⟩
    rw [hreads, hbare]
    by_cases hk : k ∈ patches.map Prod.fst
    · obtain ⟨v, hv⟩ := exists_lookup_insertAll hk
      rw [hv, some_or, some_or]
    · rw [hprops k hk]

/-- A node with nothing but its key is deleted, the level is sealed, and the node is written
again. -/
theorem recreate_reads_bareNode : (∀ step ∈ [DeltaStep.flush], step.Spares ⟨"Person", "id", .int 1⟩ 0) ∧
      ((start 1 0).recreate ⟨"Person", "id", .int 1⟩ 0 [.flush]
        [("b", .int 2)]).snapshot.overlayNodeProps false 0 (insertAll ∅ [("id", .int 1)]) =
        insertAll ∅ [("id", .int 1), ("b", .int 2)] := by
  have hspares : ∀ step ∈ [DeltaStep.flush], step.Spares ⟨"Person", "id", .int 1⟩ 0 := by
    intro step hstep
    rw [mem_singleton.mp hstep]
    trivial
  refine ⟨hspares, ((recreate_reads_iff 1 0 [] [.flush] (by decide) hspares [("b", .int 2)]
    (insertAll ∅ [("id", .int 1)]) {"Person"}).mpr ⟨fun k _ => ?_, by decide⟩).1⟩
  refine (lookup_insert_ite (∅ : Map String Value) "id" k (Value.int 1)).trans ?_
  rw [Finmap.lookup_empty]

/-- A core node with a property is deleted and written again: the property is back. -/
theorem recreate_shows_core_row :
    ¬ ∀ (nodeCount edgeCount : Nat) (history between : List DeltaStep) (id : NodeIdentity) (d : Nat),
      d < nodeCount → (∀ step ∈ between, step.Spares id d) →
      ∀ (patches : List (String × Value)) (core : Map String Value) (labels : Finset String),
        let s := (((start nodeCount edgeCount).run history).recreate id d between
          patches).snapshot
        s.overlayNodeProps false d core = insertAll ∅ ((id.key, id.value) :: patches) ∧
          s.overlayLabels d labels = {id.label} := by
  intro h
  have hprops := (h 1 0 [] [] ⟨"Person", "id", .int 1⟩ 0 (by decide) nofun []
    (insertAll ∅ [("id", .int 1), ("name", .str "Ann")]) {"Person"}).1
  revert hprops
  decide

end Slater
