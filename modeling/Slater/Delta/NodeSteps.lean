import Slater.Delta.Stack

/-!
# What a step does to the nodes

`writeNode_cases` is the inversion of a node operation: it stores nothing, rewrites the delta of one
entry, or has a node born. Everything a run keeps about nodes is derived from it. An edge operation
reaches the nodes only by creating an endpoint that does not exist (`endpointDenseOrCreate_cases`).

`KeepsNode` is the frame of a step that names a node neither by its key nor by its dense id.

Edges are not looked at here: `Slater.Delta.Mirrored` and `Slater.Delta.BornIds` say what a step does to them.
-/

namespace Slater

open Map Memtable

namespace Memtable

/-- The node fields alone, so that one equation says that a step left all of them as they
were. -/
def nodeHalf (m : Memtable) : Memtable :=
  { nodes := m.nodes, byDense := m.byDense, syntheticBase := m.syntheticBase, born := m.born
    tombstoned := m.tombstoned, bornLabelCounts := m.bornLabelCounts }

/-- The edge fields alone. -/
def edgeHalf (m : Memtable) : Memtable :=
  { edges := m.edges, outAdj := m.outAdj, inAdj := m.inAdj, byEdgeId := m.byEdgeId
    edgeSyntheticBase := m.edgeSyntheticBase, bornEdges := m.bornEdges }

/-- The entry of a node operation is rewritten, and the dense id, if resolved, is registered. -/
def putNode (m : Memtable) (id : NodeIdentity) (resolved : Option Nat) (δ : NodeDelta)
    (tombstoned : Finset Nat) : Memtable :=
  { m with
    nodes := m.nodes.insert id { m.entryOf id with delta := δ }
    byDense := resolved.elim m.byDense (m.byDense.insert · id)
    tombstoned }

section

variable (m : Memtable) (id : NodeIdentity) (resolved : Option Nat)

/-- **What a node operation does to a level**: a delete finds nothing, an entry is written, or a
node is born. What becomes of the set of tombstoned ids is left open (`t`). -/
theorem writeNode_cases (w : NodeWrite) :
    (resolved = none ∧ w = .delete ∧ m.nodes.lookup id = none ∧ m.writeNode id resolved w = m) ∨
    (∃ t, (resolved = none → ∃ e, m.nodes.lookup id = some e ∧ (e.synthetic = none → w = .delete)) ∧
      m.writeNode id resolved w = m.putNode id resolved ((m.entryOf id).delta.write w) t) ∨
    (resolved = none ∧ w ≠ .delete ∧ (m.entryOf id).synthetic = none ∧
      m.writeNode id resolved w = m.allocateBorn id { delta := (m.entryOf id).delta.write w }) := by
  cases resolved with
  | some d => exact .inr (.inl ⟨_, nofun, m.writeNode_some id d w⟩)
  | none =>
    cases hst : m.nodes.lookup id with
    | none =>
      by_cases hw : w = .delete
      · subst hw
        exact .inl ⟨rfl, rfl, rfl, writeNode_absent hst⟩
      · have hs : (m.entryOf id).synthetic = none := by rw [entryOf, hst, Option.getD_none]
        exact .inr (.inr ⟨rfl, hw, hs, writeNode_allocate hs hw⟩)
    | some e =>
      have he : m.entryOf id = e := by rw [entryOf, hst, Option.getD_some]
      cases hs : e.synthetic with
      | some d =>
        have hborn : e.synthetic = none → w = .delete := fun h => by rw [hs] at h; cases h
        rw [writeNode_synthetic hst hs]
        exact .inr (.inl ⟨_, fun _ => ⟨e, rfl, hborn⟩, by rw [putNode, he]; rfl⟩)
      | none =>
        by_cases hw : w = .delete
        · subst hw
          refine .inr (.inl ⟨m.tombstoned, fun _ => ⟨e, rfl, fun _ => rfl⟩, ?_⟩)
          rw [writeNode_delete_unborn hst hs, putNode, he]
          rfl
        · exact .inr (.inr ⟨rfl, hw, he ▸ hs, writeNode_allocate (he ▸ hs) hw⟩)

/-- An endpoint exists, or is born with an empty delta. -/
theorem endpointDenseOrCreate_cases :
    (m.endpointDenseOrCreate id resolved).1 = m ∨ resolved = none ∧ (m.entryOf id).synthetic = none ∧
        (m.endpointDenseOrCreate id resolved).1 = m.allocateBorn id {} := by
  cases resolved with
  | some d => exact .inl rfl
  | none =>
    have hs : (m.nodes.lookup id).bind (·.synthetic) = (m.entryOf id).synthetic := by
      rw [entryOf]
      cases m.nodes.lookup id <;> rfl
    cases h : (m.entryOf id).synthetic with
    | some d => exact .inl (by simp only [endpointDenseOrCreate, hs, h])
    | none => exact .inr ⟨rfl, rfl, by simp only [endpointDenseOrCreate, hs, h]⟩

theorem entryOf_synthetic : (m.entryOf id).synthetic = m.bornSyntheticForIdentity id := by
  rw [entryOf, bornSyntheticForIdentity]
  cases m.nodes.lookup id <;> rfl

theorem bornSyntheticForIdentity_putNode (δ : NodeDelta) (t : Finset Nat) (id' : NodeIdentity) :
    (m.putNode id resolved δ t).bornSyntheticForIdentity id' = m.bornSyntheticForIdentity id' := by
  rw [bornSyntheticForIdentity, putNode, lookup_insert_ite]
  split
  next heq => rw [heq, Option.bind_some, ← entryOf_synthetic]
  next => rfl

theorem bornSyntheticForIdentity_allocateBorn (entry : NodeEntry) (id' : NodeIdentity) :
    (m.allocateBorn id entry).bornSyntheticForIdentity id' =
      if id' = id then some (m.syntheticBase + m.born.length) else m.bornSyntheticForIdentity id' := by
  rw [bornSyntheticForIdentity, allocateBorn, lookup_insert_ite]
  split <;> rfl

theorem modifyNode_edgeHalf (f : NodeDelta → NodeDelta) : (m.modifyNode id f).edgeHalf = m.edgeHalf := by
  unfold modifyNode
  split <;> rfl

theorem touchNodeEntry_edgeHalf : (m.touchNodeEntry id resolved).edgeHalf = m.edgeHalf := by
  cases resolved with
  | some dense => rfl
  | none => cases hs : (m.entryOf id).synthetic <;> simp [touchNodeEntry, hs, allocateBorn, edgeHalf]

/-- A node operation leaves the edges alone. -/
theorem writeNode_edgeHalf (w : NodeWrite) : (m.writeNode id resolved w).edgeHalf = m.edgeHalf := by
  cases w with
  | upsert patches | removeProps props | replace patches | setLabels added removed =>
    exact (modifyNode_edgeHalf ..).trans (touchNodeEntry_edgeHalf ..)
  | delete =>
    simp only [writeNode, deleteNode]
    split
    · rfl
    · split <;> rfl

theorem modifyEdge_nodeHalf (id : EdgeIdentity) (f : EdgeEntry → EdgeEntry) :
    (m.modifyEdge id f).nodeHalf = m.nodeHalf := by
  unfold modifyEdge
  split <;> rfl

theorem upsertLinked_nodeHalf (id : EdgeIdentity) (src dst : Nat) (replace : Bool) (patches : List (String × Value)) :
    (m.upsertLinked id src dst replace patches).nodeHalf = m.nodeHalf := by
  unfold upsertLinked
  rw [modifyEdge_nodeHalf]
  split <;> rfl

theorem patchLinked_nodeHalf (id : EdgeIdentity) (src dst cid : Nat) (replace : Bool)
    (patches : List (String × Value)) : (m.patchLinked id src dst cid replace patches).nodeHalf = m.nodeHalf := by
  unfold patchLinked
  rw [modifyEdge_nodeHalf]
  split <;> rfl

theorem deleteLinked_nodeHalf (id : EdgeIdentity) (src dst : Nat) :
    (m.deleteLinked id src dst).nodeHalf = m.nodeHalf := by
  unfold deleteLinked
  split
  · rfl
  · split <;> rfl

theorem endpointDenseOrCreate_syntheticBase :
    (m.endpointDenseOrCreate id resolved).1.syntheticBase = m.syntheticBase := by
  rcases m.endpointDenseOrCreate_cases id resolved with h | ⟨-, -, h⟩ <;> rw [h]
  rfl

theorem writeNode_syntheticBase (w : NodeWrite) : (m.writeNode id resolved w).syntheticBase = m.syntheticBase := by
  rcases m.writeNode_cases id resolved w with ⟨-, -, -, h⟩ | ⟨t, -, h⟩ | ⟨-, -, -, h⟩ <;> rw [h]
  · rfl
  · rfl

/-- An operation never moves the base of the synthetic ids. -/
theorem apply_syntheticBase (op : ResolvedOp) : (m.apply op).syntheticBase = m.syntheticBase :=
  apply_keeps (p := (·.syntheticBase = m.syntheticBase)) (fun _ _ _ _ => (writeNode_syntheticBase ..).trans)
    (fun _ _ _ => (endpointDenseOrCreate_syntheticBase ..).trans)
    (fun _ _ _ _ _ _ => (congrArg syntheticBase (upsertLinked_nodeHalf ..)).trans)
    (fun _ _ _ _ _ _ _ => (congrArg syntheticBase (patchLinked_nodeHalf ..)).trans)
    (fun _ _ _ _ => (congrArg syntheticBase (deleteLinked_nodeHalf ..)).trans) rfl op

end

/-! ## A node left alone -/

/-- The step from `m` to `m'` leaves alone what the level holds under the key and the dense
id. -/
structure KeepsNode (id : NodeIdentity) (d : Nat) (m m' : Memtable) : Prop where
  nodes : m'.nodes.lookup id = m.nodes.lookup id
  dense : m'.byDense.lookup d = m.byDense.lookup d
  base : m'.syntheticBase = m.syntheticBase

namespace KeepsNode

variable {id id' : NodeIdentity} {d : Nat} {m m' m'' : Memtable}

theorem refl (m : Memtable) : KeepsNode id d m m := ⟨rfl, rfl, rfl⟩

theorem trans (h : KeepsNode id d m m') (h' : KeepsNode id d m' m'') : KeepsNode id d m m'' :=
  ⟨h'.nodes.trans h.nodes, h'.dense.trans h.dense, h'.base.trans h.base⟩

theorem of_nodeHalf (h : m'.nodeHalf = m.nodeHalf) : KeepsNode id d m m' where
  nodes := (congrArg (·.nodes.lookup id) h :)
  dense := (congrArg (·.byDense.lookup d) h :)
  base := (congrArg syntheticBase h :)

theorem allocate (hid : id' ≠ id) (hd : d < m.syntheticBase) (entry : NodeEntry) :
    KeepsNode id d m (m.allocateBorn id' entry) where
  nodes := Finmap.lookup_insert_of_ne _ (Ne.symm hid)
  dense := by
    have hne : d ≠ m.syntheticBase + m.born.length := by omega
    exact Finmap.lookup_insert_of_ne _ hne
  base := rfl

theorem write (hid : id' ≠ id) {resolved : Option Nat} (hr : resolved ≠ some d)
    (hd : d < m.syntheticBase) (w : NodeWrite) : KeepsNode id d m (m.writeNode id' resolved w) := by
  rcases m.writeNode_cases id' resolved w with ⟨-, -, -, h⟩ | ⟨t, -, h⟩ | ⟨-, -, -, h⟩
  · rw [h]
    exact refl m
  · rw [h]
    refine ⟨Finmap.lookup_insert_of_ne _ (Ne.symm hid), ?_, rfl⟩
    cases resolved with
    | none => rfl
    | some d' =>
      have hne : d ≠ d' := fun heq => hr (congrArg some heq.symm)
      exact Finmap.lookup_insert_of_ne _ hne
  · rw [h]
    exact allocate hid hd _

theorem endpoint {resolved : Option Nat} (hid : resolved = none → id' ≠ id)
    (hd : d < m.syntheticBase) : KeepsNode id d m (m.endpointDenseOrCreate id' resolved).1 := by
  rcases m.endpointDenseOrCreate_cases id' resolved with h | ⟨hr, -, h⟩
  · rw [h]
    exact refl m
  · rw [h]
    exact allocate (hid hr) hd _

end KeepsNode

end Memtable

/-- The operation names the node neither by its key nor by its dense id. An edge operation names
its endpoints only. -/
def ResolvedOp.Spares (id : NodeIdentity) (d : Nat) : ResolvedOp → Prop
  | .node id' _ resolved => id' ≠ id ∧ resolved ≠ some d
  | .upsertEdge e _ _ src dst _ => (src = none → e.src ≠ id) ∧ (dst = none → e.dst ≠ id)
  | .deleteEdge _ _ _ => True

/-- **The frame of an operation** that names another node. The dense id is one of an older level
or of the core, so an endpoint that the operation creates cannot take it. -/
theorem Memtable.KeepsNode.apply {id : NodeIdentity} {d : Nat} {m : Memtable} {op : ResolvedOp}
    (h : op.Spares id d) (hd : d < m.syntheticBase) : KeepsNode id d m (m.apply op) := by
  have hends : ∀ {e : EdgeIdentity} {src dst : Option Nat}, (src = none → e.src ≠ id) → (dst = none → e.dst ≠ id) →
      KeepsNode id d m ((m.endpointDenseOrCreate e.src src).1.endpointDenseOrCreate e.dst dst).1 :=
    fun hsrc hdst =>
      (endpoint hsrc hd).trans (endpoint hdst ((endpoint hsrc hd).base.symm ▸ hd))
  cases op with
  | node id' w resolved => exact KeepsNode.write h.1 h.2 hd w
  | upsertEdge e replace patches src dst edgeId =>
    cases edgeId with
    | some cid => exact (hends h.1 h.2).trans (of_nodeHalf (patchLinked_nodeHalf ..))
    | none => exact (hends h.1 h.2).trans (of_nodeHalf (upsertLinked_nodeHalf ..))
  | deleteEdge e src dst =>
    refine of_nodeHalf ?_
    simp only [Memtable.apply, Memtable.deleteEdgeKeyed]
    split
    · exact deleteLinked_nodeHalf ..
    · rfl

/-- The step names the node neither by its key nor by its dense id. -/
def DeltaStep.Spares (id : NodeIdentity) (d : Nat) : DeltaStep → Prop
  | .write op => op.Spares id d
  | .flush => True

namespace DeltaState

variable {st : DeltaState} {n : Nat} (h : n ≤ st.mem.syntheticBase)
include h

/-- The core's ids stay below the synthetic ones. -/
theorem le_syntheticBase_step (step : DeltaStep) : n ≤ (st.step step).mem.syntheticBase := by
  cases step with
  | write op => exact h.trans_eq (st.mem.apply_syntheticBase op).symm
  | flush =>
    simp only [DeltaState.step, flush]
    cases st.mem.isEmpty with
    | true => exact h
    | false => exact h.trans (Nat.le_add_right _ _)

theorem le_syntheticBase_run (steps : List DeltaStep) : n ≤ (st.run steps).mem.syntheticBase := by
  induction steps generalizing st with
  | nil => exact h
  | cons step steps ih => exact ih (le_syntheticBase_step h step)

end DeltaState

end Slater
