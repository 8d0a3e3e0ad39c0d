import Slater.Delta.Level

/-!
# Memtables that operations reach

What holds of a memtable after any operations at all, whatever dense ids they were resolved to:
`Coherent`. A dense id or an edge id is registered to a stored entry, a key with a synthetic id is
listed once among the born ones, the label tally counts them, and an edge that no core edge id
reaches is in the outgoing adjacency, which lists stored edges only. `applyAll_coherent` carries it over every run.

Nothing here asks that one node goes by one key or one id.
-/

namespace Slater

open Map List Finmap Memtable

namespace Memtable

variable {adj : Map Nat (List EdgeIdentity)} {id : EdgeIdentity}

/-- `id` is listed in the adjacency of some node. -/
def ListedIn (adj : Map Nat (List EdgeIdentity)) (id : EdgeIdentity) : Prop :=
  ∃ node, id ∈ (adj.lookup node).getD []

/-- No list of the adjacency is empty, and every edge on one passes `p`. -/
def AdjLists (adj : Map Nat (List EdgeIdentity)) (p : EdgeIdentity → Prop) : Prop :=
  ∀ node ids, adj.lookup node = some ids → ids ≠ [] ∧ ∀ id ∈ ids, p id

/-- What every reached memtable satisfies. It is what the indexes owe to the entries without any
assumption on the resolution of the operations, so later modules may use it on every run. -/
structure Coherent (m : Memtable) : Prop where
  /-- A registered dense id has a stored node. -/
  dense : ∀ d id, m.byDense.lookup d = some id → ∃ e, m.nodes.lookup id = some e
  /-- Where a node is stored, a dense id is registered. -/
  reached : ∀ id e, m.nodes.lookup id = some e → ∃ d id', m.byDense.lookup d = some id'
  /-- A stored delta keeps the promises of deltas. -/
  consistent : ∀ id e, m.nodes.lookup id = some e → e.delta.Consistent
  nodup : m.born.Nodup
  /-- The born keys are those with a synthetic id. -/
  born : ∀ id, id ∈ m.born ↔ (m.entryOf id).synthetic.isSome
  /-- The label tally counts the born keys. -/
  labels : m.bornLabelCounts = tallyAll ∅ (m.born.map (·.label))
  /-- An edge that is deleted or that no core edge id reaches is in the outgoing adjacency. -/
  listed : ∀ id e, m.edges.lookup id = some e → e.coreEdge = none ∨ e.delta.tombstoned = true → ListedIn m.outAdj id
  /-- The outgoing adjacency lists stored edges. -/
  lists : AdjLists m.outAdj fun id => ∃ e, m.edges.lookup id = some e
  bornEdges : ∀ id ∈ m.bornEdges, ∃ e, m.edges.lookup id = some e
  byEdgeId : ∀ c id, m.byEdgeId.lookup c = some id → ∃ e, m.edges.lookup id = some e

theorem coherent_withBases (nodeBase edgeBase : Nat) : (withBases nodeBase edgeBase).Coherent where
  dense := by simp [withBases]
  reached := by simp [withBases]
  consistent := by simp [withBases]
  nodup := nodup_nil
  born := by simp [withBases, entryOf]
  labels := rfl
  listed := by simp [withBases]
  lists := by simp [withBases, AdjLists]
  bornEdges := by simp [withBases]
  byEdgeId := by simp [withBases]

variable {m : Memtable}

/-! ## Node operations -/

theorem Coherent.consistent_entryOf (hm : m.Coherent) (id : NodeIdentity) : (m.entryOf id).delta.Consistent := by
  unfold entryOf
  cases hst : m.nodes.lookup id with
  | none => exact NodeDelta.consistent_empty
  | some e => exact hm.consistent id e hst

/-- An entry is rewritten, keeping its synthetic id, and a dense id may be registered to it. -/
theorem Coherent.put (hm : m.Coherent) (id : NodeIdentity) (entry : NodeEntry)
    (hs : entry.synthetic = (m.entryOf id).synthetic) (hcons : entry.delta.Consistent) {byDense : Map Nat NodeIdentity}
    (hdense : ∀ d id', byDense.lookup d = some id' → id' = id ∨ m.byDense.lookup d = some id')
    (hreach : ∃ d id', byDense.lookup d = some id') (tombstoned : Finset Nat) :
    { m with nodes := m.nodes.insert id entry, byDense, tombstoned }.Coherent :=
  { hm with
    dense := by
      intro d id' h
      rcases hdense d id' h with rfl | h
      · exact ⟨entry, lookup_insert _⟩
      · exact exists_lookup_insert (hm.dense d id' h)
    reached := fun _ _ _ => hreach
    consistent := forall_lookup_insert hm.consistent hcons
    born := by
      intro id'
      rw [hm.born, entryOf, entryOf, lookup_insert_ite]
      split
      next heq => rw [heq, Option.getD_some, hs, entryOf]
      next => rfl }

/-- A node is born. -/
theorem Coherent.allocate (hm : m.Coherent) {id : NodeIdentity}
    (h : (m.entryOf id).synthetic = none) (entry : NodeEntry) (hcons : entry.delta.Consistent) :
    (m.allocateBorn id entry).Coherent := by
  have hnew : id ∉ m.born := by rw [hm.born, h]; nofun
  exact
  { hm with
    dense := by
      intro d id' hd
      rcases lookup_insert_eq_some.mp hd with ⟨-, rfl⟩ | ⟨-, hd⟩
      · exact ⟨_, lookup_insert _⟩
      · exact exists_lookup_insert (hm.dense d id' hd)
    reached := fun _ _ _ => ⟨_, id, lookup_insert _⟩
    consistent := forall_lookup_insert hm.consistent hcons
    nodup := hm.nodup.append (nodup_singleton id) (by simpa using hnew)
    born := by
      intro id'
      simp only [allocateBorn, mem_append, hm.born, entryOf,
        lookup_insert_ite]
      by_cases heq : id' = id <;> simp [heq]
    labels := by
      simp only [allocateBorn, hm.labels, map_append, tallyAll,
        foldl_append]
      rfl }

theorem Coherent.writeNode (hm : m.Coherent) (id : NodeIdentity) (resolved : Option Nat)
    (w : NodeWrite) : (m.writeNode id resolved w).Coherent := by
  have same : ∀ d id', m.byDense.lookup d = some id' → id' = id ∨ m.byDense.lookup d = some id' :=
    fun _ _ h => .inr h
  have hcons := NodeDelta.write_consistent (hm.consistent_entryOf id) w
  cases resolved with
  | some dense =>
    rw [writeNode_some]
    refine hm.put id _ (by rfl) hcons (fun d id' h => ?_) ⟨dense, id, lookup_insert _⟩ _
    exact (lookup_insert_eq_some.mp h).imp And.right And.right
  | none =>
    cases hst : m.nodes.lookup id with
    | none =>
      have hentry : (m.entryOf id).synthetic = none := by rw [entryOf, hst, Option.getD_none]
      by_cases hw : w = .delete
      · subst hw
        rwa [writeNode_absent hst]
      · rw [writeNode_allocate hentry hw]
        exact hm.allocate hentry _ hcons
    | some entry =>
      have hentry : m.entryOf id = entry := by rw [entryOf, hst, Option.getD_some]
      cases hs : entry.synthetic with
      | some dense =>
        rw [writeNode_synthetic hst hs]
        exact hm.put id _ (by rw [hentry]) (hentry ▸ hcons) same (hm.reached id entry hst) _
      | none =>
        by_cases hw : w = .delete
        · subst hw
          rw [writeNode_delete_unborn hst hs]
          exact hm.put id _ (by rw [hentry]) NodeDelta.consistent_tombstone same (hm.reached id entry hst) _
        · rw [writeNode_allocate (hentry ▸ hs) hw]
          exact hm.allocate (hentry ▸ hs) _ hcons

/-! ## Edge operations -/

theorem ListedIn.pushAdj (h : ListedIn adj id) (node : Nat) (id' : EdgeIdentity) :
    ListedIn (pushAdj adj node id') id := by
  obtain ⟨n, hn⟩ := h
  refine ⟨n, ?_⟩
  rw [Memtable.pushAdj, lookup_insert_ite]
  split
  next heq => rw [← heq]; exact mem_append_left _ hn
  next => exact hn

theorem listedIn_pushAdj (adj : Map Nat (List EdgeIdentity)) (node : Nat) (id : EdgeIdentity) :
    ListedIn (pushAdj adj node id) id :=
  ⟨node, by rw [pushAdj]; simp⟩

theorem ListedIn.pushAdjOnce (h : ListedIn adj id) (node : Nat) (id' : EdgeIdentity) :
    ListedIn (pushAdjOnce adj node id') id := by
  unfold Memtable.pushAdjOnce
  split
  next => exact h
  next => exact h.pushAdj node id'

theorem listedIn_pushAdjOnce (adj : Map Nat (List EdgeIdentity)) (node : Nat) (id : EdgeIdentity) :
    ListedIn (pushAdjOnce adj node id) id := by
  unfold pushAdjOnce
  split
  next h => exact ⟨node, h⟩
  next => exact listedIn_pushAdj adj node id

theorem AdjLists.pushAdj {p : EdgeIdentity → Prop} (h : AdjLists adj p) (hid : p id) (node : Nat) :
    AdjLists (pushAdj adj node id) p := by
  intro n ids hn
  rw [Memtable.pushAdj, lookup_insert_ite] at hn
  split at hn
  next =>
    cases hn
    refine ⟨by simp, fun id' hmem => ?_⟩
    rcases mem_append.mp hmem with hold | hnew
    · cases hadj : adj.lookup node with
      | none => rw [hadj] at hold; cases hold
      | some ids => exact (h node ids hadj).2 id' (by rwa [hadj] at hold)
    · exact mem_singleton.mp hnew ▸ hid
  next => exact h n ids hn

theorem AdjLists.pushAdjOnce {p : EdgeIdentity → Prop} (h : AdjLists adj p) (hid : p id) (node : Nat) :
    AdjLists (pushAdjOnce adj node id) p := by
  unfold Memtable.pushAdjOnce
  split
  next => exact h
  next => exact h.pushAdj hid node

section

variable (hm : m.Coherent) (id : EdgeIdentity)
include hm

/-- An edge entry is stored; what was listed stays listed. -/
theorem Coherent.putEdge (entry : EdgeEntry)
    {outAdj : Map Nat (List EdgeIdentity)} (inAdj : Map Nat (List EdgeIdentity))
    {byEdgeId : Map Nat EdgeIdentity} {bornEdges : List EdgeIdentity}
    (hkeep : ∀ id', ListedIn m.outAdj id' → ListedIn outAdj id')
    (hnew : entry.coreEdge = none ∨ entry.delta.tombstoned = true → ListedIn outAdj id)
    (hlists : ∀ {p : EdgeIdentity → Prop}, p id → AdjLists m.outAdj p → AdjLists outAdj p)
    (hcore : ∀ c id', byEdgeId.lookup c = some id' → id' = id ∨ m.byEdgeId.lookup c = some id')
    (hborn : ∀ id' ∈ bornEdges, id' = id ∨ id' ∈ m.bornEdges) :
    { m with edges := m.edges.insert id entry, outAdj, inAdj, byEdgeId, bornEdges }.Coherent := by
  have stored : ∀ id', (∃ e, m.edges.lookup id' = some e) →
      ∃ e, (m.edges.insert id entry).lookup id' = some e := fun _ => exists_lookup_insert
  have storedNew : ∃ e, (m.edges.insert id entry).lookup id = some e :=
    ⟨entry, lookup_insert _⟩
  exact
  { hm with
    listed := by
      intro id' e he hcond
      rcases lookup_insert_eq_some.mp he with ⟨rfl, rfl⟩ | ⟨-, he⟩
      · exact hnew hcond
      · exact hkeep id' (hm.listed id' e he hcond)
    lists := hlists storedNew fun node ids h =>
      ⟨(hm.lists node ids h).1, fun id' hid' => stored id' ((hm.lists node ids h).2 id' hid')⟩
    bornEdges := by
      intro id' hid
      rcases hborn id' hid with rfl | hold
      · exact storedNew
      · exact stored id' (hm.bornEdges id' hold)
    byEdgeId := by
      intro c id' hid
      rcases hcore c id' hid with rfl | hold
      · exact storedNew
      · exact stored id' (hm.byEdgeId c id' hold) }

theorem Coherent.upsertLinked (src dst : Nat) (replace : Bool)
    (patches : List (String × Value)) : (m.upsertLinked id src dst replace patches).Coherent := by
  cases hst : m.edges.lookup id with
  | none =>
    simp only [Memtable.upsertLinked, hst, modifyEdge, lookup_insert, insert_insert]
    refine hm.putEdge id _ _ (fun id' h => h.pushAdj src id) (fun _ => listedIn_pushAdj _ src id)
      (fun hp h => h.pushAdj hp src) (fun _ _ h => .inr h) fun id' h => ?_
    rcases mem_append.mp h with h | h
    · exact .inr h
    · exact .inl (mem_singleton.mp h)
  | some e =>
    simp only [Memtable.upsertLinked, hst, modifyEdge]
    refine hm.putEdge id _ _ (fun _ h => h) (fun h => ?_) (fun _ h => h) (fun _ _ h => .inr h) fun _ h => .inr h
    exact hm.listed id e hst (.inl (h.resolve_right (by simp)))

theorem Coherent.deleteLinked (src dst : Nat) : (m.deleteLinked id src dst).Coherent := by
  cases hst : m.edges.lookup id with
  | none =>
    simp only [Memtable.deleteLinked, hst]
    exact hm.putEdge id _ _ (fun _ h => h.pushAdj src id) (fun _ => listedIn_pushAdj _ src id)
      (fun hp h => h.pushAdj hp src) (fun _ _ h => .inr h) fun _ h => .inr h
  | some e =>
    cases hc : e.coreEdge with
    | none =>
      simp only [Memtable.deleteLinked, hst, hc]
      exact hm.putEdge id _ _ (fun _ h => h) (fun _ => hm.listed id e hst (.inl hc))
        (fun _ h => h) (fun _ _ h => .inr h) fun _ h => .inr h
    | some cid =>
      simp only [Memtable.deleteLinked, hst, hc]
      exact hm.putEdge id _ _ (fun _ h => h.pushAdjOnce src id)
        (fun _ => listedIn_pushAdjOnce _ src id) (fun hp h => h.pushAdjOnce hp src)
        (fun c id' h => .inr (lookup_of_erase h)) fun _ h => .inr h

theorem Coherent.patchLinked (src dst cid : Nat) (replace : Bool) (patches : List (String × Value)) :
    (m.patchLinked id src dst cid replace patches).Coherent := by
  have registered : ∀ c id', (m.byEdgeId.insert cid id).lookup c = some id' →
      id' = id ∨ m.byEdgeId.lookup c = some id' := fun _ _ h =>
    (lookup_insert_eq_some.mp h).imp And.right And.right
  cases hst : m.edges.lookup id with
  | none =>
    simp only [Memtable.patchLinked, hst, modifyEdge, lookup_insert, insert_insert]
    exact hm.putEdge id _ _ (fun _ h => h) (by simp) (fun _ h => h) registered fun _ h => .inr h
  | some e =>
    simp only [Memtable.patchLinked, hst, modifyEdge]
    exact hm.putEdge id _ _ (fun _ h => h) (by simp) (fun _ h => h) registered fun _ h => .inr h


end
theorem Coherent.endpoint (hm : m.Coherent) (id : NodeIdentity) (resolved : Option Nat) :
    (m.endpointDenseOrCreate id resolved).1.Coherent := by
  unfold endpointDenseOrCreate
  split
  next => exact hm
  next =>
    split
    next => exact hm
    next h =>
      refine hm.allocate ?_ {} NodeDelta.consistent_empty
      unfold entryOf
      cases hst : m.nodes.lookup id <;> simp_all

/-! ## Runs -/

theorem Coherent.apply (hm : m.Coherent) (op : ResolvedOp) : (m.apply op).Coherent :=
  apply_keeps (fun _ id resolved w hm => hm.writeNode id resolved w) (fun _ id resolved hm => hm.endpoint id resolved)
    (fun _ id src dst replace patches hm => hm.upsertLinked id src dst replace patches)
    (fun _ id src dst cid replace patches hm => hm.patchLinked id src dst cid replace patches)
    (fun _ id src dst hm => hm.deleteLinked id src dst) hm op

/-- **Every reached memtable is coherent.** There is no condition on the operations: wrong ids
may file an entry oddly, but never leave an index that points nowhere. -/
theorem applyAll_coherent (nodeBase edgeBase : Nat) (ops : List ResolvedOp) :
    ((withBases nodeBase edgeBase).applyAll ops).Coherent :=
  foldlRecOn ops _ (coherent_withBases nodeBase edgeBase) fun _ hm op _ => hm.apply op

end Memtable

end Slater
