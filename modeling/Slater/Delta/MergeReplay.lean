import Slater.Lib.Enumerated
import Slater.Delta.Merge
import Slater.Delta.NodeSteps

/-!
# What a merge replays

`mergeLevels` folds every node and every edge of a run and replays the folded entries: the born nodes and
the born edges in the order of their ids, then the entries over the core. This module says which entries
are folded, that each carries its identity and the ids of entries of the run, and what replaying one of
them does to the ids a memtable gives.

**What it does not establish.** That the merged level answers as the run did is not shown here; it fails
where an edge is deleted and merged again in one level, on which the replay panics.
-/

namespace Slater

open Map List Option Memtable NodeDelta Finmap

variable {run : List Memtable} {oldest m : Memtable}

namespace NodeDelta

variable {d : NodeDelta}

/-- The writes `replay_folded_node` makes. -/
def replayWrites (d : NodeDelta) : List NodeWrite :=
  bif d.tombstoned then [.delete]
  else
    (bif d.replaced then [.replace (pairs d.patches)]
      else .upsert (pairs d.patches) ::
        if d.removed = ∅ then [] else [.removeProps (ascending d.removed)]) ++
    if d.labelsAdded = ∅ ∧ d.labelsRemoved = ∅ then []
    else [.setLabels (ascending d.labelsAdded) (ascending d.labelsRemoved)]

end NodeDelta

/-! ## Replaying one node -/

namespace Memtable

theorem replayFoldedNode_eq (m : Memtable) (f : FoldedNode) (resolved : Option Nat) : m.replayFoldedNode f resolved =
      f.delta.replayWrites.foldl (fun m w => m.writeNode f.id resolved w) m := by
  cases ht : f.delta.tombstoned <;> cases hr : f.delta.replaced <;>
    by_cases hrem : f.delta.removed = ∅ <;>
    by_cases hl : f.delta.labelsAdded = ∅ ∧ f.delta.labelsRemoved = ∅ <;>
    simp [replayFoldedNode, replayWrites, ht, hr, hrem, hl, writeNode]

/-- Writes to a key that has an id allocate none. -/
theorem born_writes {id : NodeIdentity} {resolved : Option Nat}
    (hid : resolved.isSome ∨ (m.bornSyntheticForIdentity id).isSome) (ws : List NodeWrite) :
    (ws.foldl (fun m w => m.writeNode id resolved w) m).born = m.born := by
  induction ws generalizing m with
  | nil => rfl
  | cons w ws ih =>
    rw [foldl_cons]
    rcases m.writeNode_cases id resolved w with ⟨-, -, -, heq⟩ | ⟨t, -, heq⟩ | ⟨rfl, -, hs, -⟩
    · rw [heq]
      exact ih hid
    · rw [heq]
      refine (ih ?_).trans rfl
      rwa [bornSyntheticForIdentity_putNode]
    · rw [← entryOf_synthetic, hs] at hid
      exact absurd hid (by simp)

theorem born_replayBornNode {f : FoldedNode} (hs : m.bornSyntheticForIdentity f.id = none) :
    (m.replayBornNode f).born = m.born ++ [f.id] := by
  have hfirst := writeNode_allocate (w := .upsert []) (m.entryOf_synthetic f.id ▸ hs) nofun
  rw [replayBornNode, replayFoldedNode_eq, show m.upsertNode f.id none [] = _ from hfirst, born_writes]
  · rfl
  · rw [bornSyntheticForIdentity_allocateBorn, if_pos rfl]
    exact .inr rfl

theorem born_replayCoreNodes (fs : List FoldedNode) : (fs.foldl replayCoreNode m).born = m.born := by
  induction fs generalizing m with
  | nil => rfl
  | cons f fs ih => rw [foldl_cons, ih, replayCoreNode, replayFoldedNode_eq, born_writes (.inl rfl)]

end Memtable

/-! ## The folded nodes in order -/

section Order

variable {id : NodeIdentity} {f : FoldedNode} {nodeOrder : List NodeIdentity} {base : Nat}

/-- A folded node is stored in some level. -/
theorem foldedNode_mem (h : (foldedNode run id).isSome) : ∃ l ∈ run, id ∈ l.nodes.keys := by
  have keeps : ∀ acc (l : Memtable), id ∉ l.nodes.keys → FoldedNode.step id acc l = acc := by
    intro acc l hl
    simp only [FoldedNode.step, lookup_eq_none.mpr (mem_keys.not.mp hl)]
    exact foldl_fixed _
  obtain ⟨l, hl, hid⟩ := exists_mem_of_foldl_isSome keeps h
  exact ⟨l, mem_reverse.mp hl, hid⟩

instance (order : List NodeIdentity) : Decidable (Enumerates order (foldedNode run)) :=
  decidable_of_iff' _ (enumerates_iff_stored fun _ => foldedNode_mem)

/-- A folded node carries its key, and some level registers it under its id. -/
theorem foldedNode_registered (h : foldedNode run id = some f) :
    f.id = id ∧ ∃ m ∈ run, m.byDense.lookup f.dense = some id := by
  revert h
  refine foldlRecOn (motive := fun acc => acc = some f → _) run.reverse _ nofun fun acc hacc m hm => ?_
  refine foldlRecOn (motive := fun acc => acc = some f → _) _ _ hacc fun acc hacc d hd hf => ?_
  split at hf
  next => exact hacc hf
  next =>
    cases hf
    exact ⟨rfl, m, mem_reverse.mp hm, of_decide_eq_true (mem_filter.mp hd).2⟩

/-- A key that some level registers and stores is folded. -/
theorem foldedNode_isSome {m : Memtable} (hm : m ∈ run) {d : Nat} (hd : m.byDense.lookup d = some id)
    {e : NodeEntry} (he : m.nodes.lookup id = some e) : (foldedNode run id).isSome := by
  have hmem : d ∈ (ascending m.byDense.keys).filter fun d => m.byDense.lookup d = some id :=
    mem_filter.mpr ⟨mem_ascending.mpr ((mem_keys_iff ..).mpr ⟨id, hd⟩), by simpa using hd⟩
  refine foldl_isSome_of_mem (mem_reverse.mpr hm) (fun acc => ?_) (fun acc l hacc => ?_) none
  · refine foldl_isSome_of_mem hmem (fun acc => by rw [he]; rfl) (fun acc d hacc => ?_) acc
    rw [he]
    rfl
  · refine foldlRecOn (motive := (Option.isSome ·)) _ _ hacc fun acc hacc d _ => ?_
    split
    next => exact hacc
    next => rfl

/-- The folded nodes of a run from an id on, in the order of their ids. -/
def bornFolds (nodeOrder : List NodeIdentity) (run : List Memtable) (base : Nat) : List FoldedNode :=
  ((nodeOrder.filterMap (foldedNode run)).filter fun f => base ≤ f.dense).insertionSort fun a b => a.dense ≤ b.dense

/-- The folded nodes of a run below an id, in the order of their ids. -/
def lowerFolds (nodeOrder : List NodeIdentity) (run : List Memtable) (base : Nat) : List FoldedNode :=
  ((nodeOrder.filterMap (foldedNode run)).filter fun f => f.dense < base).insertionSort fun a b => a.dense ≤ b.dense

theorem folds_perm (nodeOrder : List NodeIdentity) (run : List Memtable) (base : Nat) :
    (bornFolds nodeOrder run base ++ lowerFolds nodeOrder run base).Perm (nodeOrder.filterMap (foldedNode run)) := by
  refine insertionSort_filter_perm (fun f => ?_) ..
  rw [← decide_not, decide_eq_decide, Nat.not_le]

variable (horder : Enumerates nodeOrder (foldedNode run))
include horder

theorem nodup_folds (base : Nat) :
    ((bornFolds nodeOrder run base ++ lowerFolds nodeOrder run base).map (·.id)).Nodup :=
  ((folds_perm nodeOrder run base).map _).nodup_iff.mpr
    (nodup_map_filterMap (fun _ _ hf => (foldedNode_registered hf).1) horder.1)

theorem nodup_bornFolds (base : Nat) : ((bornFolds nodeOrder run base).map (·.id)).Nodup :=
  (nodup_append.mp (map_append ▸ nodup_folds horder base)).1

theorem mem_bornFolds : f ∈ bornFolds nodeOrder run base ↔ foldedNode run f.id = some f ∧ base ≤ f.dense := by
  rw [bornFolds, mem_insertionSort, mem_filter, decide_eq_true_eq,
    horder.mem_filterMap fun _ _ hf => (foldedNode_registered hf).1]

theorem mem_lowerFolds : f ∈ lowerFolds nodeOrder run base ↔ foldedNode run f.id = some f ∧ f.dense < base := by
  rw [lowerFolds, mem_insertionSort, mem_filter, decide_eq_true_eq,
    horder.mem_filterMap fun _ _ hf => (foldedNode_registered hf).1]

end Order

/-! ## The node half of the merge -/

/-- The nodes a merge replays, as it replays them. -/
def mergeNodes (nodeOrder : List NodeIdentity) (run : List Memtable) (oldest : Memtable) : Memtable :=
  let nodes := nodeOrder.filterMap (foldedNode run)
  let born := (nodes.filter fun f => oldest.syntheticBase ≤ f.dense).insertionSort fun a b => a.dense ≤ b.dense
  let core := (nodes.filter fun f => f.dense < oldest.syntheticBase).insertionSort fun a b => a.dense ≤ b.dense
  core.foldl replayCoreNode (born.foldl replayBornNode
    (.withBases oldest.syntheticBase oldest.edgeSyntheticBase))

/-- What every write to a node keeps, the node half of a merge keeps. -/
theorem mergeNodes_keeps {p : Memtable → Prop} (hwrite : ∀ m id resolved w, p m → p (m.writeNode id resolved w))
    (nodeOrder : List NodeIdentity) (run : List Memtable)
    (h : p (.withBases oldest.syntheticBase oldest.edgeSyntheticBase)) : p (mergeNodes nodeOrder run oldest) := by
  have hreplay : ∀ m f resolved, p m → p (m.replayFoldedNode f resolved) := by
    intro m f resolved hm
    rw [replayFoldedNode_eq]
    exact foldlRecOn _ _ hm fun m hm w _ => hwrite m f.id resolved w hm
  refine foldlRecOn _ _ (foldlRecOn _ _ h fun m hm f _ => ?_) fun m hm f _ => hreplay m f _ hm
  exact hreplay _ f none (hwrite m f.id none (.upsert []) hm)

theorem mergeNodes_edgeHalf (nodeOrder : List NodeIdentity) (run : List Memtable) (oldest : Memtable) :
    (mergeNodes nodeOrder run oldest).edgeHalf = (withBases oldest.syntheticBase oldest.edgeSyntheticBase).edgeHalf :=
  mergeNodes_keeps (p := (·.edgeHalf = _)) (fun m id resolved w hm => (m.writeNode_edgeHalf id resolved w).trans hm)
    nodeOrder run rfl

/-! ## The folded edges in order -/

section Folded

variable {run : List Memtable} {id : EdgeIdentity} {e : EdgeEntry} {edgeOrder : List EdgeIdentity} {f : FoldedEdge}

theorem foldedEdge_cons (l : Memtable) (run : List Memtable) (id : EdgeIdentity) :
    foldedEdge (l :: run) id = FoldedEdge.step id (foldedEdge run id) l := by
  rw [foldedEdge, reverse_cons, foldl_append]
  rfl

/-- A folded edge is stored in some level. -/
theorem foldedEdge_mem (h : (foldedEdge run id).isSome) : ∃ l ∈ run, id ∈ l.edges.keys := by
  have keeps : ∀ acc (l : Memtable), id ∉ l.edges.keys → FoldedEdge.step id acc l = acc := by
    intro acc l hl
    simp only [FoldedEdge.step, lookup_eq_none.mpr (mem_keys.not.mp hl)]
  obtain ⟨l, hl, hid⟩ := exists_mem_of_foldl_isSome keeps h
  exact ⟨l, mem_reverse.mp hl, hid⟩

instance (order : List EdgeIdentity) : Decidable (Enumerates order (foldedEdge run)) :=
  decidable_of_iff' _ (enumerates_iff_stored fun _ => foldedEdge_mem)

/-- A folded edge carries its identity, and its ids are those of entries of the run. -/
theorem foldedEdge_stored (h : foldedEdge run id = some f) : f.id = id ∧
    (∀ x, f.bornEdgeId = some x → ∃ m ∈ run, ∃ e, m.edges.lookup id = some e ∧ e.syntheticEdge = some x) ∧
    ∀ c, f.coreEdgeId = some c → ∃ m ∈ run, ∃ e, m.edges.lookup id = some e ∧ e.coreEdge = some c := by
  induction run generalizing f with
  | nil => cases h
  | cons m run ih =>
    rw [foldedEdge_cons, FoldedEdge.step] at h
    split at h
    next =>
      obtain ⟨hid, hborn, hcore⟩ := ih h
      refine ⟨hid, fun x hx => ?_, fun c hc => ?_⟩
      · obtain ⟨m', hm', he⟩ := hborn x hx
        exact ⟨m', .tail _ hm', he⟩
      · obtain ⟨m', hm', he⟩ := hcore c hc
        exact ⟨m', .tail _ hm', he⟩
    next e he =>
      cases h
      refine ⟨rfl, fun x hx => ?_, fun c hc => ?_⟩
      · rcases or_eq_some_iff.mp hx with hx | ⟨-, hx⟩
        · obtain ⟨g, hg, hx⟩ := bind_eq_some_iff.mp hx
          obtain ⟨m', hm', he'⟩ := (ih hg).2.1 x hx
          exact ⟨m', .tail _ hm', he'⟩
        · exact ⟨m, .head _, e, he, hx⟩
      · rcases or_eq_some_iff.mp hc with hc | ⟨-, hc⟩
        · obtain ⟨g, hg, hc⟩ := bind_eq_some_iff.mp hc
          obtain ⟨m', hm', he'⟩ := (ih hg).2.2 c hc
          exact ⟨m', .tail _ hm', he'⟩
        · exact ⟨m, .head _, e, he, hc⟩

/-- The folded edges of a run that it bore, in the order of their ids. -/
def bornEdgeFolds (edgeOrder : List EdgeIdentity) (run : List Memtable) : List FoldedEdge :=
  ((edgeOrder.filterMap (foldedEdge run)).filter fun f => f.bornEdgeId.isSome).insertionSort
    fun a b => a.bornEdgeId.getD 0 ≤ b.bornEdgeId.getD 0

/-- The folded edges of a run over the core, in the order of their endpoints and type. -/
def coreEdgeFolds (edgeOrder : List EdgeIdentity) (run : List Memtable) : List FoldedEdge :=
  ((edgeOrder.filterMap (foldedEdge run)).filter fun f => f.bornEdgeId.isNone).insertionSort coreEdgeLe

theorem edgeFolds_perm (edgeOrder : List EdgeIdentity) (run : List Memtable) :
    (bornEdgeFolds edgeOrder run ++ coreEdgeFolds edgeOrder run).Perm (edgeOrder.filterMap (foldedEdge run)) := by
  refine insertionSort_filter_perm (fun f => ?_) ..
  cases f.bornEdgeId <;> rfl

theorem nodup_edgeFolds (nodup : edgeOrder.Nodup) :
    ((bornEdgeFolds edgeOrder run ++ coreEdgeFolds edgeOrder run).map (·.id)).Nodup :=
  ((edgeFolds_perm edgeOrder run).map _).nodup_iff.mpr
    (nodup_map_filterMap (fun _ _ hf => (foldedEdge_stored hf).1) nodup)

theorem nodup_bornEdgeFolds (nodup : edgeOrder.Nodup) : ((bornEdgeFolds edgeOrder run).map (·.id)).Nodup :=
  (nodup_append.mp (map_append ▸ nodup_edgeFolds nodup)).1

theorem foldedEdge_of_mem
    (hf : f ∈ bornEdgeFolds edgeOrder run ++ coreEdgeFolds edgeOrder run) : foldedEdge run f.id = some f := by
  obtain ⟨id, -, hf⟩ := mem_filterMap.mp ((edgeFolds_perm ..).subset hf)
  rwa [(foldedEdge_stored hf).1]

theorem bornEdgeId_of_mem (hf : f ∈ bornEdgeFolds edgeOrder run) : f.bornEdgeId = some (f.bornEdgeId.getD 0) := by
  rw [bornEdgeFolds, mem_insertionSort, mem_filter] at hf
  obtain ⟨s, hs⟩ := isSome_iff_exists.mp hf.2
  rw [hs, getD_some]

end Folded

/-! ## Replaying one edge -/

namespace Memtable

variable {m : Memtable} {f : FoldedEdge}

theorem deleteLinked_frame (m : Memtable) (id : EdgeIdentity) (src dst : Nat) :
    (m.deleteLinked id src dst).edgeSyntheticBase = m.edgeSyntheticBase ∧
      (m.deleteLinked id src dst).bornEdges = m.bornEdges ∧
      ∀ id' ≠ id, (m.deleteLinked id src dst).edges.lookup id' = m.edges.lookup id' := by
  unfold deleteLinked
  split
  next => exact ⟨rfl, rfl, fun _ hne => lookup_insert_of_ne _ hne⟩
  next => split <;> exact ⟨rfl, rfl, fun _ hne => lookup_insert_of_ne _ hne⟩

/-- An edge no entry has is the next among the born ones. -/
theorem replayBornEdge_frame (hid : m.edges.lookup f.id = none) :
    (m.replayBornEdge f).edgeSyntheticBase = m.edgeSyntheticBase ∧
      (m.replayBornEdge f).bornEdges = m.bornEdges ++ [f.id] ∧
      ∀ id' ≠ f.id, (m.replayBornEdge f).edges.lookup id' = m.edges.lookup id' := by
  let up := m.upsertLinked f.id f.srcDense f.dstDense f.delta.replaced (pairs f.delta.patches)
  have hup : up.edgeSyntheticBase = m.edgeSyntheticBase ∧ up.bornEdges = m.bornEdges ++ [f.id] ∧
      ∀ id' ≠ f.id, up.edges.lookup id' = m.edges.lookup id' := by
    simp only [up, upsertLinked, hid, modifyEdge, lookup_insert, insert_insert]
    exact ⟨trivial, trivial, fun _ hne => lookup_insert_of_ne _ hne⟩
  unfold replayBornEdge
  cases f.delta.tombstoned with
  | false => exact hup
  | true =>
    obtain ⟨hbase, hborn, hother⟩ := up.deleteLinked_frame f.id f.srcDense f.dstDense
    exact ⟨hbase.trans hup.1, hborn.trans hup.2.1, fun id' hne => (hother id' hne).trans (hup.2.2 id' hne)⟩

theorem replayCoreEdge_frame {m' : Memtable} (h : m.replayCoreEdge f = some m') :
    m'.edgeSyntheticBase = m.edgeSyntheticBase ∧ m'.bornEdges = m.bornEdges := by
  unfold replayCoreEdge at h
  cases ht : f.delta.tombstoned with
  | true =>
    rw [ht] at h
    cases h
    obtain ⟨hbase, hborn, -⟩ := m.deleteLinked_frame f.id f.srcDense f.dstDense
    exact ⟨hbase, hborn⟩
  | false =>
    rw [ht] at h
    obtain ⟨cid, -, rfl⟩ := map_eq_some_iff.mp h
    simp only [patchCoreEdgeKeyed, patchLinked, modifyEdge]
    constructor <;> split <;> split <;> rfl

end Memtable

end Slater
