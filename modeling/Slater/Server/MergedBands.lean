import Slater.Server.IdBands
import Slater.Delta.MergeReplay

/-!
# The bands of a resident compaction

What `merge_levels` does to the ids of a run of levels, whatever the levels hold (`mergeLevels_mergesIds`). It
replays the born nodes of the run in the order of their ids, which leave no gap, and so gives every one its id
again. It numbers the born edges of the run anew, each once, and stays inside the run's band.

**What it does not establish.** An edge may get another id than it had, when two levels of the run bore it; nothing
is said of readers that hold the old one. Whether the merge panics on a run is not decided here: the statement is
about the level it returns.
-/

namespace Slater

open Map List Option Memtable L0Level

/-! ## Nodes of a resident run -/

namespace Memtable

variable {m : Memtable} {below : NodeIdentity → Option Nat} {fs : List FoldedNode}

/-- Writes to one key, all resolved alike. -/
theorem NodesNumbered.writes (h : m.NodesNumbered below)
    (hbelow : ∀ id d, below id = some d → d < m.syntheticBase) (id : NodeIdentity) (ws : List NodeWrite) :
    (ws.foldl (fun m w => m.writeNode id (below id) w) m).NodesNumbered below ∧
      (ws.foldl (fun m w => m.writeNode id (below id) w) m).syntheticBase = m.syntheticBase := by
  induction ws generalizing m with
  | nil => exact ⟨h, rfl⟩
  | cons w ws ih =>
    have hbase : (m.writeNode id (below id) w).syntheticBase = m.syntheticBase :=
      m.apply_syntheticBase (.node id w (below id))
    have hresolved : (ResolvedOp.node id w (below id)).ResolvedBy below (fun _ => none) m := .inl rfl
    have hwrite : (m.writeNode id (below id) w).NodesNumbered below := h.writeNode hbelow hresolved
    obtain ⟨hnum, hbase'⟩ := ih hwrite fun id d hd => hbase.symm ▸ hbelow id d hd
    exact ⟨hnum, hbase'.trans hbase⟩

variable (h : m.NodesNumbered below) (hbelow : ∀ id d, below id = some d → d < m.syntheticBase)
include h hbelow

/-- A born node is replayed: its key is the next among the born ones. -/
theorem replayBornNode_spec {f : FoldedNode} (hf : below f.id = none) (hfresh : f.id ∉ m.born) :
    (m.replayBornNode f).NodesNumbered below ∧ (m.replayBornNode f).syntheticBase = m.syntheticBase ∧
      (m.replayBornNode f).born = m.born ++ [f.id] := by
  have hs : m.bornSyntheticForIdentity f.id = none := by
    rw [eq_none_iff_forall_ne_some]
    intro d hd
    obtain ⟨i, -, hi⟩ := (h.synthetic f.id d).mp hd
    exact hfresh (mem_of_getElem? hi)
  have hwrites := h.writes hbelow f.id (.upsert [] :: f.delta.replayWrites)
  rw [hf, foldl_cons, ← replayFoldedNode_eq] at hwrites
  exact ⟨hwrites.1, hwrites.2, born_replayBornNode hs⟩

/-- The first stage of a merge: the born nodes. -/
theorem replayBornNodes_spec (hfs : ∀ f ∈ fs, below f.id = none) (hnodup : (m.born ++ fs.map (·.id)).Nodup) :
    (fs.foldl replayBornNode m).NodesNumbered below ∧ (fs.foldl replayBornNode m).syntheticBase = m.syntheticBase ∧
      (fs.foldl replayBornNode m).born = m.born ++ fs.map (·.id) := by
  induction fs generalizing m with
  | nil => exact ⟨h, rfl, (append_nil _).symm⟩
  | cons f fs ih =>
    rw [map_cons, append_cons] at hnodup ⊢
    have hfresh : f.id ∉ m.born := by
      have := (nodup_append.mp (nodup_append.mp hnodup).1).2.2
      exact fun hmem => this f.id hmem f.id (mem_singleton_self _) rfl
    obtain ⟨hnum, hbase, hborn⟩ := replayBornNode_spec h hbelow (hfs f (.head _)) hfresh
    have hrest := ih hnum (fun id d hd => hbase.symm ▸ hbelow id d hd)
      (fun g hg => hfs g (.tail _ hg)) (hborn.symm ▸ hnodup)
    rw [hbase, hborn] at hrest
    exact hrest

/-- The second stage: the nodes below the run. -/
theorem replayCoreNodes_spec (hfs : ∀ f ∈ fs, below f.id = some f.dense) :
    (fs.foldl replayCoreNode m).NodesNumbered below ∧ (fs.foldl replayCoreNode m).syntheticBase = m.syntheticBase := by
  induction fs generalizing m with
  | nil => exact ⟨h, rfl⟩
  | cons f fs ih =>
    have hwrites := h.writes hbelow f.id f.delta.replayWrites
    rw [hfs f (.head _), ← replayFoldedNode_eq] at hwrites
    obtain ⟨hnum, hbase⟩ := ih hwrites.1
      (fun id d hd => hwrites.2.symm ▸ hbelow id d hd) fun g hg => hfs g (.tail _ hg)
    exact ⟨hnum, hbase.trans hwrites.2⟩

end Memtable

section MergedNodes

variable {core : NodeIdentity → Option Nat} {floor : Nat} {run : List Memtable} {older : List Level}
  {oldest : Memtable} {nodeOrder : List NodeIdentity}
variable {f : FoldedNode} (h : NodeBands core floor (run.map level ++ older))
  (hcore : ∀ id d, core id = some d → d < floor) (hcoherent : ∀ m ∈ run, m.Coherent) {id : NodeIdentity}

include h hcoherent in
/-- A folded node carries the id its key has in the stack. -/
theorem belowOf_foldedNode (hf : foldedNode run id = some f) :
    belowOf core (run.map level ++ older) id = some f.dense := by
  obtain ⟨-, m, hm, hreg⟩ := foldedNode_registered hf
  refine h.belowOf_of_identity (mem_append_left _ (mem_map_of_mem hm)) ?_
  exact ((hcoherent m hm).nodeIdentity_eq f.dense).trans hreg

include h hcore hcoherent in
theorem bornIn_of_mem_bornFolds (horder : Enumerates nodeOrder (foldedNode run))
    (hf : f ∈ bornFolds nodeOrder run (nodeTopOf floor older)) :
    BornIn (run.map level) f.id f.dense ∧ belowOf core older f.id = none := by
  obtain ⟨hfold, hge⟩ := (mem_bornFolds horder).mp hf
  exact h.bornIn_of_ge hcore (belowOf_foldedNode h hcoherent hfold) hge

include h hcoherent in
/-- Every key the run bore is folded, under the id it was born with. -/
theorem mem_bornFolds_of_born (horder : Enumerates nodeOrder (foldedNode run)) {d : Nat}
    (hborn : BornIn (run.map level) id d) :
    ∃ f ∈ bornFolds nodeOrder run (nodeTopOf floor older), f.id = id ∧ f.dense = d := by
  obtain ⟨l, hl, hd⟩ := hborn
  obtain ⟨m, hm, rfl⟩ := mem_map.mp hl
  obtain ⟨hid, hge⟩ := h.registered_of_born hl hd
  have hreg : m.byDense.lookup d = some id := ((hcoherent m hm).nodeIdentity_eq d).symm.trans hid
  obtain ⟨e, he⟩ := (hcoherent m hm).dense d id hreg
  obtain ⟨f, hf⟩ := isSome_iff_exists.mp (foldedNode_isSome hm hreg he)
  have hfid := (foldedNode_registered hf).1
  have hdense := h.belowOf_of_identity (mem_append_left _ hl) hid
  rw [belowOf_foldedNode h hcoherent hf] at hdense
  cases hdense
  exact ⟨f, (mem_bornFolds horder).mpr ⟨hfid.symm ▸ hf, hge⟩, hfid, rfl⟩

include h hcore hcoherent

/-- In the order of their ids, the born nodes of a run leave no gap. -/
theorem bornFolds_tiled (horder : Enumerates nodeOrder (foldedNode run)) :
    (bornFolds nodeOrder run (nodeTopOf floor older)).map (·.dense) = range' (nodeTopOf floor older)
        (nodeTopOf floor (run.map level ++ older) - nodeTopOf floor older) := by
  have hle := h.top_le_append
  refine map_eq_range' (pairwise_insertionSort ..) ?_ fun d => ?_
  · have hids := nodup_bornFolds horder (nodeTopOf floor older)
    refine hids.of_map.map_on fun f hf g hg heq => inj_on_of_nodup_map hids hf hg ?_
    exact h.born_unique ((bornIn_of_mem_bornFolds h hcore hcoherent horder hf).1.append_left older)
      (heq ▸ (bornIn_of_mem_bornFolds h hcore hcoherent horder hg).1.append_left older)
  · rw [List.mem_map, Nat.add_sub_cancel' hle]
    constructor
    · rintro ⟨f, hf, rfl⟩
      refine ⟨((mem_bornFolds horder).mp hf).2, ?_⟩
      exact h.lt_of_born ((bornIn_of_mem_bornFolds h hcore hcoherent horder hf).1.append_left older)
    · rintro ⟨hge, hlt⟩
      obtain ⟨id, hborn⟩ := h.filled hge hlt
      obtain ⟨f, hf, -, hd⟩ := mem_bornFolds_of_born h hcoherent horder hborn
      exact ⟨f, hf, hd⟩

/-- **The born nodes of a merged level**: the level gives the ids the run gave, to the same
keys. -/
theorem mergeNodes_numbered (ho : run.getLast? = some oldest) (horder : Enumerates nodeOrder (foldedNode run)) :
    (mergeNodes nodeOrder run oldest).NodesNumbered (belowOf core older) ∧
      (mergeNodes nodeOrder run oldest).syntheticBase = nodeTopOf floor older ∧
      (mergeNodes nodeOrder run oldest).syntheticBase + (mergeNodes nodeOrder run oldest).born.length =
        nodeTopOf floor (run.map level ++ older) ∧
      ∀ id, (mergeNodes nodeOrder run oldest).bornSyntheticForIdentity id =
        (run.map level).findSome? (·.bornSyntheticForIdentity id) := by
  have hbase : oldest.syntheticBase = nodeTopOf floor older :=
    h.oldest_base (l := oldest.level) (by rw [getLast?_map, ho]; rfl)
  have hlt : ∀ id d, belowOf core older id = some d → d < oldest.syntheticBase := fun id d hd =>
    hbase.symm ▸ h.of_append.belowOf_lt hcore hd
  have hmerge : mergeNodes nodeOrder run oldest =
      (lowerFolds nodeOrder run oldest.syntheticBase).foldl replayCoreNode
        ((bornFolds nodeOrder run oldest.syntheticBase).foldl replayBornNode
          (.withBases oldest.syntheticBase oldest.edgeSyntheticBase)) := rfl
  obtain ⟨hnum, hbase₁, hborn₁⟩ := replayBornNodes_spec
    (nodesNumbered_withBases (belowOf core older) oldest.syntheticBase oldest.edgeSyntheticBase) hlt
    (fun f hf => (bornIn_of_mem_bornFolds h hcore hcoherent horder (hbase ▸ hf)).2)
    (nodup_bornFolds horder oldest.syntheticBase)
  obtain ⟨hnum₂, hbase₂⟩ := replayCoreNodes_spec hnum
    (fun id d hd => hbase₁.symm ▸ hlt id d hd) fun f hf => by
      obtain ⟨hfold, hd⟩ := (mem_lowerFolds horder).mp hf
      exact h.belowOf_of_lt (belowOf_foldedNode h hcoherent hfold) (hbase ▸ hd)
  rw [← hmerge] at hnum₂ hbase₂
  have hbornIds : (mergeNodes nodeOrder run oldest).born =
      (bornFolds nodeOrder run (nodeTopOf floor older)).map (·.id) := by
    rw [hmerge, born_replayCoreNodes, hborn₁, hbase]
    rfl
  have hbase' : (mergeNodes nodeOrder run oldest).syntheticBase = nodeTopOf floor older :=
    (hbase₂.trans hbase₁).trans hbase
  have htiled := bornFolds_tiled h hcore hcoherent horder
  refine ⟨hnum₂, hbase', ?_, fun id => ?_⟩
  · have hlen := congrArg length htiled
    rw [length_map, length_range'] at hlen
    rw [hbase', hbornIds, length_map, hlen]
    exact Nat.add_sub_cancel' h.top_le_append
  · refine ext fun d => ?_
    rw [hnum₂.synthetic, h.findSome?_eq_some_iff, hbase', hbornIds]
    -- the position of a born node is its id, counted from the base
    have hpos : ∀ {i : Nat} {f : FoldedNode}, (bornFolds nodeOrder run (nodeTopOf floor older))[i]? = some f →
        f.dense = nodeTopOf floor older + i := by
      intro i f hi
      have hd := congrArg (fun ds : List Nat => ds[i]?) htiled
      simp only [getElem?_map, hi] at hd
      obtain ⟨hlen, hd⟩ := List.getElem?_eq_some_iff.mp hd.symm
      rw [getElem_range', Nat.one_mul] at hd
      exact hd.symm
    constructor
    · rintro ⟨i, rfl, hi⟩
      rw [getElem?_map] at hi
      obtain ⟨f, hf, rfl⟩ := map_eq_some_iff.mp hi
      rw [← hpos hf]
      exact (bornIn_of_mem_bornFolds h hcore hcoherent horder (mem_of_getElem? hf)).1
    · intro hborn
      obtain ⟨f, hf, rfl, rfl⟩ := mem_bornFolds_of_born h hcoherent horder hborn
      obtain ⟨i, hi⟩ := mem_iff_getElem?.mp hf
      exact ⟨i, hpos hi, by rw [getElem?_map, hi]; rfl⟩

end MergedNodes

/-! ## Edges of a resident run -/

namespace Memtable

variable {m m' : Memtable} {coreEdge : EdgeIdentity → Option Nat} {fs : List FoldedEdge}

/-- What the replay of edges keeps: the nodes, the band and the owners of edge ids. -/
structure ReplaysEdges (coreEdge : EdgeIdentity → Option Nat) (m m' : Memtable) : Prop where
  coherent : m'.Coherent
  numbered : m'.EdgesNumbered coreEdge
  nodes : m'.nodeHalf = m.nodeHalf
  base : m'.edgeSyntheticBase = m.edgeSyntheticBase

theorem ReplaysEdges.refl (hm : m.Coherent) (h : m.EdgesNumbered coreEdge) : ReplaysEdges coreEdge m m :=
  ⟨hm, h, rfl, rfl⟩

theorem ReplaysEdges.trans {m'' : Memtable} (h : ReplaysEdges coreEdge m m')
    (h' : ReplaysEdges coreEdge m' m'') : ReplaysEdges coreEdge m m'' :=
  ⟨h'.coherent, h'.numbered, h'.nodes.trans h.nodes, h'.base.trans h.base⟩

variable (hm : m.Coherent) (h : m.EdgesNumbered coreEdge)
include hm h

theorem deleteLinked_replays (id : EdgeIdentity)
    (src dst : Nat) : ReplaysEdges coreEdge m (m.deleteLinked id src dst) :=
  ⟨hm.deleteLinked id src dst, h.deleteLinked id src dst, deleteLinked_nodeHalf ..,
    (m.deleteLinked_frame id src dst).1⟩

/-- An edge that is not stored is replayed. -/
theorem replayBornEdge_spec {f : FoldedEdge} (hcore : coreEdge f.id = none) (hst : m.edges.lookup f.id = none) :
    ReplaysEdges coreEdge m (m.replayBornEdge f) := by
  have hup : ReplaysEdges coreEdge m
      (m.upsertLinked f.id f.srcDense f.dstDense f.delta.replaced (pairs f.delta.patches)) := by
    refine ⟨hm.upsertLinked .., h.upsertLinked hm hcore .., upsertLinked_nodeHalf .., ?_⟩
    simp [upsertLinked, hst, modifyEdge]
  unfold replayBornEdge
  cases f.delta.tombstoned with
  | false => exact hup
  | true => exact hup.trans (deleteLinked_replays hup.coherent hup.numbered ..)

/-- The third stage of a merge: the born edges. -/
theorem replayBornEdges_spec (hcore : ∀ f ∈ fs, coreEdge f.id = none) (hnodup : (fs.map (·.id)).Nodup)
    (hst : ∀ f ∈ fs, m.edges.lookup f.id = none) : ReplaysEdges coreEdge m (fs.foldl replayBornEdge m) ∧
      (fs.foldl replayBornEdge m).bornEdges = m.bornEdges ++ fs.map (·.id) := by
  induction fs generalizing m with
  | nil => exact ⟨.refl hm h, (append_nil _).symm⟩
  | cons f fs ih =>
    rw [map_cons, nodup_cons] at hnodup
    have hstep := replayBornEdge_spec hm h (hcore f (.head _)) (hst f (.head _))
    obtain ⟨-, hborn, hother⟩ := replayBornEdge_frame (hst f (.head _))
    have hfresh : ∀ g ∈ fs, (m.replayBornEdge f).edges.lookup g.id = none := by
      intro g hg
      have hne : g.id ≠ f.id := fun heq => hnodup.1 (heq ▸ mem_map_of_mem hg)
      exact (hother g.id hne).trans (hst g (.tail _ hg))
    obtain ⟨hrest, hborn'⟩ := ih hstep.coherent hstep.numbered
      (fun g hg => hcore g (.tail _ hg)) hnodup.2 hfresh
    refine ⟨hstep.trans hrest, ?_⟩
    rw [foldl_cons, hborn', hborn, map_cons, append_assoc, singleton_append]

/-- The last stage: the entries over core edges. -/
theorem replayCoreEdges_spec (hcore : ∀ f ∈ fs, ∀ c, f.coreEdgeId = some c → coreEdge f.id = some c)
    (hfold : fs.foldlM replayCoreEdge m = some m') : ReplaysEdges coreEdge m m' ∧ m'.bornEdges = m.bornEdges := by
  induction fs generalizing m with
  | nil =>
    cases hfold
    exact ⟨.refl hm h, rfl⟩
  | cons f fs ih =>
    obtain ⟨m₁, hstep, hrest⟩ := bind_eq_some_iff.mp hfold
    obtain ⟨hbase, hborn⟩ := replayCoreEdge_frame hstep
    have hone : ReplaysEdges coreEdge m m₁ := by
      unfold replayCoreEdge at hstep
      cases ht : f.delta.tombstoned with
      | true =>
        rw [ht] at hstep
        cases hstep
        exact deleteLinked_replays hm h ..
      | false =>
        rw [ht] at hstep
        obtain ⟨cid, hcid, rfl⟩ := map_eq_some_iff.mp hstep
        have hpatched := hcore f (.head _) cid hcid
        exact ⟨hm.patchLinked .., h.patchLinked hpatched .., patchLinked_nodeHalf .., hbase⟩
    obtain ⟨hreplays, hborn'⟩ := ih hone.coherent hone.numbered
      (fun g hg => hcore g (.tail _ hg)) hrest
    exact ⟨hone.trans hreplays, hborn'.trans hborn⟩

end Memtable

section MergedLevel

variable {core : NodeIdentity → Option Nat} {coreEdge : EdgeIdentity → Option Nat} {nodeFloor edgeFloor : Nat}
  {run : List Memtable} {older : List L0Level} {oldest m : Memtable} {nodeOrder : List NodeIdentity}
  {edgeOrder : List EdgeIdentity}
variable {f : FoldedEdge} {newest : Memtable}

/-- An edge id that levels of a run store belongs to one identity. -/
theorem EdgeBands.synthetic_unique (h : EdgeBands edgeFloor (run.map .resident ++ older))
    (hnum : ∀ m ∈ run, m.EdgesNumbered coreEdge) {m m' : Memtable} (hm : m ∈ run) (hm' : m' ∈ run)
    {id id' : EdgeIdentity} {e e' : EdgeEntry} {x : Nat} (he : m.edges.lookup id = some e)
    (hx : e.syntheticEdge = some x) (he' : m'.edges.lookup id' = some e')
    (hx' : e'.syntheticEdge = some x) : id = id' := by
  induction run with
  | nil => cases hm
  | cons r run ih =>
    have hlow : ∀ {m : Memtable} {id : EdgeIdentity} {e : EdgeEntry}, m ∈ run →
        m.edges.lookup id = some e → e.syntheticEdge = some x → x < r.edgeSyntheticBase := by
      intro m id e hm he hx
      obtain ⟨i, rfl, hi⟩ := (hnum m (.tail _ hm)).synthetic id e x he hx
      have hmem : resident m ∈ run.map .resident ++ older :=
        mem_append_left _ (mem_map_of_mem hm)
      exact Nat.lt_of_lt_of_le (Nat.add_lt_add_left (List.getElem?_eq_some_iff.mp hi).1 _)
        (EdgeBands.top_le h.2.2 h.2.1 hmem)
    have hhead : ∀ {id : EdgeIdentity} {e : EdgeEntry}, r.edges.lookup id = some e →
        e.syntheticEdge = some x → ∃ i, x = r.edgeSyntheticBase + i ∧ r.bornEdges[i]? = some id :=
      fun he hx => (hnum r (.head _)).synthetic _ _ x he hx
    rcases mem_cons.mp hm with rfl | hold <;> rcases mem_cons.mp hm' with rfl | hold'
    · obtain ⟨i, hi, hid⟩ := hhead he hx
      obtain ⟨j, hj, hid'⟩ := hhead he' hx'
      have hij : i = j := Nat.add_left_cancel (hi.symm.trans hj)
      rw [hij, hid'] at hid
      exact (some.inj hid).symm
    · obtain ⟨i, hi, -⟩ := hhead he hx
      have := hlow hold' he' hx'
      omega
    · obtain ⟨i, hi, -⟩ := hhead he' hx'
      have := hlow hold he hx
      omega
    · exact ih h.2.2 (fun m hm => hnum m (.tail _ hm)) hold hold'

/-- A born edge of the run has an id that some level gave. -/
theorem given_of_mem_bornEdgeFolds (hf : f ∈ bornEdgeFolds edgeOrder run) :
    foldedEdge run f.id = some f ∧ ∃ x, f.bornEdgeId = some x ∧
      ∃ m ∈ run, ∃ e, m.edges.lookup f.id = some e ∧ e.syntheticEdge = some x := by
  have hfold := foldedEdge_of_mem (mem_append_left _ hf)
  exact ⟨hfold, _, bornEdgeId_of_mem hf, (foldedEdge_stored hfold).2.1 _ (bornEdgeId_of_mem hf)⟩

/-- The born edges of a run fit into its band: each has an id of its own there. -/
theorem bornEdgeFolds_length_le (h : EdgeBands edgeFloor ((newest :: run).map .resident ++ older))
    (ho : (newest :: run).getLast? = some oldest) (hnum : ∀ m ∈ newest :: run, m.EdgesNumbered coreEdge)
    (horder : edgeOrder.Nodup) : oldest.edgeSyntheticBase + (bornEdgeFolds edgeOrder (newest :: run)).length ≤
      newest.edgeSyntheticBase + newest.bornEdges.length := by
  have hlast : ((newest :: run).map resident).getLast? = some (.resident oldest) := by
    rw [getLast?_map, ho]
    rfl
  have hids : ((bornEdgeFolds edgeOrder (newest :: run)).map (·.id)).Nodup := nodup_bornEdgeFolds horder
  have hnodup : ((bornEdgeFolds edgeOrder (newest :: run)).map fun f => f.bornEdgeId.getD 0).Nodup := by
    refine hids.of_map.map_on fun f hf g hg heq => inj_on_of_nodup_map hids hf hg ?_
    obtain ⟨-, x, hx, m, hm, e, he, hex⟩ := given_of_mem_bornEdgeFolds hf
    obtain ⟨-, y, hy, m', hm', e', he', hey⟩ := given_of_mem_bornEdgeFolds hg
    rw [hx, hy, getD_some] at heq
    exact h.synthetic_unique hnum hm hm' he hex he' (heq ▸ hey)
  have hle : oldest.edgeSyntheticBase ≤ newest.edgeSyntheticBase :=
    h.oldest_le hlast (l := .resident newest) (.head _)
  have hsub : (bornEdgeFolds edgeOrder (newest :: run)).map (fun f => f.bornEdgeId.getD 0) ⊆
      range' oldest.edgeSyntheticBase
        (newest.edgeSyntheticBase + newest.bornEdges.length - oldest.edgeSyntheticBase) := by
    intro x hx
    obtain ⟨f, hf, rfl⟩ := mem_map.mp hx
    obtain ⟨-, y, hy, m, hm, e, he, hey⟩ := given_of_mem_bornEdgeFolds hf
    obtain ⟨i, rfl, hi⟩ := (hnum m hm).synthetic f.id e y he hey
    have hmem : resident m ∈ (newest :: run).map resident := mem_map_of_mem hm
    have hlow := h.oldest_le hlast hmem
    have hhigh := EdgeBands.top_le_head h (mem_append_left older hmem)
    have hlen : i < m.bornEdges.length := (List.getElem?_eq_some_iff.mp hi).1
    have hlt := Nat.lt_of_lt_of_le (Nat.add_lt_add_left hlen _) hhigh
    rw [hy, mem_range'_1, Nat.add_sub_cancel' (hle.trans (Nat.le_add_right ..))]
    exact ⟨hlow.trans (Nat.le_add_right ..), hlt⟩
  have hlen := (hnodup.subperm hsub).length_le
  rw [length_map, length_range'] at hlen
  omega

/-- What a resident compaction keeps of the ids of a run. -/
structure MergesIds (core : NodeIdentity → Option Nat) (coreEdge : EdgeIdentity → Option Nat)
    (nodeFloor : Nat) (newest : Memtable) (run : List Memtable) (older : List Level) (oldest m : Memtable) :
    Prop where
  coherent : m.Coherent
  nodes : m.NodesNumbered (belowOf core older)
  edges : m.EdgesNumbered coreEdge
  nodeBase : m.syntheticBase = nodeTopOf nodeFloor older
  nodeTop : m.syntheticBase + m.born.length = nodeTopOf nodeFloor ((newest :: run).map level ++ older)
  born : ∀ id, m.bornSyntheticForIdentity id =
    ((newest :: run).map level).findSome? (·.bornSyntheticForIdentity id)
  edgeBase : m.edgeSyntheticBase = oldest.edgeSyntheticBase
  edgeTop : m.edgeSyntheticBase + m.bornEdges.length ≤ newest.edgeSyntheticBase + newest.bornEdges.length

/-- **A resident compaction keeps the ids of its run.** The run is any whose bands are in order,
with the merge's hash maps iterated in any order. -/
theorem mergeLevels_mergesIds (ho : (newest :: run).getLast? = some oldest)
    (hnodes : NodeBands core nodeFloor ((newest :: run).map level ++ older.map asLevel))
    (hcore : ∀ id d, core id = some d → d < nodeFloor)
    (hedges : EdgeBands edgeFloor ((newest :: run).map .resident ++ older))
    (hcoherent : ∀ m ∈ newest :: run, m.Coherent) (hnum : ∀ m ∈ newest :: run, m.EdgesNumbered coreEdge)
    (hnodeOrder : Enumerates nodeOrder (foldedNode (newest :: run))) (hedgeOrder : edgeOrder.Nodup)
    (hmerge : mergeLevels nodeOrder edgeOrder (newest :: run) = some m) :
    MergesIds core coreEdge nodeFloor newest run (older.map asLevel) oldest m := by
  obtain ⟨hnodesNum, hnodeBase, hnodeTop, hnodeBorn⟩ :=
    mergeNodes_numbered hnodes hcore hcoherent ho hnodeOrder
  have hhalf := mergeNodes_edgeHalf nodeOrder (newest :: run) oldest
  have hcoherent₀ : (mergeNodes nodeOrder (newest :: run) oldest).Coherent :=
    mergeNodes_keeps (fun _ id resolved w hm => hm.writeNode id resolved w) nodeOrder _ (coherent_withBases _ _)
  have hmerge : (coreEdgeFolds edgeOrder (newest :: run)).foldlM replayCoreEdge
      ((bornEdgeFolds edgeOrder (newest :: run)).foldl replayBornEdge
        (mergeNodes nodeOrder (newest :: run) oldest)) = some m := by
    rw [mergeLevels, ho] at hmerge
    exact hmerge
  generalize mergeNodes nodeOrder (newest :: run) oldest = m₀ at *
  have hbornCore : ∀ f ∈ bornEdgeFolds edgeOrder (newest :: run), coreEdge f.id = none := by
    intro f hf
    obtain ⟨-, x, -, m, hm, e, he, hx⟩ := given_of_mem_bornEdgeFolds hf
    exact (hnum m hm).unpatched f.id e he (isSome_iff_exists.mpr ⟨x, hx⟩)
  have hcoreCore : ∀ f ∈ coreEdgeFolds edgeOrder (newest :: run), ∀ c, f.coreEdgeId = some c →
      coreEdge f.id = some c := by
    intro f hf c hc
    have hfold := foldedEdge_of_mem (mem_append_right _ hf)
    obtain ⟨m, hm, e, he, hec⟩ := (foldedEdge_stored hfold).2.2 c hc
    exact (hnum m hm).patched f.id e c he hec
  have hstored : ∀ f ∈ bornEdgeFolds edgeOrder (newest :: run), m₀.edges.lookup f.id = none := by
    intro f _
    have heq : m₀.edges = ∅ := (congrArg edges hhalf :)
    rw [heq, Finmap.lookup_empty]
  have hnum₀ : m₀.EdgesNumbered coreEdge :=
    (edgesNumbered_withBases coreEdge _ _).of_edgeHalf hhalf
  obtain ⟨hfirst, hborn₁⟩ :=
    replayBornEdges_spec hcoherent₀ hnum₀ hbornCore (nodup_bornEdgeFolds hedgeOrder) hstored
  obtain ⟨hlast, hborn₂⟩ :=
    replayCoreEdges_spec hfirst.coherent hfirst.numbered hcoreCore hmerge
  have hall := hfirst.trans hlast
  have hsynthetic : m.syntheticBase = m₀.syntheticBase :=
    (congrArg syntheticBase hall.nodes :)
  have hbase : m.edgeSyntheticBase = oldest.edgeSyntheticBase := by
    rw [hall.base]
    exact (congrArg edgeSyntheticBase hhalf :)
  have hbornEdges : m.bornEdges = (bornEdgeFolds edgeOrder (newest :: run)).map (·.id) := by
    have hnil : m₀.bornEdges = [] := (congrArg bornEdges hhalf :)
    rw [hborn₂, hborn₁, hnil, nil_append]
  constructor
  case coherent => exact hall.coherent
  case nodes => exact hnodesNum.of_nodeHalf hall.nodes
  case edges => exact hall.numbered
  case nodeBase => exact hsynthetic.trans hnodeBase
  case nodeTop => rwa [hsynthetic, born_of_nodeHalf hall.nodes]
  case born =>
    intro id
    rw [← hnodeBorn id]
    show m.nodeHalf.bornSyntheticForIdentity id = _
    rw [hall.nodes]
    rfl
  case edgeBase => exact hbase
  case edgeTop =>
    rw [hbase, hbornEdges, length_map]
    exact bornEdgeFolds_length_le hedges ho hnum hedgeOrder

end MergedLevel

end Slater
