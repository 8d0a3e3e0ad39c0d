import Slater.Server.IdBands
import Slater.Delta.OffheapCompaction

/-!
# The bands of an off-heap compaction

`merge_run` takes the ids of a run as they are: the merged segment answers for the run's born keys and lists the
run's edges, each under its old id (`RowsAnswer.nodesNumbered`, `RowsAnswer.edgesNumbered`). The two scalars that
say where its band starts and how long it is are the least base and the sum of the lengths, so the band is the
run's because nothing lies between off-heap levels (`RowsAnswer.nodeTop`, `RowsAnswer.edgeTop`).

**What it does not establish.** Only ids are followed. What else the merged segment answers is the subject of
`Slater.Delta.OffheapCompaction`.
-/

namespace Slater

open Map List L0Level

section MergedSegment

variable {core : NodeIdentity → Option Nat} {nodeFloor edgeFloor : Nat} {newest oldest : OpenSegment}
  {run : List OpenSegment} {older : List Level} {below : List L0Level} {l : Level}

theorem min?_getD_eq {xs : List Nat} {b : Nat} (hmem : b ∈ xs) (hle : ∀ x ∈ xs, b ≤ x) : xs.min?.getD 0 = b := by
  rw [min?_eq_some_iff.mpr ⟨hmem, hle⟩, Option.getD_some]

theorem runSnapshot_bornSynthetic (oldest : OpenSegment) (run : List OpenSegment) (id : NodeIdentity) :
    (runSnapshot oldest run).bornSyntheticForIdentity id = (runLevels run).findSome? (·.bornSyntheticForIdentity id) :=
  runSnapshot_findSome? fun _ _ => rfl

/-! ## Nodes -/

section Nodes

variable (hl : RowsAnswer l (runSnapshot oldest run)) (ho : run.getLast? = some oldest)
  (hbands : NodeBands core nodeFloor (runLevels run ++ older))

include hl ho hbands in
theorem RowsAnswer.nodeBase : l.syntheticBase = nodeTopOf nodeFloor older := by
  have hlast : (runLevels run).getLast? = some oldest.level := by
    rw [runLevels, getLast?_map, ho]
    rfl
  have hbase := hbands.oldest_base hlast
  rw [hl.syntheticBase, ← hbase]
  refine min?_getD_eq (.head _) fun x hx => ?_
  rcases mem_cons.mp hx with rfl | hx
  · exact le_rfl
  · obtain ⟨r, hr, rfl⟩ := mem_map.mp hx
    exact hbase ▸ hbands.le_base hr

include hl ho hbands in
theorem RowsAnswer.nodeTop : l.syntheticBase + l.bornCount = nodeTopOf nodeFloor (runLevels run ++ older) := by
  rw [hl.nodeBase ho hbands, ← hbands.sum_bornCount, hl.bornCount, DeltaSnapshot.bornCount,
    sum_runSnapshot fun _ _ => rfl]

include hl ho hbands in
/-- **The node ids of a merged segment** are the run's. -/
theorem RowsAnswer.nodesNumbered (hcore : ∀ id d, core id = some d → d < nodeFloor) :
    l.NodesNumbered (belowOf core older) := by
  have hborn : ∀ {id d}, l.bornSyntheticForIdentity id = some d ↔ BornIn (runLevels run) id d := by
    intro id d
    rw [hl.bornSyntheticForIdentity, runSnapshot_bornSynthetic, hbands.findSome?_eq_some_iff]
  have hbase := hl.nodeBase ho hbands
  have htop := hl.nodeTop ho hbands
  have hidentity : ∀ d, l.nodeIdentity d = (runLevels run).findSome? (·.nodeIdentity d) := fun d =>
    (hl.nodeIdentity d).trans (runSnapshot_findSome? fun _ _ => rfl)
  constructor
  case born =>
    intro id d hd
    obtain ⟨r, hr, hrd⟩ := hborn.mp hd
    obtain ⟨hid, hge⟩ := hbands.registered_of_born hr hrd
    refine ⟨hbase ▸ hge, htop ▸ hbands.lt_of_born ⟨r, mem_append_left _ hr, hrd⟩, ?_⟩
    rw [hidentity]
    cases hfind : (runLevels run).findSome? (·.nodeIdentity d) with
    | none =>
      rw [findSome?_eq_none_iff.mp hfind r hr] at hid
      cases hid
    | some id' =>
      obtain ⟨r', hr', hid'⟩ := exists_of_findSome?_eq_some hfind
      exact congrArg some (hbands.identity_of_born hcore ⟨r, mem_append_left _ hr, hrd⟩
        (mem_append_left _ hr') hid')
  case filled =>
    intro d hge hlt
    obtain ⟨id, hd⟩ := hbands.filled (hbase ▸ hge) (htop ▸ hlt)
    exact ⟨id, hborn.mpr hd⟩
  case known =>
    intro d id hid
    rw [hidentity] at hid
    obtain ⟨r, hr, hid⟩ := exists_of_findSome?_eq_some hid
    have hbelow := hbands.belowOf_of_identity (mem_append_left _ hr) hid
    by_cases hlt : d < nodeTopOf nodeFloor older
    · exact .inl (hbands.belowOf_of_lt hbelow hlt)
    · obtain ⟨hin, hnone⟩ := hbands.bornIn_of_ge hcore hbelow (Nat.not_lt.mp hlt)
      exact .inr ⟨hnone, hborn.mpr hin⟩
  case unborn =>
    intro id d hd
    obtain ⟨r, hr, hrd⟩ := hborn.mp hd
    obtain ⟨hid, hge⟩ := hbands.registered_of_born hr hrd
    exact (hbands.bornIn_of_ge hcore (hbands.belowOf_of_identity (mem_append_left _ hr) hid) hge).2

end Nodes

/-! ## Edges -/

section Edges

variable (hl : RowsAnswer l (runSnapshot oldest (newest :: run))) (ho : (newest :: run).getLast? = some oldest)
  (hbands : EdgeBands edgeFloor ((newest :: run).map .offHeap ++ below))

include hl in
/-- An edge that the segment lists, a level of the run lists. -/
theorem RowsAnswer.listed {node : Nat} {e : DeltaEdge} (he : e ∈ l.outEdges node) :
    ∃ r ∈ newest :: run, e ∈ r.level.outEdges node := by
  rw [hl.outEdges, runSnapshot_outEdges (cons_ne_nil _ _)] at he
  obtain ⟨r, hr, he⟩ := mem_flatMap.mp (keepFirst_subset he)
  obtain ⟨s, hs, rfl⟩ := mem_map.mp hr
  exact ⟨s, hs, he⟩

include ho in
theorem getLast?_offHeap : ((newest :: run).map offHeap).getLast? = some (.offHeap oldest) := by
  rw [getLast?_map, ho]
  rfl

include hl ho hbands in
theorem RowsAnswer.edgeBase : l.edgeSyntheticBase = oldest.level.edgeSyntheticBase := by
  rw [hl.edgeSyntheticBase]
  refine min?_getD_eq (.head _) fun x hx => ?_
  rcases mem_cons.mp hx with rfl | hx
  · exact le_rfl
  · obtain ⟨_, hr, rfl⟩ := mem_map.mp hx
    obtain ⟨s, hs, rfl⟩ := mem_map.mp hr
    exact hbands.oldest_le (getLast?_offHeap ho) (l := .offHeap s) (mem_map_of_mem hs)

include hl ho hbands in
theorem RowsAnswer.edgeTop :
    l.edgeSyntheticBase + l.bornEdgeCount = newest.level.edgeSyntheticBase + newest.level.bornEdgeCount := by
  have hoff : ∀ x ∈ (newest :: run).map offHeap, x.isOffHeap := by
    intro x hx
    obtain ⟨r, -, rfl⟩ := mem_map.mp hx
    rfl
  have hsum := EdgeBands.sum_bornEdgeCount hbands (getLast?_offHeap ho) hoff
  rw [hl.edgeBase ho hbands, hl.bornEdgeCount, DeltaSnapshot.bornEdgeCount,
    sum_runSnapshot fun _ _ => rfl]
  refine Eq.trans ?_ hsum
  rw [runLevels, ← map_cons, map_map, map_map]
  rfl

include hl ho hbands in
/-- **The edge ids of a merged segment** are the run's. -/
theorem RowsAnswer.edgesNumbered : l.EdgesNumbered where
  listed := by
    intro node e he x hx
    obtain ⟨r, hr, her⟩ := hl.listed he
    have hmem : offHeap r ∈ (newest :: run).map offHeap := mem_map_of_mem hr
    have hband := (hbands.numbered (mem_append_left _ hmem)).listed node e her x hx
    have hlow := hbands.oldest_le (getLast?_offHeap ho) hmem
    have hhigh := EdgeBands.top_le_head hbands (mem_append_left _ hmem)
    rw [hl.edgeTop ho hbands, hl.edgeBase ho hbands]
    exact ⟨hlow.trans hband.1, Nat.lt_of_lt_of_le hband.2 hhigh⟩
  unique := by
    intro node node' e he e' he' x hx hx'
    obtain ⟨r, hr, her⟩ := hl.listed he
    obtain ⟨r', hr', her'⟩ := hl.listed he'
    have hin : ∀ {r : OpenSegment}, r ∈ newest :: run →
        r.level ∈ ((newest :: run).map offHeap ++ below).map asLevel := fun hr =>
      mem_map_of_mem (f := asLevel)
        (mem_append_left _ (mem_map_of_mem (f := offHeap) hr))
    exact hbands.listed_unique ⟨r.level, hin hr, her, hx⟩ ⟨r'.level, hin hr', her', hx'⟩

end Edges

end MergedSegment

end Slater
