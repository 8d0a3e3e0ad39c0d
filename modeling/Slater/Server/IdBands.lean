import Slater.Delta.BornIds
import Slater.Server.DeltaWriter

/-!
# Bands of ids

The levels of a writer number their born nodes and edges in bands that lie above each other and above the
core. `NodeBands` says so of nodes: every band starts where the one below ends, and no key is born in two
levels. `EdgeBands` says it of edges, where a band may start later than the one below ends: a compaction of
resident levels numbers an edge once that two of them bore, so the merged band may end earlier than the run's.
An off-heap compaction adds the lengths up, and is right because nothing lies between off-heap levels.

A born id therefore has one owner (`NodeBands.born_unique`, `EdgeBands.listed_unique`), and replacing a run of
levels by a level that gives the same ids keeps the bands (`NodeBands.replace`, `EdgeBands.replace`).

**What it does not establish.** The ids are unique among the levels of one writer over one core. That a reopened
writer has the same levels is shown in `Slater.Server.Recovery`, and what becomes of the bands at a consolidation in
`Slater.Server.BornRuns`.
-/

namespace Slater

open Map List Option

/-! ## One level -/

/-- The node ids of a level, seen through its answers: the born ids fill its band, and a
registered id is the one its key has below, or else the one it was born with. -/
structure Level.NodesNumbered (below : NodeIdentity → Option Nat) (l : Level) : Prop where
  born : ∀ id d, l.bornSyntheticForIdentity id = some d →
    l.syntheticBase ≤ d ∧ d < l.syntheticBase + l.bornCount ∧ l.nodeIdentity d = some id
  filled : ∀ d, l.syntheticBase ≤ d → d < l.syntheticBase + l.bornCount → ∃ id, l.bornSyntheticForIdentity id = some d
  known : ∀ d id, l.nodeIdentity d = some id →
    below id = some d ∨ below id = none ∧ l.bornSyntheticForIdentity id = some d
  unborn : ∀ id d, l.bornSyntheticForIdentity id = some d → below id = none

/-- The edge ids of a level, seen through its adjacency: they lie in its band, and an id is
listed once. -/
structure Level.EdgesNumbered (l : Level) : Prop where
  listed : ∀ node, ∀ e ∈ l.outEdges node, ∀ x, e.edgeId = some x →
    l.edgeSyntheticBase ≤ x ∧ x < l.edgeSyntheticBase + l.bornEdgeCount
  unique : ∀ node node', ∀ e ∈ l.outEdges node, ∀ e' ∈ l.outEdges node', ∀ x,
    e.edgeId = some x → e'.edgeId = some x → node = node' ∧ e = e'

namespace Memtable

variable {m : Memtable} {below : NodeIdentity → Option Nat} {coreEdge : EdgeIdentity → Option Nat}

theorem Coherent.nodeIdentity_eq (hm : m.Coherent) (d : Nat) : m.nodeIdentity d = m.byDense.lookup d := by
  unfold nodeIdentity
  cases hd : m.byDense.lookup d with
  | none => rfl
  | some id =>
    obtain ⟨e, he⟩ := hm.dense d id hd
    rw [bind_some, he, map_some]

theorem NodesNumbered.level (h : m.NodesNumbered below) (hm : m.Coherent) : m.level.NodesNumbered below where
  born := by
    intro id d hd
    obtain ⟨i, rfl, hi⟩ := (h.synthetic id d).mp hd
    have hlt : i < m.born.length := (List.getElem?_eq_some_iff.mp hi).1
    refine ⟨Nat.le_add_right .., Nat.add_lt_add_left hlt _, ?_⟩
    exact (hm.nodeIdentity_eq _).trans (h.dense i id hi)
  filled := by
    intro d hge hlt
    have hi : d - m.syntheticBase < m.born.length := Nat.sub_lt_left_of_lt_add hge hlt
    exact ⟨_, (h.synthetic _ d).mpr ⟨_, (Nat.add_sub_cancel' hge).symm, getElem?_eq_getElem hi⟩⟩
  known := fun d id hd => h.known d id ((hm.nodeIdentity_eq d).symm.trans hd)
  unborn := by
    intro id d hd
    obtain ⟨i, -, hi⟩ := (h.synthetic id d).mp hd
    exact h.unborn id (mem_of_getElem? hi)

/-- An edge that a node lists is stored. -/
theorem mem_outEdges {node : Nat} {e : DeltaEdge} : e ∈ m.outEdges node ↔
    ∃ id ∈ (m.outAdj.lookup node).getD [], ∃ entry, m.edges.lookup id = some entry ∧ deltaEdge true id entry = e := by
  simp [outEdges, edgesFor]

theorem EdgesNumbered.level (h : m.EdgesNumbered coreEdge) : m.level.EdgesNumbered where
  listed := by
    intro node e he x hx
    obtain ⟨id, -, entry, hentry, rfl⟩ := mem_outEdges.mp he
    obtain ⟨i, rfl, hi⟩ := h.synthetic id entry x hentry hx
    exact ⟨Nat.le_add_right .., Nat.add_lt_add_left (List.getElem?_eq_some_iff.mp hi).1 _⟩
  unique := by
    intro node node' e he e' he' x hx hx'
    obtain ⟨id, hmem, entry, hentry, rfl⟩ := mem_outEdges.mp he
    obtain ⟨id', hmem', entry', hentry', rfl⟩ := mem_outEdges.mp he'
    obtain ⟨i, hi, hid⟩ := h.synthetic id entry x hentry hx
    obtain ⟨j, hj, hid'⟩ := h.synthetic id' entry' x hentry' hx'
    have hij : i = j := Nat.add_left_cancel (hi.symm.trans hj)
    rw [hij, hid'] at hid
    cases hid
    rw [hentry] at hentry'
    cases hentry'
    have hborn : entry.syntheticEdge.isSome := isSome_iff_exists.mpr ⟨x, hx⟩
    exact ⟨(h.listed node _ entry hmem hentry hborn).trans (h.listed node' _ entry hmem' hentry hborn).symm,
      rfl⟩

end Memtable

/-! ## Node bands -/

/-- The dense id a key has in the core or in levels, newest first. -/
def belowOf (core : NodeIdentity → Option Nat) (levels : List Level) (id : NodeIdentity) : Option Nat :=
  (core id).or (levels.findSome? (·.bornSyntheticForIdentity id))

/-- One past the last node id of the newest level, or the floor. -/
def nodeTopOf (floor : Nat) : List Level → Nat
  | [] => floor
  | l :: _ => l.syntheticBase + l.bornCount

/-- Levels, newest first, whose node bands fill what lies above the floor. -/
def NodeBands (core : NodeIdentity → Option Nat) (floor : Nat) : List Level → Prop
  | [] => True
  | l :: older => l.NodesNumbered (belowOf core older) ∧ l.syntheticBase = nodeTopOf floor older ∧
      NodeBands core floor older

/-- Some level gave the id to the key. -/
def BornIn (levels : List Level) (id : NodeIdentity) (d : Nat) : Prop :=
  ∃ l ∈ levels, l.bornSyntheticForIdentity id = some d

theorem BornIn.append_left {run : List Level} {id : NodeIdentity} {d : Nat} (h : BornIn run id d)
    (older : List Level) : BornIn (run ++ older) id d := by
  obtain ⟨l, hl, hd⟩ := h
  exact ⟨l, mem_append_left _ hl, hd⟩

namespace NodeBands

variable {core : NodeIdentity → Option Nat} {floor : Nat} {l : Level} {levels above run older : List Level}
  {id id' : NodeIdentity} {d : Nat}

theorem of_append (h : NodeBands core floor (above ++ older)) : NodeBands core floor older := by
  induction above with
  | nil => exact h
  | cons l above ih => exact ih h.2.2

theorem top_le_append (h : NodeBands core floor (above ++ older)) :
    nodeTopOf floor older ≤ nodeTopOf floor (above ++ older) := by
  induction above with
  | nil => exact le_rfl
  | cons l above ih =>
    rw [cons_append] at h
    have hbase := h.2.1
    have hold := ih h.2.2
    show _ ≤ l.syntheticBase + l.bornCount
    omega

theorem floor_le (h : NodeBands core floor levels) : floor ≤ nodeTopOf floor levels := by
  rw [← append_nil levels] at h ⊢
  exact top_le_append h

/-- A key that a level bore has no id below the level. -/
theorem belowOf_cons (h : NodeBands core floor (l :: older)) :
    belowOf core (l :: older) id = (belowOf core older id).or (l.bornSyntheticForIdentity id) := by
  cases hborn : l.bornSyntheticForIdentity id with
  | none =>
    rw [belowOf, findSome?_cons, hborn, or_none, belowOf]
  | some d =>
    have hnone := h.1.unborn id d hborn
    have hcore : core id = none := (or_eq_none_iff.mp hnone).1
    rw [hnone, belowOf, findSome?_cons, hborn, hcore]

/-- A key keeps the id it has in the older levels. -/
theorem belowOf_append (h : NodeBands core floor (above ++ older)) (hd : belowOf core older id = some d) :
    belowOf core (above ++ older) id = some d := by
  induction above with
  | nil => exact hd
  | cons l above ih =>
    rw [cons_append] at h ⊢
    rw [belowOf_cons h, ih h.2.2]
    rfl

theorem belowOf_eq_some (hd : belowOf core levels id = some d) : core id = some d ∨ BornIn levels id d := by
  rcases or_eq_some_iff.mp hd with hd | ⟨-, hd⟩
  · exact .inl hd
  · exact .inr (exists_of_findSome?_eq_some hd)

section

variable (h : NodeBands core floor levels)
include h

/-- A level registers a key under the id it has in the stack. -/
theorem belowOf_of_identity (hl : l ∈ levels) (hd : l.nodeIdentity d = some id) : belowOf core levels id = some d := by
  obtain ⟨newer, older, rfl⟩ := append_of_mem hl
  refine belowOf_append h ?_
  rw [belowOf_cons h.of_append]
  rcases h.of_append.1.known d id hd with hbelow | ⟨hnone, hborn⟩
  · rw [hbelow]
    rfl
  · rw [hnone, hborn]
    rfl

variable (hd : BornIn levels id d)
include hd

theorem floor_le_of_born : floor ≤ d := by
  obtain ⟨l, hl, hd⟩ := hd
  obtain ⟨newer, older, rfl⟩ := append_of_mem hl
  exact (h.of_append.2.1 ▸ floor_le h.of_append.2.2).trans (h.of_append.1.born id d hd).1

theorem lt_of_born : d < nodeTopOf floor levels := by
  obtain ⟨l, hl, hd⟩ := hd
  obtain ⟨newer, older, rfl⟩ := append_of_mem hl
  exact Nat.lt_of_lt_of_le (h.of_append.1.born id d hd).2.1 (top_le_append h)

/-- **A born node id has one owner.** Two keys never share a born id, in one level or in two. -/
theorem born_unique (hd' : BornIn levels id' d) : id = id' := by
  induction levels with
  | nil =>
    obtain ⟨l, hl, -⟩ := hd
    cases hl
  | cons l older ih =>
    have hbase := h.2.1
    obtain ⟨l₁, hl₁, hd⟩ := hd
    obtain ⟨l₂, hl₂, hd'⟩ := hd'
    rcases mem_cons.mp hl₁ with rfl | hold₁ <;> rcases mem_cons.mp hl₂ with rfl | hold₂
    · have hid := (h.1.born id d hd).2.2
      rw [(h.1.born id' d hd').2.2] at hid
      exact (some.inj hid).symm
    · have := (h.1.born id d hd).1
      have := lt_of_born h.2.2 ⟨l₂, hold₂, hd'⟩
      omega
    · have := (h.1.born id' d hd').1
      have := lt_of_born h.2.2 ⟨l₁, hold₁, hd⟩
      omega
    · exact ih h.2.2 ⟨l₁, hold₁, hd⟩ ⟨l₂, hold₂, hd'⟩

end

section

variable (h : NodeBands core floor levels) (hcore : ∀ id d, core id = some d → d < floor)
include h hcore

theorem belowOf_lt (hd : belowOf core levels id = some d) : d < nodeTopOf floor levels := by
  rcases belowOf_eq_some hd with hlow | hborn
  · exact Nat.lt_of_lt_of_le (hcore id d hlow) h.floor_le
  · exact h.lt_of_born hborn

/-- A level that registers a born id registers it for its owner. -/
theorem identity_of_born
    (hd : BornIn levels id d) (hl : l ∈ levels) (hid : l.nodeIdentity d = some id') : id' = id := by
  rcases belowOf_eq_some (h.belowOf_of_identity hl hid) with hlow | hborn
  · exact absurd (hcore id' d hlow) (Nat.not_lt.mpr (h.floor_le_of_born hd))
  · exact h.born_unique hborn hd


end
theorem top_le_head (h : NodeBands core floor levels) (hl : l ∈ levels) :
    l.syntheticBase + l.bornCount ≤ nodeTopOf floor levels := by
  obtain ⟨newer, older, rfl⟩ := append_of_mem hl
  exact top_le_append h

section

variable (h : NodeBands core floor (run ++ older))
include h

/-- An id below a run is the older levels' or the core's. -/
theorem belowOf_of_lt (hd : belowOf core (run ++ older) id = some d)
    (hlt : d < nodeTopOf floor older) : belowOf core older id = some d := by
  induction run with
  | nil => exact hd
  | cons l run ih =>
    rw [cons_append] at h hd
    rw [belowOf_cons h] at hd
    rcases or_eq_some_iff.mp hd with hd | ⟨-, hd⟩
    · exact ih h.2.2 hd
    · have hge := (h.1.born id d hd).1
      have hbase := h.2.1
      have := top_le_append h.2.2
      omega

/-- An id above the older levels was given in the run, to a key that nothing below knows. -/
theorem bornIn_of_ge (hcore : ∀ id d, core id = some d → d < floor)
    (hd : belowOf core (run ++ older) id = some d) (hge : nodeTopOf floor older ≤ d) :
    BornIn run id d ∧ belowOf core older id = none := by
  have hnone : belowOf core older id = none := by
    cases hold : belowOf core older id with
    | none => rfl
    | some d' =>
      rw [belowOf_append h hold] at hd
      cases hd
      exact absurd (belowOf_lt (of_append h) hcore hold) (Nat.not_lt.mpr hge)
  refine ⟨?_, hnone⟩
  rcases belowOf_eq_some hd with hlow | ⟨l, hl, hborn⟩
  · exact absurd (hcore id d hlow) (Nat.not_lt.mpr ((of_append h).floor_le.trans hge))
  · rcases mem_append.mp hl with hrun | hold
    · exact ⟨l, hrun, hborn⟩
    · exact absurd (lt_of_born (of_append h) ⟨l, hold, hborn⟩) (Nat.not_lt.mpr hge)

/-- Every level of a run starts above the older levels. -/
theorem le_base (hl : l ∈ run) : nodeTopOf floor older ≤ l.syntheticBase := by
  obtain ⟨newer, below, rfl⟩ := append_of_mem hl
  rw [append_assoc] at h
  exact h.of_append.2.1 ▸ top_le_append h.of_append.2.2

/-- A level registers what it gives, above everything the older levels gave. -/
theorem registered_of_born (hl : l ∈ run) (hd : l.bornSyntheticForIdentity id = some d) :
    l.nodeIdentity d = some id ∧ nodeTopOf floor older ≤ d := by
  have hbase := le_base h hl
  obtain ⟨newer, below, rfl⟩ := append_of_mem hl
  rw [append_assoc] at h
  have hborn := h.of_append.1.born id d hd
  exact ⟨hborn.2.2, hbase.trans hborn.1⟩

/-- Every id of a run's bands was given in the run. -/
theorem filled (hge : nodeTopOf floor older ≤ d) (hlt : d < nodeTopOf floor (run ++ older)) :
    ∃ id, BornIn run id d := by
  induction run with
  | nil => exact absurd hlt (Nat.not_lt.mpr hge)
  | cons l run ih =>
    have hbase := h.2.1
    by_cases hd : l.syntheticBase ≤ d
    · obtain ⟨id, hid⟩ := h.1.filled d hd hlt
      exact ⟨id, l, .head _, hid⟩
    · obtain ⟨id, l', hl', hborn⟩ := ih h.2.2 (hbase ▸ Nat.not_le.mp hd)
      exact ⟨id, l', .tail _ hl', hborn⟩

/-- A key is born in one level only. -/
theorem findSome?_eq_some_iff : run.findSome? (·.bornSyntheticForIdentity id) = some d ↔ BornIn run id d := by
  have hbelow : ∀ l ∈ run, ∀ d, l.bornSyntheticForIdentity id = some d → belowOf core (run ++ older) id = some d :=
    fun l hl d hd => h.belowOf_of_identity (mem_append_left _ hl) (registered_of_born h hl hd).1
  refine findSome?_eq_some fun l hl l' hl' d d' hd hd' => ?_
  exact some.inj ((hbelow l hl d hd).symm.trans (hbelow l' hl' d' hd'))

/-- The bands of a run add up. -/
theorem sum_bornCount : nodeTopOf floor older + (run.map (·.bornCount)).sum = nodeTopOf floor (run ++ older) := by
  induction run with
  | nil => rfl
  | cons l run ih =>
    rw [cons_append] at h
    have hbase := h.2.1
    have hrest := ih h.2.2
    show _ = l.syntheticBase + l.bornCount
    rw [map_cons, sum_cons]
    omega

/-- The oldest level of a run starts where the levels below it end. -/
theorem oldest_base (ho : run.getLast? = some l) : l.syntheticBase = nodeTopOf floor older := by
  obtain ⟨newer, rfl⟩ := getLast?_eq_some_iff.mp ho
  rw [append_assoc] at h
  exact (of_append h).2.1

end

/-- **Replacing a run by a level that gives the same ids keeps the bands.** -/
theorem replace (h : NodeBands core floor (above ++ (run ++ older)))
    (hl : l.NodesNumbered (belowOf core older)) (hbase : l.syntheticBase = nodeTopOf floor older)
    (htop : l.syntheticBase + l.bornCount = nodeTopOf floor (run ++ older))
    (hborn : ∀ id, l.bornSyntheticForIdentity id = run.findSome? (·.bornSyntheticForIdentity id)) :
    NodeBands core floor (above ++ l :: older) := by
  induction above with
  | nil => exact ⟨hl, hbase, of_append h⟩
  | cons a above ih =>
    have hbelow : belowOf core (above ++ (run ++ older)) = belowOf core (above ++ l :: older) := by
      funext id
      simp only [belowOf, findSome?_append, findSome?_cons, hborn]
      cases run.findSome? (·.bornSyntheticForIdentity id) <;> rfl
    have hnode : nodeTopOf floor (above ++ (run ++ older)) = nodeTopOf floor (above ++ l :: older) := by
      cases above with
      | nil => exact htop.symm
      | cons b above => rfl
    exact ⟨hbelow ▸ h.1, h.2.1.trans hnode, ih h.2.2⟩

end NodeBands

/-! ## Edge bands -/

/-- A band that starts at `base` lies above the levels, newest first; nothing lies between it
and an off-heap level. -/
def EdgeFollows (floor : Nat) (base : Nat) : List L0Level → Prop
  | [] => floor ≤ base
  | l :: _ => l.edgeTop ≤ base ∧ (l.isOffHeap → base = l.edgeTop)

/-- One past the last edge id of the newest level, or the floor. -/
def edgeTopOf (floor : Nat) : List L0Level → Nat
  | [] => floor
  | l :: _ => l.edgeTop

theorem EdgeFollows.top (floor : Nat) (levels : List L0Level) : EdgeFollows floor (edgeTopOf floor levels) levels := by
  cases levels with
  | nil => exact le_rfl
  | cons l older => exact ⟨le_rfl, fun _ => rfl⟩

/-- Levels, newest first, whose edge bands lie above each other and above the floor. -/
def EdgeBands (floor : Nat) : List L0Level → Prop
  | [] => True
  | l :: older => l.asLevel.EdgesNumbered ∧ EdgeFollows floor l.asLevel.edgeSyntheticBase older ∧ EdgeBands floor older

/-- Some level lists an outgoing edge of the node with the id. -/
def EdgeBornIn (levels : List Level) (node : Nat) (e : DeltaEdge) (x : Nat) : Prop :=
  ∃ l ∈ levels, e ∈ l.outEdges node ∧ e.edgeId = some x

namespace EdgeBands

variable {floor base : Nat} {l : L0Level} {levels above run older : List L0Level} {node node' x : Nat}
  {e e' : DeltaEdge}
variable {r o : L0Level}

theorem of_append (h : EdgeBands floor (above ++ older)) : EdgeBands floor older := by
  induction above with
  | nil => exact h
  | cons l above ih => exact ih h.2.2

theorem base_le_top (l : L0Level) : l.asLevel.edgeSyntheticBase ≤ l.edgeTop := Nat.le_add_right ..

section

variable (h : EdgeBands floor levels)
include h

/-- What follows the levels lies above everything they gave, and above the floor. -/
theorem floor_le (hbase : EdgeFollows floor base levels) : floor ≤ base := by
  induction levels generalizing base with
  | nil => exact hbase
  | cons l older ih => exact (ih h.2.2 h.2.1).trans ((base_le_top l).trans hbase.1)

theorem top_le (hbase : EdgeFollows floor base levels) (hl : l ∈ levels) : l.edgeTop ≤ base := by
  induction levels generalizing base with
  | nil => cases hl
  | cons l' older ih =>
    rcases mem_cons.mp hl with rfl | hl
    · exact hbase.1
    · exact (ih h.2.2 h.2.1 hl).trans ((base_le_top l').trans hbase.1)

theorem floor_le_base (hl : l ∈ levels) : floor ≤ l.asLevel.edgeSyntheticBase := by
  obtain ⟨newer, older, rfl⟩ := append_of_mem hl
  exact floor_le h.of_append.2.2 h.of_append.2.1

theorem numbered (hl : l ∈ levels) : l.asLevel.EdgesNumbered := by
  obtain ⟨newer, older, rfl⟩ := append_of_mem hl
  exact h.of_append.1

end

theorem top_le_head (h : EdgeBands floor (r :: levels)) (hl : l ∈ r :: levels) : l.edgeTop ≤ r.edgeTop := by
  rcases mem_cons.mp hl with rfl | hold
  · exact le_rfl
  · exact (top_le h.2.2 h.2.1 hold).trans (base_le_top r)

/-- The oldest level of a run starts first. -/
theorem oldest_le (h : EdgeBands floor (run ++ older)) (ho : run.getLast? = some o) (hl : l ∈ run) :
    o.asLevel.edgeSyntheticBase ≤ l.asLevel.edgeSyntheticBase := by
  obtain ⟨newer, rfl⟩ := getLast?_eq_some_iff.mp ho
  rcases mem_append.mp hl with hl | hl
  · obtain ⟨above, below, rfl⟩ := append_of_mem hl
    rw [append_assoc, append_assoc] at h
    exact (base_le_top o).trans (top_le h.of_append.2.2 h.of_append.2.1 (by simp))
  · rw [mem_singleton.mp hl]

/-- Off-heap bands add up. -/
theorem sum_bornEdgeCount (h : EdgeBands floor (r :: run ++ older)) (ho : (r :: run).getLast? = some o)
    (hoff : ∀ l ∈ r :: run, l.isOffHeap) :
    o.asLevel.edgeSyntheticBase + ((r :: run).map fun l => l.asLevel.bornEdgeCount).sum = r.edgeTop := by
  induction run generalizing r with
  | nil =>
    cases ho
    exact congrArg _ (Nat.add_zero _)
  | cons r' run ih =>
    have hrest := ih h.2.2 (getLast?_cons_cons ▸ ho) fun l hl => hoff l (.tail _ hl)
    have hbase : r.asLevel.edgeSyntheticBase = r'.edgeTop :=
      h.2.1.2 (hoff r' (.tail _ (.head _)))
    show _ = r.asLevel.edgeSyntheticBase + r.asLevel.bornEdgeCount
    rw [map_cons, sum_cons]
    omega

/-- The oldest level of a run follows the levels below it. -/
theorem oldest_follows (h : EdgeBands floor (run ++ older)) (ho : run.getLast? = some o) :
    EdgeFollows floor o.asLevel.edgeSyntheticBase older := by
  obtain ⟨newer, rfl⟩ := getLast?_eq_some_iff.mp ho
  rw [append_assoc] at h
  exact (of_append h).2.1

/-- **A born edge id has one owner.** -/
theorem listed_unique (h : EdgeBands floor levels) (he : EdgeBornIn (levels.map L0Level.asLevel) node e x)
    (he' : EdgeBornIn (levels.map L0Level.asLevel) node' e' x) : node = node' ∧ e = e' := by
  induction levels with
  | nil =>
    obtain ⟨l, hl, -⟩ := he
    cases hl
  | cons l older ih =>
    have hlow : ∀ {node : Nat} {e : DeltaEdge}, EdgeBornIn (older.map L0Level.asLevel) node e x →
        x < l.asLevel.edgeSyntheticBase := by
      rintro node e ⟨_, hl, hmem, hx⟩
      obtain ⟨l', hl', rfl⟩ := mem_map.mp hl
      exact Nat.lt_of_lt_of_le ((numbered h.2.2 hl').listed node e hmem x hx).2 (top_le h.2.2 h.2.1 hl')
    obtain ⟨l₁, hl₁, hmem, hx⟩ := he
    obtain ⟨l₂, hl₂, hmem', hx'⟩ := he'
    rcases mem_cons.mp hl₁ with rfl | hold₁ <;> rcases mem_cons.mp hl₂ with rfl | hold₂
    · exact h.1.unique node node' e hmem e' hmem' x hx hx'
    · have hge := (h.1.listed node e hmem x hx).1
      exact absurd (hlow ⟨l₂, hold₂, hmem', hx'⟩) (Nat.not_lt.mpr hge)
    · have hge := (h.1.listed node' e' hmem' x hx').1
      exact absurd (hlow ⟨l₁, hold₁, hmem, hx⟩) (Nat.not_lt.mpr hge)
    · exact ih h.2.2 ⟨l₁, hold₁, hmem, hx⟩ ⟨l₂, hold₂, hmem', hx'⟩

/-- What follows a run follows a level that ends no later. -/
theorem follows_replace (h : EdgeFollows floor base (above ++ (r :: run ++ older)))
    (htop : l.edgeTop ≤ r.edgeTop) (hoff : l.isOffHeap → r.isOffHeap ∧ l.edgeTop = r.edgeTop) :
    EdgeFollows floor base (above ++ l :: older) := by
  cases above with
  | nil =>
    refine ⟨htop.trans h.1, fun hl => ?_⟩
    obtain ⟨hr, heq⟩ := hoff hl
    exact (h.2 hr).trans heq.symm
  | cons a above => exact h

/-- **Replacing a run by a level in its band keeps the bands.** -/
theorem replace (h : EdgeBands floor (above ++ (r :: run ++ older))) (hl : l.asLevel.EdgesNumbered)
    (hbase : EdgeFollows floor l.asLevel.edgeSyntheticBase older) (htop : l.edgeTop ≤ r.edgeTop)
    (hoff : l.isOffHeap → r.isOffHeap ∧ l.edgeTop = r.edgeTop) : EdgeBands floor (above ++ l :: older) := by
  induction above with
  | nil =>
    have hold : EdgeBands floor ((r :: run) ++ older) := h
    exact ⟨hl, hbase, of_append hold⟩
  | cons a above ih => exact ⟨h.1, follows_replace h.2.1 htop hoff, ih h.2.2⟩

end EdgeBands

end Slater
