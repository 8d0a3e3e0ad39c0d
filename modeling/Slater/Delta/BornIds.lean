import Slater.Delta.NodeSteps
import Slater.Delta.Coherent

/-!
# The ids a level gives

A memtable numbers the nodes and the edges that are born in it upwards from two bases. Everything below
the active memtable resolves a business key to at most one dense id: the core's, or the one an older level
gave. `below` is that function here, and `coreEdge` the one that finds the core edge an identity stands for.

`ResolvedBy` says that an operation carries what these functions answer; a node operation may also carry the
id of a node born in the memtable itself. Under that condition alone every id of the memtable has one owner:
`NodesNumbered` and `EdgesNumbered` are kept by every operation. Two keys may well name one core node, and an
edge may be deleted and born again; nothing here excludes it.
-/

namespace Slater

open Map List Memtable Option

/-- The operation carries the ids that `below` and `coreEdge` find, or the id of a node born in
`m`. -/
def ResolvedOp.ResolvedBy (below : NodeIdentity → Option Nat) (coreEdge : EdgeIdentity → Option Nat)
    (m : Memtable) : ResolvedOp → Prop
  | .node id _ resolved => resolved = below id ∨
      below id = none ∧ resolved.isSome ∧ resolved = m.bornSyntheticForIdentity id
  | .upsertEdge id _ _ src dst edgeId => src = below id.src ∧ dst = below id.dst ∧ edgeId = coreEdge id
  | .deleteEdge id src dst => src = below id.src ∧ dst = below id.dst

instance (below : NodeIdentity → Option Nat) (coreEdge : EdgeIdentity → Option Nat) (m : Memtable)
    (op : ResolvedOp) : Decidable (op.ResolvedBy below coreEdge m) :=
  match op with
  | .node .. => inferInstanceAs (Decidable (_ ∨ _))
  | .upsertEdge .. => inferInstanceAs (Decidable (_ ∧ _))
  | .deleteEdge .. => inferInstanceAs (Decidable (_ ∧ _))

namespace Memtable

/-- The entries of a list with one more at its end. -/
theorem getElem?_concat_eq_some {α : Type} {xs : List α} {x y : α} {i : Nat} :
    (xs ++ [x])[i]? = some y ↔ xs[i]? = some y ∨ i = xs.length ∧ x = y := by
  rw [getElem?_append]
  split
  next hlt =>
    refine ⟨.inl, fun h => h.resolve_right fun ⟨heq, _⟩ => ?_⟩
    omega
  next hge =>
    rw [getElem?_eq_none (Nat.not_lt.mp hge), getElem?_singleton]
    split
    next hzero =>
      have heq : i = xs.length := by omega
      simp [heq]
    next hpos =>
      have hne : i ≠ xs.length := by omega
      simp [hne]

variable {op : ResolvedOp}

/-- Node ids have one owner: a synthetic id is the position of its key among the born ones, and
a registered id is the one its key has below, or else the one it was born with. -/
structure NodesNumbered (below : NodeIdentity → Option Nat) (m : Memtable) : Prop where
  synthetic : ∀ id d, m.bornSyntheticForIdentity id = some d ↔ ∃ i, d = m.syntheticBase + i ∧ m.born[i]? = some id
  dense : ∀ i id, m.born[i]? = some id → m.byDense.lookup (m.syntheticBase + i) = some id
  known : ∀ d id, m.byDense.lookup d = some id →
    below id = some d ∨ below id = none ∧ m.bornSyntheticForIdentity id = some d
  unborn : ∀ id ∈ m.born, below id = none

/-- Edge ids have one owner: a synthetic id is the position of its edge among the born ones, the
edge is listed at its source only, and no core edge stands for it. -/
structure EdgesNumbered (coreEdge : EdgeIdentity → Option Nat) (m : Memtable) : Prop where
  synthetic : ∀ id e x, m.edges.lookup id = some e → e.syntheticEdge = some x →
    ∃ i, x = m.edgeSyntheticBase + i ∧ m.bornEdges[i]? = some id
  listed : ∀ node id e, id ∈ (m.outAdj.lookup node).getD [] → m.edges.lookup id = some e →
    e.syntheticEdge.isSome → node = e.srcDense
  unpatched : ∀ id e, m.edges.lookup id = some e → e.syntheticEdge.isSome → coreEdge id = none
  patched : ∀ id e c, m.edges.lookup id = some e → e.coreEdge = some c → coreEdge id = some c

variable {below : NodeIdentity → Option Nat} {coreEdge : EdgeIdentity → Option Nat} {m : Memtable} {id : NodeIdentity}
  {d : Nat}

theorem nodesNumbered_withBases (below : NodeIdentity → Option Nat) (nodeBase edgeBase : Nat) :
    (withBases nodeBase edgeBase).NodesNumbered below where
  synthetic := by simp [withBases, bornSyntheticForIdentity]
  dense := by simp [withBases]
  known := by simp [withBases]
  unborn := by simp [withBases]

theorem edgesNumbered_withBases (coreEdge : EdgeIdentity → Option Nat) (nodeBase edgeBase : Nat) :
    (withBases nodeBase edgeBase).EdgesNumbered coreEdge where
  synthetic := by simp [withBases]
  listed := by simp [withBases]
  unpatched := by simp [withBases]
  patched := by simp [withBases]

/-! ## Nodes -/

namespace NodesNumbered

variable {id : NodeIdentity} {resolved : Option Nat}

/-- Only the node fields matter. -/
theorem of_nodeHalf {m' : Memtable} (h : m.NodesNumbered below) (heq : m'.nodeHalf = m.nodeHalf) :
    m'.NodesNumbered below := by
  have hhalf : m'.nodeHalf.NodesNumbered below :=
    heq ▸ { h with }
  exact { hhalf with }

/-- An entry is rewritten, and the id it was resolved to is registered. -/
theorem putNode (h : m.NodesNumbered below) (hbelow : ∀ id d, below id = some d → d < m.syntheticBase)
    (hr : ∀ d, resolved = some d → below id = some d ∨ below id = none ∧ m.bornSyntheticForIdentity id = some d)
    (δ : NodeDelta) (t : Finset Nat) : (m.putNode id resolved δ t).NodesNumbered below where
  synthetic := fun id' d => by
    rw [bornSyntheticForIdentity_putNode]
    exact h.synthetic id' d
  dense := by
    intro i id' hi
    cases resolved with
    | none => exact h.dense i id' hi
    | some d =>
      show (m.byDense.insert d id).lookup (m.syntheticBase + i) = some id'
      rw [lookup_insert_ite]
      split
      next heq =>
        -- the id is the position of `id'`, so it was resolved among the born keys
        rcases hr d rfl with hd | ⟨-, hd⟩
        · exact absurd (hbelow id d hd) (heq ▸ Nat.not_lt.mpr (Nat.le_add_right ..))
        · obtain ⟨j, hj, hid⟩ := (h.synthetic id d).mp hd
          have hij : i = j := Nat.add_left_cancel (heq.trans hj)
          exact hid.symm.trans (hij ▸ hi)
      next => exact h.dense i id' hi
  known := by
    intro d' id' hd'
    rw [bornSyntheticForIdentity_putNode]
    cases resolved with
    | none => exact h.known d' id' hd'
    | some d =>
      rcases lookup_insert_eq_some.mp hd' with ⟨rfl, rfl⟩ | ⟨-, hd'⟩
      · exact hr d' rfl
      · exact h.known d' id' hd'
  unborn := h.unborn

/-- A node is born with a key that nothing below knows. -/
theorem allocate (h : m.NodesNumbered below) (hid : below id = none) (hs : m.bornSyntheticForIdentity id = none)
    (entry : NodeEntry) : (m.allocateBorn id entry).NodesNumbered below where
  synthetic := by
    intro id' d
    rw [bornSyntheticForIdentity_allocateBorn]
    show _ ↔ ∃ i, d = m.syntheticBase + i ∧ (m.born ++ [id])[i]? = some id'
    simp only [getElem?_concat_eq_some]
    split
    next heq =>
      subst heq
      constructor
      · intro hd
        exact ⟨m.born.length, (some.inj hd).symm, .inr ⟨rfl, rfl⟩⟩
      · rintro ⟨i, rfl, hi | ⟨rfl, -⟩⟩
        · have hborn := (h.synthetic id' _).mpr ⟨i, rfl, hi⟩
          rw [hs] at hborn
          cases hborn
        · rfl
    next hne =>
      rw [h.synthetic]
      refine exists_congr fun i => and_congr_right fun _ => ?_
      exact ⟨.inl, fun hi => hi.resolve_right fun ⟨_, heq⟩ => hne heq.symm⟩
  dense := by
    intro i id' hi
    show (m.byDense.insert (m.syntheticBase + m.born.length) id).lookup (m.syntheticBase + i) = _
    rw [lookup_insert_ite]
    rcases getElem?_concat_eq_some.mp hi with hi | ⟨rfl, rfl⟩
    · have hlt : i < m.born.length := (List.getElem?_eq_some_iff.mp hi).1
      rw [if_neg (by omega)]
      exact h.dense i id' hi
    · rw [if_pos rfl]
  known := by
    intro d id' hd
    rw [bornSyntheticForIdentity_allocateBorn]
    rcases lookup_insert_eq_some.mp hd with ⟨rfl, rfl⟩ | ⟨-, hd⟩
    · exact .inr ⟨hid, if_pos rfl⟩
    · rcases h.known d id' hd with hknown | ⟨hnone, hborn⟩
      · exact .inl hknown
      · have hne : id' ≠ id := by
          rintro rfl
          rw [hs] at hborn
          cases hborn
        exact .inr ⟨hnone, by rwa [if_neg hne]⟩
  unborn := by
    intro id' hmem
    rcases mem_append.mp hmem with hold | hnew
    · exact h.unborn id' hold
    · rw [mem_singleton.mp hnew]
      exact hid

theorem writeNode (h : m.NodesNumbered below) (hbelow : ∀ id d, below id = some d → d < m.syntheticBase)
    {w : NodeWrite} (hr : (ResolvedOp.node id w resolved).ResolvedBy below coreEdge m) :
    (m.writeNode id resolved w).NodesNumbered below := by
  rcases m.writeNode_cases id resolved w with ⟨-, -, -, heq⟩ | ⟨t, -, heq⟩ | ⟨rfl, -, hs, heq⟩
  · rw [heq]
    exact h
  · rw [heq]
    refine h.putNode hbelow (fun d hd => ?_) _ t
    rcases hr with hr | ⟨hnone, -, hr⟩
    · exact .inl (hr.symm.trans hd)
    · exact .inr ⟨hnone, hr.symm.trans hd⟩
  · rw [heq]
    refine h.allocate ?_ (m.entryOf_synthetic id ▸ hs) _
    rcases hr with hr | ⟨-, hsome, -⟩
    · exact hr.symm
    · cases hsome

theorem endpoint (h : m.NodesNumbered below) (id : NodeIdentity) :
    (m.endpointDenseOrCreate id (below id)).1.NodesNumbered below := by
  rcases m.endpointDenseOrCreate_cases id (below id) with heq | ⟨hnone, hs, heq⟩
  · rw [heq]
    exact h
  · rw [heq]
    exact h.allocate hnone (m.entryOf_synthetic id ▸ hs) _

/-- **An operation keeps the owners of node ids.** -/
theorem apply (h : m.NodesNumbered below) (hbelow : ∀ id d, below id = some d → d < m.syntheticBase)
    {op : ResolvedOp} (hop : op.ResolvedBy below coreEdge m) : (m.apply op).NodesNumbered below := by
  cases op with
  | node id w resolved => exact h.writeNode hbelow hop
  | upsertEdge id replace patches src dst edgeId =>
    obtain ⟨rfl, rfl, -⟩ := hop
    have hends := (h.endpoint id.src).endpoint id.dst
    cases edgeId with
    | none => exact hends.of_nodeHalf (upsertLinked_nodeHalf ..)
    | some cid => exact hends.of_nodeHalf (patchLinked_nodeHalf ..)
  | deleteEdge id src dst =>
    simp only [Memtable.apply, deleteEdgeKeyed]
    split
    next => exact h.of_nodeHalf (deleteLinked_nodeHalf ..)
    next => exact h

end NodesNumbered

/-! ## Edges -/

namespace EdgesNumbered

variable {id id' : EdgeIdentity} {adj : Map Nat (List EdgeIdentity)} {e : EdgeEntry}

/-- Only the edge fields matter. -/
theorem of_edgeHalf {m' : Memtable} (h : m.EdgesNumbered coreEdge) (heq : m'.edgeHalf = m.edgeHalf) :
    m'.EdgesNumbered coreEdge := by
  have hhalf : m'.edgeHalf.EdgesNumbered coreEdge :=
    heq ▸ { h with }
  exact { hhalf with }

/-- An edge entry is stored; the other edges stay listed where they were. -/
theorem put (h : m.EdgesNumbered coreEdge) {outAdj inAdj : Map Nat (List EdgeIdentity)}
    {byEdgeId : Map Nat EdgeIdentity} {bornEdges : List EdgeIdentity}
    (hgrow : ∀ (i : Nat) id', m.bornEdges[i]? = some id' → bornEdges[i]? = some id')
    (hadj : ∀ node id', id' ∈ (outAdj.lookup node).getD [] → id' ≠ id → id' ∈ (m.outAdj.lookup node).getD [])
    (hs : ∀ x, e.syntheticEdge = some x → coreEdge id = none ∧ (∃ i, x = m.edgeSyntheticBase + i ∧ bornEdges[i]? = some id) ∧ ∀ node, id ∈ (outAdj.lookup node).getD [] → node = e.srcDense)
    (hcore : ∀ c, e.coreEdge = some c → coreEdge id = some c) :
    { m with edges := m.edges.insert id e, outAdj, inAdj, byEdgeId, bornEdges }.EdgesNumbered coreEdge where
  synthetic := by
    intro id' f x hf hx
    rcases lookup_insert_eq_some.mp hf with ⟨rfl, rfl⟩ | ⟨-, hf⟩
    · exact (hs x hx).2.1
    · obtain ⟨i, hi, hid⟩ := h.synthetic id' f x hf hx
      exact ⟨i, hi, hgrow i id' hid⟩
  listed := by
    intro node id' f hmem hf hborn
    rcases lookup_insert_eq_some.mp hf with ⟨rfl, rfl⟩ | ⟨hne, hf⟩
    · obtain ⟨x, hx⟩ := isSome_iff_exists.mp hborn
      exact (hs x hx).2.2 node hmem
    · exact h.listed node id' f (hadj node id' hmem hne) hf hborn
  unpatched := forall_lookup_insert h.unpatched fun hborn => by
    obtain ⟨x, hx⟩ := isSome_iff_exists.mp hborn
    exact (hs x hx).1
  patched id' f c hf hc := by
    rcases lookup_insert_eq_some.mp hf with ⟨rfl, rfl⟩ | ⟨-, hf⟩
    · exact hcore c hc
    · exact h.patched id' f c hf hc

/-- What `put` asks of an entry that keeps the synthetic id and the source of the one stored. -/
theorem kept (h : m.EdgesNumbered coreEdge) (hst : m.edges.lookup id = some e) (x : Nat)
    (hx : e.syntheticEdge = some x) :
    coreEdge id = none ∧ (∃ i, x = m.edgeSyntheticBase + i ∧ m.bornEdges[i]? = some id) ∧
      ∀ node, id ∈ (m.outAdj.lookup node).getD [] → node = e.srcDense := by
  have hborn : e.syntheticEdge.isSome := by rw [hx]; rfl
  exact ⟨h.unpatched id e hst hborn, h.synthetic id e x hst hx,
    fun node hmem => h.listed node id e hmem hst hborn⟩

theorem mem_pushAdj {node node' : Nat} (h : id' ∈ ((pushAdj adj node id).lookup node').getD []) :
    id' ∈ (adj.lookup node').getD [] ∨ id' = id ∧ node' = node := by
  rw [pushAdj, lookup_insert_ite] at h
  split at h
  next heq =>
    rw [getD_some, mem_append, mem_singleton] at h
    subst heq
    exact h.imp_right fun hid => ⟨hid, rfl⟩
  next => exact .inl h

theorem mem_pushAdjOnce {node node' : Nat} (h : id' ∈ ((pushAdjOnce adj node id).lookup node').getD []) :
    id' ∈ (adj.lookup node').getD [] ∨ id' = id ∧ node' = node := by
  unfold pushAdjOnce at h
  split at h
  next => exact .inl h
  next => exact mem_pushAdj h

variable (h : m.EdgesNumbered coreEdge)
include h

theorem upsertLinked (hm : m.Coherent) (hcore : coreEdge id = none)
    (src dst : Nat) (replace : Bool) (patches : List (String × Value)) :
    (m.upsertLinked id src dst replace patches).EdgesNumbered coreEdge := by
  cases hst : m.edges.lookup id with
  | none =>
    simp only [Memtable.upsertLinked, hst, modifyEdge, Finmap.lookup_insert, Finmap.insert_insert]
    refine h.put (fun i id' hi => getElem?_concat_eq_some.mpr (.inl hi))
      (fun node id' hmem hne => (mem_pushAdj hmem).resolve_right fun hid => hne hid.1) ?_
      (fun _ hc => by cases hc)
    intro x hx
    refine ⟨hcore, ⟨m.bornEdges.length, (some.inj hx).symm,
      getElem?_concat_eq_some.mpr (.inr ⟨rfl, rfl⟩)⟩, fun node hmem => ?_⟩
    rcases mem_pushAdj hmem with hold | ⟨-, hnode⟩
    · -- an edge that is not stored is not listed either
      cases hids : m.outAdj.lookup node with
      | none =>
        rw [hids] at hold
        cases hold
      | some ids =>
        rw [hids] at hold
        obtain ⟨e, he⟩ := (hm.lists node ids hids).2 id hold
        rw [hst] at he
        cases he
    · exact hnode
  | some e =>
    simp only [Memtable.upsertLinked, hst, modifyEdge]
    exact h.put (fun _ _ hi => hi) (fun _ _ hmem _ => hmem) (h.kept (e := e) hst) fun c hc => h.patched id e c hst hc

theorem patchLinked {cid : Nat} (hcore : coreEdge id = some cid) (src dst : Nat)
    (replace : Bool) (patches : List (String × Value)) :
    (m.patchLinked id src dst cid replace patches).EdgesNumbered coreEdge := by
  cases hst : m.edges.lookup id with
  | none =>
    simp only [Memtable.patchLinked, hst, modifyEdge, Finmap.lookup_insert, Finmap.insert_insert]
    exact h.put (fun _ _ hi => hi) (fun _ _ hmem _ => hmem) (fun _ hx => by cases hx) fun c hc => hc ▸ hcore
  | some e =>
    simp only [Memtable.patchLinked, hst, modifyEdge]
    exact h.put (fun _ _ hi => hi) (fun _ _ hmem _ => hmem) (h.kept (e := e) hst) fun c hc => hc ▸ hcore

theorem deleteLinked (id : EdgeIdentity) (src dst : Nat) : (m.deleteLinked id src dst).EdgesNumbered coreEdge := by
  cases hst : m.edges.lookup id with
  | none =>
    simp only [Memtable.deleteLinked, hst]
    exact h.put (fun _ _ hi => hi)
      (fun node id' hmem hne => (mem_pushAdj hmem).resolve_right fun hid => hne hid.1)
      (fun _ hx => by cases hx) (fun _ hc => by cases hc)
  | some e =>
    cases hc : e.coreEdge with
    | none =>
      simp only [Memtable.deleteLinked, hst, hc]
      exact h.put (fun _ _ hi => hi) (fun _ _ hmem _ => hmem) (h.kept (e := e) hst) (fun _ hc => by cases hc)
    | some cid =>
      simp only [Memtable.deleteLinked, hst, hc]
      refine h.put (fun _ _ hi => hi)
        (fun node id' hmem hne => (mem_pushAdjOnce hmem).resolve_right fun hid => hne hid.1) ?_
        (fun _ hc => by cases hc)
      -- an edge over the core was not born here
      intro x hx
      have hnone := h.unpatched id e hst (by rw [hx]; rfl)
      rw [h.patched id e cid hst hc] at hnone
      cases hnone

theorem endpoint (id : NodeIdentity) (resolved : Option Nat) :
    (m.endpointDenseOrCreate id resolved).1.EdgesNumbered coreEdge := by
  rcases m.endpointDenseOrCreate_cases id resolved with heq | ⟨-, -, heq⟩ <;> rw [heq]
  · exact h
  · exact h.of_edgeHalf rfl

/-- **An operation keeps the owners of edge ids.** -/
theorem apply (hm : m.Coherent) {op : ResolvedOp}
    (hop : op.ResolvedBy below coreEdge m) : (m.apply op).EdgesNumbered coreEdge := by
  cases op with
  | node id w resolved => exact h.of_edgeHalf (writeNode_edgeHalf ..)
  | upsertEdge id replace patches src dst edgeId =>
    have hends := (h.endpoint id.src src).endpoint id.dst dst
    have hcoherent := (hm.endpoint id.src src).endpoint id.dst dst
    obtain ⟨-, -, hedge⟩ := hop
    cases edgeId with
    | none => exact hends.upsertLinked hcoherent hedge.symm _ _ replace patches
    | some cid => exact hends.patchLinked hedge.symm _ _ replace patches
  | deleteEdge id src dst =>
    simp only [Memtable.apply, deleteEdgeKeyed]
    split
    next => exact h.deleteLinked id _ _
    next => exact h

end EdgesNumbered

/-! ## Runs -/

theorem born_of_nodeHalf {m' : Memtable} (h : m'.nodeHalf = m.nodeHalf) : m'.born = m.born :=
  (congrArg born h :)

/-- An operation gives ids only; it takes none back. -/
theorem born_apply (m : Memtable) (op : ResolvedOp) : m.born <+: (m.apply op).born := by
  refine apply_keeps (p := (m.born <+: ·.born)) (fun m id resolved w h => h.trans ?_)
    (fun m id resolved h => h.trans ?_) (fun _ _ _ _ _ _ h => (born_of_nodeHalf (upsertLinked_nodeHalf ..)).symm ▸ h)
    (fun _ _ _ _ _ _ _ h => (born_of_nodeHalf (patchLinked_nodeHalf ..)).symm ▸ h)
    (fun _ _ _ _ h => (born_of_nodeHalf (deleteLinked_nodeHalf ..)).symm ▸ h) prefix_rfl op
  · rcases m.writeNode_cases id resolved w with ⟨-, -, -, heq⟩ | ⟨t, -, heq⟩ | ⟨-, -, -, heq⟩ <;> rw [heq]
    · exact prefix_rfl
    · exact prefix_append ..
  · rcases m.endpointDenseOrCreate_cases id resolved with heq | ⟨-, -, heq⟩ <;> rw [heq]
    exact prefix_append ..

theorem NodesNumbered.bornSynthetic_apply (h : m.NodesNumbered below) (h' : (m.apply op).NodesNumbered below)
    (hd : m.bornSyntheticForIdentity id = some d) : (m.apply op).bornSyntheticForIdentity id = some d := by
  obtain ⟨i, rfl, hi⟩ := (h.synthetic id d).mp hd
  refine (h'.synthetic id _).mpr ⟨i, by rw [m.apply_syntheticBase], ?_⟩
  obtain ⟨new, hnew⟩ := m.born_apply op
  rw [← hnew, List.getElem?_append_left (List.getElem?_eq_some_iff.mp hi).1, hi]

/-- An operation never moves the base of the edge ids. -/
theorem apply_edgeSyntheticBase (m : Memtable) (op : ResolvedOp) :
    (m.apply op).edgeSyntheticBase = m.edgeSyntheticBase := by
  have hmodify : ∀ (m : Memtable) (id : EdgeIdentity) (f : EdgeEntry → EdgeEntry),
      (m.modifyEdge id f).edgeSyntheticBase = m.edgeSyntheticBase := by
    intro m id f
    unfold modifyEdge
    split <;> rfl
  refine apply_keeps (p := (·.edgeSyntheticBase = m.edgeSyntheticBase)) (fun m id resolved w h => Eq.trans ?_ h)
    (fun m id resolved h => Eq.trans ?_ h) (fun m id src dst replace patches h => Eq.trans ?_ h)
    (fun m id src dst cid replace patches h => Eq.trans ?_ h) (fun m id src dst h => Eq.trans ?_ h) rfl op
  · show (m.writeNode id resolved w).edgeHalf.edgeSyntheticBase = m.edgeHalf.edgeSyntheticBase
    rw [writeNode_edgeHalf]
  · rcases m.endpointDenseOrCreate_cases id resolved with heq | ⟨-, -, heq⟩ <;> rw [heq]
    rfl
  · rw [upsertLinked, hmodify]
    split <;> rfl
  · rw [patchLinked, hmodify]
    split <;> rfl
  · unfold deleteLinked
    split
    next => rfl
    next => split <;> rfl

theorem applyAll_bases (m : Memtable) (ops : List ResolvedOp) : (m.applyAll ops).syntheticBase = m.syntheticBase ∧
      (m.applyAll ops).edgeSyntheticBase = m.edgeSyntheticBase := by
  induction ops generalizing m with
  | nil => exact ⟨rfl, rfl⟩
  | cons op ops ih =>
    exact ⟨(ih _).1.trans (m.apply_syntheticBase op), (ih _).2.trans (m.apply_edgeSyntheticBase op)⟩

/-- What is known of the active memtable of a writer: its indexes agree with its entries, ids
have one owner, and whatever lies below has ids under its base. Each operation keeps the four
together. -/
structure Active (below : NodeIdentity → Option Nat) (coreEdge : EdgeIdentity → Option Nat) (m : Memtable) : Prop where
  coherent : m.Coherent
  nodes : m.NodesNumbered below
  edges : m.EdgesNumbered coreEdge
  below_lt : ∀ id d, below id = some d → d < m.syntheticBase

theorem active_withBases {nodeBase : Nat} (h : ∀ id d, below id = some d → d < nodeBase)
    (coreEdge : EdgeIdentity → Option Nat) (edgeBase : Nat) : (withBases nodeBase edgeBase).Active below coreEdge where
  coherent := coherent_withBases nodeBase edgeBase
  nodes := nodesNumbered_withBases below nodeBase edgeBase
  edges := edgesNumbered_withBases coreEdge nodeBase edgeBase
  below_lt := h

section

variable (h : m.Active below coreEdge)
include h

theorem Active.apply (hop : op.ResolvedBy below coreEdge m) : (m.apply op).Active below coreEdge where
  coherent := h.coherent.apply op
  nodes := h.nodes.apply h.below_lt hop
  edges := h.edges.apply h.coherent hop
  below_lt := fun id d hd => (m.apply_syntheticBase op).symm ▸ h.below_lt id d hd

/-- An operation resolved before another is still resolved after it. -/
theorem Active.resolvedBy_apply {op' : ResolvedOp}
    (hop : op.ResolvedBy below coreEdge m) (hop' : op'.ResolvedBy below coreEdge m) :
    op'.ResolvedBy below coreEdge (m.apply op) := by
  cases op' with
  | node id w resolved =>
    rcases hop' with hbelow | ⟨hnone, hsome, hborn⟩
    · exact .inl hbelow
    · obtain ⟨d, rfl⟩ := isSome_iff_exists.mp hsome
      have hkept := h.nodes.bornSynthetic_apply (h.apply hop).nodes hborn.symm
      exact .inr ⟨hnone, rfl, hkept.symm⟩
  | upsertEdge => exact hop'
  | deleteEdge => exact hop'

/-- **A batch keeps the owners of ids**, each operation resolved before the batch. -/
theorem Active.applyAll {ops : List ResolvedOp}
    (hops : ∀ op ∈ ops, op.ResolvedBy below coreEdge m) : (m.applyAll ops).Active below coreEdge := by
  induction ops generalizing m with
  | nil => exact h
  | cons op ops ih =>
    have hop := hops op (.head _)
    exact ih (h.apply hop) fun op' hop' =>
      h.resolvedBy_apply hop (hops op' (mem_cons_of_mem op hop'))

end

/-- A node born in the memtable may be named by its id or by its key alone. -/
theorem NodesNumbered.writeNode_born (h : m.NodesNumbered below)
    (hd : m.bornSyntheticForIdentity id = some d) (w : NodeWrite) :
    m.writeNode id (some d) w = m.writeNode id none w := by
  obtain ⟨i, rfl, hi⟩ := (h.synthetic id d).mp hd
  obtain ⟨entry, hentry, hs⟩ := bind_eq_some_iff.mp hd
  have hknown : m.byDense.insert (m.syntheticBase + i) id = m.byDense :=
    insert_of_lookup (h.dense i id hi)
  have hof : m.entryOf id = entry := by rw [entryOf, hentry, getD_some]
  rw [writeNode_some, writeNode_synthetic hentry hs, hknown, hof]

end Memtable

end Slater
