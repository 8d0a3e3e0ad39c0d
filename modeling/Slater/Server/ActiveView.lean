import Slater.Delta.Stack
import Slater.Server.EdgeSets

/-!
# The view of the write path

`node_has_relationships` and `project_write_return` read the graph under the active memtable alone
(`DeltaSnapshot::from_memtable`), while a query reads it under the memtable and every sealed level. A
relationship, a patch or a deletion that was flushed is seen by the query and not by the write path.

The two agree on what the sealed levels are silent about. Every read of the delta that concerns a node
or an edge is compared in turn (`sealed_nodePatch`, `sealed_edges`, `sealed_edgeDelta`), and the views
follow. A deletion in a sealed level matters for the neighbours of the node, so the silence asked for
reaches them.

**What it does not establish.** The condition is sufficient. A sealed level may hold edges of the node that change
nothing a reader sees, and the two views then agree without it.
-/

namespace Slater

open Map List Option DeltaSnapshot Generation Memtable DeltaEdge

/-! ## Views that agree -/

/-- The views show the same properties and labels for the node. -/
structure View.SameNode (v w : View) (n : Nat) : Prop where
  props : v.nodeProps n = w.nodeProps n
  prop : ∀ key, v.nodeProp n key = w.nodeProp n key
  labels : v.labelIds n = w.labelIds n

/-- The views show the same properties for the edge. -/
structure View.SameEdge (v w : View) (e : Nat) : Prop where
  props : v.edgeProps e = w.edgeProps e
  prop : ∀ key, v.edgeProp e key = w.edgeProp e key

namespace DeltaState

variable {st : DeltaState}

/-! ## Silence of the sealed levels -/

/-- No sealed level holds a delta of the node. -/
def SealedSparesNode (st : DeltaState) (n : Nat) : Prop := ∀ l ∈ st.l0, l.nodePatch n = none

/-- No sealed level holds a delta of the edge. -/
def SealedSparesEdge (st : DeltaState) (e : Nat) : Prop := ∀ l ∈ st.l0, l.edgeDeltaById e = none

/-- No sealed level holds an edge of the node or deletes one of its neighbours. A stack of
levels merges the edges of a node by type, neighbour and identifying property, so the memtable's
own must differ in them. The core may hold any edges of the node: both views read them alike. -/
structure SealedSparesEdges (st : DeltaState) (gen : Generation) (d : Nat) : Prop where
  silent : ∀ l ∈ st.l0, l.outEdges d = [] ∧ l.inEdges d = []
  apart : st.l0 ≠ [] → ((st.mem.outEdges d).map mergeKey).Nodup ∧
    ((st.mem.inEdges d).map mergeKey).Nodup
  ends : ∀ outgoing, ∀ a ∈ (st.activeView gen).storedAdj d outgoing, ∀ l ∈ st.l0,
    (l.nodePatch a.neighbour).all (!·.tombstoned) = true

section Reads

variable {st : DeltaState} {n : Nat}

theorem sealed_nodePatch (h : st.SealedSparesNode n) :
    st.snapshot.nodePatch n = (fromMemtable st.mem).nodePatch n := by
  have hnone : nodeFold st.l0 n = none := by
    rw [← not_isSome_iff_eq_none, nodeFold_isSome]
    rintro ⟨l, hl, hsome⟩
    rw [h l hl] at hsome
    cases hsome
  refine (snapshotOf_nodePatch st.mem st.l0 n).trans ?_
  rw [nodeFold_cons, hnone]
  show _ = st.mem.nodePatch n
  cases st.mem.nodePatch n <;> rfl

theorem nodeIdentity_eq_none {m : Memtable} (h : m.nodePatch n = none) : m.nodeIdentity n = none := by
  unfold Memtable.nodePatch at h
  unfold Memtable.nodeIdentity
  cases hd : m.byDense.lookup n with
  | none => rfl
  | some id =>
    rw [hd, bind_some, map_eq_none_iff] at h
    rw [bind_some, h, map_none]

theorem sealed_nodeIdentity (h : st.SealedSparesNode n) :
    st.snapshot.nodeIdentity n = (fromMemtable st.mem).nodeIdentity n := by
  have hnone : st.l0.findSome? (·.nodeIdentity n) = none :=
    findSome?_eq_none_iff.mpr fun l hl => nodeIdentity_eq_none (h l hl)
  refine (findSome?_levels st.mem st.l0 (·.nodeIdentity n)).trans ?_
  show (st.mem :: st.l0).findSome? (·.nodeIdentity n) = [st.mem].findSome? (·.nodeIdentity n)
  rw [findSome?_cons, hnone, findSome?_cons, findSome?_nil]

/-- A node that no sealed level deletes is dead for both or for neither. -/
theorem sealed_isTombstoned (h : ∀ l ∈ st.l0, (l.nodePatch n).all (!·.tombstoned) = true) :
    st.snapshot.isTombstoned n = (fromMemtable st.mem).isTombstoned n := by
  have hsealed : (st.l0.findSome? fun l => (l.nodePatch n).map (·.tombstoned)).getD false = false := by
    cases hf : st.l0.findSome? fun l => (l.nodePatch n).map (·.tombstoned) with
    | none => rfl
    | some dead =>
      obtain ⟨l, hl, hdead⟩ := exists_of_findSome?_eq_some hf
      obtain ⟨δ, hδ, rfl⟩ := map_eq_some_iff.mp hdead
      have hlive := h l hl
      rw [hδ] at hlive
      simpa using hlive
  have hlevels : ∀ l0 : List Memtable, (snapshotOf st.mem l0).isTombstoned n =
      ((st.mem :: l0).findSome? fun l => (l.nodePatch n).map (·.tombstoned)).getD false := fun l0 =>
    congrArg (getD · false) (findSome?_levels st.mem l0 (·.nodeTombstoned n))
  refine (hlevels st.l0).trans (Eq.trans ?_ (hlevels []).symm)
  rw [findSome?_cons, findSome?_cons]
  cases (st.mem.nodePatch n).map (·.tombstoned) with
  | none => exact hsealed
  | some dead => rfl

theorem sealed_mergeEdges {read : Level → List DeltaEdge} (hsilent : ∀ l ∈ st.l0, read l.level = [])
    (hapart : st.l0 ≠ [] → ((read st.mem.level).map mergeKey).Nodup) :
    st.snapshot.mergeEdges read = read st.mem.level := by
  obtain ⟨mem, l0⟩ := st
  cases l0 with
  | nil => rfl
  | cons l l0 =>
    show keepFirst [] ((mem.level :: (l :: l0).map level).flatMap read) = _
    have hrest : ((l :: l0).map level).flatMap read = [] := by
      rw [flatMap_map]
      exact flatMap_eq_nil_iff.mpr hsilent
    rw [flatMap_cons, hrest, append_nil]
    exact keepFirst_eq_self (hapart (cons_ne_nil l l0)) fun _ _ => not_mem_nil

theorem sealed_adjacency {gen : Generation} {d : Nat} (h : st.SealedSparesEdges gen d) (outgoing : Bool) :
    st.snapshot.adjacency d outgoing = (fromMemtable st.mem).adjacency d outgoing := by
  have hout : st.snapshot.outEdges d = st.mem.outEdges d :=
    sealed_mergeEdges (fun l hl => (h.silent l hl).1) fun hne => (h.apart hne).1
  have hin : st.snapshot.inEdges d = st.mem.inEdges d :=
    sealed_mergeEdges (fun l hl => (h.silent l hl).2) fun hne => (h.apart hne).2
  cases outgoing with
  | true => exact congrArg (map _) hout
  | false => exact congrArg (map _) hin

theorem sealed_edgeDeltas {e : Nat} (h : st.SealedSparesEdge e) :
    st.snapshot.edgeDelta e = (fromMemtable st.mem).edgeDelta e := by
  have hsealed : (st.l0.map level).reverse.filterMap (·.edgeDelta e) = [] := by
    rw [← map_reverse, filterMap_map]
    exact filterMap_eq_nil_iff.mpr fun l hl => h l (mem_reverse.mp hl)
  show (((st.mem.level :: st.l0.map level).reverse).filterMap (·.edgeDelta e)).foldl _ _ =
    (([st.mem.level].reverse).filterMap (·.edgeDelta e)).foldl _ _
  rw [reverse_cons, filterMap_append, hsealed]
  rfl

theorem sealed_edgePatchValue {e : Nat} (h : st.SealedSparesEdge e) (key : String) :
    st.snapshot.edgePatchValue e key = (fromMemtable st.mem).edgePatchValue e key := by
  have hsealed : edgePatchValue.go e key (st.l0.map level) = none := by
    unfold SealedSparesEdge at h
    generalize st.l0 = ls at h
    induction ls with
    | nil => rfl
    | cons l ls ih =>
      have hl : l.level.edgeDelta e = none := h l (.head _)
      rw [map_cons, edgePatchValue.go, hl]
      exact ih fun l hl => h l (.tail _ hl)
  show edgePatchValue.go e key (st.mem.level :: st.l0.map level) =
    edgePatchValue.go e key [st.mem.level]
  simp only [edgePatchValue.go, hsealed]

end Reads

/-! ## Empty deltas -/

section Empty

variable {m : Memtable}

theorem nodePatch_of_isEmpty (h : m.isEmpty = true) (n : Nat) : m.nodePatch n = none := by
  have hnodes : m.nodes = ∅ := of_decide_eq_true (Bool.and_eq_true_iff.mp h).1
  rw [Memtable.nodePatch, hnodes]
  cases m.byDense.lookup n <;> rfl

theorem edgesFor_of_isEmpty (h : m.isEmpty = true) (adj : Map Nat (List EdgeIdentity)) (n : Nat)
    (outgoing : Bool) : m.edgesFor adj n outgoing = [] := by
  have hedges : m.edges = ∅ := of_decide_eq_true (Bool.and_eq_true_iff.mp h).2
  rw [edgesFor, hedges]
  exact filterMap_eq_nil_iff.mpr fun _ _ => rfl

theorem edgeDeltaById_of_isEmpty (h : m.isEmpty = true) (e : Nat) : m.edgeDeltaById e = none := by
  have hedges : m.edges = ∅ := of_decide_eq_true (Bool.and_eq_true_iff.mp h).2
  simp only [edgeDeltaById, hedges]
  split <;> exact bind_eq_none_iff.mpr fun _ _ => rfl

end Empty

section

variable (h : st.snapshot.isEmpty = true)
include h

/-- An empty snapshot has empty levels. -/
theorem levels_of_isEmpty : ∀ l ∈ st.levels, l.isEmpty = true := by
  intro l hl
  exact all_eq_true.mp h l.level (mem_map_of_mem hl)

/-- In an empty snapshot no node is deleted. -/
theorem isTombstoned_of_isEmpty (n : Nat) : st.snapshot.isTombstoned n = false := by
  have hnone : st.levels.findSome? (fun l => (l.nodePatch n).map (·.tombstoned)) = none :=
    findSome?_eq_none_iff.mpr fun l hl => by
      rw [nodePatch_of_isEmpty (levels_of_isEmpty h l hl), map_none]
  exact congrArg (getD · false) ((findSome?_levels st.mem st.l0 (·.nodeTombstoned n)).trans hnone)

/-- In an empty snapshot no node has an edge. -/
theorem adjacency_of_isEmpty (n : Nat) (outgoing : Bool) : st.snapshot.adjacency n outgoing = [] := by
  have hmerge : ∀ read : Level → List DeltaEdge, (∀ l ∈ st.levels, read l.level = []) →
      st.snapshot.mergeEdges read = [] := by
    refine fun read hread => eq_nil_iff_forall_not_mem.mpr fun e he => ?_
    obtain ⟨_, hlevel, he⟩ := mem_mergeEdges he
    obtain ⟨l, hl, rfl⟩ := mem_map.mp (show _ ∈ st.levels.map level from hlevel)
    rw [hread l hl] at he
    cases he
  have hlevels := levels_of_isEmpty h
  cases outgoing with
  | true =>
    exact congrArg (map _) (hmerge (·.outEdges n) fun l hl =>
      edgesFor_of_isEmpty (hlevels l hl) l.outAdj n true)
  | false =>
    exact congrArg (map _) (hmerge (·.inEdges n) fun l hl =>
      edgesFor_of_isEmpty (hlevels l hl) l.inAdj n false)

end

/-! ## The two views -/

section Views

variable {gen : Generation} {st : DeltaState}

section

variable (gen : Generation) (st : DeltaState)

/-- The emptiness test of a view does not matter to what its delta suppresses and adds. -/
theorem merged_deltaSuppress (d : Nat) (outgoing : Bool) :
    (gen.merged st.snapshot).deltaSuppress d outgoing = (st.snapshot.adjacency d outgoing).filterMap fun e =>
        bif e.tombstoned then (gen.core.reltypeId e.reltype).map fun rt => (rt, e.other)
        else none := by
  show (bif st.snapshot.isEmpty then _ else _) = _
  cases h : st.snapshot.isEmpty with
  | true => rw [adjacency_of_isEmpty h]; rfl
  | false => rfl

theorem merged_deltaBorn (d : Nat) (outgoing : Bool) :
    (gen.merged st.snapshot).deltaBorn d outgoing = (st.snapshot.adjacency d outgoing).filterMap fun e =>
        bif e.tombstoned then none
        else e.edgeId.bind fun id => (gen.core.reltypeId e.reltype).map fun rt => ⟨rt, e.other, id⟩ := by
  show (bif st.snapshot.isEmpty then _ else _) = _
  cases h : st.snapshot.isEmpty with
  | true => rw [adjacency_of_isEmpty h]; rfl
  | false => rfl

theorem merged_deltaDead (n : Nat) : (gen.merged st.snapshot).deltaDead n = st.snapshot.isTombstoned n := by
  show (!st.snapshot.isEmpty && st.snapshot.isTombstoned n) = _
  cases h : st.snapshot.isEmpty with
  | true => rw [isTombstoned_of_isEmpty h, Bool.and_false]
  | false => rfl

end

/-- **The views list the same edges** of a node whose edges the sealed levels spare. -/
theorem sealed_mem_adjOverlaid {d : Nat} (h : st.SealedSparesEdges gen d) (outgoing : Bool)
    (a : Adj) : a ∈ (st.activeView gen).adjOverlaid d outgoing ↔
      a ∈ (gen.merged st.snapshot).adjOverlaid d outgoing := by
  have hadj := sealed_adjacency h outgoing
  have hsuppress : (st.activeView gen).deltaSuppress d outgoing =
      (gen.merged st.snapshot).deltaSuppress d outgoing := by
    rw [merged_deltaSuppress, hadj]
    exact merged_deltaSuppress gen ⟨st.mem, []⟩ d outgoing
  have hborn : (st.activeView gen).deltaBorn d outgoing = (gen.merged st.snapshot).deltaBorn d outgoing := by
    rw [merged_deltaBorn, hadj]
    exact merged_deltaBorn gen ⟨st.mem, []⟩ d outgoing
  -- A neighbour counts only for the edges that are stored at all.
  have hdead : a ∈ (st.activeView gen).storedAdj d outgoing →
      (st.activeView gen).deltaDead a.neighbour = (gen.merged st.snapshot).deltaDead a.neighbour := by
    intro ha
    rw [merged_deltaDead, sealed_isTombstoned (h.ends outgoing a ha)]
    exact merged_deltaDead gen ⟨st.mem, []⟩ a.neighbour
  have hstored : (st.activeView gen).storedAdj d outgoing = (gen.merged st.snapshot).storedAdj d outgoing :=
    congrArg (_ ++ ·) hborn
  constructor
  · intro ha
    have hmem := (View.adjOverlaid_sublist d outgoing).subset ha
    obtain ⟨hlive, hlisted⟩ := View.mem_adjOverlaid.mp ha
    rw [hborn, hsuppress] at hlisted
    exact View.mem_adjOverlaid.mpr ⟨(hdead hmem).symm.trans hlive, hlisted⟩
  · intro ha
    have hmem := (View.adjOverlaid_sublist d outgoing).subset ha
    rw [← hstored] at hmem
    obtain ⟨hlive, hlisted⟩ := View.mem_adjOverlaid.mp ha
    rw [← hborn, ← hsuppress] at hlisted
    exact View.mem_adjOverlaid.mpr ⟨(hdead hmem).trans hlive, hlisted⟩

theorem sealed_hasIncidentEdge {d : Nat} (h : st.SealedSparesEdges gen d) :
    st.nodeHasRelationships gen d = (gen.merged st.snapshot).hasIncidentEdge d := by
  have hempty : ∀ outgoing, ((st.activeView gen).adjOverlaid d outgoing).isEmpty =
      ((gen.merged st.snapshot).adjOverlaid d outgoing).isEmpty := by
    intro outgoing
    rw [Bool.eq_iff_iff, List.isEmpty_iff, List.isEmpty_iff, List.eq_nil_iff_forall_not_mem,
      eq_nil_iff_forall_not_mem]
    exact forall_congr' fun a => not_congr (sealed_mem_adjOverlaid h outgoing a)
  show (!_ || !_) = (!_ || !_)
  rw [hempty true, hempty false]

end Views

end DeltaState

/-! ## What a node and an edge show -/

namespace CoreGraph

variable {g : CoreGraph}

theorem nodeRow_of_le {n : Nat} (h : g.nodes.length ≤ n) : g.generation.nodeRow n = ∅ := by
  show (g.nodes[n]?).elim ∅ _ = ∅
  rw [getElem?_eq_none h]
  rfl

theorem edgeRow_of_le {e : Nat} (h : g.edges.length ≤ e) : g.generation.edgeRow e = ∅ := by
  show (g.edges[e]?).elim ∅ _ = ∅
  rw [getElem?_eq_none h]
  rfl

end CoreGraph

/-- An empty snapshot says nothing of the node. -/
def DeltaSnapshot.QuietNode (s : DeltaSnapshot) (n : Nat) : Prop :=
  s.isEmpty = true → s.nodePatch n = none ∧ s.nodeIdentity n = none

/-- An empty snapshot says nothing of the edge. -/
def DeltaSnapshot.QuietEdge (s : DeltaSnapshot) (e : Nat) : Prop :=
  s.isEmpty = true → s.edgeDelta e = (∅, false) ∧ ∀ key, s.edgePatchValue e key = none

namespace CoreGraph

variable {g : CoreGraph} {s s' : DeltaSnapshot}

/-- The labels below the delta depend on the identity of the node alone. -/
theorem stackLabelIds_congr {n : Nat} (h : s.nodeIdentity n = s'.nodeIdentity n) :
    (g.generation.merged s).stackLabelIds n = (g.generation.merged s').stackLabelIds n := by
  rcases Nat.lt_or_ge n g.nodes.length with hlt | hge
  · rw [stackLabelIds_core hlt, stackLabelIds_core hlt]
  · rw [stackLabelIds_born hge, stackLabelIds_born hge, h]

/-- A node the delta says nothing of shows what the core stores. -/
theorem sameNode_core {n : Nat} (hpatch : s.nodePatch n = none) (hident : s.nodeIdentity n = none) :
    (g.generation.merged s).SameNode (g.generation.merged (.fromMemtable {})) n := by
  have hseeded : ∀ key, seeded s n key = none := fun key => by
    rw [seeded, hident, bind_none]
  have hvalue : ∀ key, g.generation.nodeValue s n key = (g.generation.nodeRow n).lookup key := by
    intro key
    have hbelow : (bif !s.isEmpty && g.generation.unborn n then seeded s n key
        else (g.generation.nodeRow n).lookup key) = (g.generation.nodeRow n).lookup key := by
      cases hu : !s.isEmpty && g.generation.unborn n with
      | false => rfl
      | true =>
        have hle : g.nodes.length ≤ n := of_decide_eq_true (Bool.and_eq_true_iff.mp hu).2
        rw [hseeded, nodeRow_of_le hle]
        rfl
    simp [Generation.nodeValue, hpatch, hbelow]
  have hprops : g.generation.nodeProps s n = g.generation.nodeRow n := by
    simp [nodeProps, overlayNodeProps, hpatch, hident]
  have hlabels : (g.generation.merged s).labelIds n = (g.generation.merged s).stackLabelIds n := by
    have hnone : (g.generation.merged s).deltaLabels n = none := by
      show (s.nodePatch n).map _ = none
      rw [hpatch, map_none]
    simp [View.labelIds, hnone]
  have hstack : (g.generation.merged s).stackLabelIds n = (g.generation.merged (.fromMemtable {})).stackLabelIds n :=
    stackLabelIds_congr hident
  refine ⟨?_, fun key => ?_, hlabels.trans hstack⟩
  · show (g.generation.nodeProps s n).pairs.map _ = _
    rw [hprops]
    rfl
  · show (g.generation.nodeValue s n key).elim _ _ = _
    rw [hvalue]
    rfl

/-- **Two snapshots that say the same of a node show the same.** -/
theorem sameNode {n : Nat} (hs : s.QuietNode n) (hs' : s'.QuietNode n)
    (hpatch : s.nodePatch n = s'.nodePatch n) (hident : s.nodeIdentity n = s'.nodeIdentity n) :
    (g.generation.merged s).SameNode (g.generation.merged s') n := by
  by_cases hquiet : s.nodePatch n = none ∧ s.nodeIdentity n = none
  · have h := @sameNode_core g s n hquiet.1 hquiet.2
    have h' := @sameNode_core g s' n (hpatch ▸ hquiet.1) (hident ▸ hquiet.2)
    exact ⟨h.props.trans h'.props.symm, fun key => (h.prop key).trans (h'.prop key).symm,
      h.labels.trans h'.labels.symm⟩
  -- Neither snapshot is empty, so nothing but the two reads is looked at.
  · have he : s.isEmpty = false := Bool.eq_false_iff.mpr fun h => hquiet (hs h)
    have he' : s'.isEmpty = false :=
      Bool.eq_false_iff.mpr fun h => hquiet (by rw [hpatch, hident]; exact hs' h)
    refine ⟨?_, fun key => ?_, ?_⟩
    · show (g.generation.nodeProps s n).pairs.map _ = (g.generation.nodeProps s' n).pairs.map _
      simp only [nodeProps, overlayNodeProps, he, he', hpatch, hident]
    · show (g.generation.nodeValue s n key).elim _ _ = (g.generation.nodeValue s' n key).elim _ _
      simp only [Generation.nodeValue, Generation.seeded, he, he', hpatch, hident]
    · have hdelta : (g.generation.merged s).deltaLabels n = (g.generation.merged s').deltaLabels n := by
        show (s.nodePatch n).map _ = (s'.nodePatch n).map _
        rw [hpatch]
      have hempty : (g.generation.merged s).deltaEmpty = (g.generation.merged s').deltaEmpty :=
        he.trans he'.symm
      unfold View.labelIds
      rw [stackLabelIds_congr hident, hdelta, hempty]
      rfl

/-- An edge the delta says nothing of shows what the core stores. -/
theorem sameEdge_core {e : Nat} (hdelta : s.edgeDelta e = (∅, false)) (hvalue : ∀ key, s.edgePatchValue e key = none) :
    (g.generation.merged s).SameEdge (g.generation.merged (.fromMemtable {})) e := by
  have hpatches : s.edgePatches e = ∅ := congrArg Prod.fst hdelta
  have hreplaced : s.edgeReplaced e = false := congrArg Prod.snd hdelta
  have hprops : g.generation.edgeProps s e = g.generation.edgeRow e := by
    have hknown : restrict (fun key => key ∈ g.generation.propertyKeys) (∅ : Map String Value) = ∅ :=
      Finmap.ext_lookup fun key => by rw [lookup_restrict]; split <;> rfl
    simp only [edgeProps, hpatches, hreplaced, hknown, Finmap.empty_union]
    cases s.isEmpty with
    | true => rfl
    | false =>
      by_cases hle : g.edges.length ≤ e
      · exact (congrArg (bif · then _ else _) (decide_eq_true hle)).trans (edgeRow_of_le hle).symm
      · exact congrArg (bif · then _ else _) (decide_eq_false hle)
  have hval : ∀ key, g.generation.edgeValue s e key = (g.generation.edgeRow e).lookup key := by
    intro key
    have hbelow : (bif !s.isEmpty && !g.generation.edgeInStack e && decide (g.edges.length ≤ e)
        then none else (g.generation.edgeRow e).lookup key) =
        (g.generation.edgeRow e).lookup key := by
      cases hu : !s.isEmpty && !g.generation.edgeInStack e && decide (g.edges.length ≤ e) with
      | false => rfl
      | true =>
        rw [edgeRow_of_le (of_decide_eq_true (Bool.and_eq_true_iff.mp hu).2)]
        rfl
    simp only [Generation.edgeValue, hvalue key, hreplaced, cond_false, Bool.cond_self]
    exact hbelow
  refine ⟨?_, fun key => ?_⟩
  · show (g.generation.edgeProps s e).pairs.map _ = _
    rw [hprops]
    rfl
  · show (g.generation.edgeValue s e key).elim _ _ = _
    rw [hval]
    rfl

/-- **Two snapshots that say the same of an edge show the same.** -/
theorem sameEdge {e : Nat} (hs : s.QuietEdge e) (hs' : s'.QuietEdge e) (hdelta : s.edgeDelta e = s'.edgeDelta e)
    (hvalue : ∀ key, s.edgePatchValue e key = s'.edgePatchValue e key) :
    (g.generation.merged s).SameEdge (g.generation.merged s') e := by
  by_cases hquiet : s.edgeDelta e = (∅, false) ∧ ∀ key, s.edgePatchValue e key = none
  · have h := @sameEdge_core g s e hquiet.1 hquiet.2
    have h' := @sameEdge_core g s' e (hdelta ▸ hquiet.1) fun key => hvalue key ▸ hquiet.2 key
    exact ⟨h.props.trans h'.props.symm, fun key => (h.prop key).trans (h'.prop key).symm⟩
  · have he : s.isEmpty = false := Bool.eq_false_iff.mpr fun h => hquiet (hs h)
    have he' : s'.isEmpty = false := Bool.eq_false_iff.mpr fun h =>
      hquiet ⟨hdelta.trans (hs' h).1, fun key => (hvalue key).trans ((hs' h).2 key)⟩
    have hpatches : s.edgePatches e = s'.edgePatches e := congrArg Prod.fst hdelta
    have hreplaced : s.edgeReplaced e = s'.edgeReplaced e := congrArg Prod.snd hdelta
    refine ⟨?_, fun key => ?_⟩
    · show (g.generation.edgeProps s e).pairs.map _ = (g.generation.edgeProps s' e).pairs.map _
      simp only [edgeProps, he, he', hpatches, hreplaced]
    · show (g.generation.edgeValue s e key).elim _ _ = (g.generation.edgeValue s' e key).elim _ _
      simp only [Generation.edgeValue, he, he', hreplaced, hvalue]

end CoreGraph

namespace DeltaState

theorem quietNode (st : DeltaState) (n : Nat) : st.snapshot.QuietNode n := by
  intro h
  have hlevels := levels_of_isEmpty h
  have hspares : ∀ l ∈ st.levels, l.nodePatch n = none := fun l hl =>
    nodePatch_of_isEmpty (hlevels l hl) n
  have hmem := hspares st.mem (.head _)
  have hsealed : st.SealedSparesNode n := fun l hl => hspares l (.tail _ hl)
  refine ⟨(sealed_nodePatch hsealed).trans hmem, (sealed_nodeIdentity hsealed).trans ?_⟩
  show [st.mem].findSome? (·.nodeIdentity n) = none
  rw [findSome?_cons, nodeIdentity_eq_none hmem, findSome?_nil]

theorem quietEdge (st : DeltaState) (e : Nat) : st.snapshot.QuietEdge e := by
  intro h
  have hlevels := levels_of_isEmpty h
  have hmem : st.mem.level.edgeDelta e = none :=
    edgeDeltaById_of_isEmpty (hlevels st.mem (.head _)) e
  have hsealed : st.SealedSparesEdge e := fun l hl =>
    edgeDeltaById_of_isEmpty (hlevels l (.tail _ hl)) e
  refine ⟨(sealed_edgeDeltas hsealed).trans ?_, fun key => (sealed_edgePatchValue hsealed key).trans ?_⟩
  · show ([st.mem.level].filterMap (·.edgeDelta e)).foldl _ _ = _
    rw [filterMap_cons, hmem]
    rfl
  · show edgePatchValue.go e key [st.mem.level] = none
    simp only [edgePatchValue.go, hmem]

/-! ## Statements -/

variable {ε : Type}

/-- The statement is a plain `DELETE` of the node `d`. -/
structure IsPlainDelete (st : DeltaState) (gen : Generation) (d : Nat) (ev : Evaluator ε)
    (stmt : WriteStmt ε) (value : Value) : Prop where
  op : stmt.op = .delete false
  matched : stmt.upsert = false
  key : ev.value stmt.keyValue "the anchor business-key value" = .ok value
  resolved : st.resolveNodeOpFrom (gen.resolveBusinessKey (stmt.identity value))
    (stmt.identity value) stmt.isSet stmt.upsert = .ok (some d)

/-- The plan of a plain `DELETE`: it is refused for the relationships that
`node_has_relationships` sees, and for nothing else. -/
theorem planWrite_plainDelete {st : DeltaState} {gen : Generation} {d : Nat} {ev : Evaluator ε}
    {stmt : WriteStmt ε} {value : Value} (h : st.IsPlainDelete gen d ev stmt value) : st.planWrite gen ev stmt value =
      if st.nodeHasRelationships gen d then .error deleteHasRelationshipsError
      else .ok ⟨stmt.identity value, [.delete], some d⟩ := by
  have hops : buildNodeWalOps ev stmt = .ok [.delete] := by rw [buildNodeWalOps, h.op]
  have hcond : st.conditionalOps gen ev stmt (stmt.identity value) = .ok [] := by
    rw [conditionalOps, h.matched]
    rfl
  have hplain : stmt.plainDelete = true := by rw [WriteStmt.plainDelete, h.op]; rfl
  rw [planWrite, hops, hcond, h.resolved, hplain]
  rfl

theorem executeWrite_plainDelete {st : DeltaState} {gen : Generation} {d : Nat} {ev : Evaluator ε}
    {stmt : WriteStmt ε} {value : Value} (h : st.IsPlainDelete gen d ev stmt value) : st.executeWrite gen ev stmt =
      if st.nodeHasRelationships gen d then .error deleteHasRelationshipsError
      else .ok (st.commit [.node (stmt.identity value) .delete (some d)]) := by
  rw [executeWrite, planStatement, h.key]
  show (st.planWrite gen ev stmt value >>= fun plan => pure (st.commit plan.resolvedOps)) = _
  rw [planWrite_plainDelete h]
  split <;> rfl

/-- A batch of plain `DELETE`s is refused as a whole for the relationships of any of its
nodes. -/
theorem executeWriteBatch_plainDelete {ρ : Type} {st : DeltaState} {gen : Generation} {stmt : WriteStmt ε}
    {rows : List ρ} {ev : ρ → Evaluator ε} {node : ρ → Nat} {value : ρ → Value}
    (h : ∀ row ∈ rows, st.IsPlainDelete gen (node row) (ev row) stmt (value row)) :
    st.executeWriteBatch gen stmt rows ev =
      if rows.any fun row => st.nodeHasRelationships gen (node row) then .error deleteHasRelationshipsError
      else .ok (st.commit (rows.map fun row => .node (stmt.identity (value row)) .delete (some (node row)))) := by
  have hkeyed : (rows.mapM fun row => ((ev row).value stmt.keyValue "the anchor business-key value").map (row, ·)) =
      .ok (rows.map fun row => (row, value row)) :=
    Fallible.mapM_ok fun row hrow => by rw [(h row hrow).key]; rfl
  have hplans : ((rows.map fun row => (row, value row)).mapM fun rv => st.planWrite gen (ev rv.1) stmt rv.2) =
      if (rows.map fun row => (row, value row)).any fun rv => st.nodeHasRelationships gen (node rv.1)
      then .error deleteHasRelationshipsError
      else .ok ((rows.map fun row => (row, value row)).map fun rv => ⟨stmt.identity rv.2, [.delete], some (node rv.1)⟩) := by
    refine Fallible.mapM_refused fun rv hrv => ?_
    obtain ⟨row, hrow, rfl⟩ := mem_map.mp hrv
    exact planWrite_plainDelete (h row hrow)
  rw [executeWriteBatch, hkeyed]
  show ((rows.map fun row => (row, value row)).mapM (fun rv => st.planWrite gen (ev rv.1) stmt rv.2) >>= fun plans =>
    Except.ok (st.commit (plans.flatMap PlannedWrite.resolvedOps))) = _
  rw [hplans, List.any_map, List.map_map]
  show ((if rows.any (fun row => st.nodeHasRelationships gen (node row)) then _ else _) >>= _) = _
  cases rows.any fun row => st.nodeHasRelationships gen (node row) with
  | true => rfl
  | false =>
    show Except.ok (st.commit ((rows.map _).flatMap _)) = _
    rw [flatMap_map]
    exact congrArg (fun ops => Except.ok (st.commit ops)) map_eq_flatMap.symm

/-- Two people without a relationship. -/
def strangers : CoreGraph where
  labels := ["Person"]
  reltypes := ["KNOWS"]
  nodes := [{ labels := [0], props := [("id", .int 1)] }, { labels := [0], props := [("id", .int 2)] }]
  edges := []
  indexes := [("person_id", "Person", "id")]
  ends := nofun

/-- `MATCH (n:Person {id: 1}) DELETE n`. -/
def deleteFirst : WriteStmt Value :=
  { label := "Person", key := "id", keyValue := .int 1, upsert := false, op := .delete false }

/-- A patch of the second person is sealed, and the two are then related. -/
def relatedAfterFlush : List (GraphStep Value) :=
  [.node (.write literal (setPerson (.int 2) "a" (.int 1)).2), .node .flush,
    setKnows none "since" (.int 2020)]

/-- The two are related, and that is sealed. -/
def flushedRelation : List (GraphStep Value) :=
  [setKnows none "since" (.int 2020), .node .flush]

end DeltaState

end Slater
