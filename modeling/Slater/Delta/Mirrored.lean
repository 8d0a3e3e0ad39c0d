import Slater.Delta.BornIds

/-!
# Both ends of a delta edge

A memtable keeps two adjacencies, one by source and one by destination. Nothing in the source says that they agree;
it follows from how the operations write them. A new edge is appended to both, a deleted patch of a core edge is
appended to both unless it is listed, and no list is ever shortened. So there is one list of edges, the order in
which they were entered, and the list of a node is the part of it whose end is that node (`Linked`).

`Linked.apply` carries this through every operation that is resolved by `ResolvedBy`. The condition matters for a
deleted patch: it is entered under the ends that the delete resolves, while the entry holds the ends that the patch
resolved, and only the condition makes the two the same.

For readers this becomes `Level.Mirrored`, and a snapshot that merges such levels has it again
(`DeltaSnapshot.mirrored`): merge keys are compared within the edges between two nodes, so the newest edge seen from
one end is the newest seen from the other. Nothing is said here about a segment that is spilled from a memtable.
-/

namespace Slater

open Map List Memtable Option

/-! ## One order of edges -/

/-- The endpoint of an edge that lists it as outgoing, or as incoming. -/
def EdgeIdentity.near (id : EdgeIdentity) (outgoing : Bool) : NodeIdentity := bif outgoing then id.src else id.dst

/-- The dense id of that endpoint, as the entry holds it. -/
def EdgeEntry.near (e : EdgeEntry) (outgoing : Bool) : Nat := bif outgoing then e.srcDense else e.dstDense

namespace Memtable

variable {m m' : Memtable} {below : NodeIdentity → Option Nat} {coreEdge : EdgeIdentity → Option Nat}
  {order : List EdgeIdentity} {id : EdgeIdentity} {e : EdgeEntry}

/-- The edges that a node lists in one direction. -/
def adjacent (m : Memtable) (outgoing : Bool) (node : Nat) : List EdgeIdentity :=
  ((bif outgoing then m.outAdj else m.inAdj).lookup node).getD []

/-- The edge is stored with that end. -/
def hasEnd (m : Memtable) (outgoing : Bool) (node : Nat) (id : EdgeIdentity) : Bool :=
  (m.edges.lookup id).any (·.near outgoing == node)

/-- The dense id of an endpoint: the one it has below, else the one it was born with here. -/
def endOf (below : NodeIdentity → Option Nat) (m : Memtable) (id : NodeIdentity) : Option Nat :=
  (below id).or (m.bornSyntheticForIdentity id)

/-- **The two adjacencies list one order of edges.** An entry holds the ends that its key has,
every edge of the order is stored, and the list of a node is the part of the order that ends
there. -/
structure Linked (below : NodeIdentity → Option Nat) (m : Memtable) (order : List EdgeIdentity) : Prop where
  nodup : order.Nodup
  stored : ∀ id ∈ order, (m.edges.lookup id).isSome
  ends : ∀ id e, m.edges.lookup id = some e → ∀ outgoing, m.endOf below (id.near outgoing) = some (e.near outgoing)
  lists : ∀ outgoing node, m.adjacent outgoing node = order.filter (m.hasEnd outgoing node)

theorem linked_withBases (below : NodeIdentity → Option Nat) (nodeBase edgeBase : Nat) :
    (withBases nodeBase edgeBase).Linked below [] where
  nodup := nodup_nil
  stored := forall_mem_nil _
  ends := by simp [withBases]
  lists outgoing node := by cases outgoing <;> simp [withBases, adjacent]

theorem bornEndpointDense_eq (m : Memtable) (id : NodeIdentity) : m.bornEndpointDense id (below id) = m.endOf below id := by
  unfold bornEndpointDense endOf
  cases below id <;> rfl

/-- An endpoint keeps its dense id while born ids are only added. -/
theorem endOf_mono (hborn : ∀ id d, m.bornSyntheticForIdentity id = some d → m'.bornSyntheticForIdentity id = some d)
    {id : NodeIdentity} {d : Nat} (hd : m.endOf below id = some d) : m'.endOf below id = some d := by
  unfold endOf at hd ⊢
  cases hbelow : below id with
  | some d' =>
    rw [hbelow] at hd
    exact hd
  | none =>
    rw [hbelow] at hd
    exact hborn id d hd

namespace Linked

variable (h : m.Linked below order)
include h

/-- An edge of the order is listed at both of its ends. -/
theorem mem_adjacent (he : m.edges.lookup id = some e) (outgoing : Bool) :
    id ∈ m.adjacent outgoing (e.near outgoing) ↔ id ∈ order := by
  rw [h.lists, mem_filter, and_iff_left_iff_imp]
  intro _
  simp [hasEnd, he]

/-- A step that leaves the edges alone and takes no born id back. -/
theorem of_edgeHalf (hedges : m'.edgeHalf = m.edgeHalf)
    (hborn : ∀ id d, m.bornSyntheticForIdentity id = some d → m'.bornSyntheticForIdentity id = some d) :
    m'.Linked below order := by
  have hstored : m'.edges = m.edges := (congrArg edges hedges :)
  have hout : m'.outAdj = m.outAdj := (congrArg outAdj hedges :)
  have hin : m'.inAdj = m.inAdj := (congrArg inAdj hedges :)
  refine ⟨h.nodup, hstored ▸ h.stored, fun id e he outgoing => ?_, fun outgoing node => ?_⟩
  · exact endOf_mono hborn (h.ends id e (hstored ▸ he) outgoing)
  · have hadj : m'.adjacent outgoing node = m.adjacent outgoing node := by
      unfold adjacent
      rw [hout, hin]
    have hends : m'.hasEnd outgoing node = m.hasEnd outgoing node := by
      unfold hasEnd
      rw [hstored]
    rw [hadj, hends, h.lists]

/-- An entry is stored with the ends that its key has; a stored one had them too. -/
theorem hasEnd_insert (hends : ∀ outgoing, m.endOf below (id.near outgoing) = some (e.near outgoing))
    (outgoing : Bool) (node : Nat) {id' : EdgeIdentity} (hid : id' ∈ order) :
    ((m.edges.insert id e).lookup id').any (·.near outgoing == node) = m.hasEnd outgoing node id' := by
  unfold hasEnd
  rw [lookup_insert_ite]
  split
  next heq =>
    subst heq
    obtain ⟨old, hold⟩ := isSome_iff_exists.mp (h.stored id' hid)
    have hsame := (h.ends id' old hold outgoing).symm.trans (hends outgoing)
    rw [hold, any_some, any_some, some.inj hsame]
  next => rfl

/-- An entry is rewritten or stored outside the adjacencies. -/
theorem put (hends : ∀ outgoing, m.endOf below (id.near outgoing) = some (e.near outgoing))
    {byEdgeId : Map Nat EdgeIdentity} : { m with edges := m.edges.insert id e, byEdgeId }.Linked below order where
  nodup := h.nodup
  stored id' hid := by
    show ((m.edges.insert id e).lookup id').isSome
    rw [lookup_insert_ite]
    split
    next => rfl
    next => exact h.stored id' hid
  ends := forall_lookup_insert h.ends hends
  lists outgoing node := by
    refine (h.lists outgoing node).trans (filter_congr fun id' hid => ?_)
    exact (h.hasEnd_insert hends outgoing node hid).symm

/-- An edge that the order does not have is entered at both ends. -/
theorem push (hnew : id ∉ order) (hends : ∀ outgoing, m.endOf below (id.near outgoing) = some (e.near outgoing))
    {byEdgeId : Map Nat EdgeIdentity} {bornEdges : List EdgeIdentity} :
    { m with
      edges := m.edges.insert id e, byEdgeId, bornEdges
      outAdj := pushAdj m.outAdj e.srcDense id, inAdj := pushAdj m.inAdj e.dstDense id }.Linked below
      (order ++ [id]) where
  nodup := h.nodup.append (nodup_singleton id) (by simpa using hnew)
  stored id' hid := by
    show ((m.edges.insert id e).lookup id').isSome
    rw [lookup_insert_ite]
    split
    next => rfl
    next hne => exact h.stored id' ((mem_append.mp hid).resolve_right fun hid => hne (mem_singleton.mp hid))
  ends := forall_lookup_insert h.ends hends
  lists outgoing node := by
    have hlist : ((pushAdj (bif outgoing then m.outAdj else m.inAdj) (e.near outgoing) id).lookup node).getD [] =
        m.adjacent outgoing node ++ if node = e.near outgoing then [id] else [] := by
      unfold pushAdj adjacent
      rw [lookup_insert_ite]
      split
      next heq => rw [heq, getD_some]
      next => rw [append_nil]
    have hpart : ∀ id' ∈ order, m.hasEnd outgoing node id' =
        ((m.edges.insert id e).lookup id').any (·.near outgoing == node) :=
      fun id' hid => (h.hasEnd_insert hends outgoing node hid).symm
    have hself : [id].filter (fun id' => ((m.edges.insert id e).lookup id').any (·.near outgoing == node)) =
        if node = e.near outgoing then [id] else [] := by
      rw [filter_singleton, Finmap.lookup_insert, any_some]
      by_cases hnode : node = e.near outgoing
      · rw [if_pos hnode, hnode, beq_self_eq_true, cond_true]
      · rw [if_neg hnode, beq_false_of_ne (Ne.symm hnode), cond_false]
    have hgoal : ((pushAdj (bif outgoing then m.outAdj else m.inAdj) (e.near outgoing) id).lookup node).getD [] =
        (order ++ [id]).filter fun id' => ((m.edges.insert id e).lookup id').any (·.near outgoing == node) := by
      rw [hlist, filter_append, hself, h.lists, filter_congr hpart]
    cases outgoing <;> exact hgoal

/-- An identity without an entry is not in the order. -/
theorem notMem_of_lookup_eq_none (hst : m.edges.lookup id = none) : id ∉ order := by
  intro hid
  have hsome := h.stored id hid
  rw [hst] at hsome
  cases hsome

theorem upsertLinked {src dst : Nat} (hsrc : m.endOf below id.src = some src) (hdst : m.endOf below id.dst = some dst)
    (replace : Bool) (patches : List (String × Value)) :
    ∃ order', (m.upsertLinked id src dst replace patches).Linked below order' := by
  cases hst : m.edges.lookup id with
  | none =>
    simp only [Memtable.upsertLinked, hst, modifyEdge, Finmap.lookup_insert, Finmap.insert_insert]
    exact ⟨order ++ [id], h.push (h.notMem_of_lookup_eq_none hst) fun outgoing => by cases outgoing <;> assumption⟩
  | some e =>
    simp only [Memtable.upsertLinked, hst, modifyEdge]
    refine ⟨order, h.put fun outgoing => ?_⟩
    exact h.ends id e hst outgoing

theorem patchLinked {src dst : Nat} (hsrc : m.endOf below id.src = some src) (hdst : m.endOf below id.dst = some dst)
    (cid : Nat) (replace : Bool) (patches : List (String × Value)) :
    (m.patchLinked id src dst cid replace patches).Linked below order := by
  cases hst : m.edges.lookup id with
  | none =>
    simp only [Memtable.patchLinked, hst, modifyEdge, Finmap.lookup_insert, Finmap.insert_insert]
    exact h.put fun outgoing => by cases outgoing <;> assumption
  | some e =>
    simp only [Memtable.patchLinked, hst, modifyEdge]
    refine h.put fun outgoing => ?_
    exact h.ends id e hst outgoing

theorem deleteLinked {src dst : Nat} (hsrc : m.endOf below id.src = some src) (hdst : m.endOf below id.dst = some dst) :
    ∃ order', (m.deleteLinked id src dst).Linked below order' := by
  cases hst : m.edges.lookup id with
  | none =>
    simp only [Memtable.deleteLinked, hst]
    exact ⟨order ++ [id], h.push (h.notMem_of_lookup_eq_none hst) fun outgoing => by cases outgoing <;> assumption⟩
  | some e =>
    cases hc : e.coreEdge with
    | none =>
      simp only [Memtable.deleteLinked, hst, hc]
      refine ⟨order, h.put fun outgoing => ?_⟩
      exact h.ends id e hst outgoing
    | some cid =>
      -- the delete resolves the ends that the entry holds, so the edge is listed at both or at none
      obtain rfl : e.srcDense = src := some.inj ((h.ends id e hst true).symm.trans hsrc)
      obtain rfl : e.dstDense = dst := some.inj ((h.ends id e hst false).symm.trans hdst)
      simp only [Memtable.deleteLinked, hst, hc, pushAdjOnce]
      have hout : id ∈ (m.outAdj.lookup e.srcDense).getD [] ↔ id ∈ order := h.mem_adjacent hst true
      have hin : id ∈ (m.inAdj.lookup e.dstDense).getD [] ↔ id ∈ order := h.mem_adjacent hst false
      by_cases hid : id ∈ order
      · rw [if_pos (hout.mpr hid), if_pos (hin.mpr hid)]
        refine ⟨order, h.put fun outgoing => ?_⟩
        exact h.ends id e hst outgoing
      · rw [if_neg (mt hout.mp hid), if_neg (mt hin.mp hid)]
        exact ⟨order ++ [id], h.push (e := { e with coreEdge := none, delta := .tombstone }) hid (h.ends id e hst)⟩

end Linked

/-- An endpoint is found or created with the id that the memtable then knows it by. -/
theorem endOf_endpoint (below : NodeIdentity → Option Nat) (m : Memtable) (id : NodeIdentity) :
    (m.endpointDenseOrCreate id (below id)).1.endOf below id = some (m.endpointDenseOrCreate id (below id)).2 := by
  unfold endpointDenseOrCreate endOf
  cases hbelow : below id with
  | some d => rfl
  | none =>
    cases hs : (m.nodes.lookup id).bind (·.synthetic) with
    | some d => exact hs
    | none => exact (bornSyntheticForIdentity_allocateBorn m id {} id).trans (if_pos rfl)

/-- Creating an endpoint takes no born id back. -/
theorem bornSynthetic_endpoint (m : Memtable) (id : NodeIdentity) (resolved : Option Nat) {id' : NodeIdentity} {d : Nat}
    (hd : m.bornSyntheticForIdentity id' = some d) :
    (m.endpointDenseOrCreate id resolved).1.bornSyntheticForIdentity id' = some d := by
  rcases m.endpointDenseOrCreate_cases id resolved with heq | ⟨-, hs, heq⟩ <;> rw [heq]
  · exact hd
  · rw [bornSyntheticForIdentity_allocateBorn, if_neg, hd]
    rintro rfl
    rw [entryOf_synthetic, hd] at hs
    cases hs

theorem endpoint_edgeHalf (m : Memtable) (id : NodeIdentity) (resolved : Option Nat) :
    (m.endpointDenseOrCreate id resolved).1.edgeHalf = m.edgeHalf := by
  rcases m.endpointDenseOrCreate_cases id resolved with heq | ⟨-, -, heq⟩ <;> rw [heq]
  rfl

/-- **An operation keeps the two adjacencies in step.** An edge that is already listed keeps its
place; the order only grows at its end. -/
theorem Linked.apply (h : m.Linked below order) (hactive : m.Active below coreEdge) {op : ResolvedOp}
    (hop : op.ResolvedBy below coreEdge m) : ∃ order', (m.apply op).Linked below order' := by
  cases op with
  | node id w resolved =>
    refine ⟨order, h.of_edgeHalf (writeNode_edgeHalf m id resolved w) fun id' d hd => ?_⟩
    exact hactive.nodes.bornSynthetic_apply (hactive.apply hop).nodes hd
  | upsertEdge id replace patches src dst edgeId =>
    obtain ⟨rfl, rfl, -⟩ := hop
    have hfirst := h.of_edgeHalf (endpoint_edgeHalf m id.src (below id.src)) fun _ _ =>
      bornSynthetic_endpoint m id.src (below id.src)
    generalize hm₁ : (m.endpointDenseOrCreate id.src (below id.src)).1 = m₁ at hfirst
    have hends := hfirst.of_edgeHalf (endpoint_edgeHalf m₁ id.dst (below id.dst)) fun _ _ =>
      bornSynthetic_endpoint m₁ id.dst (below id.dst)
    have hdst := endOf_endpoint below m₁ id.dst
    -- the source keeps its id while the destination is created
    have hsrc := endOf_mono (fun _ _ => bornSynthetic_endpoint m₁ id.dst (below id.dst))
      (hm₁ ▸ endOf_endpoint below m id.src)
    subst hm₁
    cases edgeId with
    | none => exact hends.upsertLinked hsrc hdst replace patches
    | some cid => exact ⟨order, hends.patchLinked hsrc hdst cid replace patches⟩
  | deleteEdge id src dst =>
    obtain ⟨rfl, rfl⟩ := hop
    simp only [Memtable.apply, deleteEdgeKeyed, bornEndpointDense_eq]
    split
    next src dst hsrc hdst => exact h.deleteLinked hsrc hdst
    next => exact ⟨order, h⟩

end Memtable

/-! ## Levels and snapshots -/

/-- An edge as its other end lists it, when that end lists it as an edge of `n`. -/
def DeltaEdge.seenFrom (n : Nat) (e : DeltaEdge) : DeltaEdge := { e with other := n }

/-- Two lists that mirror each other hold an edge between their nodes together. -/
theorem DeltaEdge.mem_iff_seenFrom {outs ins : List DeltaEdge} {n w : Nat}
    (h : (outs.filter (·.other = w)).map (seenFrom n) = ins.filter (·.other = n)) {e : DeltaEdge} (he : e.other = w) :
    e ∈ outs ↔ e.seenFrom n ∈ ins := by
  have hin : e.seenFrom n ∈ ins ↔ e.seenFrom n ∈ ins.filter (·.other = n) := by simp [seenFrom]
  rw [hin, ← h, List.mem_map]
  constructor
  · intro hmem
    exact ⟨e, mem_filter.mpr ⟨hmem, decide_eq_true he⟩, rfl⟩
  · rintro ⟨e', hmem, heq⟩
    obtain ⟨hmem, hother⟩ := mem_filter.mp hmem
    have hsame : e' = e := by
      have hother : e'.other = e.other := (of_decide_eq_true hother).trans he.symm
      obtain ⟨_, _, _, _, _⟩ := e
      obtain ⟨_, _, _, _, _⟩ := e'
      simp only [seenFrom, mk.injEq, true_and] at heq hother ⊢
      exact ⟨hother, heq⟩
    exact hsame ▸ hmem

/-- The edges of a node in one direction. -/
def Level.edgesOf (l : Level) (outgoing : Bool) (node : Nat) : List DeltaEdge :=
  bif outgoing then l.outEdges node else l.inEdges node

/-- **Both ends list the edges between them**, in one order, and no list has an id twice. Edges
between the same two nodes are compared as lists, since the merge of levels keeps the first of
each key. -/
structure Level.Mirrored (l : Level) : Prop where
  ends : ∀ n w, ((l.outEdges n).filter (·.other = w)).map (DeltaEdge.seenFrom n) =
    (l.inEdges w).filter (·.other = n)
  once : ∀ outgoing node, ((l.edgesOf outgoing node).filterMap (·.edgeId)).Nodup

namespace Memtable.Linked

variable {m : Memtable} {below : NodeIdentity → Option Nat} {coreEdge : EdgeIdentity → Option Nat}
  {order : List EdgeIdentity} (h : m.Linked below order)
include h

theorem edgesOf_eq (outgoing : Bool) (node : Nat) : m.level.edgesOf outgoing node =
    order.filterMap fun id => ((m.edges.lookup id).filter (·.near outgoing == node)).map (deltaEdge outgoing id) := by
  have hlist : m.level.edgesOf outgoing node =
      (m.adjacent outgoing node).filterMap fun id => (m.edges.lookup id).map (deltaEdge outgoing id) := by
    cases outgoing <;> rfl
  rw [hlist, h.lists, filterMap_filter]
  refine filterMap_congr fun id _ => ?_
  unfold hasEnd
  cases m.edges.lookup id with
  | none => rfl
  | some e => cases hnear : e.near outgoing == node <;> simp [Option.filter, hnear]

/-- **A memtable in step is mirrored.** -/
theorem mirrored (hedges : m.EdgesNumbered coreEdge) : m.level.Mirrored where
  ends n w := by
    have hout : m.level.outEdges n = _ := h.edgesOf_eq true n
    have hin : m.level.inEdges w = _ := h.edgesOf_eq false w
    rw [hout, hin, filter_filterMap, map_filterMap, filter_filterMap]
    refine filterMap_congr fun id _ => ?_
    cases m.edges.lookup id with
    | none => rfl
    | some e =>
      by_cases hsrc : e.srcDense = n <;> by_cases hdst : e.dstDense = w <;>
        simp [Option.filter, EdgeEntry.near, deltaEdge, DeltaEdge.seenFrom, hsrc, hdst]
  once outgoing node := by
    rw [h.edgesOf_eq, filterMap_filterMap]
    refine h.nodup.filterMap fun id id' x hx hx' => ?_
    -- a synthetic id is the position of its edge among the born ones
    have howner : ∀ {id : EdgeIdentity}, x ∈ (((m.edges.lookup id).filter (·.near outgoing == node)).map
        (deltaEdge outgoing id)).bind (·.edgeId) → m.bornEdges[x - m.edgeSyntheticBase]? = some id := by
      intro id hx
      obtain ⟨edge, hedge, hx⟩ := bind_eq_some_iff.mp hx
      obtain ⟨e, he, rfl⟩ := map_eq_some_iff.mp hedge
      obtain ⟨i, rfl, hi⟩ := hedges.synthetic id e x (filter_eq_some_iff.mp he).1 hx
      rwa [Nat.add_sub_cancel_left]
    exact some.inj ((howner hx).symm.trans (howner hx'))

end Memtable.Linked

section KeepFirst

variable {seen seen' : List (String × Nat × Bytes)} {xs : List DeltaEdge}

theorem keepFirst_sublist : (keepFirst seen xs).Sublist xs := by
  induction xs generalizing seen with
  | nil => exact .slnil
  | cons x xs ih =>
    rw [keepFirst]
    split
    next => exact ih.cons x
    next => exact ih.cons_cons x

/-- A map that keeps apart and together what merge keys do commutes with the choice of the
first. -/
theorem keepFirst_map {f : DeltaEdge → DeltaEdge}
    (hf : ∀ x ∈ xs, ∀ y ∈ xs, (f x).mergeKey = (f y).mergeKey ↔ x.mergeKey = y.mergeKey)
    (hseen : ∀ x ∈ xs, (f x).mergeKey ∈ seen' ↔ x.mergeKey ∈ seen) :
    keepFirst seen' (xs.map f) = (keepFirst seen xs).map f := by
  induction xs generalizing seen seen' with
  | nil => rfl
  | cons x xs ih =>
    obtain ⟨hx, hxs⟩ := forall_mem_cons.mp hseen
    have htail : ∀ a ∈ xs, ∀ b ∈ xs, (f a).mergeKey = (f b).mergeKey ↔ a.mergeKey = b.mergeKey :=
      fun a ha b hb => hf a (.tail _ ha) b (.tail _ hb)
    rw [map_cons, keepFirst, keepFirst]
    by_cases hmem : x.mergeKey ∈ seen
    · rw [if_pos hmem, if_pos (hx.mpr hmem)]
      exact ih htail hxs
    · rw [if_neg hmem, if_neg (mt hx.mp hmem), map_cons, ih htail fun y hy => ?_]
      rw [mem_cons, mem_cons, hxs y hy, hf y (.tail _ hy) x (.head _)]

/-- The edges to one node are chosen among themselves. -/
theorem filter_keepFirst (w : Nat) :
    (keepFirst seen xs).filter (·.other = w) = keepFirst seen (xs.filter (·.other = w)) := by
  induction xs generalizing seen with
  | nil => rfl
  | cons x xs ih =>
    rw [keepFirst]
    by_cases hw : x.other = w
    · rw [filter_cons_of_pos (by simpa using hw), keepFirst]
      split
      next => exact ih
      next => rw [filter_cons_of_pos (by simpa using hw), ih]
    · rw [filter_cons_of_neg (by simpa using hw)]
      split
      next => exact ih
      next =>
        -- the key of an edge to another node stands in nobody's way
        rw [filter_cons_of_neg (by simpa using hw), ih]
        have hkey : keepFirst (x.mergeKey :: seen) ((xs.filter (·.other = w)).map id) =
            (keepFirst seen (xs.filter (·.other = w))).map id := by
          refine keepFirst_map (fun _ _ _ _ => Iff.rfl) fun y hy => ?_
          have hother : y.other = w := by simpa using (mem_filter.mp hy).2
          rw [id, mem_cons, or_iff_right]
          intro heq
          exact hw ((congrArg (·.2.1) heq).symm.trans hother)
        rwa [List.map_id, List.map_id] at hkey

end KeepFirst

namespace DeltaSnapshot

variable {s : DeltaSnapshot}

theorem mergeEdges_sublist (read : Level → List DeltaEdge) : (s.mergeEdges read).Sublist (s.levels.flatMap read) := by
  unfold mergeEdges
  split
  next => exact sublist_append_left ..
  next => exact keepFirst_sublist

/-- **A snapshot of mirrored levels is mirrored.** -/
theorem mirrored (hs : ∀ l ∈ s.levels, l.Mirrored) (n w : Nat) :
    ((s.outEdges n).filter (·.other = w)).map (DeltaEdge.seenFrom n) = (s.inEdges w).filter (·.other = n) := by
  have hlevels : ((s.levels.flatMap (·.outEdges n)).filter (·.other = w)).map (DeltaEdge.seenFrom n) =
      (s.levels.flatMap (·.inEdges w)).filter (·.other = n) := by
    rw [filter_flatMap, filter_flatMap, map_flatMap]
    exact flatMap_congr fun l hl => (hs l hl).ends n w
  unfold outEdges inEdges mergeEdges
  split
  next => exact (hs _ (.head _)).ends n w
  next =>
    rw [filter_keepFirst, filter_keepFirst, ← hlevels]
    refine (keepFirst_map (fun x hx y hy => ?_) fun x hx => by simp).symm
    have hsame : x.other = y.other := by
      rw [of_decide_eq_true (mem_filter.mp hx).2, of_decide_eq_true (mem_filter.mp hy).2]
    simp [DeltaEdge.mergeKey, DeltaEdge.seenFrom, hsame]

end DeltaSnapshot

end Slater
