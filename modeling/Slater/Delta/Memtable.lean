import Slater.Delta.Node

/-!
# The memtable

`Memtable` of `slater-delta/src/memtable.rs` is one level of the writable layer: node and edge
entries keyed by business identity, the read indexes over them (by dense id, by core edge id, by
endpoint), and the two synthetic id spaces in which it allocates born nodes and born edges. This
module translates every mutator that `Memtable::apply` dispatches to.

A `ResolvedOp` is an operation of the write-ahead log together with the dense ids the caller resolved
for it. Pairing the two makes the kind mismatch on which `apply` would panic impossible to build.

An entry of the source repeats the identity it is keyed by; the model keeps it in the key only. The
running size estimate steers when a flush happens and no read sees it, so it is left out, as is the
interner (see `Slater.Value`).
-/

namespace Slater

open Map NodeDelta

/-- The folded property delta of one edge (`memtable.rs`, `EdgeDelta`). -/
@[ext] structure EdgeDelta where
  patches : Map String Value := ∅
  replaced : Bool := false
  tombstoned : Bool := false
  deriving DecidableEq

namespace EdgeDelta

/-- The delta `delete_edge` leaves. -/
def tombstone : EdgeDelta := { tombstoned := true }

/-- `apply_edge_patches`: a replace-all drops the prior patches, and the identifying property is
re-seeded last. -/
def applyPatches (d : EdgeDelta) (edgeKey : Option (String × Value)) (replace : Bool)
    (patches : List (String × Value)) : EdgeDelta :=
  let d := bif replace then { d with patches := ∅, replaced := true } else d
  let d := { d with patches := insertAll d.patches patches }
  match edgeKey with
  | some (name, value) => { d with patches := d.patches.insert name value }
  | none => d

@[simp] theorem applyPatches_tombstoned (d : EdgeDelta) (edgeKey : Option (String × Value))
    (replace : Bool) (patches : List (String × Value)) :
    (d.applyPatches edgeKey replace patches).tombstoned = d.tombstoned := by
  cases edgeKey <;> cases replace <;> rfl

end EdgeDelta

/-- A stored node entry; `synthetic` is the dense id of a node born in this level. -/
structure NodeEntry where
  delta : NodeDelta := {}
  synthetic : Option Nat := none
  deriving DecidableEq

/-- A stored edge entry. An edge born in this level has a synthetic id, an in-place patch of a
core edge has the core edge's id, and a tombstone that only suppresses a core edge has
neither. -/
structure EdgeEntry where
  srcDense : Nat
  dstDense : Nat
  syntheticEdge : Option Nat := none
  coreEdge : Option Nat := none
  delta : EdgeDelta := {}
  deriving DecidableEq

/-- The single-writer memtable. Entries are filed by business identity; the other maps are
indexes over them, which the mutators keep by hand as the source does. Nothing in the type says
that they agree with the entries: `Memtable.Coherent` does. -/
structure Memtable where
  nodes : Map NodeIdentity NodeEntry := ∅
  edges : Map EdgeIdentity EdgeEntry := ∅
  outAdj : Map Nat (List EdgeIdentity) := ∅
  inAdj : Map Nat (List EdgeIdentity) := ∅
  byDense : Map Nat NodeIdentity := ∅
  byEdgeId : Map Nat EdgeIdentity := ∅
  syntheticBase : Nat := 0
  edgeSyntheticBase : Nat := 0
  born : List NodeIdentity := []
  bornEdges : List EdgeIdentity := []
  tombstoned : Finset Nat := ∅
  bornLabelCounts : Map String Nat := ∅

/-- An operation of the log with the dense ids resolved for it (`WalOp` with `OpResolution`). A
node operation carries its key's dense id, an edge operation those of its endpoints, and an
upsert of an edge also the id of the core edge it patches in place. -/
inductive ResolvedOp where
  | node (id : NodeIdentity) (w : NodeWrite) (resolved : Option Nat)
  | upsertEdge (id : EdgeIdentity) (replace : Bool) (patches : List (String × Value)) (src dst edgeId : Option Nat)
  | deleteEdge (id : EdgeIdentity) (src dst : Option Nat)
  deriving DecidableEq

namespace Memtable

variable {entry : NodeEntry} {w : NodeWrite} (m : Memtable) (id : NodeIdentity)

/-- `Memtable::with_bases`. -/
def withBases (nodeBase edgeBase : Nat) : Memtable :=
  { syntheticBase := nodeBase, edgeSyntheticBase := edgeBase }

/-! ## Node operations -/

/-- The stored entry of an identity, or the one `or_insert_with` creates. -/
def entryOf : NodeEntry := (m.nodes.lookup id).getD {}

/-- Allocate the next synthetic node id for `id`, whose entry becomes `entry`. -/
def allocateBorn (entry : NodeEntry) : Memtable :=
  let dense := m.syntheticBase + m.born.length
  { m with
    born := m.born ++ [id]
    byDense := m.byDense.insert dense id
    nodes := m.nodes.insert id { entry with synthetic := some dense }
    bornLabelCounts :=
      m.bornLabelCounts.insert id.label ((m.bornLabelCounts.lookup id.label).getD 0 + 1) }

variable (resolved : Option Nat)

/-- `touch_node_entry`: get or create the entry, resurrect it, and register its dense id. -/
def touchNodeEntry : Memtable :=
  let entry := m.entryOf id
  let live := { entry with delta := entry.delta.resurrect }
  let tombstoned :=
    bif entry.delta.tombstoned then
      match resolved.or entry.synthetic with
      | some dense => m.tombstoned.erase dense
      | none => m.tombstoned
    else m.tombstoned
  let m := { m with nodes := m.nodes.insert id live, tombstoned }
  match resolved, entry.synthetic with
  | some dense, _ => { m with byDense := m.byDense.insert dense id }
  | none, none => m.allocateBorn id live
  | none, some _ => m

/-- Rewrite the delta of a stored node entry. -/
def modifyNode (f : NodeDelta → NodeDelta) : Memtable :=
  match m.nodes.lookup id with
  | some entry => { m with nodes := m.nodes.insert id { entry with delta := f entry.delta } }
  | none => m

/-- `upsert_node`. -/
def upsertNode (patches : List (String × Value)) : Memtable :=
  (m.touchNodeEntry id resolved).modifyNode id (·.upsert patches)

/-- `remove_node_props`. -/
def removeNodeProps (props : List String) : Memtable :=
  (m.touchNodeEntry id resolved).modifyNode id (·.removeProps props)

/-- `replace_node`. -/
def replaceNode (patches : List (String × Value)) : Memtable :=
  (m.touchNodeEntry id resolved).modifyNode id (·.replaceProps patches)

/-- `set_node_labels`. -/
def setNodeLabels (added removed : List String) : Memtable :=
  (m.touchNodeEntry id resolved).modifyNode id (·.setLabels added removed)

/-- `delete_node`: a key that is neither stored here nor resolved exists nowhere, and the delete
stores nothing. -/
def deleteNode : Memtable :=
  match m.nodes.lookup id, resolved with
  | none, none => m
  | stored, resolved =>
    let entry := stored.getD {}
    let m := { m with nodes := m.nodes.insert id { entry with delta := .tombstone } }
    match resolved, entry.synthetic with
    | some dense, _ =>
      { m with byDense := m.byDense.insert dense id, tombstoned := insert dense m.tombstoned }
    | none, some dense => { m with tombstoned := insert dense m.tombstoned }
    | none, none => m

/-- The node half of `Memtable::apply`. -/
def writeNode : NodeWrite → Memtable
  | .upsert patches => m.upsertNode id resolved patches
  | .removeProps props => m.removeNodeProps id resolved props
  | .replace patches => m.replaceNode id resolved patches
  | .setLabels added removed => m.setNodeLabels id resolved added removed
  | .delete => m.deleteNode id resolved

variable {m id}

theorem lookup_modifyNode (h : m.nodes.lookup id = some entry) (f : NodeDelta → NodeDelta) :
    m.modifyNode id f = { m with nodes := m.nodes.insert id { entry with delta := f entry.delta } } := by
  simp only [modifyNode, h]

/-- Every write but a delete touches the entry and then rewrites the live delta it finds. -/
theorem writeNode_of_touch {resolved : Option Nat} (h : (m.touchNodeEntry id resolved).nodes.lookup id = some entry)
    (live : entry.delta.resurrect = entry.delta) (hw : w ≠ .delete) : m.writeNode id resolved w =
      { m.touchNodeEntry id resolved with
        nodes := (m.touchNodeEntry id resolved).nodes.insert id
          { entry with delta := entry.delta.write w } } := by
  cases w with
  | delete => exact absurd rfl hw
  | upsert patches => simp only [writeNode, upsertNode, lookup_modifyNode h, write, live]
  | removeProps props =>
    simp only [writeNode, removeNodeProps, lookup_modifyNode h, write, live]
  | replace patches =>
    simp only [writeNode, replaceNode, lookup_modifyNode h, write, live]
  | setLabels added removed =>
    simp only [writeNode, setNodeLabels, lookup_modifyNode h, write, live]

/-- **A node operation resolved to a dense id**: the delta of its entry takes the write, the
dense id is registered, and nothing is allocated. -/
theorem writeNode_some (m : Memtable) (id : NodeIdentity) (dense : Nat) (w : NodeWrite) :
    m.writeNode id (some dense) w =
      { m with
        nodes := m.nodes.insert id { m.entryOf id with delta := (m.entryOf id).delta.write w }
        byDense := m.byDense.insert dense id
        tombstoned :=
          if w = .delete then insert dense m.tombstoned
          else bif (m.entryOf id).delta.tombstoned then m.tombstoned.erase dense
          else m.tombstoned } := by
  by_cases hw : w = .delete
  · subst hw
    cases hst : m.nodes.lookup id <;> simp [writeNode, deleteNode, entryOf]
  · have htouch : m.touchNodeEntry id (some dense) =
        { m with
          nodes := m.nodes.insert id { m.entryOf id with delta := (m.entryOf id).delta.resurrect }
          byDense := m.byDense.insert dense id
          tombstoned := bif (m.entryOf id).delta.tombstoned then m.tombstoned.erase dense
            else m.tombstoned } := rfl
    rw [writeNode_of_touch (by rw [htouch]; exact Finmap.lookup_insert _) rfl hw, htouch]
    simp [hw, write_resurrect]

/-- A node operation on a node born here, addressed by its key alone: the delta of its entry
takes the write. -/
theorem writeNode_synthetic {dense : Nat} (h : m.nodes.lookup id = some entry)
    (hs : entry.synthetic = some dense) (w : NodeWrite) : m.writeNode id none w =
      { m with
        nodes := m.nodes.insert id { entry with delta := entry.delta.write w }
        tombstoned :=
          if w = .delete then insert dense m.tombstoned
          else bif entry.delta.tombstoned then m.tombstoned.erase dense
          else m.tombstoned } := by
  by_cases hw : w = .delete
  · subst hw
    simp [writeNode, deleteNode, h, hs]
  · have htouch : m.touchNodeEntry id none =
        { m with
          nodes := m.nodes.insert id { entry with delta := entry.delta.resurrect }
          tombstoned := bif entry.delta.tombstoned then m.tombstoned.erase dense
            else m.tombstoned } := by
      simp [touchNodeEntry, entryOf, h, hs]
    rw [writeNode_of_touch (by rw [htouch]; exact Finmap.lookup_insert _) rfl hw, htouch]
    simp [hw, write_resurrect]

/-- A write to an unresolved key that has no synthetic id yet: a node is born with it. -/
theorem writeNode_allocate (h : (m.entryOf id).synthetic = none) (hw : w ≠ .delete) :
    m.writeNode id none w = m.allocateBorn id { delta := (m.entryOf id).delta.write w } := by
  have htouch : m.touchNodeEntry id none = m.allocateBorn id { delta := (m.entryOf id).delta.resurrect } := by
    cases ht : (m.entryOf id).delta.tombstoned <;>
      simp [touchNodeEntry, h, allocateBorn]
  rw [writeNode_of_touch (by rw [htouch]; exact Finmap.lookup_insert _) rfl hw, htouch]
  simp [allocateBorn, write_resurrect]

/-- Deleting an unresolved key that has no synthetic id leaves a tombstone no dense id
reaches. -/
theorem writeNode_delete_unborn (h : m.nodes.lookup id = some entry) (hs : entry.synthetic = none) :
    m.writeNode id none .delete = { m with nodes := m.nodes.insert id { entry with delta := .tombstone } } := by
  simp [writeNode, deleteNode, h, hs]

/-- Deleting a key that is neither stored here nor resolved stores nothing. -/
theorem writeNode_absent (h : m.nodes.lookup id = none) : m.writeNode id none .delete = m := by
  simp only [writeNode, deleteNode, h]

/-! ## Edge operations -/

variable (m id)

/-- `endpoint_dense_or_create`: the resolved id, else the id of a node born here, else a node
born now with an empty delta. -/
def endpointDenseOrCreate : Memtable × Nat :=
  match resolved with
  | some dense => (m, dense)
  | none =>
    match (m.nodes.lookup id).bind (·.synthetic) with
    | some dense => (m, dense)
    | none => (m.allocateBorn id {}, m.syntheticBase + m.born.length)

/-- `born_endpoint_dense`: as above, without creating. -/
def bornEndpointDense : Option Nat :=
  match resolved with
  | some dense => some dense
  | none => (m.nodes.lookup id).bind (·.synthetic)

/-- Append to the adjacency list of `node`. -/
def pushAdj (adj : Map Nat (List EdgeIdentity)) (node : Nat) (id : EdgeIdentity) : Map Nat (List EdgeIdentity) :=
  adj.insert node ((adj.lookup node).getD [] ++ [id])

/-- Append to the adjacency list of `node` unless it is listed there. -/
def pushAdjOnce (adj : Map Nat (List EdgeIdentity)) (node : Nat) (id : EdgeIdentity) : Map Nat (List EdgeIdentity) :=
  if id ∈ (adj.lookup node).getD [] then adj else pushAdj adj node id

/-- Rewrite a stored edge entry. -/
def modifyEdge (id : EdgeIdentity) (f : EdgeEntry → EdgeEntry) : Memtable :=
  match m.edges.lookup id with
  | some entry => { m with edges := m.edges.insert id (f entry) }
  | none => m

/-- The tail of `upsert_edge_keyed`, once the endpoints are known: an identity without an entry
is a born edge; one with an entry, even a tombstone that never had a synthetic id, is only
resurrected and patched. -/
def upsertLinked (id : EdgeIdentity) (srcDense dstDense : Nat) (replace : Bool)
    (patches : List (String × Value)) : Memtable :=
  let m :=
    match m.edges.lookup id with
    | some _ => m
    | none =>
      { m with
        bornEdges := m.bornEdges ++ [id]
        outAdj := pushAdj m.outAdj srcDense id
        inAdj := pushAdj m.inAdj dstDense id
        edges := m.edges.insert id
          { srcDense, dstDense, syntheticEdge := some (m.edgeSyntheticBase + m.bornEdges.length) } }
  m.modifyEdge id fun entry =>
    { entry with delta :=
        { entry.delta with tombstoned := false }.applyPatches id.key replace patches }

/-- `upsert_edge_keyed`. -/
def upsertEdgeKeyed (id : EdgeIdentity) (src dst : Option Nat) (replace : Bool)
    (patches : List (String × Value)) : Memtable :=
  let (m, srcDense) := m.endpointDenseOrCreate id.src src
  let (m, dstDense) := m.endpointDenseOrCreate id.dst dst
  m.upsertLinked id srcDense dstDense replace patches

/-- The tail of `delete_edge_keyed`, once the endpoints are known. A new entry is a bare
tombstone; an existing one is tombstoned, and if it patched a core edge it leaves the index by
edge id and enters the adjacency. -/
def deleteLinked (id : EdgeIdentity) (srcDense dstDense : Nat) : Memtable :=
  match m.edges.lookup id with
  | none =>
    { m with
      outAdj := pushAdj m.outAdj srcDense id
      inAdj := pushAdj m.inAdj dstDense id
      edges := m.edges.insert id { srcDense, dstDense, delta := .tombstone } }
  | some entry =>
    let m := { m with
      edges := m.edges.insert id { entry with coreEdge := none, delta := .tombstone } }
    match entry.coreEdge with
    | some cid =>
      { m with
        byEdgeId := m.byEdgeId.erase cid
        outAdj := pushAdjOnce m.outAdj srcDense id
        inAdj := pushAdjOnce m.inAdj dstDense id }
    | none => m

/-- `delete_edge_keyed`: both endpoints must resolve, else nothing is stored. -/
def deleteEdgeKeyed (id : EdgeIdentity) (src dst : Option Nat) : Memtable :=
  match m.bornEndpointDense id.src src, m.bornEndpointDense id.dst dst with
  | some srcDense, some dstDense => m.deleteLinked id srcDense dstDense
  | _, _ => m

/-- The tail of `patch_core_edge_keyed`, once the endpoints are known: the entry is indexed by
the core edge's id and never entered into the adjacency. -/
def patchLinked (id : EdgeIdentity) (srcDense dstDense coreEdgeId : Nat)
    (replace : Bool) (patches : List (String × Value)) : Memtable :=
  let m :=
    match m.edges.lookup id with
    | some _ => m
    | none =>
      { m with edges := m.edges.insert id { srcDense, dstDense, coreEdge := some coreEdgeId } }
  { m with byEdgeId := m.byEdgeId.insert coreEdgeId id }.modifyEdge id fun entry =>
    { entry with
      coreEdge := some coreEdgeId
      delta := { entry.delta with tombstoned := false }.applyPatches id.key replace patches }

/-- `patch_core_edge_keyed`. -/
def patchCoreEdgeKeyed (id : EdgeIdentity) (src dst : Option Nat) (coreEdgeId : Nat)
    (replace : Bool) (patches : List (String × Value)) : Memtable :=
  let (m, srcDense) := m.endpointDenseOrCreate id.src src
  let (m, dstDense) := m.endpointDenseOrCreate id.dst dst
  m.patchLinked id srcDense dstDense coreEdgeId replace patches

/-! ## Applying the log -/

/-- `Memtable::apply`. -/
def apply : ResolvedOp → Memtable
  | .node id w resolved => m.writeNode id resolved w
  | .upsertEdge id replace patches src dst (some cid) =>
    m.patchCoreEdgeKeyed id src dst cid replace patches
  | .upsertEdge id replace patches src dst none => m.upsertEdgeKeyed id src dst replace patches
  | .deleteEdge id src dst => m.deleteEdgeKeyed id src dst

/-- What the parts of an operation keep, the operation keeps. -/
theorem apply_keeps {p : Memtable → Prop} (hnode : ∀ m id resolved w, p m → p (m.writeNode id resolved w))
    (hend : ∀ m id resolved, p m → p (m.endpointDenseOrCreate id resolved).1)
    (hupsert : ∀ m id src dst replace patches, p m → p (m.upsertLinked id src dst replace patches))
    (hpatch : ∀ m id src dst cid replace patches, p m → p (m.patchLinked id src dst cid replace patches))
    (hdelete : ∀ m id src dst, p m → p (m.deleteLinked id src dst)) {m : Memtable} (hm : p m)
    (op : ResolvedOp) : p (m.apply op) := by
  cases op with
  | node id w resolved => exact hnode m id resolved w hm
  | upsertEdge id replace patches src dst edgeId =>
    have hends := hend _ id.dst dst (hend m id.src src hm)
    cases edgeId with
    | none => exact hupsert _ id _ _ replace patches hends
    | some cid => exact hpatch _ id _ _ cid replace patches hends
  | deleteEdge id src dst =>
    simp only [apply, deleteEdgeKeyed]
    split
    next => exact hdelete m id _ _ hm
    next => exact hm

/-- The memtable after a sequence of operations. -/
def applyAll (ops : List ResolvedOp) : Memtable := ops.foldl apply m

@[simp] theorem applyAll_nil : m.applyAll [] = m := rfl

@[simp] theorem applyAll_cons (op : ResolvedOp) (ops : List ResolvedOp) :
    m.applyAll (op :: ops) = (m.apply op).applyAll ops := rfl

theorem applyAll_append (ops ops' : List ResolvedOp) : m.applyAll (ops ++ ops') = (m.applyAll ops).applyAll ops' :=
  List.foldl_append

end Memtable

end Slater
