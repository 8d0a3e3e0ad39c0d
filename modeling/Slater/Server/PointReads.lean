import Slater.Delta.Stack
import Slater.Server.EdgeSets

/-!
# Point reads and records

A query reads one property of a node or an edge (`node_prop_raw` and `edge_prop_par` of `slater/src/exec.rs`), or
its whole record (`overlay_node_props` and `core_named_edge_props` of `slater/src/exec/access.rs`). The two take the
same decisions in different orders, and they part where one of them seeds or drops what the other does not: the
business key of a node that the delta removes or that a segment's row holds with another value, and the patch of
an edge under a name that the manifest does not know.

`nodeReads_agree_iff` and `edgeReads_agree_iff` say for which snapshots the two agree on every property. They are
about one node and one edge that are stored as the writers store them (`Stored`); what makes a stored row so is not
shown here.
-/

namespace Slater

open Map

namespace Generation

variable (gen : Generation) (s : DeltaSnapshot) (id : Nat)

/-- Rows below the delta hold what is stored: a node past the base has none outside the
segments, a base record holds known keys, and a tombstone holds nothing. -/
structure Stored : Prop where
  node : gen.unborn id = true → gen.nodeRow id = ∅
  edge : gen.edgeInStack id = false → ∀ key ∉ gen.propertyKeys, (gen.edgeRow id).lookup key = none
  buried : gen.edgeBuried id = true → gen.edgeRow id = ∅

/-- The business key that the delta seeds is patched, or else it is not removed, and where a
segment bore the node its row holds the same value. -/
def KeySettled : Prop :=
  s.isEmpty = true ∨ ∀ key v, seeded s id key = some v →
    ((s.nodePatch id).bind (·.patches.lookup key)).isSome ∨ (s.nodePatch id).all (key ∉ ·.removed) = true ∧
      (gen.core.coreNodeCount ≤ id → gen.unborn id = false → (s.nodePatch id).all (!·.replaced) = true →
        (gen.nodeRow id).lookup key = some v)

/-- Every name the delta patches on the edge is known to the manifest. In a segment all names
are, but a tombstone there leaves nothing to patch. -/
def PatchesKnown : Prop :=
  s.isEmpty = true ∨ ∀ key v, (s.edgePatches id).lookup key = some v →
    bif gen.edgeInStack id then gen.edgeBuried id = false else key ∈ gen.propertyKeys

variable {gen s id}

theorem lookup_seeded (row : Map String Value) (key : String) :
    ((s.nodeIdentity id).elim row fun ident => row.insert ident.key ident.value).lookup key =
      (seeded s id key).or (row.lookup key) := by
  rw [seeded]
  cases s.nodeIdentity id with
  | none => rfl
  | some ident =>
    rw [Option.elim_some, lookup_insert_ite, Option.bind_some]
    by_cases h : key = ident.key
    · rw [if_pos h, if_pos h.symm, Option.some_or]
    · rw [if_neg h, if_neg (Ne.symm h), Option.none_or]

/-- The record of a node, at one key. -/
theorem lookup_nodeProps (he : s.isEmpty = false) (key : String) : (gen.nodeProps s id).lookup key =
    ((s.nodePatch id).bind (·.patches.lookup key)).or
      (if (s.nodePatch id).all (key ∉ ·.removed) then
        (if gen.core.coreNodeCount ≤ id ∨ (s.nodePatch id).any (·.replaced) then seeded s id key else none).or
          (if (s.nodePatch id).any (·.replaced) then none else (gen.nodeRow id).lookup key)
      else none) := by
  have hbelow : ∀ replaced : Bool, (bif decide (gen.core.coreNodeCount ≤ id) || replaced then
      (s.nodeIdentity id).elim (bif replaced then ∅ else gen.nodeRow id) fun ident =>
        (bif replaced then ∅ else gen.nodeRow id).insert ident.key ident.value
      else bif replaced then ∅ else gen.nodeRow id).lookup key =
      (if gen.core.coreNodeCount ≤ id ∨ replaced = true then seeded s id key else none).or
        (if replaced then none else (gen.nodeRow id).lookup key) := by
    intro replaced
    by_cases hborn : gen.core.coreNodeCount ≤ id <;> cases replaced <;> simp [hborn, lookup_seeded]
  cases hp : s.nodePatch id with
  | none => simpa [nodeProps, DeltaSnapshot.overlayNodeProps, he, hp] using hbelow false
  | some d =>
    simp [nodeProps, DeltaSnapshot.overlayNodeProps, he, hp, lookup_union_or, lookup_restrict, hbelow]

/-- The point read of a node, at one key. -/
theorem nodeValue_eq (he : s.isEmpty = false) (key : String) : gen.nodeValue s id key =
    ((s.nodePatch id).bind (·.patches.lookup key)).or
      (if gen.unborn id ∨ (s.nodePatch id).any (·.hides key) then seeded s id key
      else (gen.nodeRow id).lookup key) := by
  cases hp : s.nodePatch id with
  | none => cases hu : gen.unborn id <;> simp [nodeValue, he, hp, hu]
  | some d => cases hk : d.patches.lookup key <;> cases hu : gen.unborn id <;> cases hh : d.hides key <;>
      simp [nodeValue, he, hp, hu, hk]

end Generation

open Generation in
/-- **A point read of a node agrees with its record** exactly when its business key is settled.
The snapshot is any, so the condition is on what it says of this node and on the rows below
it. -/
theorem nodeReads_agree_iff (gen : Generation) (s : DeltaSnapshot) (id : Nat) (h : gen.Stored id) :
    (∀ key, gen.nodeValue s id key = (gen.nodeProps s id).lookup key) ↔ gen.KeySettled s id := by
  cases he : s.isEmpty with
  | true => simp [KeySettled, nodeValue, nodeProps, DeltaSnapshot.overlayNodeProps, he]
  | false =>
    rw [KeySettled, he, or_iff_right Bool.false_ne_true]
    refine forall_congr' fun key => ?_
    rw [nodeValue_eq he, lookup_nodeProps he]
    have hhides : (s.nodePatch id).any (·.hides key) =
        ((s.nodePatch id).any (·.replaced) || !(s.nodePatch id).all (key ∉ ·.removed)) := by
      cases s.nodePatch id <;> simp [NodeDelta.hides]
    have hall : (s.nodePatch id).all (!·.replaced) = !(s.nodePatch id).any (·.replaced) := by
      cases s.nodePatch id <;> rfl
    have hborn : gen.unborn id = true → gen.core.coreNodeCount ≤ id := fun hu =>
      of_decide_eq_true (Bool.and_eq_true_iff.mp hu).2
    have hrow : gen.unborn id = true → (gen.nodeRow id).lookup key = none := fun hu => by rw [h.node hu]; rfl
    rw [hhides, hall]
    -- what is left is about the patch, the seeded key and the row at this name alone
    cases (s.nodePatch id).bind (·.patches.lookup key) with
    | some v => simp
    | none =>
      cases (s.nodePatch id).all (key ∉ ·.removed) with
      | false => cases seeded s id key <;> simp
      | true =>
        cases (s.nodePatch id).any (·.replaced) with
        | true => simp
        | false =>
          cases hu : gen.unborn id with
          | true => simp [hborn hu, hrow hu]
          | false =>
            by_cases hb : gen.core.coreNodeCount ≤ id
            · cases seeded s id key <;> simp [hb]
            · simp [hb]

open Generation in
/-- **A point read of an edge agrees with its record** exactly when the patched names are known;
within the delta the two always agree. -/
theorem edgeReads_agree_iff (gen : Generation) (s : DeltaSnapshot) (id : Nat) (h : gen.Stored id) :
    (∀ key, s.edgePatchValue id key = (s.edgePatches id).lookup key) ∧
      ((∀ key, gen.edgeValue s id key = (gen.edgeProps s id).lookup key) ↔ gen.PatchesKnown s id) := by
  refine ⟨edgePatchValue_eq s id, ?_⟩
  cases he : s.isEmpty with
  | true => simp [PatchesKnown, edgeValue, edgeProps, he]
  | false =>
    rw [PatchesKnown, he, or_iff_right Bool.false_ne_true]
    refine forall_congr' fun key => ?_
    have hrow : gen.edgeInStack id = false → key ∉ gen.propertyKeys → (gen.edgeRow id).lookup key = none :=
      fun hst => h.edge hst key
    have hburied : gen.edgeBuried id = true → (gen.edgeRow id).lookup key = none := fun hb => by rw [h.buried hb]; rfl
    simp only [edgeValue, edgeProps, he, edgePatchValue_eq]
    cases hst : gen.edgeInStack id with
    | true =>
      cases hb : gen.edgeBuried id with
      | true => cases (s.edgePatches id).lookup key <;> cases s.edgeReplaced id <;> simp [hburied hb]
      | false => cases hp : (s.edgePatches id).lookup key <;> cases s.edgeReplaced id <;> simp [lookup_union_or, hp]
    | false =>
      -- a known name is kept by the record; an unknown one is dropped, and no base record holds it
      by_cases hknown : key ∈ gen.propertyKeys <;> by_cases hb : gen.coreEdgeCount ≤ id <;>
        cases hp : (s.edgePatches id).lookup key <;> cases s.edgeReplaced id <;>
        simp [lookup_union_or, lookup_restrict, hp, hknown, hb, hrow hst]

/-! ## Two people who know each other -/

namespace PointReads

theorem stored_acquaintances : acquaintances.generation.Stored 0 where
  node := by decide +kernel
  edge _ key hkey := lookup_insertAll_of_notMem ∅ fun hmem => hkey (by
    rw [List.mem_singleton.mp hmem]
    decide +kernel)
  buried := nofun

/-- A person of the graph, by one of its keys. -/
def person (key : String) (value : Value) : NodeIdentity := ⟨"Person", key, value⟩

/-- `SET r.prop = 1` on the relationship. -/
def patched (prop : String) : DeltaSnapshot :=
  ((DeltaState.start 2 1).step (.write (.upsertEdge ⟨person "id" (.int 1), "KNOWS", person "id" (.int 2), none⟩ false
    [(prop, .int 1)] (some 0) (some 1) (some 0)))).snapshot

/-- `REMOVE n.id` by the name, a flush, and a write by the id. -/
def unkeyed : DeltaSnapshot :=
  ((DeltaState.start 2 1).run [.write (.node (person "name" (.str "a")) (.removeProps ["id"]) (some 0)), .flush,
    .write (.node (person "id" (.int 1)) (.upsert []) (some 0))]).snapshot

end PointReads

open PointReads

theorem nodeReads_patched : acquaintances.generation.nodeValue (patched "uuid") 0 "id" =
    (acquaintances.generation.nodeProps (patched "uuid") 0).lookup "id" := by
  refine (nodeReads_agree_iff _ _ _ stored_acquaintances).mpr (.inr fun key v _ => .inr ?_) "id"
  exact ⟨rfl, fun hle => absurd hle (by decide +kernel)⟩

theorem edgeReads_patched : acquaintances.generation.edgeValue (patched "uuid") 0 "uuid" =
    (acquaintances.generation.edgeProps (patched "uuid") 0).lookup "uuid" := by
  refine (edgeReads_agree_iff _ _ _ stored_acquaintances).2.mpr (.inr fun key v hv => ?_) "uuid"
  have hpatches : (patched "uuid").edgePatches 0 = insertAll ∅ [("uuid", .int 1)] := by decide +kernel
  rw [hpatches] at hv
  rw [List.mem_singleton.mp ((lookup_insertAll_isSome _ _).mp (Option.isSome_of_eq_some hv))]
  exact .tail _ (.tail _ (.head _))

theorem unkeyed_reads : acquaintances.generation.nodeValue unkeyed 0 "id" = some (.int 1) ∧
    (acquaintances.generation.nodeProps unkeyed 0).lookup "id" = none := by
  decide +kernel

theorem unknown_name_reads : acquaintances.generation.edgeValue (patched "since") 0 "since" = some (.int 1) ∧
    (acquaintances.generation.edgeProps (patched "since") 0).lookup "since" = none := by
  decide +kernel

end Slater
