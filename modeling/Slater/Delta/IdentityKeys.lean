import Slater.Delta.Stack
import Slater.Delta.Spill

/-!
# Identity keys

A memtable keys its maps by the bytes of an identity (`slater-delta/src/identity.rs`), whose names are
symbols of its interner. Every part of such a key is self-delimiting, so the key determines the identity
(`canonicalKey_eq_iff`).

A snapshot keys the edges of its levels by the name of the identifying property followed by the image of its
value, with nothing between the two. That key does not determine the property: the name may end in bytes that
another value's image begins with. `newestWins_iff` says which stacks are merged right all the same.

**What it does not establish.** Two identities may name one relationship, as when an endpoint has two keys; they are
kept apart here, as the source keeps them apart.
-/

namespace Slater

open List DeltaEdge

/-! ## Canonical keys -/

/-- `NodeIdentity`, over the symbols of the interner. -/
structure SymbolNode where
  label : UInt32
  key : UInt32
  value : Value

/-- `EdgeIdentity`, over the symbols of the interner. -/
structure SymbolEdge where
  src : SymbolNode
  reltype : UInt32
  dst : SymbolNode
  key : Option (UInt32 × Value) := none

/-- A symbol and a value, as both identities encode them. -/
def symbolValue (symbol : UInt32) (value : Value) : Bytes := writeUvarint symbol.toNat ++ writeValue value

def SymbolNode.canonicalKey (id : SymbolNode) : Bytes := writeUvarint id.label.toNat ++ symbolValue id.key id.value

def SymbolEdge.canonicalKey (id : SymbolEdge) : Bytes :=
  id.src.canonicalKey ++ (writeUvarint id.reltype.toNat ++
    (id.dst.canonicalKey ++ id.key.elim [] fun kv => symbolValue kv.1 kv.2))

theorem prefixFree_symbol : Reader.PrefixFree fun symbol : UInt32 => writeUvarint symbol.toNat := fun _ _ _ _ h =>
  (writeUvarint_unique h).imp_left UInt32.toNat_inj.mp

theorem prefixFree_symbolValue : Reader.PrefixFree fun kv : UInt32 × Value => symbolValue kv.1 kv.2 := by
  intro kv kv' rest rest' h
  simp only [symbolValue, append_assoc] at h
  obtain ⟨hsymbol, h⟩ := prefixFree_symbol h
  obtain ⟨hvalue, hrest⟩ := writeValue_unique h
  exact ⟨Prod.ext hsymbol hvalue, hrest⟩

theorem prefixFree_symbolNode : Reader.PrefixFree SymbolNode.canonicalKey := by
  rintro ⟨label, key, value⟩ ⟨label', key', value'⟩ rest rest' h
  simp only [SymbolNode.canonicalKey, append_assoc] at h
  obtain ⟨hlabel, htail⟩ := prefixFree_symbol h
  obtain ⟨hkv, hrest⟩ := @prefixFree_symbolValue (key, value) (key', value') _ _ htail
  cases hlabel
  cases hkv
  exact ⟨rfl, hrest⟩

theorem symbolValue_ne_nil (symbol : UInt32) (value : Value) : symbolValue symbol value ≠ [] := by
  cases value <;> simp [symbolValue, writeValue]

theorem SymbolEdge.canonicalKey_inj {id id' : SymbolEdge} (h : id.canonicalKey = id'.canonicalKey) : id = id' := by
  obtain ⟨src, reltype, dst, key⟩ := id
  obtain ⟨src', reltype', dst', key'⟩ := id'
  obtain ⟨rfl, h⟩ := prefixFree_symbolNode h
  obtain ⟨rfl, h⟩ := prefixFree_symbol h
  obtain ⟨rfl, h⟩ := prefixFree_symbolNode h
  -- what is left is the image of a keyed edge's property, which is never empty
  cases key with
  | none =>
    cases key' with
    | none => rfl
    | some kv' => exact absurd h.symm (symbolValue_ne_nil _ _)
  | some kv =>
    cases key' with
    | none => exact absurd h (symbolValue_ne_nil _ _)
    | some kv' => rw [(prefixFree_symbolValue (congrArg (· ++ []) h)).1]

/-- **A canonical key determines its identity**, of a node and of an edge, keyed or not. The
names are symbols here; that the interner gives one symbol to one name is not modelled. -/
theorem canonicalKey_eq_iff : (∀ id id' : SymbolNode, id.canonicalKey = id'.canonicalKey ↔ id = id') ∧
    ∀ id id' : SymbolEdge, id.canonicalKey = id'.canonicalKey ↔ id = id' := by
  refine ⟨fun id id' => ⟨fun h => ?_, congrArg _⟩, fun id id' => ⟨SymbolEdge.canonicalKey_inj, congrArg _⟩⟩
  exact (prefixFree_symbolNode (congrArg (· ++ []) h)).1

/-! ## Merge keys -/

namespace DeltaEdge

/-- What tells the edges of a node apart: the other endpoint, the type, and the identifying
property. -/
def identity (e : DeltaEdge) : Nat × String × Option (String × Value) := (e.other, e.reltype, e.key)

theorem mergeKey_of_identity {a b : DeltaEdge} (h : a.identity = b.identity) : a.mergeKey = b.mergeKey := by
  obtain ⟨hother, htype, hkey⟩ : a.other = b.other ∧ a.reltype = b.reltype ∧ a.key = b.key := by
    simpa [identity] using h
  rw [mergeKey, mergeKey, hother, htype, hkey]

variable {xs : List DeltaEdge} {e : DeltaEdge} (he : e ∈ xs)
include he

/-- Where merge keys tell identities apart, the first edge of a merge key is the first of its
identity. -/
theorem find?_identity (h : ∀ a ∈ xs, ∀ b ∈ xs, a.mergeKey = b.mergeKey → a.identity = b.identity) :
    xs.find? (fun x => x.mergeKey = e.mergeKey) = xs.find? (fun x => x.identity = e.identity) := by
  rw [← head?_filter, ← head?_filter]
  refine congrArg head? (filter_congr fun x hx => decide_eq_decide.mpr ?_)
  exact ⟨h x hx e he, mergeKey_of_identity⟩

/-- An edge that is listed has a first one of its identity. -/
theorem exists_first : ∃ first, xs.find? (fun x => x.identity = first.identity) = some first ∧
    first.identity = e.identity := by
  cases hfind : xs.find? (fun x => x.identity = e.identity) with
  | none => exact absurd (decide_eq_true rfl) (find?_eq_none.mp hfind e he)
  | some first =>
    have hid : first.identity = e.identity := by simpa using find?_some hfind
    exact ⟨first, by rw [hid, hfind], hid⟩

end DeltaEdge

namespace DeltaSnapshot

variable (s : DeltaSnapshot) (read : Level → List DeltaEdge)

/-- The edges of a node in one direction, level by level and newest first. -/
def listed : List DeltaEdge := s.levels.flatMap read

/-- Every identity that some level lists comes out once, as the newest level has it. The edges
of a tombstone are listed as well: it is for the reader to drop them. -/
structure NewestWins : Prop where
  once : ((s.mergeEdges read).map identity).Nodup
  newest : ∀ e, e ∈ s.mergeEdges read ↔ (s.listed read).find? (fun x => x.identity = e.identity) = some e

/-- Merge keys tell apart what identities do. Over a memtable alone nothing is merged. It is a
condition on the edges that the levels list for one node, in one direction. -/
def MergesApart : Prop :=
  if s.l0 = [] then ((s.listed read).map identity).Nodup
  else ∀ a ∈ s.listed read, ∀ b ∈ s.listed read, a.mergeKey = b.mergeKey → a.identity = b.identity

variable {s read}

theorem mergeEdges_nil (h : s.l0 = []) : s.mergeEdges read = s.listed read := by
  simp [listed, mergeEdges, levels, h]

theorem mem_mergeEdges_iff (h : s.l0 ≠ []) {e : DeltaEdge} :
    e ∈ s.mergeEdges read ↔ (s.listed read).find? (fun x => x.mergeKey = e.mergeKey) = some e := by
  simp [mergeEdges, listed, mem_keepFirst]

theorem NewestWins.apart (h : s.NewestWins read) (hl0 : s.l0 ≠ []) {a b : DeltaEdge} (ha : a ∈ s.listed read)
    (hb : b ∈ s.listed read) (hkey : a.mergeKey = b.mergeKey) : a.identity = b.identity := by
  -- the first edges of the two identities are both kept, so they are one if their merge keys agree
  obtain ⟨a', ha', haid⟩ := exists_first ha
  obtain ⟨b', hb', hbid⟩ := exists_first hb
  have hfirst := (mem_mergeEdges_iff hl0).mp ((h.newest a').mpr ha')
  rw [mergeKey_of_identity haid, hkey, ← mergeKey_of_identity hbid,
    (mem_mergeEdges_iff hl0).mp ((h.newest b').mpr hb')] at hfirst
  rw [← haid, ← hbid, Option.some.inj hfirst]

theorem mem_mergeEdges_of_apart (hl0 : s.l0 ≠ [])
    (h : ∀ a ∈ s.listed read, ∀ b ∈ s.listed read, a.mergeKey = b.mergeKey → a.identity = b.identity) (e : DeltaEdge) :
    e ∈ s.mergeEdges read ↔ (s.listed read).find? (fun x => x.identity = e.identity) = some e := by
  rw [mem_mergeEdges_iff hl0]
  constructor
  · intro hfind
    rw [← find?_identity (mem_of_find?_eq_some hfind) h, hfind]
  · intro hfind
    rw [find?_identity (mem_of_find?_eq_some hfind) h, hfind]

end DeltaSnapshot

/-- Finding an element that the predicate determines. -/
theorem find?_eq_some_iff_of_unique {α : Type} {xs : List α} {p : α → Bool}
    (unique : ∀ x ∈ xs, ∀ y ∈ xs, p x = true → p y = true → x = y) {x : α} :
    xs.find? p = some x ↔ x ∈ xs ∧ p x = true := by
  constructor
  · intro h
    exact ⟨mem_of_find?_eq_some h, find?_some h⟩
  · rintro ⟨hmem, hp⟩
    cases hfind : xs.find? p with
    | none => exact absurd hp (find?_eq_none.mp hfind x hmem)
    | some y =>
      rw [unique y (mem_of_find?_eq_some hfind) x hmem (find?_some hfind) hp]

open DeltaSnapshot in
/-- **A snapshot's adjacency is merged newest first** exactly when its merge keys tell the
identities apart. `read` is either adjacency of one node. With sealed levels the condition is
about merge keys; over a memtable alone nothing is merged, and the identities that it lists have
to be distinct. -/
theorem newestWins_iff (s : DeltaSnapshot) (read : Level → List DeltaEdge) : s.NewestWins read ↔ s.MergesApart read := by
  unfold MergesApart
  split
  next hl0 =>
    refine ⟨fun h => mergeEdges_nil hl0 ▸ h.once, fun hnodup => ⟨mergeEdges_nil hl0 ▸ hnodup, fun e => ?_⟩⟩
    rw [mergeEdges_nil hl0, find?_eq_some_iff_of_unique]
    · simp
    · intro x hx y hy hxe hye
      exact inj_on_of_nodup_map hnodup hx hy ((of_decide_eq_true hxe).trans (of_decide_eq_true hye).symm)
  next hl0 =>
    refine ⟨fun h a ha b hb => h.apart hl0 ha hb, fun h => ?_⟩
    have hmem := mem_mergeEdges_of_apart hl0 h
    have hnodup : (s.mergeEdges read).Nodup := by
      simp [mergeEdges, keepFirst_nodup]
    refine ⟨hnodup.map_on fun a ha b hb hid => ?_, hmem⟩
    have hfirst := (hmem a).mp ha
    rw [hid, (hmem b).mp hb] at hfirst
    exact (Option.some.inj hfirst).symm

/-- Two edges are sealed whose identifying properties differ and have one image. -/
def sealedPair : DeltaState :=
  let edge (key : String × Value) : DeltaStep :=
    .write (.upsertEdge { Spill.knows with key } false [] (some 0) (some 1) none)
  (DeltaState.start 2 0).run [edge ("k", .str "\x01\x01"), edge ("k\x04\x02", .bool true), .flush]

/-- The second of two edges that the memtable listed is lost once it is sealed. -/
theorem sealed_edge_displaced : ¬ sealedPair.snapshot.NewestWins (·.outEdges 0) := by
  intro h
  have hlost := (h.newest ⟨1, "KNOWS", some 1, some ("k\x04\x02", .bool true), false⟩).mpr (by decide +kernel)
  exact absurd hlost (by decide +kernel)

end Slater
