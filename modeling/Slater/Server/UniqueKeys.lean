import Slater.Delta.Stack
import Slater.Delta.NodeSteps
import Slater.Exec.ValOrder
import Slater.Server.NodeWrite

/-!
# Business keys stay unique

`MERGE` finds a node by probing the index of the core and the identities of the delta. Both know a
node by the key it was stored or created under. As long as no statement assigns a property that some
`MERGE` uses as its key, or adds a label that some `MERGE` uses, what a node shows under such a key is
what it was filed under, and the two probes see every node: a `MERGE` repeated never creates a second
one.

The invariant of a run is `KeysHeld`: a dense id is registered under keys that the core resolves to
it, or under the one key it was born with, and a key has at most one synthetic id in all levels.

**What it does not establish.** The condition on the statements is sufficient. A graph whose core shows a key twice
is excluded by the resolution, which refuses an ambiguous key, and relationship statements are not part of the run.
-/

namespace Slater

open Map List Option Memtable CoreGraph

/-! ## Index probes -/

/-- What a probe makes of the ids it finds. -/
def KeyResolution.ofHits : List Nat → KeyResolution
  | [] => .absent
  | [only] => .unique only
  | _ => .ambiguous

namespace CoreGraph

variable (g : CoreGraph) (id : NodeIdentity)

/-- The node has the label and, for the index, the value of the key. -/
def Hit (n : Nat) : Prop :=
  ((g.labelId id.label).any fun lid => g.carries lid n) = true ∧
    ∃ u, g.nodeValue n id.key = some u ∧ u.cmpKey id.value = .eq

/-- The ids an equality probe returns. -/
def hits : List Nat :=
  ((g.rangeEntries id.label id.key).filter fun e => e.1.cmpKey id.value == .eq).map (·.2)

theorem mem_rangeEntries {label property : String} {e : Value × Nat} : e ∈ g.rangeEntries label property ↔
      ((g.labelId label).any fun lid => g.carries lid e.2) = true ∧ g.nodeValue e.2 property = some e.1 := by
  obtain ⟨v, n⟩ := e
  simp only [rangeEntries, mem_filterMap, mem_range]
  constructor
  · rintro ⟨id, -, h⟩
    split at h
    next hl =>
      obtain ⟨u, hu, he⟩ := map_eq_some_iff.mp h
      cases he
      exact ⟨hl, hu⟩
    next => cases h
  · rintro ⟨hl, hv⟩
    refine ⟨n, ?_, by rw [if_pos hl, hv]; rfl⟩
    -- A node past the end has no value.
    by_contra hn
    rw [nodeValue, getElem?_eq_none (Nat.le_of_not_lt hn)] at hv
    cases hv

theorem mem_hits {id : NodeIdentity} {n : Nat} : n ∈ g.hits id ↔ g.Hit id n := by
  simp only [hits, List.mem_map, List.mem_filter, mem_rangeEntries, beq_iff_eq]
  constructor
  · rintro ⟨⟨u, n⟩, ⟨⟨hl, hu⟩, hc⟩, rfl⟩
    exact ⟨hl, u, hu, hc⟩
  · rintro ⟨hl, u, hu, hc⟩
    exact ⟨(u, n), ⟨⟨hl, hu⟩, hc⟩, rfl⟩

/-- A probe of an indexed key sees exactly its hits. -/
theorem resolveBusinessKey_eq : g.generation.resolveBusinessKey id = .unindexed ∨
      g.generation.resolveBusinessKey id = .ofHits (g.hits id) := by
  cases h : g.generation.indexFor id.label id.key with
  | none => exact .inl (by rw [Generation.resolveBusinessKey, h])
  | some index =>
    refine .inr ?_
    have hfound := find?_some h
    obtain ⟨spec, -, rfl⟩ := mem_map.mp (mem_of_find?_eq_some h)
    simp only [rangeIndex, Bool.and_eq_true, beq_iff_eq] at hfound
    have hids : (g.rangeIndex spec).lookupEq id.value = g.hits id := by
      rw [rangeIndex, hits, hfound.1, hfound.2]
    rw [Generation.resolveBusinessKey, h]
    simp only [hids]
    rcases g.hits id with _ | ⟨a, _ | ⟨b, rest⟩⟩ <;> rfl

end CoreGraph

/-! ## Writes that spare a key -/

/-- The write neither assigns the key a value equal to that of `id`, nor adds its label. -/
def NodeWrite.Spares (id : NodeIdentity) : NodeWrite → Prop
  | .upsert patches | .replace patches =>
    ∀ p ∈ patches, p.1 = id.key → p.2.cmpKey id.value ≠ .eq
  | .setLabels added _ => id.label ∉ added
  | .removeProps _ | .delete => True

instance (id : NodeIdentity) : DecidablePred (NodeWrite.Spares id)
  | .upsert _ | .replace _ => inferInstanceAs (Decidable (∀ p ∈ _, _ → _))
  | .setLabels added _ => inferInstanceAs (Decidable (id.label ∉ added))
  | .removeProps _ | .delete => isTrue trivial

namespace NodeDelta

/-- The delta shows neither the value of `id` nor its label. -/
def Spares (id : NodeIdentity) (δ : NodeDelta) : Prop :=
  (∀ v, δ.patches.lookup id.key = some v → v.cmpKey id.value ≠ .eq) ∧ id.label ∉ δ.labelsAdded

variable {id : NodeIdentity} {δ : NodeDelta}

theorem Spares.empty : ({} : NodeDelta).Spares id := by simp [Spares]

theorem Spares.write (h : δ.Spares id) {w : NodeWrite} (hw : w.Spares id) : (δ.write w).Spares id := by
  cases w with
  | upsert patches =>
    refine ⟨fun v hv => ?_, h.2⟩
    rcases mem_or_lookup_of_insertAll hv with hmem | hlook
    · exact hw _ hmem rfl
    · exact h.1 v hlook
  | replace patches =>
    refine ⟨fun v hv => ?_, h.2⟩
    rcases mem_or_lookup_of_insertAll hv with hmem | hlook
    · exact hw _ hmem rfl
    · cases hlook
  | removeProps props =>
    refine ⟨fun v hv => h.1 v ?_, h.2⟩
    simp only [NodeDelta.write, removeProps, lookup_eraseAll] at hv
    split at hv
    · cases hv
    · exact hv
  | setLabels added removed =>
    refine ⟨h.1, fun hl => ?_⟩
    simp only [NodeDelta.write, setLabels, Finset.mem_sdiff, Finset.mem_union,
      List.mem_toFinset] at hl
    exact hl.1.elim h.2 hw
  | delete => exact .empty

theorem Spares.foldNewer {newer : NodeDelta} (h : δ.Spares id) (hn : newer.Spares id) :
    (δ.foldNewer newer).Spares id := by
  cases live : newer.tombstoned with
  | true => rw [foldNewer_of_tombstoned _ live]; exact .empty
  | false =>
    refine ⟨fun v hv => ?_, fun hl => ?_⟩
    · rw [foldNewer_lookup _ live, or_eq_some_iff] at hv
      rcases hv with hv | ⟨-, hv⟩
      · exact hn.1 v hv
      · cases hh : newer.hides id.key <;> rw [hh] at hv
        · exact h.1 v hv
        · cases hv
    · rw [mem_foldNewer_labelsAdded _ live] at hl
      exact hl.1.elim h.2 hn.2

end NodeDelta

/-! ## What the levels file -/

/-- Some level had a node born under the key, with this id. -/
def Synthetic (levels : List Memtable) (id : NodeIdentity) (n : Nat) : Prop :=
  ∃ l ∈ levels, (l.entryOf id).synthetic = some n

/-- The key leads to the node: the core resolves it, or the delta bore it. -/
def Filed (g : CoreGraph) (levels : List Memtable) (id : NodeIdentity) (n : Nat) : Prop :=
  g.generation.resolveBusinessKey id = .unique n ∨ g.generation.resolveBusinessKey id = .absent ∧ Synthetic levels id n

/-- Values of the key that are equal to that of `id` are written as `id` writes it. -/
def NodeIdentity.WrittenAs (id ident : NodeIdentity) : Prop :=
  ident.key = id.key → ident.value.cmpKey id.value = .eq → ident.value = id.value
deriving Decidable

/-- **The invariant of a run**, for one key. Deltas under other keys do not decide the key,
equal values are spelled alike, and synthetic ids lie past the core. -/
structure KeysHeld (g : CoreGraph) (id : NodeIdentity) (levels : List Memtable) : Prop where
  filed : ∀ l ∈ levels, ∀ n ident, l.byDense.lookup n = some ident → Filed g levels ident n
  written : ∀ l ∈ levels, ∀ n ident, l.byDense.lookup n = some ident → id.WrittenAs ident
  spared : ∀ l ∈ levels, ∀ ident, ident ≠ id → (l.entryOf ident).delta.Spares id
  one : ∀ ident n n', Synthetic levels ident n → Synthetic levels ident n' → n = n'
  range : ∀ ident n, Synthetic levels ident n → g.nodes.length ≤ n

/-- What a statement knows of the dense id it hands to the writer. -/
def Resolves (g : CoreGraph) (m : Memtable) (l0 : List Memtable) (ident : NodeIdentity) : Option Nat → Prop
  | some d => Filed g (m :: l0) ident d
  | none => g.generation.resolveBusinessKey ident = .absent ∧ ∀ l ∈ l0, (l.entryOf ident).synthetic = none

namespace Memtable

theorem entryOf_putNode (m : Memtable) (id : NodeIdentity) (resolved : Option Nat) (δ : NodeDelta)
    (t : Finset Nat) (j : NodeIdentity) : (m.putNode id resolved δ t).entryOf j =
      if j = id then { m.entryOf id with delta := δ } else m.entryOf j := by
  rw [entryOf, putNode, lookup_insert_ite]
  split <;> rfl

theorem entryOf_allocateBorn (m : Memtable) (id : NodeIdentity) (entry : NodeEntry) (j : NodeIdentity) :
    (m.allocateBorn id entry).entryOf j =
      if j = id then { entry with synthetic := some (m.syntheticBase + m.born.length) }
      else m.entryOf j := by
  rw [entryOf, allocateBorn, lookup_insert_ite]
  split <;> rfl

end Memtable

section Step

variable {g : CoreGraph} {id ident : NodeIdentity} {m : Memtable} {l0 : List Memtable}
variable {resolved : Option Nat} {n : Nat} {w : NodeWrite} {levels : List Memtable}

/-- Rewriting a delta bears nothing. -/
theorem synthetic_putNode {δ : NodeDelta} {t : Finset Nat} {j : NodeIdentity} :
    Synthetic (m.putNode ident resolved δ t :: l0) j n ↔ Synthetic (m :: l0) j n := by
  have hs : ((m.putNode ident resolved δ t).entryOf j).synthetic = (m.entryOf j).synthetic := by
    rw [entryOf_putNode]
    split
    next h => rw [h]
    next => rfl
  simp [Synthetic, hs]

/-- A birth adds one id, under a key that no level bore before. -/
theorem synthetic_allocateBorn {entry : NodeEntry} (hm : (m.entryOf ident).synthetic = none)
    {j : NodeIdentity} {n : Nat} : Synthetic (m.allocateBorn ident entry :: l0) j n ↔
      Synthetic (m :: l0) j n ∨ j = ident ∧ n = m.syntheticBase + m.born.length := by
  simp only [Synthetic, mem_cons, exists_eq_or_imp, entryOf_allocateBorn]
  by_cases hj : j = ident
  · subst hj
    simp only [if_true, hm, some.injEq, true_and, reduceCtorEq, false_or]
    exact ⟨fun h => h.elim (fun h => .inr h.symm) .inl, fun h => h.elim .inr fun h => .inl h.symm⟩
  · simp [hj]

theorem Filed.mono {levels' : List Memtable} (hs : Synthetic levels ident n → Synthetic levels' ident n)
    (h : Filed g levels ident n) : Filed g levels' ident n :=
  h.imp_right fun h => ⟨h.1, hs h.2⟩

/-- An operation loses no id that was borne. -/
theorem Synthetic.writeNode {j : NodeIdentity} (h : Synthetic (m :: l0) j n) :
    Synthetic (m.writeNode ident resolved w :: l0) j n := by
  rcases m.writeNode_cases ident resolved w with ⟨-, -, -, he⟩ | ⟨t, -, he⟩ | ⟨-, -, hs, he⟩ <;> rw [he]
  · exact h
  · exact synthetic_putNode.mpr h
  · exact (synthetic_allocateBorn hs).mpr (.inl h)

/-- The ids that are borne after an operation: a new one is the only one of its key. -/
theorem synthetic_writeNode (hres : Resolves g m l0 ident resolved) {j : NodeIdentity}
    (h : Synthetic (m.writeNode ident resolved w :: l0) j n) : Synthetic (m :: l0) j n ∨
      j = ident ∧ n = m.syntheticBase + m.born.length ∧ ∀ n, ¬ Synthetic (m :: l0) ident n := by
  rcases m.writeNode_cases ident resolved w with ⟨-, -, -, he⟩ | ⟨t, -, he⟩ | ⟨rfl, -, hs, he⟩ <;> rw [he] at h
  · exact .inl h
  · exact .inl (synthetic_putNode.mp h)
  · refine ((synthetic_allocateBorn hs).mp h).imp_right fun ⟨hj, hn⟩ => ⟨hj, hn, ?_⟩
    rintro d ⟨l, hl, hd⟩
    rcases mem_cons.mp hl with rfl | hl
    · cases hs.symm.trans hd
    · cases (hres.2 l hl).symm.trans hd

/-- What is registered after an operation: the key of the operation, if it is new, where it is
filed. -/
theorem byDense_writeNode (hres : Resolves g m l0 ident resolved) {j : NodeIdentity}
    (h : (m.writeNode ident resolved w).byDense.lookup n = some j) : m.byDense.lookup n = some j ∨
      j = ident ∧ Filed g (m.writeNode ident resolved w :: l0) ident n := by
  rcases m.writeNode_cases ident resolved w with ⟨-, -, -, he⟩ | ⟨t, -, he⟩ | ⟨rfl, -, hs, he⟩ <;> rw [he] at h ⊢
  · exact .inl h
  · cases resolved with
    | none => exact .inl h
    | some d =>
      rcases lookup_insert_eq_some.mp h with ⟨rfl, rfl⟩ | ⟨-, hn⟩
      · exact .inr ⟨rfl, Filed.mono synthetic_putNode.mpr hres⟩
      · exact .inl hn
  · rcases lookup_insert_eq_some.mp h with ⟨hd, rfl⟩ | ⟨-, hn⟩
    · exact .inr ⟨rfl, .inr ⟨hres.1, (synthetic_allocateBorn hs).mpr (.inr ⟨rfl, hd⟩)⟩⟩
    · exact .inl hn

/-- The delta of a key after an operation is the written one, or as it was. -/
theorem delta_writeNode (j : NodeIdentity) : ((m.writeNode ident resolved w).entryOf j).delta = (m.entryOf j).delta ∨
      j = ident ∧ ((m.writeNode ident resolved w).entryOf j).delta = (m.entryOf ident).delta.write w := by
  rcases m.writeNode_cases ident resolved w with ⟨-, -, -, he⟩ | ⟨t, -, he⟩ | ⟨-, -, -, he⟩ <;> rw [he]
  · exact .inl rfl
  · rw [entryOf_putNode]
    split
    next hj => exact .inr ⟨hj, rfl⟩
    next => exact .inl rfl
  · rw [entryOf_allocateBorn]
    split
    next hj => exact .inr ⟨hj, rfl⟩
    next => exact .inl rfl

/-- **One operation keeps the keys**, when it was resolved on this state and spares the key. -/
theorem KeysHeld.writeNode (h : KeysHeld g id (m :: l0)) (hbase : g.nodes.length ≤ m.syntheticBase)
    (hres : Resolves g m l0 ident resolved) (hwritten : id.WrittenAs ident) (hw : ident ≠ id → w.Spares id) :
    KeysHeld g id (m.writeNode ident resolved w :: l0) := by
  obtain ⟨hfiled, hfiled₀⟩ := forall_mem_cons.mp h.filed
  obtain ⟨hwrit, hwrit₀⟩ := forall_mem_cons.mp h.written
  obtain ⟨hspared, hspared₀⟩ := forall_mem_cons.mp h.spared
  refine ⟨forall_mem_cons.mpr ⟨fun n j hn => ?_, fun l hl n j hn => ?_⟩,
    forall_mem_cons.mpr ⟨fun n j hn => ?_, hwrit₀⟩,
    forall_mem_cons.mpr ⟨fun j hj => ?_, hspared₀⟩, fun j n n' hn hn' => ?_, fun j n hn => ?_⟩
  · rcases byDense_writeNode hres hn with hn | ⟨rfl, hn⟩
    · exact (hfiled n j hn).mono Synthetic.writeNode
    · exact hn
  · exact (hfiled₀ l hl n j hn).mono Synthetic.writeNode
  · rcases byDense_writeNode hres hn with hn | ⟨rfl, -⟩
    · exact hwrit n j hn
    · exact hwritten
  · rcases @delta_writeNode ident m resolved w j with hδ | ⟨rfl, hδ⟩ <;> rw [hδ]
    · exact hspared j hj
    · exact (hspared j hj).write (hw hj)
  · rcases synthetic_writeNode hres hn with hn | ⟨rfl, rfl, hfresh⟩ <;>
      rcases synthetic_writeNode hres hn' with hn' | ⟨hj, rfl, hfresh'⟩
    · exact h.one j n n' hn hn'
    · exact absurd (hj ▸ hn) (hfresh' n)
    · exact absurd hn' (hfresh n')
    · rfl
  · rcases synthetic_writeNode hres hn with hn | ⟨-, rfl, -⟩
    · exact h.range j n hn
    · exact hbase.trans (Nat.le_add_right _ _)

theorem Resolves.writeNode (h : Resolves g m l0 ident resolved) :
    Resolves g (m.writeNode ident resolved w) l0 ident resolved := by
  cases resolved with
  | some d => exact Filed.mono Synthetic.writeNode h
  | none => exact h

/-- The operations of one statement keep the keys. -/
theorem KeysHeld.applyAll (h : KeysHeld g id (m :: l0)) (hbase : g.nodes.length ≤ m.syntheticBase)
    (hres : Resolves g m l0 ident resolved) (hwritten : id.WrittenAs ident) {ws : List NodeWrite}
    (hws : ident ≠ id → ∀ w ∈ ws, w.Spares id) :
    KeysHeld g id (m.applyAll (ws.map fun w => .node ident w resolved) :: l0) := by
  induction ws generalizing m with
  | nil => exact h
  | cons w ws ih =>
    have hstep := h.writeNode hbase hres hwritten fun hne => hws hne w (.head _)
    have hbase' := hbase.trans_eq (m.apply_syntheticBase (.node ident w resolved)).symm
    exact ih hstep hbase' hres.writeNode fun hne u hu => hws hne u (mem_cons_of_mem w hu)

/-- A fresh memtable files nothing. -/
theorem KeysHeld.fresh (h : KeysHeld g id levels) (a b : Nat) : KeysHeld g id (.withBases a b :: levels) := by
  have hs : ∀ {j n}, Synthetic (.withBases a b :: levels) j n ↔ Synthetic levels j n := by
    intro j n
    have hnone : ((withBases a b).entryOf j).synthetic = none := rfl
    simp [Synthetic, hnone]
  refine ⟨forall_mem_cons.mpr ⟨nofun, fun l hl n j hn => (h.filed l hl n j hn).mono hs.mpr⟩,
    forall_mem_cons.mpr ⟨nofun, h.written⟩, forall_mem_cons.mpr ⟨fun _ _ => .empty, h.spared⟩, ?_, ?_⟩
  · exact fun j n n' hn hn' => h.one j n n' (hs.mp hn) (hs.mp hn')
  · exact fun j n hn => h.range j n (hs.mp hn)

end Step

/-! ## Runs -/

/-- The write keeps to the key: it spares it, unless it is made under the key itself. -/
def PlannedWrite.Keeps (id : NodeIdentity) (p : PlannedWrite) : Prop :=
  id.WrittenAs p.id ∧ (p.id ≠ id → ∀ w ∈ p.ops, w.Spares id)
deriving Decidable

namespace DeltaState

variable {ε : Type} {g : CoreGraph} {id : NodeIdentity} {st : DeltaState} {step : ServerStep ε}

theorem bornSyntheticInDelta_eq (st : DeltaState) (id : NodeIdentity) :
    st.bornSyntheticInDelta id = st.levels.findSome? fun l => (l.entryOf id).synthetic := by
  rw [bornSyntheticInDelta]
  show (st.levels.map level).findSome? _ = _
  rw [findSome?_map]
  exact congrArg (findSome? · st.levels) (funext fun l => (l.entryOf_synthetic id).symm)

/-- A resolution that succeeds leads where the key is filed. -/
theorem resolves_of_ok {isSet upsert : Bool} {resolved : Option Nat}
    (h : st.resolveNodeOpFrom (g.generation.resolveBusinessKey id) id isSet upsert = .ok resolved) :
    Resolves g st.mem st.l0 id resolved := by
  cases hr : g.generation.resolveBusinessKey id with
  | unique d =>
    rw [hr] at h
    cases h
    exact .inl hr
  | absent =>
    rw [hr, resolveNodeOpFrom] at h
    split at h
    next =>
      cases h
      cases hs : st.bornSyntheticForIdentity id with
      | none =>
        refine ⟨hr, fun l hl => ?_⟩
        rw [entryOf_synthetic]
        exact findSome?_eq_none_iff.mp hs l hl
      | some d =>
        obtain ⟨l, hl, hd⟩ := exists_of_findSome?_eq_some hs
        rw [← entryOf_synthetic] at hd
        exact .inr ⟨hr, l, .tail _ hl, hd⟩
    next =>
      split at h
      next d hs =>
        cases h
        rw [bornSyntheticInDelta_eq] at hs
        obtain ⟨l, hl, hd⟩ := exists_of_findSome?_eq_some hs
        exact .inr ⟨hr, l, hl, hd⟩
      next => split at h <;> cases h
  | ambiguous | unindexed =>
    rw [hr] at h
    cases h

/-- An acknowledged write was resolved. -/
theorem resolves_of_acknowledged {p : PlannedWrite}
    (h : st.acknowledged g.generation step = some p) : Resolves g st.mem st.l0 p.id p.resolved := by
  cases step with
  | flush => cases h
  | write ev stmt =>
    obtain ⟨value, -, hplan⟩ := bind_eq_ok.mp (toOption_eq_some.mp h)
    exact resolves_of_ok (planWrite_ok hplan).2.2.1

theorem le_syntheticBase_serve {n : Nat} (h : n ≤ st.mem.syntheticBase) (gen : Generation) (step : ServerStep ε) :
    n ≤ (st.serve gen step).mem.syntheticBase := by
  cases step with
  | flush => exact le_syntheticBase_step h .flush
  | write ev stmt =>
    rw [serve_write]
    exact foldlRecOn (motive := fun m : Memtable => n ≤ m.syntheticBase) _ apply h fun m hm op _ =>
      hm.trans_eq (m.apply_syntheticBase op).symm

/-- One step of the server keeps the keys. -/
theorem keysHeld_serve (h : KeysHeld g id st.levels) (hbase : g.nodes.length ≤ st.mem.syntheticBase)
    (hkeeps : ∀ p, st.acknowledged g.generation step = some p → p.Keeps id) :
    KeysHeld g id (st.serve g.generation step).levels := by
  cases step with
  | flush =>
    simp only [serve, flush]
    cases st.mem.isEmpty with
    | true => exact h
    | false => exact h.fresh _ _
  | write ev stmt =>
    rw [serve_write]
    cases hp : st.acknowledged g.generation (.write ev stmt) with
    | none => exact h
    | some p =>
      obtain ⟨hwritten, hws⟩ := hkeeps p hp
      exact h.applyAll hbase (resolves_of_acknowledged hp) hwritten hws

/-- **A whole run keeps the keys.** -/
theorem keysHeld_serveAll (h : KeysHeld g id st.levels) (hbase : g.nodes.length ≤ st.mem.syntheticBase)
    {steps : List (ServerStep ε)} (hkeeps : ∀ p ∈ st.log g.generation steps, p.Keeps id) :
    KeysHeld g id (st.serveAll g.generation steps).levels := by
  induction steps generalizing st with
  | nil => exact h
  | cons step steps ih =>
    have hhead : ∀ p, st.acknowledged g.generation step = some p → p.Keeps id := fun p hp =>
      hkeeps p (mem_append_left _ (mem_toList.mpr hp))
    exact ih (keysHeld_serve h hbase hhead) (le_syntheticBase_serve hbase _ step)
      fun p hp => hkeeps p (mem_append_right _ hp)

end DeltaState

/-! ## What a node shows -/

/-- The node is live in the merged view, with the label of the key, and shows an equal value.
Values are compared as the index compares them. -/
def CarriesKey (gen : Generation) (s : DeltaSnapshot) (id : NodeIdentity) (n : Nat) : Prop :=
  (gen.merged s).live n ∧ ((gen.core.labelId id.label).any fun lid => lid ∈ (gen.merged s).labelIds n) = true ∧
    ((gen.nodeValue s n id.key).any fun v => v.cmpKey id.value == .eq) = true
deriving Decidable

namespace CoreGraph

variable {g : CoreGraph} {id : NodeIdentity} {n : Nat}

theorem nodeRow_lookup (g : CoreGraph) (n : Nat) (key : String) :
    (g.generation.nodeRow n).lookup key = g.nodeValue n key := by
  show ((g.nodes[n]?).elim ∅ fun node => insertAll ∅ node.props.reverse).lookup key = _
  rw [nodeValue]
  cases g.nodes[n]? with
  | none => rfl
  | some node => exact lookup_insertAll_reverse node.props key

/-- A key that resolves leads to its one hit. -/
theorem hit_of_unique (h : g.generation.resolveBusinessKey id = .unique n) : g.Hit id n := by
  rcases g.resolveBusinessKey_eq id with hr | hr
  · rw [h] at hr
    cases hr
  · rw [h] at hr
    rcases hh : g.hits id with _ | ⟨a, _ | ⟨b, rest⟩⟩ <;> rw [hh] at hr <;> cases hr
    exact g.mem_hits.mp (hh ▸ mem_singleton_self n)

theorem unique_of_hit (h : g.Hit id n) (hu : g.generation.resolveBusinessKey id ≠ .unindexed)
    (ha : g.generation.resolveBusinessKey id ≠ .ambiguous) : g.generation.resolveBusinessKey id = .unique n := by
  have hr := (g.resolveBusinessKey_eq id).resolve_left hu
  have hmem := g.mem_hits.mpr h
  rcases hh : g.hits id with _ | ⟨a, _ | ⟨b, rest⟩⟩ <;> rw [hh] at hr hmem
  · cases hmem
  · rw [hr, mem_singleton.mp hmem]
    rfl
  · exact absurd hr ha

end CoreGraph

namespace DeltaState

variable {g : CoreGraph} {id : NodeIdentity} {st : DeltaState} {n : Nat}

theorem nodePatch_spares (h : KeysHeld g id st.levels) (hn : ∀ l ∈ st.levels, l.byDense.lookup n ≠ some id)
    {δ : NodeDelta} (hδ : st.snapshot.nodePatch n = some δ) : δ.Spares id := by
  have hfold : nodeFold st.levels n = some δ := (snapshotOf_nodePatch st.mem st.l0 n).symm.trans hδ
  refine foldPresent_induction (fun _ _ => NodeDelta.Spares.foldNewer) (fun l hl δ hp => ?_) hfold
  obtain ⟨ident, hdense, hp⟩ := bind_eq_some_iff.mp hp
  obtain ⟨entry, hentry, rfl⟩ := map_eq_some_iff.mp hp
  have hspared := h.spared l hl ident fun he => hn l hl (he ▸ hdense)
  rwa [entryOf, hentry] at hspared

theorem exists_byDense_of_nodeIdentity {ident : NodeIdentity} (h : st.snapshot.nodeIdentity n = some ident) :
    ∃ l ∈ st.levels, l.byDense.lookup n = some ident := by
  have hfind := (findSome?_levels st.mem st.l0 (·.nodeIdentity n)).symm.trans h
  obtain ⟨l, hl, hi⟩ := exists_of_findSome?_eq_some hfind
  obtain ⟨j, hj, hi⟩ := bind_eq_some_iff.mp hi
  obtain ⟨-, -, rfl⟩ := map_eq_some_iff.mp hi
  exact ⟨l, hl, hj⟩

section

variable (h : KeysHeld g id st.levels) (hn : ∀ l ∈ st.levels, l.byDense.lookup n ≠ some id)
include h hn

/-- The value a node shows lies below the delta, or is the key it is filed under. -/
theorem nodeValue_below
    {v : Value} (hv : g.generation.nodeValue st.snapshot n id.key = some v) (heq : v.cmpKey id.value = .eq) :
    g.nodeValue n id.key = some v ∨
      ∃ ident, st.snapshot.nodeIdentity n = some ident ∧ ident.key = id.key ∧ ident.value = v := by
  have hseeded : Generation.seeded st.snapshot n id.key = some v →
      ∃ ident, st.snapshot.nodeIdentity n = some ident ∧ ident.key = id.key ∧ ident.value = v := by
    intro hs
    obtain ⟨ident, hi, hs⟩ := bind_eq_some_iff.mp hs
    split at hs
    next hk => exact ⟨ident, hi, hk, some.inj hs⟩
    next => cases hs
  have hbelow : (bif !st.snapshot.isEmpty && g.generation.unborn n
      then Generation.seeded st.snapshot n id.key
      else (g.generation.nodeRow n).lookup id.key) = some v →
      g.nodeValue n id.key = some v ∨
        ∃ ident, st.snapshot.nodeIdentity n = some ident ∧ ident.key = id.key ∧ ident.value = v := by
    intro hb
    cases hu : !st.snapshot.isEmpty && g.generation.unborn n <;> rw [hu] at hb
    · exact .inl ((g.nodeRow_lookup n id.key).symm.trans hb)
    · exact .inr (hseeded hb)
  unfold Generation.nodeValue at hv
  cases he : st.snapshot.isEmpty with
  | true =>
    rw [he] at hv hbelow
    exact hbelow hv
  | false =>
    cases hp : st.snapshot.nodePatch n with
    | none =>
      simp only [he, hp] at hv
      exact hbelow (by rw [he]; exact hv)
    | some δ =>
      simp only [he, hp] at hv
      cases hl : δ.patches.lookup id.key with
      | some u =>
        simp only [hl] at hv
        cases hv
        exact absurd heq ((nodePatch_spares h hn hp).1 v hl)
      | none =>
        simp only [hl] at hv
        cases hh : δ.hides id.key <;> rw [hh] at hv
        · exact hbelow (by rw [he]; exact hv)
        · exact .inr (hseeded hv)

/-- The label a node shows lies below the delta. -/
theorem label_below {lid : Nat} (hlid : g.labelId id.label = some lid)
    (hmem : lid ∈ (g.generation.merged st.snapshot).labelIds n) :
    lid ∈ (g.generation.merged st.snapshot).stackLabelIds n := by
  rcases View.mem_labelIds _ hmem with hb | ⟨-, removed, added, hd, l, hl, hlid'⟩
  · exact hb
  · obtain ⟨δ, hδ, he⟩ := map_eq_some_iff.mp hd
    cases he
    have heq : l = id.label := labelId_inj hlid' hlid
    exact absurd (heq ▸ mem_ascending.mp hl) (nodePatch_spares h hn hδ).2

end

/-- **A node that shows a key is filed under it**, when the key resolves at all. -/
theorem filed_of_carries (h : KeysHeld g id st.levels) (hu : g.generation.resolveBusinessKey id ≠ .unindexed)
    (ha : g.generation.resolveBusinessKey id ≠ .ambiguous) (hc : CarriesKey g.generation st.snapshot id n) :
    Filed g st.levels id n := by
  by_cases hid : ∃ l ∈ st.levels, l.byDense.lookup n = some id
  · obtain ⟨l, hl, hn⟩ := hid
    exact h.filed l hl n id hn
  have hn : ∀ l ∈ st.levels, l.byDense.lookup n ≠ some id := fun l hl he => hid ⟨l, hl, he⟩
  obtain ⟨-, hlabel, hvalue⟩ := hc
  obtain ⟨lid, hlid, hmem⟩ := (any_eq_true _ _).mp hlabel
  obtain ⟨v, hv, heq⟩ := (any_eq_true _ _).mp hvalue
  have heq := beq_iff_eq.mp heq
  have hstack := label_below h hn hlid (of_decide_eq_true hmem)
  have hval := nodeValue_below h hn hv heq
  -- An identity that seeds the value writes it as the key does.
  have hident : ∀ {ident}, st.snapshot.nodeIdentity n = some ident → ident.key = id.key →
      ident.value = v → Filed g st.levels ident n ∧ ident.value = id.value := by
    intro ident hi hk hiv
    obtain ⟨l, hl, hd⟩ := exists_byDense_of_nodeIdentity hi
    exact ⟨h.filed l hl n ident hd, h.written l hl n ident hd hk (hiv ▸ heq)⟩
  by_cases hlt : n < g.nodes.length
  · have hcarries : ((g.labelId id.label).any fun lid => g.carries lid n) = true := by
      refine (any_eq_true _ _).mpr ⟨lid, hlid, ?_⟩
      rw [stackLabelIds_core hlt] at hstack
      rw [carries]
      cases hnode : g.nodes[n]? <;> rw [hnode] at hstack
      · cases hstack
      · exact decide_eq_true hstack
    refine .inl (unique_of_hit ⟨hcarries, ?_⟩ hu ha)
    rcases hval with hval | ⟨ident, hi, hk, hiv⟩
    · exact ⟨v, hval, heq⟩
    · obtain ⟨hfiled, hsame⟩ := hident hi hk hiv
      rcases hfiled with hun | ⟨-, hsyn⟩
      · obtain ⟨-, u, hu, hc⟩ := hit_of_unique hun
        exact ⟨u, hk ▸ hu, hsame ▸ hc⟩
      · exact absurd (h.range ident n hsyn) (Nat.not_le.mpr hlt)
  · rcases hval with hval | ⟨ident, hi, hk, hiv⟩
    · rw [nodeValue, getElem?_eq_none (Nat.le_of_not_lt hlt)] at hval
      cases hval
    · obtain ⟨hfiled, hsame⟩ := hident hi hk hiv
      have hl : ident.label = id.label := by
        rw [stackLabelIds_born (Nat.le_of_not_lt hlt), hi] at hstack
        exact labelId_inj (mem_toList.mp hstack) hlid
      have he : ident = id := by
        cases ident
        simp_all
      exact he ▸ hfiled

/-- The keys of the acknowledged `MERGE` statements of a run. -/
def merges {ε : Type} (gen : Generation) (st : DeltaState) : List (ServerStep ε) → List NodeIdentity
  | [] => []
  | step :: steps =>
    (match step with
      | .write _ stmt =>
        if stmt.upsert then ((st.acknowledged gen step).map (·.id)).toList else []
      | .flush => []) ++ (st.serve gen step).merges gen steps

/-- A key that was merged resolves. -/
theorem resolves_of_mem_merges {ε : Type} {steps : List (ServerStep ε)} {st : DeltaState}
    (h : id ∈ st.merges g.generation steps) :
    g.generation.resolveBusinessKey id ≠ .unindexed ∧ g.generation.resolveBusinessKey id ≠ .ambiguous := by
  induction steps generalizing st with
  | nil => cases h
  | cons step steps ih =>
    rcases mem_append.mp h with h | h
    · cases step with
      | flush => cases h
      | write ev stmt =>
        dsimp only at h
        split at h
        next =>
          obtain ⟨p, hp, rfl⟩ := map_eq_some_iff.mp (mem_toList.mp h)
          have hres := resolves_of_acknowledged hp
          cases hr : p.resolved with
          | none =>
            rw [hr] at hres
            rw [hres.1]
            exact ⟨nofun, nofun⟩
          | some d =>
            rw [hr] at hres
            rcases hres with hres | ⟨hres, -⟩ <;> rw [hres] <;> exact ⟨nofun, nofun⟩
        next => cases h
    · exact ih h

/-- **A merged key has at most one node**, after any run in which the other statements keep to
it: none assigns the key an equal value or adds the label, and equal values are written alike.
The run may contain any number of `MERGE`s of the key, deletes and flushes. -/
theorem merged_key_unique {ε : Type} (g : CoreGraph) (steps : List (ServerStep ε)) {id : NodeIdentity}
    (hm : id ∈ (start g.nodes.length g.edges.length).merges g.generation steps)
    (hkeeps : ∀ p ∈ (start g.nodes.length g.edges.length).log g.generation steps, p.Keeps id) {n n' : Nat}
    (hn : CarriesKey g.generation ((start g.nodes.length g.edges.length).serveAll g.generation steps).snapshot id n)
    (hn' : CarriesKey g.generation
      ((start g.nodes.length g.edges.length).serveAll g.generation steps).snapshot id n') : n = n' := by
  have hnone : KeysHeld g id [] := by constructor <;> simp [Synthetic]
  have hheld := keysHeld_serveAll (hnone.fresh _ _) le_rfl hkeeps
  obtain ⟨hu, ha⟩ := resolves_of_mem_merges hm
  rcases filed_of_carries hheld hu ha hn with h | ⟨h, hs⟩ <;>
    rcases filed_of_carries hheld hu ha hn' with h' | ⟨h', hs'⟩
  · exact KeyResolution.unique.inj (h.symm.trans h')
  · rw [h] at h'; cases h'
  · rw [h] at h'; cases h'
  · exact hheld.one id n n' hs hs'

/-- `MERGE (n:Person {id: key}) SET n.a = 1`. -/
def mergePerson (key : Value) : ServerStep Value :=
  .write literal { label := "Person", key := "id", keyValue := key, upsert := true
                   op := .set [.prop "a" (.int 1)] }

/-- The same person merged twice, with a flush in between. -/
theorem merged_key_unique_repeated :
    let steps := [mergePerson (.int 7), .flush, mergePerson (.int 7)]
    let s := ((start 1 0).serveAll onePerson.generation steps).snapshot
    CarriesKey onePerson.generation s ⟨"Person", "id", .int 7⟩ 1 ∧
      ∀ n, CarriesKey onePerson.generation s ⟨"Person", "id", .int 7⟩ n → n = 1 := by
  intro steps s
  have hone : CarriesKey onePerson.generation s ⟨"Person", "id", .int 7⟩ 1 := by decide +kernel
  refine ⟨hone, fun n hn => ?_⟩
  exact merged_key_unique onePerson steps (by decide +kernel) (by decide +kernel) hn hone

/-- **A `SET` of the key goes unseen**: the node merged under 7 and moved to 8 is missed by a
`MERGE` of 8, which creates a second one. -/
theorem merged_key_duplicated : ¬ ∀ (g : CoreGraph) (steps : List (ServerStep Value)) (id : NodeIdentity) (n n' : Nat),
      (∀ id n n', CarriesKey g.generation (start g.nodes.length g.edges.length).snapshot id n →
        CarriesKey g.generation (start g.nodes.length g.edges.length).snapshot id n' → n = n') →
      id ∈ (start g.nodes.length g.edges.length).merges g.generation steps →
      CarriesKey g.generation ((start g.nodes.length g.edges.length).serveAll g.generation steps).snapshot id n →
      CarriesKey g.generation ((start g.nodes.length g.edges.length).serveAll g.generation steps).snapshot id n' →
      n = n' := by
  intro h
  let moved := setPerson (.int 7) "id" (.int 8)
  have hcore : ∀ id n n', CarriesKey onePerson.generation (start 1 0).snapshot id n →
      CarriesKey onePerson.generation (start 1 0).snapshot id n' → n = n' := by
    intro id n n' hn hn'
    have hlt : n < 1 := hn.1.1
    have hlt' : n' < 1 := hn'.1.1
    omega
  have htwo := h onePerson [mergePerson (.int 7), .write moved.1 moved.2, mergePerson (.int 8)]
    ⟨"Person", "id", .int 8⟩ 1 2 hcore (by decide +kernel) (by decide +kernel) (by decide +kernel)
  exact absurd htwo (by decide)

end DeltaState

end Slater
