import Slater.Delta.Stack
import Slater.Delta.NodeSteps
import Slater.Server.NodeWrite

/-!
# Match or create

Whether a statement matches a node is decided from the index of the core and from the synthetic ids
the delta has given out (`resolve_node_op_from`, `merge_creates_node_from`). Neither forgets a node
when it is deleted: a key that ever led to a node leads to it still, a `MATCH … SET` resurrects it and
a `MERGE` runs its `ON MATCH` items. Only a key that no index and no identity of the delta knows is
treated as absent.

`deleted_matched_iff` gives the condition under which a statement after a delete does what one would
expect. It is a condition on the state, and no state after an acknowledged `DELETE` under the key meets
it, whatever is written or flushed since (`matched_after_delete`).

**What it does not establish.** Only keys that an index serves or that the delta knows are looked at, and only the
node itself: its relationships are deleted by other operations. A consolidation, which drops deleted nodes from the
core, ends the run.
-/

namespace Slater

open Map

/-! ## Keys are not forgotten -/

namespace Memtable

variable {m : Memtable} {id : NodeIdentity}

/-- A key that has a synthetic id in a level has one after every operation. -/
theorem apply_keeps_born (h : (m.bornSyntheticForIdentity id).isSome) (op : ResolvedOp) :
    ((m.apply op).bornSyntheticForIdentity id).isSome := by
  have hborn : ∀ (m : Memtable) (id' : NodeIdentity) (entry : NodeEntry), (m.bornSyntheticForIdentity id).isSome →
      ((m.allocateBorn id' entry).bornSyntheticForIdentity id).isSome := by
    intro m id' entry h
    rw [bornSyntheticForIdentity_allocateBorn]
    split
    · rfl
    · exact h
  -- what concerns edges does not touch the nodes
  have hhalf : ∀ m m' : Memtable, m'.nodeHalf = m.nodeHalf → (m.bornSyntheticForIdentity id).isSome →
      (m'.bornSyntheticForIdentity id).isSome := by
    intro m m' hsame h
    rwa [show m'.bornSyntheticForIdentity id = m'.nodeHalf.bornSyntheticForIdentity id from rfl, hsame]
  refine apply_keeps (p := fun m => (m.bornSyntheticForIdentity id).isSome) (fun m id' resolved w h => ?_)
    (fun m id' resolved h => ?_) (fun m _ _ _ _ _ => hhalf m _ (m.upsertLinked_nodeHalf ..))
    (fun m _ _ _ _ _ _ => hhalf m _ (m.patchLinked_nodeHalf ..)) (fun m _ _ _ => hhalf m _ (m.deleteLinked_nodeHalf ..))
    h op
  · rcases m.writeNode_cases id' resolved w with ⟨-, -, -, hw⟩ | ⟨t, -, hw⟩ | ⟨-, -, -, hw⟩
    · rwa [hw]
    · rwa [hw, bornSyntheticForIdentity_putNode]
    · rw [hw]
      exact hborn m id' _ h
  · rcases m.endpointDenseOrCreate_cases id' resolved with hw | ⟨-, -, hw⟩
    · rwa [hw]
    · rw [hw]
      exact hborn m id' _ h

end Memtable

namespace DeltaState

variable {ε : Type} (st : DeltaState)

theorem bornSyntheticInDelta_isSome_iff (id : NodeIdentity) :
    (st.bornSyntheticInDelta id).isSome ↔ ∃ l ∈ st.levels, (l.bornSyntheticForIdentity id).isSome := by
  rw [bornSyntheticInDelta]
  show ((st.levels.map Memtable.level).findSome? _).isSome ↔ _
  rw [List.isSome_findSome?, List.any_map, List.any_eq_true]
  rfl

/-- The node a `MATCH` on the key would write to. Deleted or not: the probe does not ask. -/
def matchTarget (gen : Generation) (id : NodeIdentity) : Option Nat :=
  match gen.resolveBusinessKey id with
  | .unique dense => some dense
  | .absent => st.bornSyntheticInDelta id
  | .ambiguous | .unindexed => none

/-- **A key that leads to a node leads to one from then on**, whatever is written and flushed.
The index of the core does not change while a generation is served, and the delta gives a
synthetic id back to nobody. -/
theorem matchTarget_run {gen : Generation} {id : NodeIdentity} (h : (st.matchTarget gen id).isSome)
    (steps : List DeltaStep) : ((st.run steps).matchTarget gen id).isSome := by
  have hborn : (st.bornSyntheticInDelta id).isSome → ((st.run steps).bornSyntheticInDelta id).isSome := by
    intro h
    refine List.foldlRecOn (motive := fun st : DeltaState => (st.bornSyntheticInDelta id).isSome) steps step h
      fun st h step _ => ?_
    rw [bornSyntheticInDelta_isSome_iff] at h ⊢
    obtain ⟨l, hl, hid⟩ := h
    cases step with
    | write op =>
      rcases List.mem_cons.mp hl with rfl | hl
      · exact ⟨_, .head _, Memtable.apply_keeps_born hid op⟩
      · exact ⟨l, .tail _ hl, hid⟩
    | flush =>
      show ∃ l ∈ st.flush.levels, _
      unfold flush
      cases st.mem.isEmpty with
      | true => exact ⟨l, hl, hid⟩
      | false => exact ⟨l, .tail _ hl, hid⟩
  unfold matchTarget at h ⊢
  cases hkey : gen.resolveBusinessKey id with
  | unique dense => rfl
  | absent =>
    rw [hkey] at h
    exact hborn h
  | ambiguous | unindexed =>
    rw [hkey] at h
    cases h

/-- The operations of a statement are steps of the delta. -/
theorem commit_run (ops : List ResolvedOp) (steps : List DeltaStep) :
    (st.commit ops).run steps = st.run (ops.map .write ++ steps) := by
  induction ops generalizing st with
  | nil => rfl
  | cons op ops ih => exact ih { st with mem := st.mem.apply op }

/-- `MATCH` and `DELETE` resolve to the target, and are refused without one. -/
theorem resolveNodeOpFrom_match (gen : Generation) (id : NodeIdentity)
    (isSet upsert : Bool) (h : (isSet && upsert) = false) :
    (st.resolveNodeOpFrom (gen.resolveBusinessKey id) id isSet upsert).toOption =
      (st.matchTarget gen id).map some := by
  unfold resolveNodeOpFrom matchTarget
  cases gen.resolveBusinessKey id with
  | unique dense => rfl
  | absent =>
    simp only [h]
    cases st.bornSyntheticInDelta id with
    | some dense => rfl
    | none => cases isSet <;> rfl
  | ambiguous => rfl
  | unindexed => rfl

/-- The newest level decides whether a node is deleted. -/
theorem isTombstoned_written (id : NodeIdentity) (dense : Nat) (patches : List (String × Value)) :
    (st.commit [.node id (.upsert patches) (some dense)]).snapshot.isTombstoned dense = false := by
  have hpatch : (st.mem.writeNode id (some dense) (.upsert patches)).nodePatch dense =
      some ((st.mem.entryOf id).delta.write (.upsert patches)) := by
    rw [Memtable.writeNode_some]
    simp [Memtable.nodePatch]
  show ((List.findSome? _ ((st.mem.writeNode id (some dense) (.upsert patches)).level :: _))).getD _ = false
  simp [Memtable.level, hpatch, NodeDelta.write_tombstoned]

/-- The statement is a `MATCH … SET` on the key. -/
def IsMatchSet (id : NodeIdentity) (ev : Evaluator ε) (stmt : WriteStmt ε) : Prop :=
  stmt.upsert = false ∧ (∃ items, stmt.op = .set items) ∧ stmt.label = id.label ∧
    stmt.key = id.key ∧ ev.value stmt.keyValue "the anchor business-key value" = .ok id.value

/-- The statement is a `MERGE` on the key with conditional items. Which of its two lists of
items is run tells what the statement took the node for. -/
def IsConditionalMerge (id : NodeIdentity) (ev : Evaluator ε) (stmt : WriteStmt ε) : Prop :=
  stmt.upsert = true ∧ (stmt.onCreate ≠ [] ∨ stmt.onMatch ≠ []) ∧ stmt.label = id.label ∧
    stmt.key = id.key ∧ ev.value stmt.keyValue "the anchor business-key value" = .ok id.value

variable (gen : Generation) (st : DeltaState) (id : NodeIdentity)

/-- A `MATCH … SET` without a target is refused, and a refused statement changes nothing. -/
theorem serve_of_no_target (h : st.matchTarget gen id = none) {ev : Evaluator ε} {stmt : WriteStmt ε}
    (hstmt : IsMatchSet id ev stmt) : st.serve gen (.write ev stmt) = st := by
  obtain ⟨hupsert, ⟨items, hop⟩, hlabel, hkey, hvalue⟩ := hstmt
  have hident : stmt.identity id.value = id := by simp only [WriteStmt.identity, hlabel, hkey]
  have hrefused : st.acknowledged gen (.write ev stmt) = none := by
    by_contra hne
    obtain ⟨p, hp⟩ := Option.ne_none_iff_exists'.mp hne
    obtain ⟨value, hv, hplan⟩ := bind_eq_ok.mp (toOption_eq_some.mp hp)
    rw [hvalue] at hv
    cases hv
    obtain ⟨hid, -, hres, -⟩ := planWrite_ok hplan
    rw [hid, hident] at hres
    have htarget := st.resolveNodeOpFrom_match gen id stmt.isSet stmt.upsert (by rw [hupsert, Bool.and_false])
    rw [hres, h] at htarget
    cases htarget
  rw [serve_write, hrefused]
  rfl

/-- An evaluator under which a statement has the key `id.value` and sets nulls. -/
def keyedBy : Evaluator ε where
  value _ what := .ok (if what = "the anchor business-key value" then id.value else .null)
  map _ _ := .ok .null

/-- `MATCH (n:label {key: …}) SET n.p = …`. -/
def matchSet [Inhabited ε] : WriteStmt ε where
  label := id.label
  key := id.key
  keyValue := default
  upsert := false
  op := .set [.prop "p" default]

/-- With a target, the statement is executed on it. -/
theorem serve_matchSet [Inhabited ε] {dense : Nat} (h : st.matchTarget gen id = some dense) :
    st.serve gen (.write (keyedBy id) (matchSet id : WriteStmt ε)) =
      st.commit [.node id (.upsert [("p", .null)]) (some dense)] := by
  have hres : st.resolveNodeOpFrom (gen.resolveBusinessKey id) id true false = .ok (some dense) := by
    have htarget := st.resolveNodeOpFrom_match gen id true false rfl
    rw [h] at htarget
    exact toOption_eq_some.mp htarget
  have hplan : st.planStatement gen (keyedBy id) (matchSet id : WriteStmt ε) =
      .ok { id, ops := [.upsert [("p", .null)]], resolved := some dense } := by
    refine bind_eq_ok.mpr ⟨id.value, by simp [keyedBy], ?_⟩
    refine bind_eq_ok.mpr ⟨[.upsert [("p", .null)]], rfl, ?_⟩
    refine bind_eq_ok.mpr ⟨[], rfl, ?_⟩
    refine bind_eq_ok.mpr ⟨(), rfl, ?_⟩
    exact bind_eq_ok.mpr ⟨some dense, hres, rfl⟩
  rw [serve_write, acknowledged, hplan]
  rfl

/-- A `MERGE` creates exactly if neither the core nor the delta knows the key. -/
theorem mergeCreates_iff : st.mergeCreatesNodeFrom (gen.resolveBusinessKey id) id = true ↔
    gen.resolveBusinessKey id = .absent ∧ st.bornSyntheticInDelta id = none := by
  unfold mergeCreatesNodeFrom
  cases gen.resolveBusinessKey id <;> simp

/-- **Deleted nodes and statements.** On a state in which the node of the key is deleted, a
`MATCH … SET` changes nothing exactly if the key leads to no node, and a `MERGE` runs its `ON
CREATE` items exactly if neither the core nor the delta ever knew the key. -/
theorem deleted_matched_iff [Inhabited ε]
    (hdel : ∀ dense ∈ st.matchTarget gen id, st.snapshot.isTombstoned dense = true) :
    ((∀ (ev : Evaluator ε) (stmt : WriteStmt ε), IsMatchSet id ev stmt →
        gen.merged (st.serve gen (.write ev stmt)).snapshot = gen.merged st.snapshot) ↔ st.matchTarget gen id = none) ∧
    ((∀ (ev : Evaluator ε) (stmt : WriteStmt ε), IsConditionalMerge id ev stmt →
        st.conditionalOps gen ev stmt id = foldSetItems ev stmt.onCreate false) ↔
      gen.resolveBusinessKey id = .absent ∧ st.bornSyntheticInDelta id = none) := by
  refine ⟨⟨fun h => ?_, fun h ev stmt hstmt => ?_⟩, ⟨fun h => ?_, fun h ev stmt hstmt => ?_⟩⟩
  · by_contra hne
    obtain ⟨dense, hdense⟩ := Option.ne_none_iff_exists'.mp hne
    have hview := h (keyedBy id) (matchSet id) ⟨rfl, ⟨_, rfl⟩, rfl, rfl, by simp [keyedBy]⟩
    rw [serve_matchSet gen st id hdense] at hview
    have hdead := congrFun (congrArg View.deltaTombstoned hview) dense
    have hbefore : (gen.merged st.snapshot).deltaTombstoned dense = true := hdel dense hdense
    have hafter : (gen.merged (st.commit [.node id (.upsert [("p", .null)])
        (some dense)]).snapshot).deltaTombstoned dense = false := st.isTombstoned_written id dense _
    rw [hbefore, hafter] at hdead
    cases hdead
  · rw [serve_of_no_target gen st id h hstmt]
  · have hmerge := h (keyedBy id) { matchSet id with upsert := true, onCreate := [.prop "p" default] }
      ⟨rfl, .inl (by simp), rfl, rfl, by simp [keyedBy]⟩
    have hcreated : st.mergeCreatesNodeFrom (gen.resolveBusinessKey id) id = true := by
      by_contra hmatched
      rw [Bool.not_eq_true] at hmatched
      rw [conditionalOps, hmatched] at hmerge
      cases hmerge
    exact (mergeCreates_iff gen st id).mp hcreated
  · obtain ⟨hupsert, hitems, -⟩ := hstmt
    have hcond : (stmt.upsert && (!stmt.onCreate.isEmpty || !stmt.onMatch.isEmpty)) = true := by
      rw [hupsert]
      simpa using hitems
    rw [conditionalOps, if_pos hcond, (mergeCreates_iff gen st id).mpr h]
    rfl

/-- After an acknowledged `DELETE` under the key the condition is never met again: the key leads
to a node, so a `MATCH … SET` writes to it, and a `MERGE` does not create one. -/
theorem matched_after_delete {ev : Evaluator ε} {stmt : WriteStmt ε} {detach : Bool} (hdelete : stmt.op = .delete detach)
    {plan : PlannedWrite} (hack : st.acknowledged gen (.write ev stmt) = some plan) (steps : List DeltaStep) :
    (((st.serve gen (.write ev stmt)).run steps).matchTarget gen plan.id).isSome ∧
      ((st.serve gen (.write ev stmt)).run steps).mergeCreatesNodeFrom (gen.resolveBusinessKey plan.id) plan.id = false := by
  obtain ⟨value, -, hplan⟩ := bind_eq_ok.mp (toOption_eq_some.mp hack)
  have hres := (planWrite_ok hplan).2.2.1
  have hset : (stmt.isSet && stmt.upsert) = false := by simp [WriteStmt.isSet, hdelete]
  have htarget := st.resolveNodeOpFrom_match gen plan.id stmt.isSet stmt.upsert hset
  rw [hres] at htarget
  have hsome : (st.matchTarget gen plan.id).isSome := by
    cases h : st.matchTarget gen plan.id with
    | none =>
      rw [h] at htarget
      cases htarget
    | some dense => rfl
  have hafter : (((st.serve gen (.write ev stmt)).run steps).matchTarget gen plan.id).isSome := by
    rw [serve_write, commit_run]
    exact st.matchTarget_run hsome _
  refine ⟨hafter, ?_⟩
  rw [← Bool.not_eq_true, mergeCreates_iff]
  rintro ⟨habsent, hnone⟩
  rw [matchTarget, habsent] at hafter
  exact absurd hafter (by rw [hnone]; exact Bool.noConfusion)

/-- The person after `MATCH (n:Person {id: 1}) DETACH DELETE n`. -/
def personDeleted : DeltaState :=
  (start 1 0).serveAll onePerson.generation [.write literal
    { label := "Person", key := "id", keyValue := .int 1, upsert := false, op := .delete true }]

/-- The deleted person is still the target of its key, so a statement can change what is
read. -/
theorem deleted_matched_personDeleted :
    (∀ dense ∈ personDeleted.matchTarget onePerson.generation ⟨"Person", "id", .int 1⟩,
      personDeleted.snapshot.isTombstoned dense = true) ∧
    ¬ ∀ (ev : Evaluator Value) (stmt : WriteStmt Value), IsMatchSet ⟨"Person", "id", .int 1⟩ ev stmt →
      onePerson.generation.merged (personDeleted.serve onePerson.generation (.write ev stmt)).snapshot =
        onePerson.generation.merged personDeleted.snapshot := by
  have hdel : ∀ dense ∈ personDeleted.matchTarget onePerson.generation ⟨"Person", "id", .int 1⟩,
      personDeleted.snapshot.isTombstoned dense = true := by decide +kernel
  refine ⟨hdel, fun h => ?_⟩
  have hnone := (deleted_matched_iff onePerson.generation personDeleted ⟨"Person", "id", .int 1⟩
    hdel).1.mp h
  revert hnone
  decide +kernel

/-- The person is deleted; `MATCH (n:Person {id: 1}) SET n.a = 5` brings it back. -/
theorem deleted_node_resurrected :
    ¬ ∀ (gen : Generation) (nodeCount edgeCount : Nat) (history : List (ServerStep Value))
      (id : NodeIdentity) (dense : Nat),
      let st := (start nodeCount edgeCount).serveAll gen history
      st.matchTarget gen id = some dense → st.snapshot.isTombstoned dense = true →
      (∀ (ev : Evaluator Value) (stmt : WriteStmt Value), IsMatchSet id ev stmt →
        gen.merged (st.serve gen (.write ev stmt)).snapshot = gen.merged st.snapshot) ∧
      ∀ (ev : Evaluator Value) (stmt : WriteStmt Value), IsConditionalMerge id ev stmt →
        st.conditionalOps gen ev stmt id = foldSetItems ev stmt.onCreate false := by
  intro h
  have hview := (h onePerson.generation 1 0 [.write literal
    { label := "Person", key := "id", keyValue := .int 1, upsert := false, op := .delete true }]
    ⟨"Person", "id", .int 1⟩ 0 (by decide +kernel) (by decide +kernel)).1 _ _
    (⟨rfl, ⟨_, rfl⟩, rfl, rfl, rfl⟩ : IsMatchSet ⟨"Person", "id", .int 1⟩
      (setPerson (.int 1) "a" (.int 5)).1 (setPerson (.int 1) "a" (.int 5)).2)
  have hdead := congrFun (congrArg View.deltaTombstoned hview) 0
  revert hdead
  decide +kernel

end DeltaState

end Slater
