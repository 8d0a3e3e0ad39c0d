import Slater.Server.DeltaWriter
import Slater.Server.WriteStatements

/-!
# Writes into an orphaned delta

The delta of a graph is bound to one generation, and its ids mean nothing over another. `refuse_orphaned_delta`
of `slater/src/server/write.rs` keeps a statement out of a delta that is bound elsewhere: it is asked first, and
what it refuses has changed neither the log nor the memtable.

It is asked by `execute_write` and `execute_write_batch`, and by none of the other entry points
(`orphaned_refused_iff`).

**What it does not establish.** How a delta comes to be bound elsewhere is the subject of `Slater.Server.SwapGuard`.
The comparison is with the generation that the statement was given, not with the one that is served when it commits.
-/

namespace Slater

/-- The functions that carry out a write statement. -/
inductive WriteEntry where
  | write
  | writeBatch
  | create
  | edgeWrite
  | edgeWriteBatch
  deriving DecidableEq

/-- The function a statement is handed to. -/
def WriteRequest.entry : WriteRequest → WriteEntry
  | .node _ none => .write
  | .node _ (some _) => .writeBatch
  | .create _ => .create
  | .edge _ none => .edgeWrite
  | .edge _ (some _) => .edgeWriteBatch

section

variable (uuidText : GenId → String) (graph : String) (bound served : GenId)

/-- The error of `refuse_orphaned_delta`. It is raised before the statement is looked at, so a
statement that fails with it has appended nothing and changed nothing. -/
def orphanedFailure : WriteFailure :=
  ⟨.execution, "the writable layer is bound to generation " ++ uuidText bound ++ " but graph '" ++
    graph ++ "' is now serving " ++ uuidText served ++ " — this write cannot be made durable against the served " ++
    "generation and has NOT been applied. Consolidate or restart the server to rebind the delta."⟩

/-- `refuse_orphaned_delta`, for a writer bound to one generation and a graph that serves
another. -/
def refuseOrphanedDelta : Except WriteFailure Unit :=
  if bound = served then .ok () else .error (orphanedFailure uuidText graph bound served)

/-- A write statement on a graph, from its entry point on. The delta is bound to one generation
and the statement was given another, or the same. -/
def DeltaState.serveWrite (st : DeltaState) (gen : Generation) (debug : Value → String) (params : Map String Val)
    (req : WriteRequest) : Except WriteFailure DeltaState :=
  match req.entry with
  | .write | .writeBatch => do
    refuseOrphanedDelta uuidText graph bound served
    st.execute gen debug params req
  | .create | .edgeWrite | .edgeWriteBatch => st.execute gen debug params req

end

namespace OrphanedDelta

/-- A graph of people without any. -/
def nobody : CoreGraph where
  labels := ["Person"]
  reltypes := ["KNOWS"]
  nodes := []
  edges := []
  indexes := [("person_id", "Person", "id")]
  ends := CoreGraph.ends_nil

/-- `CREATE (n:Person {id: 1})`. -/
def createPerson : WriteRequest := .create { label := "Person", props := [("id", .literal (.int 1))] }

/-- `MERGE (a:Person {id: 1})-[r:KNOWS]->(b:Person {id: 2})`, alone or for each row of a
parameter. -/
def mergeKnows (unwind : Option (Expr × String)) : WriteRequest :=
  .edge { src := ⟨"Person", "id", .literal (.int 1)⟩, reltype := "KNOWS", dst := ⟨"Person", "id", .literal (.int 2)⟩
          op := .create } unwind

/-- One row. -/
def oneRow : Map String Val := Finmap.insert "rows" (.list [.null]) ∅

theorem create_acknowledged :
    ((DeltaState.start 0 0).execute nobody.generation (fun _ => "") ∅ createPerson).isOk = true := by
  decide +kernel

end OrphanedDelta

theorem Except.not_error_of_isOk {ε α : Type} {x : Except ε α} (h : x.isOk = true) : ¬ ∃ e, x = .error e := by
  rintro ⟨e, rfl⟩
  cases h

/-- The statements for a node are refused before anything else is done with them. -/
theorem serveWrite_refused (uuidText : GenId → String) (graph : String) {bound served : GenId} (hne : bound ≠ served)
    (st : DeltaState) (gen : Generation) (debug : Value → String) (params : Map String Val) (req : WriteRequest)
    (hentry : req.entry = .write ∨ req.entry = .writeBatch) :
    st.serveWrite uuidText graph bound served gen debug params req =
      .error (orphanedFailure uuidText graph bound served) := by
  have hguard : refuseOrphanedDelta uuidText graph bound served =
      .error (orphanedFailure uuidText graph bound served) := if_neg hne
  rw [DeltaState.serveWrite]
  rcases hentry with hentry | hentry <;>
  · rw [hentry]
    show (refuseOrphanedDelta uuidText graph bound served >>= _) = _
    rw [hguard]
    rfl

open OrphanedDelta in
/-- **The entry points that refuse every statement for an orphaned delta** are those of the node
statements, and they refuse with the error of `refuse_orphaned_delta`, before anything is done.
Refusing every statement is meant over every state and all parameters. A single statement of the
other kinds may still be refused for a reason of its own. -/
theorem orphaned_refused_iff (uuidText : GenId → String) (graph : String) (bound served : GenId)
    (hne : bound ≠ served) (entry : WriteEntry) :
    ((∀ (st : DeltaState) (gen : Generation) (debug : Value → String) (params : Map String Val) (req : WriteRequest),
      req.entry = entry → ∃ e, st.serveWrite uuidText graph bound served gen debug params req = .error e) ↔
      entry = .write ∨ entry = .writeBatch) ∧
    ((entry = .write ∨ entry = .writeBatch) → ∀ (st : DeltaState) (gen : Generation) (debug : Value → String)
      (params : Map String Val) (req : WriteRequest), req.entry = entry →
      st.serveWrite uuidText graph bound served gen debug params req =
        .error (orphanedFailure uuidText graph bound served)) := by
  have hrefused : (entry = .write ∨ entry = .writeBatch) → ∀ (st : DeltaState) (gen : Generation)
      (debug : Value → String) (params : Map String Val) (req : WriteRequest), req.entry = entry →
      st.serveWrite uuidText graph bound served gen debug params req =
        .error (orphanedFailure uuidText graph bound served) :=
    fun hentry st gen debug params req hreq =>
      serveWrite_refused uuidText graph hne st gen debug params req (hreq ▸ hentry)
  refine ⟨⟨fun h => ?_, fun hentry st gen debug params req hreq => ⟨_, hrefused hentry st gen debug params req hreq⟩⟩,
    hrefused⟩
  cases entry with
  | write => exact .inl rfl
  | writeBatch => exact .inr rfl
  | create => exact absurd (h _ _ (fun _ => "") _ createPerson rfl) (Except.not_error_of_isOk create_acknowledged)
  | edgeWrite =>
    have hok : ((DeltaState.start 0 0).execute nobody.generation (fun _ => "") ∅ (mergeKnows none)).isOk = true := by
      decide +kernel
    exact absurd (h _ _ (fun _ => "") _ (mergeKnows none) rfl) (Except.not_error_of_isOk hok)
  | edgeWriteBatch =>
    have hok : ((DeltaState.start 0 0).execute nobody.generation (fun _ => "") oneRow
        (mergeKnows (some (.param "rows", "r")))).isOk = true := by decide +kernel
    exact absurd (h _ _ (fun _ => "") _ (mergeKnows (some (.param "rows", "r"))) rfl) (Except.not_error_of_isOk hok)

namespace OrphanedDelta

/-- `MATCH (n:Person {id: 1}) DELETE n`. -/
def deletePerson : WriteRequest :=
  .node { label := "Person", key := "id", keyValue := .literal (.int 1), upsert := false, op := .delete false } none

theorem delete_refused : (DeltaState.start 0 0).serveWrite toString "people" 0 1 nobody.generation (fun _ => "") ∅
    deletePerson = .error (orphanedFailure toString "people" 0 1) :=
  (orphaned_refused_iff toString "people" 0 1 (by decide) .write).2 (.inl rfl) _ _ _ _ deletePerson rfl

/-- **A `CREATE` is acknowledged into an orphaned delta.** -/
theorem create_unrefused : ¬ ∀ (uuidText : GenId → String) (graph : String) (bound served : GenId) (st : DeltaState)
      (gen : Generation) (debug : Value → String) (params : Map String Val) (req : WriteRequest), bound ≠ served →
      ∃ e, st.serveWrite uuidText graph bound served gen debug params req = .error e := fun h =>
  Except.not_error_of_isOk create_acknowledged
    (h toString "people" 0 1 (.start 0 0) nobody.generation (fun _ => "") ∅ createPerson (by decide))

end OrphanedDelta

end Slater
