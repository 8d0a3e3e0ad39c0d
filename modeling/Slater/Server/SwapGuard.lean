import Slater.Lib.Machine
import Slater.Server.DeltaWriter

/-!
# The swap guard against write statements

The background guard (`guard_sweep` in `slater/src/server.rs`) polls the `current` pointer of a graph and
swaps a generation published by somebody else into the served slot. A swap leaves the delta where it is,
bound to the generation it was resolved against, so `swap_locked_guard` refuses one that would abandon
pending writes, and a write statement refuses to write to a delta that is bound elsewhere
(`refuse_orphaned_delta`).

The guard holds the swap mutex for its sweep; statements do not take it. This module is the machine of their
single steps. The guard sees the pointer moved, looks at the claim of a consolidation, reads the pointer
again, counts the pending entities, decides, and swaps to what the pointer names then. A statement takes the
served generation, checks the binding of the delta, and appends. The pointer is anybody's to move, and a
consolidation may be claimed and released at any time.

A `CREATE` and a relationship statement make no check: `execute_create` and `execute_edge_write` do not call
`refuse_orphaned_delta`.

`swap_abandons_write` is an interleaving in which an acknowledged write is lost to readers. `Calm` is the
condition under which none is, and `calm_keeps_acknowledged` says so for every run.

The condition speaks of the guard's count because the count can miss entries. `merge_run` counts the relationships
that have an id, so a delta of relationship deletes that was compacted off the heap counts as empty. Resident levels
count all they hold (`DeltaWriter.not_holds_of_count_eq_zero`). Flushes and compactions are not steps of the machine:
a run starts from a writer with any levels, and keeps them.
-/

namespace Slater

open Map

/-- `WriteJob`, by the function it dispatches to. -/
inductive WriteJob where
  | node
  | create
  | edge
  deriving DecidableEq

/-- The statement calls `refuse_orphaned_delta`. -/
def WriteJob.checks : WriteJob → Bool
  | .node => true
  | .create | .edge => false

/-- A statement in flight: the generation it took, and whether it is past its check. -/
structure Statement where
  job : WriteJob
  gen : GenId
  checked : Bool := false
  deriving DecidableEq

/-- Where the guard is in its sweep of the graph, with what it has read. -/
inductive GuardPhase where
  | idle
  /-- The pointer names another generation than the served one. -/
  | moved
  /-- No consolidation was claimed. -/
  | undeferred
  /-- The pointer read by `swap_locked_guard`. -/
  | pointed (onDisk : GenId)
  | counted (onDisk : GenId) (pending : Nat)
  /-- Not refused; `swap_locked` comes next. -/
  | cleared
  deriving DecidableEq

/-- The served slot, the pointer, the writer of the graph, the guard and the statements in
flight. A statement is acknowledged when it has appended, so the log of the writer is the record
of what was acknowledged. -/
structure GuardState where
  served : GenId
  current : GenId
  writer : DeltaWriter
  guard : GuardPhase := .idle
  statements : Map Nat Statement := ∅

/-- A step of somebody. Whoever moves the pointer is outside the server, so the move has no
condition of its own. -/
inductive GuardAction where
  /-- Anybody moves the pointer. -/
  | publish (gen : GenId)
  /-- `begin_consolidation` and `end_consolidation`. -/
  | claim
  | release
  | guard
  | take (conn : Nat) (job : WriteJob)
  | check (conn : Nat)
  | append (conn : Nat) (ops : List ResolvedOp)

namespace GuardState

variable (opens : GenId → Bool) (st : GuardState)

/-- The refusal of `swap_locked_guard`. -/
def refuses (onDisk : GenId) (pending : Nat) : Bool :=
  onDisk != st.served && st.writer.coreUuid == st.served && decide (0 < pending) && !st.writer.consolidating

/-- The next step of the guard; `opens` says which generations open and pass the manifest
policy. -/
def guardStep : GuardState :=
  match st.guard with
  | .idle => if st.current = st.served then st else { st with guard := .moved }
  | .moved => { st with guard := if st.writer.consolidating then .idle else .undeferred }
  | .undeferred => { st with guard := .pointed st.current }
  | .pointed onDisk => { st with guard := .counted onDisk st.writer.deltaEntityCount }
  | .counted onDisk pending =>
    { st with guard := if st.refuses onDisk pending then .idle else .cleared }
  | .cleared =>
    if st.current = st.served then { st with guard := .idle }
    else if opens st.current then { st with guard := .idle, served := st.current }
    else { st with guard := .idle }

/-- One step of the machine. -/
def step : GuardAction → Option GuardState
  | .publish gen => some { st with current := gen }
  | .claim => st.writer.beginConsolidation.map fun writer => { st with writer }
  | .release => some { st with writer := st.writer.endConsolidation }
  | .guard => some (st.guardStep opens)
  | .take conn job =>
    if conn ∈ st.statements then none
    else some { st with statements := st.statements.insert conn { job, gen := st.served } }
  | .check conn =>
    match st.statements.lookup conn with
    | none => none
    | some stmt =>
      -- a statement that is refused answers with an error and is over
      if stmt.job.checks && st.writer.coreUuid != stmt.gen then
        some { st with statements := st.statements.erase conn }
      else some { st with statements := st.statements.insert conn { stmt with checked := true } }
  | .append conn ops =>
    match st.statements.lookup conn with
    | none => none
    | some stmt =>
      if stmt.checked then
        some { st with writer := st.writer.writeBatch ops, statements := st.statements.erase conn }
      else none

/-- The machine over a list of steps. -/
def run (acts : List GuardAction) : Option GuardState := runFrom (step opens) st acts

/-- Acknowledged writes are left in a delta bound to a generation that is not served: the delta
holds an entry, whether or not the guard would count it. -/
def Abandoned : Prop := st.writer.coreUuid ≠ st.served ∧ st.writer.Holds
deriving Decidable

/-- The delta is bound to the served generation, and nobody is in the middle of anything. A
graph is in this state when it has been opened. -/
structure Quiet : Prop where
  bound : st.writer.coreUuid = st.served
  guard : st.guard = .idle
  statements : st.statements = ∅

/-- The guard is past its count and has not swapped yet. -/
def Deciding : Prop :=
  match st.guard with
  | .counted _ _ | .cleared => True
  | _ => False

instance : Decidable st.Deciding :=
  match h : st.guard with
  | .idle | .moved | .undeferred | .pointed _ => .isFalse (by rw [Deciding, h]; exact id)
  | .counted _ _ | .cleared => .isTrue (by rw [Deciding, h]; trivial)

/-- **The condition on a step.** Nobody points back to the served generation during a sweep; the
guard counts something if the delta holds an entry; no consolidation is claimed when the guard
decides; no statement is in flight when it swaps; a statement that makes no check starts only if
it would pass; and nothing is appended between the guard's count and its swap. -/
def Calm : GuardAction → Prop
  | .publish gen => st.guard ≠ .idle → gen ≠ st.served
  | .guard =>
    match st.guard with
    | .pointed _ => st.writer.Holds → 0 < st.writer.deltaEntityCount
    | .counted _ _ => st.writer.consolidating = false
    | .cleared => st.statements = ∅
    | _ => True
  | .take _ job => job.checks = true ∨ st.writer.coreUuid = st.served
  | .append _ _ => ¬ st.Deciding
  | .claim | .release | .check _ => True

instance : (act : GuardAction) → Decidable (st.Calm act)
  | .publish gen => inferInstanceAs (Decidable (st.guard ≠ .idle → gen ≠ st.served))
  | .guard =>
    match h : st.guard with
    | .pointed _ =>
      decidable_of_iff (st.writer.Holds → 0 < st.writer.deltaEntityCount) (by rw [Calm, h])
    | .counted _ _ =>
      decidable_of_iff (st.writer.consolidating = false) (by rw [Calm, h])
    | .cleared => decidable_of_iff (st.statements = ∅) (by rw [Calm, h])
    | .idle | .moved | .undeferred => .isTrue (by rw [Calm, h]; trivial)
  | .take _ job => inferInstanceAs (Decidable (job.checks = true ∨ st.writer.coreUuid = st.served))
  | .append _ _ => inferInstanceAs (Decidable (¬ st.Deciding))
  | .claim | .release | .check _ => .isTrue trivial

/-! ## What a calm run keeps -/

/-- What the guard has read still holds. -/
def ReadsHold : Prop :=
  match st.guard with
  | .idle => True
  | .moved | .undeferred => st.current ≠ st.served
  | .pointed onDisk => st.current ≠ st.served ∧ onDisk ≠ st.served
  | .counted onDisk pending =>
    st.current ≠ st.served ∧ onDisk ≠ st.served ∧ (st.writer.Holds → 0 < pending)
  | .cleared => st.current ≠ st.served ∧ ¬ st.writer.Holds

/-- The statement took the served generation, and the delta is bound to it once nothing stands
between the statement and its append. -/
structure Bound (stmt : Statement) : Prop where
  gen : stmt.gen = st.served
  bound : stmt.checked = true ∨ stmt.job.checks = false → st.writer.coreUuid = st.served

/-- The invariant of calm runs. It is stronger than what is asserted: at every phase of the
guard it says what the guard's reading still means. -/
structure Kept : Prop where
  kept : st.writer.coreUuid = st.served ∨ ¬ st.writer.Holds
  guard : st.ReadsHold
  statements : ∀ conn stmt, st.statements.lookup conn = some stmt → st.Bound stmt

variable {opens} {st} {st' : GuardState}

theorem Quiet.kept (h : st.Quiet) : st.Kept where
  kept := .inl h.bound
  guard := by
    rw [ReadsHold, h.guard]
    trivial
  statements conn stmt hstmt := by
    rw [h.statements] at hstmt
    cases hstmt

theorem Kept.not_abandoned (h : st.Kept) : ¬ st.Abandoned := by
  rintro ⟨hbound, hholds⟩
  obtain heq | hnone := h.kept
  · exact hbound heq
  · exact hnone hholds

/-- A step that leaves the served slot, the binding and the entries of the delta alone. -/
theorem Kept.frame (h : st.Kept) (hserved : st'.served = st.served) (huuid : st'.writer.coreUuid = st.writer.coreUuid)
    (hholds : st'.writer.Holds = st.writer.Holds) (hread : st'.ReadsHold)
    (hstmts : ∀ conn stmt, st'.statements.lookup conn = some stmt → st.Bound stmt) : st'.Kept where
  kept := by
    rw [hserved, huuid, hholds]
    exact h.kept
  guard := hread
  statements conn stmt hstmt := by
    have hbound := hstmts conn stmt hstmt
    exact ⟨hbound.gen.trans hserved.symm, fun hfree => by
      rw [huuid, hserved]
      exact hbound.bound hfree⟩

/-- The guard moves on without touching anything else. -/
theorem Kept.of_guard (h : st.Kept) {guard : GuardPhase}
    (hread : ({ st with guard } : GuardState).ReadsHold) : ({ st with guard } : GuardState).Kept :=
  h.frame rfl rfl rfl hread h.statements

/-- What a guard that does not refuse has counted. -/
theorem pending_eq_zero {onDisk pending : Nat} (honDisk : onDisk ≠ st.served)
    (hbound : st.writer.coreUuid = st.served) (hflag : st.writer.consolidating = false)
    (hpass : st.refuses onDisk pending = false) : pending = 0 := by
  have hmoved : (onDisk != st.served) = true := bne_iff_ne.mpr honDisk
  rw [refuses, hmoved, hbound, hflag] at hpass
  simpa using hpass

/-- A calm step of the guard. It refuses unless the delta it counted is empty or bound
elsewhere, and the pointer it follows names another generation than the served one. -/
theorem Kept.guardStep (h : st.Kept) (hcalm : st.Calm .guard) : (st.guardStep opens).Kept := by
  have hread := h.guard
  rcases st with ⟨served, current, writer, guard, statements⟩
  cases guard with
  | idle =>
    simp only [GuardState.guardStep]
    split
    · exact h
    next hmoved => exact h.of_guard hmoved
  | moved =>
    refine h.of_guard ?_
    cases hflag : writer.consolidating with
    | true => exact trivial
    | false => exact hread
  | undeferred => exact h.of_guard ⟨hread, hread⟩
  | pointed onDisk => exact h.of_guard ⟨hread.1, hread.2, hcalm⟩
  | counted onDisk pending =>
    obtain ⟨hcurrent, honDisk, hpending⟩ := hread
    refine h.of_guard ?_
    split
    · exact trivial
    next hpass =>
      refine ⟨hcurrent, ?_⟩
      obtain hbound | hnone := h.kept
      · intro hholds
        have hzero := pending_eq_zero honDisk hbound hcalm (Bool.not_eq_true _ ▸ hpass)
        exact Nat.ne_of_gt (hpending hholds) hzero
      · exact hnone
  | cleared =>
    obtain ⟨-, hnone⟩ := hread
    obtain rfl : statements = ∅ := hcalm
    have hidle : ∀ served', (⟨served', current, writer, .idle, ∅⟩ : GuardState).Kept := fun served' =>
      ⟨.inr hnone, trivial, fun conn stmt hstmt => by
        cases hstmt⟩
    simp only [GuardState.guardStep]
    split
    · exact hidle served
    · split
      · exact hidle current
      · exact hidle served

/-- What the guard has read is not disturbed by an append that it is not deciding about. -/
theorem readsHold_append (h : st.ReadsHold) (hfree : ¬ st.Deciding) (writer : DeltaWriter)
    (statements : Map Nat Statement) :
    ({ st with writer, statements } : GuardState).ReadsHold := by
  unfold ReadsHold Deciding at *
  cases hphase : st.guard <;> simp_all

/-- **A calm step keeps the invariant.** -/
theorem Kept.step {act : GuardAction} (h : st.Kept) (hcalm : st.Calm act)
    (hstep : st.step opens act = some st') : st'.Kept := by
  cases act with
  | publish gen =>
    cases hstep
    refine h.frame rfl rfl rfl ?_ h.statements
    have hread := h.guard
    rcases st with ⟨served, current, writer, guard, statements⟩
    cases guard with
    | idle => exact trivial
    | moved => exact hcalm nofun
    | undeferred => exact hcalm nofun
    | pointed onDisk | counted onDisk pending | cleared => exact ⟨hcalm nofun, hread.2⟩
  | claim =>
    obtain ⟨writer, hwriter, rfl⟩ := Option.map_eq_some_iff.mp hstep
    unfold DeltaWriter.beginConsolidation at hwriter
    split at hwriter
    · cases hwriter
    · cases hwriter
      exact h.frame rfl rfl rfl h.guard h.statements
  | release =>
    cases hstep
    exact h.frame rfl rfl rfl h.guard h.statements
  | guard =>
    cases hstep
    exact h.guardStep hcalm
  | take conn job =>
    simp only [GuardState.step] at hstep
    split at hstep
    · cases hstep
    · cases hstep
      refine h.frame rfl rfl rfl h.guard (forall_lookup_insert h.statements ⟨rfl, fun hfree => ?_⟩)
      obtain hchecked | hunchecked := hfree
      · cases hchecked
      · obtain hchecks | hbound := hcalm
        · exact absurd (hunchecked.symm.trans hchecks) Bool.false_ne_true
        · exact hbound
  | check conn =>
    simp only [GuardState.step] at hstep
    cases hlook : st.statements.lookup conn with
    | none =>
      rw [hlook] at hstep
      cases hstep
    | some stmt =>
      rw [hlook] at hstep
      have hbound := h.statements conn stmt hlook
      simp only at hstep
      split at hstep
      · cases hstep
        exact h.frame rfl rfl rfl h.guard fun conn' stmt' hstmt' => h.statements conn' stmt' (lookup_of_erase hstmt')
      next hpass =>
        cases hstep
        refine h.frame rfl rfl rfl h.guard (forall_lookup_insert h.statements ⟨hbound.gen, fun _ => ?_⟩)
        -- it made the check and passed, or it makes none
        cases hchecks : stmt.job.checks with
        | false => exact hbound.bound (.inr hchecks)
        | true =>
          rw [← hbound.gen]
          simpa [hchecks] using hpass
  | append conn ops =>
    simp only [GuardState.step] at hstep
    cases hlook : st.statements.lookup conn with
    | none =>
      rw [hlook] at hstep
      cases hstep
    | some stmt =>
      rw [hlook] at hstep
      simp only at hstep
      split at hstep
      next hchecked =>
        cases hstep
        have hserved := (h.statements conn stmt hlook).bound (.inl hchecked)
        have huuid : (st.writer.writeBatch ops).coreUuid = st.writer.coreUuid := by
          cases ops <;> rfl
        refine ⟨.inl (huuid.trans hserved), readsHold_append h.guard hcalm _ _, ?_⟩
        intro conn' stmt' hstmt'
        have hold := h.statements conn' stmt' (lookup_of_erase hstmt')
        exact ⟨hold.gen, fun _ => huuid.trans hserved⟩
      · cases hstep

/-- **In a calm run no acknowledged write is left in a delta that nobody reads.** The condition
is on single steps, so it can be checked along a run, and it is not necessary: a write between
the count and the swap does no harm when the swap then fails. -/
theorem calm_keeps_acknowledged (acts : List GuardAction) (hquiet : st.Quiet)
    (hcalm : Along (GuardState.step opens) Calm st acts) (hrun : st.run opens acts = some st') : ¬ st'.Abandoned := by
  have hkept : st'.Kept :=
    runFrom_invariant (fun s act s' hs hact hstep => hs.step hact hstep) hquiet.kept hcalm hrun
  exact hkept.not_abandoned

/-! ## What a step leaves alone -/

section

variable {act : GuardAction}

/-- The guard touches nothing but its place and the served slot. -/
theorem guardStep_frame (opens : GenId → Bool) (st : GuardState) :
    (st.guardStep opens).current = st.current ∧ (st.guardStep opens).writer = st.writer := by
  unfold guardStep
  cases st.guard with
  | idle => dsimp only; split <;> exact ⟨rfl, rfl⟩
  | cleared => dsimp only; split <;> [skip; split] <;> exact ⟨rfl, rfl⟩
  | _ => exact ⟨rfl, rfl⟩

variable (h : st.step opens act = some st')
include h

/-- What a step does: a publisher moves the pointer, the guard makes its own step, and everybody
else works on the writer or on the statements in flight. -/
theorem step_cases :
    (∃ gen, act = .publish gen ∧ st' = { st with current := gen }) ∨
    (act = .guard ∧ st' = st.guardStep opens) ∨
    ∃ writer statements, st' = { st with writer, statements } ∧
      (writer = st.writer ∨ st.writer.beginConsolidation = some writer ∨
        writer = st.writer.endConsolidation ∨ ∃ ops, writer = st.writer.writeBatch ops) := by
  cases act with
  | publish gen => cases h; exact .inl ⟨gen, rfl, rfl⟩
  | claim =>
    obtain ⟨writer, hwriter, rfl⟩ := Option.map_eq_some_iff.mp h
    exact .inr (.inr ⟨writer, st.statements, rfl, .inr (.inl hwriter)⟩)
  | release => cases h; exact .inr (.inr ⟨_, st.statements, rfl, .inr (.inr (.inl rfl))⟩)
  | guard => cases h; exact .inr (.inl ⟨rfl, rfl⟩)
  | take conn job =>
    simp only [step] at h
    split at h <;> cases h
    exact .inr (.inr ⟨st.writer, _, rfl, .inl rfl⟩)
  | check conn =>
    simp only [step] at h
    split at h
    · cases h
    · split at h <;> cases h <;> exact .inr (.inr ⟨st.writer, _, rfl, .inl rfl⟩)
  | append conn ops =>
    simp only [step] at h
    split at h
    · cases h
    · split at h <;> cases h
      exact .inr (.inr ⟨_, _, rfl, .inr (.inr (.inr ⟨ops, rfl⟩))⟩)

/-- Nobody but a publisher moves the pointer. -/
theorem step_current (hact : ∀ gen, act ≠ .publish gen) : st'.current = st.current := by
  obtain ⟨gen, hpublish, -⟩ | ⟨-, rfl⟩ | ⟨writer, statements, rfl, -⟩ := step_cases h
  · exact absurd hpublish (hact gen)
  · exact (guardStep_frame opens st).1
  · rfl

/-- Nobody but the guard changes the served slot, and the guard changes it to what the pointer
names. -/
theorem step_served : st'.served = st.served ∨ st'.served = st.current ∧ st'.current = st.current := by
  obtain ⟨gen, -, rfl⟩ | ⟨-, rfl⟩ | ⟨writer, statements, rfl, -⟩ := step_cases h
  · exact .inl rfl
  · rcases st with ⟨served, current, writer, guard, statements⟩
    cases guard with
    | idle => simp only [guardStep]; split <;> exact .inl rfl
    | cleared =>
      simp only [guardStep]
      split
      · exact .inl rfl
      · split
        · exact .inr ⟨rfl, rfl⟩
        · exact .inl rfl
    | _ => exact .inl rfl
  · exact .inl rfl

end

/-! ## Interleavings -/

/-- A graph served from generation 0 with one node, its delta empty, nothing under way. -/
def atRest : GuardState where
  served := 0
  current := 0
  writer :=
    { dir := {}, sink := 0, mem := .withBases 1 0, l0 := [], seq := 0, offHeap := false, cache := false
      coreUuid := 0 }

theorem atRest_quiet : atRest.Quiet := ⟨rfl, rfl, rfl⟩

/-- A statement that upserts the one node. -/
def upsertBy (conn : Nat) (job : WriteJob) : List GuardAction :=
  [.take conn job, .check conn,
    .append conn [.node { label := "Person", key := "id", value := .int 1 } (.upsert []) (some 0)]]

/-- The guard sweeps after the write and refuses the new generation. -/
def writtenThenSwept : List GuardAction :=
  upsertBy 0 .node ++ [.publish 1, .guard, .guard, .guard, .guard, .guard]

theorem writtenThenSwept_kept : ∃ st', atRest.run (fun _ => true) writtenThenSwept = some st' ∧ ¬ st'.Abandoned := by
  have hsome : (atRest.run (fun _ => true) writtenThenSwept).isSome := by decide +kernel
  obtain ⟨st', hrun⟩ := Option.isSome_iff_exists.mp hsome
  exact ⟨st', hrun, calm_keeps_acknowledged _ atRest_quiet (by decide +kernel) hrun⟩

/-- The guard has counted nothing pending when the statement appends; then it swaps. -/
def countedThenWritten : List GuardAction :=
  [.publish 1, .guard, .guard, .guard, .guard] ++ upsertBy 0 .node ++ [.guard, .guard]

/-- **A write acknowledged between the guard's count and its swap is left behind.** -/
theorem swap_abandons_write : ¬ ∀ (opens : GenId → Bool) (st st' : GuardState) (acts : List GuardAction), st.Quiet →
      st.run opens acts = some st' → ¬ st'.Abandoned := by
  intro h
  have hlost : (atRest.run (fun _ => true) countedThenWritten).any
      (fun st => decide st.Abandoned) = true := by decide +kernel
  obtain ⟨st', hrun, hst'⟩ := (Option.any_eq_true _ _).mp hlost
  exact h _ _ st' _ atRest_quiet hrun (of_decide_eq_true hst')

-- a swap with nothing pending is let through, and a `CREATE` then writes to the old delta unchecked
example :
    (atRest.run (fun _ => true)
      ([.publish 1, .guard, .guard, .guard, .guard, .guard, .guard] ++ upsertBy 0 .create)).any
      (fun st => decide st.Abandoned) = true := by decide +kernel

end GuardState

end Slater
