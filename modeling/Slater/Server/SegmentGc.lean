import Slater.Server.SwapGuard

/-!
# Reclaiming orphaned segments

`gc_orphan_segments` of `slater/src/server/registry.rs` deletes the segments, the set manifests and the carried
vector artifacts of a graph that are no longer referenced. What is referenced is read off the set that the
`current` pointer names. What readers use is the generation in the served slot. The two differ whenever a
swap was refused, failed or is still to come, and then a sweep deletes what is being served: `sweep_deletes_served`.

With a grace period the first sweep that finds an artifact unreferenced leaves a marker, and a later one deletes
it when the marker is old enough. A sweep that finds the artifact referenced again does not take the marker
away, so the grace is measured from a sighting that no longer means anything.

The machine has the guard, the publishers and the statements of `Slater.Server.SwapGuard`, the steps by which
a flush, a compaction, a consolidation or an outside builder changes the store and the served slot, and the
sweeps, one entry of the store a step. A sweep of a graph with a writable layer holds the claim of the
graph; a graph without one has none, and several sweeps may be under way. `Calm` is the condition under which
`calm_spares_used` holds for every run.

A sweep reads the pointer and its set in one step. Whether the base of a generation opens and passes the
policy of the registry is a parameter (`sound`); what an operation does to the delta when it retires or rebinds
it plays no part here and is arbitrary (`settle`). A marker is stamped no earlier than its sweep began.

**What it does not establish.** That an orphan is ever deleted is not shown, and readers that still hold an older
generation open are not part of the machine.
-/

namespace Slater

open Map Option Finmap

/-! ## The store of a graph -/

/-- What a sweep reclaims: `segments/<uuid>/`, `sets/<uuid>.json` and `vecidx/<uuid>/`. -/
inductive Artifact where
  | segment (uuid : GenId)
  | set (uuid : GenId)
  | vector (uuid : GenId)
  deriving DecidableEq

inductive ArtifactKind where
  | segment
  | set
  | vector
  deriving DecidableEq

def Artifact.kind : Artifact → ArtifactKind
  | .segment _ => .segment
  | .set _ => .set
  | .vector _ => .vector

/-- A set manifest, by what it names over its base. -/
structure SetManifest where
  segments : List GenId := []
  vectorArtifacts : List GenId := []

structure GraphStore where
  sets : Map GenId SetManifest := ∅
  segments : Finset GenId := ∅
  vectors : Finset GenId := ∅

namespace GraphStore

variable (store : GraphStore)

def holds : Artifact → Bool
  | .segment uuid => decide (uuid ∈ store.segments)
  | .set uuid => decide (uuid ∈ store.sets)
  | .vector uuid => decide (uuid ∈ store.vectors)

def remove : Artifact → GraphStore
  | .segment uuid => { store with segments := store.segments.erase uuid }
  | .set uuid => { store with sets := store.sets.erase uuid }
  | .vector uuid => { store with vectors := store.vectors.erase uuid }

/-- What the set of a generation makes live: the set itself, its segments and its artifacts. A
pointer that names a bare generation has no set. -/
def references (gen : GenId) : List Artifact :=
  match store.sets.lookup gen with
  | none => []
  | some set => .set gen :: set.segments.map .segment ++ set.vectorArtifacts.map .vector

/-- The entries of one kind, in the order in which the store lists them. -/
def list (order : List Artifact) (kind : ArtifactKind) : List Artifact :=
  order.filter fun a => a.kind == kind && store.holds a

/-- A directory is written. -/
def stage : Artifact → Option GraphStore
  | .segment uuid => some { store with segments := insert uuid store.segments }
  | .set _ => none
  | .vector uuid => some { store with vectors := insert uuid store.vectors }

/-- A set manifest is written, under a uuid of its own. -/
def compose (gen : GenId) (set : SetManifest) : Option GraphStore :=
  if gen ∈ store.sets then none else some { store with sets := store.sets.insert gen set }

/-- The generation opens if everything it references is there; `sound` speaks for its base. -/
def opens (sound : GenId → Bool) (gen : GenId) : Bool :=
  sound gen && (store.references gen).all store.holds

end GraphStore

/-! ## Sweeps -/

/-- The inputs of a sweep: its grace, the clock when it begins, the time of the markers it
stamps, and the order of the listings. -/
structure Sweep where
  graceSecs : UInt64
  now : Int
  mtime : Int
  later : now ≤ mtime
  order : List Artifact
  deriving DecidableEq

/-- `grace_secs as i64`. -/
def Sweep.grace (input : Sweep) : Int := input.graceSecs.toInt64.toInt

/-- `eligible`: whether an orphan may go, and the markers afterwards. -/
def Sweep.eligible (input : Sweep) (markers : Map Artifact Int) (a : Artifact) : Bool × Map Artifact Int :=
  if input.graceSecs = 0 then (true, markers)
  else match markers.lookup a with
    | some mtime => (decide (input.now - mtime ≥ input.grace), markers)
    | none => (false, markers.insert a input.mtime)

/-- `SegmentGcReport`; the three lists of deletions are one. -/
structure GcReport where
  deleted : List Artifact := []
  marked : Nat := 0
  deriving DecidableEq

/-- A sweep under way: what it found live, the kinds it has yet to list, the entries it has yet
to visit. -/
structure Sweeping where
  input : Sweep
  live : List Artifact
  kinds : List ArtifactKind := [.segment, .set, .vector]
  todo : List Artifact := []
  report : GcReport := {}
  deriving DecidableEq

/-- What a sweep found live, and when. -/
structure Sighting where
  now : Int
  live : List Artifact

/-- One graph. `opened` is what the served generation references; `log` is a record, newest
first, of what the sweeps so far have found. The record of sightings is there for the statement
only; no step reads it. -/
structure GcState where
  slot : GuardState
  opened : List Artifact
  store : GraphStore
  markers : Map Artifact Int := ∅
  writable : Bool := true
  sweeps : Map Nat Sweeping := ∅
  log : List Sighting := []

/-- A step of somebody. Every party makes its steps one by one, and they come in any order. -/
inductive GcAction where
  | slot (act : GuardAction)
  /-- Somebody writes a segment or a vector artifact, or a set. -/
  | stage (a : Artifact)
  | compose (gen : GenId) (set : SetManifest)
  /-- An operation that holds the claim adopts what the pointer names. -/
  | adopt
  /-- It retires or rebinds the delta. -/
  | settle (writer : DeltaWriter)
  | begin (id : Nat) (input : Sweep)
  | sweep (id : Nat)
  /-- The sweep ends with an error. -/
  | abort (id : Nat)

namespace GcState

variable (sound : GenId → Bool) (st : GcState)
variable {store store' : GraphStore} {gen : GenId} {set : SetManifest} {input : Sweep} {sw : Sweeping}
  {id : Nat} {b : Artifact}

/-- The slot moves on; a generation that is swapped in references what its set names then. -/
def withSlot (slot : GuardState) : GcState :=
  { st with
    slot
    opened := if slot.served = st.slot.served then st.opened else st.store.references slot.served }

/-- Only who holds the claim releases it, and a graph without a writable layer takes no
statement and no claim. -/
def slotAllowed : GuardAction → Bool
  | .publish _ | .guard => true
  | .release => st.writable && decide (st.sweeps = ∅)
  | .claim | .take _ _ | .check _ | .append _ _ => st.writable

/-- An operation is under way: the claim is taken, and not by a sweep. -/
def operating : Bool := st.writable && st.slot.writer.consolidating && decide (st.sweeps = ∅)

/-- `adopt_published_generation`. -/
def adopt : GcState :=
  if st.slot.current = st.slot.served then st
  else if st.store.opens sound st.slot.current then
    st.withSlot { st.slot with served := st.slot.current }
  else st

/-- The start of `gc_orphan_segments`: the claim, if there is a writable layer, and the live
references. -/
def beginSweep (id : Nat) (input : Sweep) : Option GcState :=
  let live := st.store.references st.slot.current
  let started (slot : GuardState) : GcState :=
    { st with
      slot
      sweeps := st.sweeps.insert id { input, live }
      log := { now := input.now, live } :: st.log }
  if id ∈ st.sweeps then none
  else if st.writable then
    st.slot.writer.beginConsolidation.map fun writer => started { st.slot with writer }
  else some (started st.slot)

/-- The sweep returns; its claim is released. -/
def endSweep (id : Nat) : GcState :=
  { st with
    sweeps := st.sweeps.erase id
    slot :=
      if st.writable then { st.slot with writer := st.slot.writer.endConsolidation } else st.slot }

/-- One entry of a listing. -/
def visit (id : Nat) (sw : Sweeping) (a : Artifact) : GcState :=
  if a ∈ sw.live then { st with sweeps := st.sweeps.insert id sw }
  else
    let (eligible, markers) := sw.input.eligible st.markers a
    if eligible then
      { st with
        store := st.store.remove a
        markers := markers.erase a
        sweeps := st.sweeps.insert id
          { sw with report := { sw.report with deleted := sw.report.deleted ++ [a] } } }
    else
      { st with
        markers
        sweeps := st.sweeps.insert id
          { sw with report := { sw.report with marked := sw.report.marked + 1 } } }

/-- The next step of a sweep: visit an entry, list the next kind, or return. -/
def sweepStep (id : Nat) : Option GcState :=
  (st.sweeps.lookup id).map fun sw =>
    match sw.todo, sw.kinds with
    | a :: todo, _ => st.visit id { sw with todo } a
    | [], kind :: kinds =>
      { st with
        sweeps := st.sweeps.insert id
          { sw with kinds, todo := st.store.list sw.input.order kind } }
    | [], [] => st.endSweep id

/-- One step of the machine. -/
def step : GcAction → Option GcState
  | .slot act =>
    if st.slotAllowed act then (st.slot.step (st.store.opens sound) act).map st.withSlot else none
  | .stage a => (st.store.stage a).map fun store => { st with store }
  | .compose gen set => (st.store.compose gen set).map fun store => { st with store }
  | .adopt => if st.operating && st.slot.guard == .idle then some (st.adopt sound) else none
  | .settle writer =>
    if st.operating then
      some { st with slot := { st.slot with writer := { writer with consolidating := true } } }
    else none
  | .begin id input => st.beginSweep id input
  | .sweep id => st.sweepStep id
  | .abort id => if id ∈ st.sweeps then some (st.endSweep id) else none

/-! ## What a sweep may delete -/

/-- Some sweep at or before a time found the artifact unreferenced, and so did every sweep
since. -/
def UnreferencedSince (log : List Sighting) (a : Artifact) (since : Int) : Prop :=
  ∃ newer first older, log = newer ++ first :: older ∧ first.now ≤ since ∧ ∀ seen ∈ first :: newer, a ∉ seen.live

/-- Neither the served generation nor the set of the pointer references the artifact, and a
sweep with a grace deletes it only if it was unreferenced for that long. How long it was
unreferenced is told by what the sweeps found, not by its marker. -/
structure Spared (act : GcAction) (a : Artifact) : Prop where
  served : a ∉ st.opened
  current : a ∉ st.store.references st.slot.current
  aged : ∀ id sw, act = .sweep id → st.sweeps.lookup id = some sw → sw.input.graceSecs ≠ 0 →
    UnreferencedSince st.log a (sw.input.now - sw.input.graceSecs.toNat)

/-- A graph as it is first served, before any sweep. What is served is what its set references,
and no marker is about. -/
structure Fresh : Prop where
  opened : st.opened = st.store.references st.slot.served
  markers : st.markers = ∅
  sweeps : st.sweeps = ∅
  log : st.log = []

/-- **The condition on a step.** A sweep begins only while the pointer names the served
generation, with a grace that `as i64` keeps, and finds nothing live that an earlier sweep
marked; while sweeps are under way nobody moves the pointer or completes what it names. -/
def Calm : GcAction → Prop
  | .begin _ input =>
    st.slot.current = st.slot.served ∧ input.graceSecs.toNat < 2 ^ 63 ∧
      ∀ a ∈ st.store.references st.slot.current, a ∉ st.markers
  | .slot (.publish gen) => st.sweeps = ∅ ∨ gen = st.slot.current
  | .compose gen _ => st.sweeps = ∅ ∨ gen ≠ st.slot.current
  | _ => True

variable {sound} {st} {st' : GcState} {act : GcAction} {a : Artifact} {log : List Sighting} {seen : Sighting}
  {other : GenId} {since : Int}

/-! ### Sightings -/

theorem UnreferencedSince.mono {since' : Int}
    (h : UnreferencedSince log a since) (hle : since ≤ since') : UnreferencedSince log a since' := by
  obtain ⟨newer, first, older, hlog, hnow, hunseen⟩ := h
  exact ⟨newer, first, older, hlog, hnow.trans hle, hunseen⟩

/-- The newest sighting. -/
theorem UnreferencedSince.head (log : List Sighting) (h : a ∉ seen.live) :
    UnreferencedSince (seen :: log) a seen.now := by
  refine ⟨[], seen, log, rfl, Int.le_refl _, fun other hother => ?_⟩
  rwa [List.mem_singleton.mp hother]

theorem UnreferencedSince.cons
    (h : UnreferencedSince log a since) (hseen : a ∉ seen.live) : UnreferencedSince (seen :: log) a since := by
  obtain ⟨newer, first, older, rfl, hnow, hunseen⟩ := h
  refine ⟨seen :: newer, first, older, rfl, hnow, fun other hother => ?_⟩
  obtain rfl | hother := List.mem_cons.mp hother
  · exact hunseen _ (.head _)
  obtain rfl | hother := List.mem_cons.mp hother
  · exact hseen
  · exact hunseen _ (.tail _ hother)

/-! ### The store -/

theorem references_stage (h : store.stage a = some store') (gen : GenId) :
    store'.references gen = store.references gen := by
  cases a with
  | segment uuid => cases h; rfl
  | set uuid => cases h
  | vector uuid => cases h; rfl

theorem references_compose (h : store.compose gen set = some store') (hne : other ≠ gen) :
    store'.references other = store.references other := by
  unfold GraphStore.compose at h
  split at h
  · cases h
  · cases h
    rw [GraphStore.references, lookup_insert_of_ne _ hne]
    rfl

/-- A set that comes only adds references. -/
theorem references_compose_subset (h : store.compose gen set = some store') :
    store.references other ⊆ store'.references other := by
  by_cases hne : other = gen
  · have hnone : store.references other = [] := by
      unfold GraphStore.compose at h
      split at h
      · cases h
      next hfresh =>
        rw [GraphStore.references, hne, lookup_eq_none.mpr hfresh]
    rw [hnone]
    exact List.nil_subset _
  · rw [references_compose h hne]
    exact List.Subset.refl _

/-- Deleting what a generation does not reference leaves its set alone. -/
theorem references_remove (h : a ∉ store.references gen) : (store.remove a).references gen = store.references gen := by
  cases a with
  | segment uuid => rfl
  | vector uuid => rfl
  | set uuid =>
    have hlookup : (store.sets.erase uuid).lookup gen = store.sets.lookup gen := by
      by_cases heq : gen = uuid
      · subst heq
        rw [lookup_erase]
        cases hset : store.sets.lookup gen with
        | none => rfl
        | some set =>
          rw [GraphStore.references, hset] at h
          exact absurd (.head _) h
      · exact lookup_erase_ne heq
    show (match (store.sets.erase uuid).lookup gen with | none => _ | some set => _) = _
    rw [hlookup]
    rfl

/-! ### Markers -/

/-- What may go has no grace to wait for, or a marker that is old enough. -/
theorem eligible_of_true {markers markers' : Map Artifact Int} (h : input.eligible markers a = (true, markers')) :
    markers' = markers ∧ (input.graceSecs ≠ 0 →
      ∃ mtime, markers.lookup a = some mtime ∧ input.grace ≤ input.now - mtime) := by
  unfold Sweep.eligible at h
  split at h
  next hzero => exact ⟨(Prod.mk.inj h).2.symm, absurd hzero⟩
  next =>
    split at h
    next mtime hmarker =>
      obtain ⟨hold, rfl⟩ := Prod.mk.inj h
      exact ⟨rfl, fun _ => ⟨mtime, hmarker, of_decide_eq_true hold⟩⟩
    next => cases h

/-- What has to wait leaves the markers as they are but for a new one of its own. -/
theorem eligible_of_false {markers markers' : Map Artifact Int} (h : input.eligible markers a = (false, markers')) :
    markers' = markers ∨ markers' = markers.insert a input.mtime := by
  unfold Sweep.eligible at h
  split at h
  · cases h
  · split at h
    · exact .inl (Prod.mk.inj h).2.symm
    · exact .inr (Prod.mk.inj h).2.symm

/-- `as i64` keeps what fits. -/
theorem grace_eq (h : input.graceSecs.toNat < 2 ^ 63) : input.grace = input.graceSecs.toNat := by
  have hhalf : 2 * input.graceSecs.toBitVec.toNat < 2 ^ 64 := by
    have hnat : input.graceSecs.toBitVec.toNat = input.graceSecs.toNat := rfl
    omega
  exact BitVec.toInt_eq_toNat_of_lt hhalf

/-! ### The invariant -/

variable (st) in
/-- The sweep has read what holds still: the pointer names the served generation, and whatever
the sweep did not find live no sweep has found live since. -/
structure Follows (sw : Sweeping) : Prop where
  pointer : st.slot.current = st.slot.served
  live : sw.live = st.store.references st.slot.current
  grace : sw.input.graceSecs.toNat < 2 ^ 63
  seen : ∀ a, a ∉ sw.live → UnreferencedSince st.log a sw.input.now

variable (st) in
/-- The invariant of calm runs. -/
structure Kept : Prop where
  opened : st.opened ⊆ st.store.references st.slot.served
  sweeps : ∀ id sw, st.sweeps.lookup id = some sw → st.Follows sw
  markers : ∀ a mtime, st.markers.lookup a = some mtime → UnreferencedSince st.log a mtime

theorem Fresh.kept (h : st.Fresh) : st.Kept where
  opened := h.opened ▸ List.Subset.refl _
  sweeps id sw hsw := by
    rw [h.sweeps] at hsw
    cases hsw
  markers a mtime hmarker := by
    rw [h.markers] at hmarker
    cases hmarker

/-- Where a sweep is in its listings does not matter. -/
theorem Follows.congr {sw' : Sweeping} (h : st.Follows sw) (hlive : sw'.live = sw.live)
    (hinput : sw'.input = sw.input) : st.Follows sw' where
  pointer := h.pointer
  live := hlive.trans h.live
  grace := hinput ▸ h.grace
  seen a ha := by
    rw [hinput]
    exact h.seen a (hlive ▸ ha)

/-- A step that leaves the slot, the log and the set of the pointer alone. -/
theorem Follows.frame (h : st.Follows sw) (hcurrent : st'.slot.current = st.slot.current)
    (hserved : st'.slot.served = st.slot.served) (hlog : st'.log = st.log)
    (hrefs : st'.store.references st.slot.current = st.store.references st.slot.current) : st'.Follows sw where
  pointer := by rw [hcurrent, hserved, h.pointer]
  live := by rw [h.live, hcurrent, hrefs]
  grace := h.grace
  seen a ha := hlog ▸ h.seen a ha

theorem mem_sweeps_of_lookup (h : st.sweeps.lookup id = some sw) : st.sweeps ≠ ∅ := by
  rintro hempty
  rw [hempty] at h
  cases h

/-- The guard, the publishers and the statements. -/
theorem Kept.withSlot (h : st.Kept) {act : GuardAction} (hcalm : st.Calm (.slot act))
    {slot : GuardState} (hstep : st.slot.step (st.store.opens sound) act = some slot) : (st.withSlot slot).Kept where
  opened := by
    show (if slot.served = st.slot.served then st.opened else st.store.references slot.served) ⊆
      st.store.references slot.served
    split
    next hsame =>
      rw [hsame]
      exact h.opened
    next => exact List.Subset.refl _
  sweeps id sw hsw := by
    have hfollows := h.sweeps id sw hsw
    have hcurrent : slot.current = st.slot.current := by
      cases act with
      | publish gen =>
        obtain hnone | hsame := hcalm
        · exact absurd hnone (mem_sweeps_of_lookup hsw)
        · cases hstep
          exact hsame
      | claim | release | guard | take | check | append => exact GuardState.step_current hstep nofun
    have hserved : slot.served = st.slot.served := by
      obtain hserved | ⟨hserved, -⟩ := GuardState.step_served hstep
      · exact hserved
      · exact hserved.trans hfollows.pointer
    exact hfollows.frame hcurrent hserved rfl rfl
  markers := h.markers

/-- Whatever an operation does to the delta. -/
theorem Kept.withWriter (h : st.Kept) (writer : DeltaWriter) :
    ({ st with slot := { st.slot with writer } } : GcState).Kept where
  opened := h.opened
  sweeps id sw hsw := (h.sweeps id sw hsw).frame rfl rfl rfl rfl
  markers := h.markers

theorem Kept.stage (h : st.Kept) (hstage : st.store.stage a = some store) : ({ st with store } : GcState).Kept where
  opened := by
    rw [references_stage hstage]
    exact h.opened
  sweeps id sw hsw := (h.sweeps id sw hsw).frame rfl rfl rfl (references_stage hstage _)
  markers := h.markers

theorem Kept.compose (h : st.Kept) (hcalm : st.Calm (.compose gen set))
    (hcompose : st.store.compose gen set = some store) : ({ st with store } : GcState).Kept where
  opened := List.Subset.trans h.opened (references_compose_subset hcompose)
  sweeps id sw hsw := by
    have hne : st.slot.current ≠ gen := by
      obtain hnone | hne := hcalm
      · exact absurd hnone (mem_sweeps_of_lookup hsw)
      · exact hne.symm
    exact (h.sweeps id sw hsw).frame rfl rfl rfl (references_compose hcompose hne)
  markers := h.markers

theorem Kept.adopt (h : st.Kept) (hnone : st.sweeps = ∅) : (st.adopt sound).Kept := by
  unfold GcState.adopt
  split
  · exact h
  split
  · refine ⟨?_, fun id sw hsw => absurd hnone (mem_sweeps_of_lookup hsw), h.markers⟩
    show (if st.slot.current = st.slot.served then st.opened else st.store.references st.slot.current) ⊆
      st.store.references st.slot.current
    split
    next hsame => exact hsame ▸ h.opened
    next => exact List.Subset.refl _
  · exact h

/-- A sweep begins: what it finds live is what the sweeps under way found, and nothing
marked. -/
theorem Kept.beginSweep (h : st.Kept) (hcalm : st.Calm (.begin id input)) {slot : GuardState}
    (hcurrent : slot.current = st.slot.current) (hserved : slot.served = st.slot.served) :
    ({ st with
      slot
      sweeps := st.sweeps.insert id { input, live := st.store.references st.slot.current }
      log := { now := input.now, live := st.store.references st.slot.current } :: st.log } :
        GcState).Kept where
  opened := by
    rw [hserved]
    exact h.opened
  sweeps other sw hsw := by
    rcases lookup_insert_eq_some.mp hsw with ⟨-, rfl⟩ | ⟨-, hsw⟩
    · refine ⟨?_, ?_, hcalm.2.1, fun a ha => .head st.log ha⟩
      · rw [hcurrent, hserved, hcalm.1]
      · rw [hcurrent]
    · have hfollows := h.sweeps other sw hsw
      refine ⟨?_, ?_, hfollows.grace, fun a ha => (hfollows.seen a ha).cons ?_⟩
      · rw [hcurrent, hserved, hfollows.pointer]
      · rw [hcurrent, hfollows.live]
      · rwa [hfollows.live] at ha
  markers a mtime hmarker := by
    refine (h.markers a mtime hmarker).cons fun hlive => hcalm.2.2 a hlive ?_
    exact mem_of_lookup_eq_some hmarker

theorem Kept.endSweep (h : st.Kept) (id : Nat) : (st.endSweep id).Kept where
  opened := by
    show st.opened ⊆ st.store.references (if st.writable then _ else _ : GuardState).served
    split <;> exact h.opened
  sweeps other sw hsw := by
    refine (h.sweeps other sw (lookup_of_erase hsw)).frame ?_ ?_ rfl rfl
    · show (if st.writable then _ else _ : GuardState).current = _
      split <;> rfl
    · show (if st.writable then _ else _ : GuardState).served = _
      split <;> rfl
  markers := h.markers

/-- Moving on within its listings keeps what a sweep follows. -/
theorem Kept.insert (h : st.Kept) (hsw : st.Follows sw) :
    ({ st with sweeps := st.sweeps.insert id sw } : GcState).Kept where
  opened := h.opened
  sweeps := forall_lookup_insert (fun other sw' hsw' => (h.sweeps other sw' hsw').frame rfl rfl rfl rfl)
    (hsw.frame rfl rfl rfl rfl)
  markers := h.markers

/-- A deletion spares the set of the pointer, which is the served one. -/
theorem Kept.remove (h : st.Kept) (hsw : st.Follows sw) (ha : a ∉ sw.live) :
    ({ st with store := st.store.remove a, markers := st.markers.erase a } : GcState).Kept := by
  have hrefs : (st.store.remove a).references st.slot.current = st.store.references st.slot.current :=
    references_remove (hsw.live ▸ ha)
  refine ⟨?_, fun id other hother => (h.sweeps id other hother).frame rfl rfl rfl hrefs, ?_⟩
  · rw [← hsw.pointer, hrefs, hsw.pointer]
    exact h.opened
  · intro b mtime hmarker
    exact h.markers b mtime (lookup_of_erase hmarker)

theorem Kept.visit (h : st.Kept) (id : Nat) (hsw : st.Follows sw) (a : Artifact) : (st.visit id sw a).Kept := by
  unfold GcState.visit
  split
  · exact h.insert hsw
  next ha =>
    rcases heligible : sw.input.eligible st.markers a with ⟨_ | _, markers⟩
    · have hmarked : ({ st with markers } : GcState).Kept := by
        obtain rfl | rfl := eligible_of_false heligible
        · exact h
        -- a sweep that found the artifact unreferenced stamps its marker
        · exact ⟨h.opened, fun id other hother => (h.sweeps id other hother).frame rfl rfl rfl rfl,
            forall_lookup_insert h.markers ((hsw.seen a ha).mono sw.input.later)⟩
      refine hmarked.insert (Follows.frame (?_ : st.Follows _) rfl rfl rfl rfl)
      exact hsw.congr rfl rfl
    · obtain ⟨rfl, -⟩ := eligible_of_true heligible
      refine (h.remove hsw ha).insert (Follows.frame (?_ : st.Follows _) rfl rfl rfl ?_)
      · exact hsw.congr rfl rfl
      · exact references_remove (hsw.live ▸ ha)

theorem Kept.sweepStep (h : st.Kept) (hstep : st.sweepStep id = some st') : st'.Kept := by
  obtain ⟨sw, hlookup, rfl⟩ := map_eq_some_iff.mp hstep
  have hsw := h.sweeps id sw hlookup
  split
  next =>
    refine h.visit id ?_ _
    exact hsw.congr rfl rfl
  next =>
    refine h.insert ?_
    exact hsw.congr rfl rfl
  next => exact h.endSweep id

/-- What a sweep begins with. -/
theorem beginSweep_cases (h : st.beginSweep id input = some st') :
    ∃ slot : GuardState, slot.current = st.slot.current ∧ slot.served = st.slot.served ∧ st' =
      { st with
        slot
        sweeps := st.sweeps.insert id { input, live := st.store.references st.slot.current }
        log := { now := input.now, live := st.store.references st.slot.current } :: st.log } := by
  unfold GcState.beginSweep at h
  split at h
  · cases h
  split at h
  · obtain ⟨writer, -, rfl⟩ := map_eq_some_iff.mp h
    exact ⟨{ st.slot with writer }, rfl, rfl, rfl⟩
  · cases h
    exact ⟨_, rfl, rfl, rfl⟩

theorem Kept.step (h : st.Kept) (hcalm : st.Calm act) (hstep : st.step sound act = some st') : st'.Kept := by
  cases act with
  | slot act =>
    obtain ⟨-, hstep⟩ := ite_none_right_eq_some.mp hstep
    obtain ⟨slot, hslot, rfl⟩ := map_eq_some_iff.mp hstep
    exact h.withSlot hcalm hslot
  | stage a =>
    obtain ⟨store, hstage, rfl⟩ := map_eq_some_iff.mp hstep
    exact h.stage hstage
  | compose gen set =>
    obtain ⟨store, hcompose, rfl⟩ := map_eq_some_iff.mp hstep
    exact h.compose hcalm hcompose
  | adopt =>
    obtain ⟨hfree, ⟨⟩⟩ := ite_none_right_eq_some.mp hstep
    have hoperating := (Bool.and_eq_true_iff.mp hfree).1
    exact h.adopt (of_decide_eq_true (Bool.and_eq_true_iff.mp hoperating).2)
  | settle writer =>
    obtain ⟨-, ⟨⟩⟩ := ite_none_right_eq_some.mp hstep
    exact h.withWriter _
  | begin id input =>
    obtain ⟨slot, hcurrent, hserved, rfl⟩ := beginSweep_cases hstep
    exact h.beginSweep hcalm hcurrent hserved
  | sweep id => exact h.sweepStep hstep
  | abort id =>
    obtain ⟨-, ⟨⟩⟩ := ite_none_right_eq_some.mp hstep
    exact h.endSweep id

/-! ### What leaves the store -/

theorem holds_stage (h : store.stage b = some store') (ha : store.holds a) : store'.holds a := by
  cases b with
  | segment uuid =>
    cases h
    cases a <;> simp_all [GraphStore.holds]
  | set uuid => cases h
  | vector uuid =>
    cases h
    cases a <;> simp_all [GraphStore.holds]

theorem holds_compose (h : store.compose gen set = some store') (ha : store.holds a) : store'.holds a := by
  unfold GraphStore.compose at h
  split at h
  · cases h
  · cases h
    cases a <;> simp_all [GraphStore.holds, mem_insert]

theorem holds_remove (ha : store.holds a) (hne : a ≠ b) : (store.remove b).holds a := by
  cases b <;> cases a <;> simp_all [GraphStore.holds, GraphStore.remove]

/-- A visit takes nothing from the store but the artifact it visits. -/
theorem visit_deletes (hheld : st.store.holds a) (hgone : ¬ (st.visit id sw b).store.holds a) :
    a = b ∧ a ∉ sw.live ∧ (sw.input.graceSecs ≠ 0 →
      ∃ mtime, st.markers.lookup a = some mtime ∧ sw.input.grace ≤ sw.input.now - mtime) := by
  unfold GcState.visit at hgone
  split at hgone
  · exact absurd hheld hgone
  next hb =>
    rcases heligible : sw.input.eligible st.markers b with ⟨_ | _, markers⟩
    · simp only [heligible] at hgone
      exact absurd hheld hgone
    · simp only [heligible] at hgone
      obtain rfl : a = b := by
        by_contra hne
        exact hgone (holds_remove hheld hne)
      exact ⟨rfl, hb, (eligible_of_true heligible).2⟩

/-- Nothing but a sweep that visits an artifact takes it from the store; the sweep did not find
it live, and has no grace or finds an old marker. -/
theorem deletes_of_gone (hstep : st.step sound act = some st') (hheld : st.store.holds a)
    (hgone : ¬ st'.store.holds a) : ∃ id sw, act = .sweep id ∧ st.sweeps.lookup id = some sw ∧ a ∉ sw.live ∧
      (sw.input.graceSecs ≠ 0 →
        ∃ mtime, st.markers.lookup a = some mtime ∧ sw.input.grace ≤ sw.input.now - mtime) := by
  cases act with
  | slot act =>
    obtain ⟨-, hstep⟩ := ite_none_right_eq_some.mp hstep
    obtain ⟨slot, -, rfl⟩ := map_eq_some_iff.mp hstep
    exact absurd hheld hgone
  | stage b =>
    obtain ⟨store, hstage, rfl⟩ := map_eq_some_iff.mp hstep
    exact absurd (holds_stage hstage hheld) hgone
  | compose gen set =>
    obtain ⟨store, hcompose, rfl⟩ := map_eq_some_iff.mp hstep
    exact absurd (holds_compose hcompose hheld) hgone
  | adopt =>
    obtain ⟨-, ⟨⟩⟩ := ite_none_right_eq_some.mp hstep
    refine absurd hheld ?_
    unfold GcState.adopt at hgone
    split at hgone
    · exact hgone
    · split at hgone <;> exact hgone
  | settle writer =>
    obtain ⟨-, ⟨⟩⟩ := ite_none_right_eq_some.mp hstep
    exact absurd hheld hgone
  | begin id input =>
    obtain ⟨slot, -, -, rfl⟩ := beginSweep_cases hstep
    exact absurd hheld hgone
  | abort id =>
    obtain ⟨-, ⟨⟩⟩ := ite_none_right_eq_some.mp hstep
    exact absurd hheld hgone
  | sweep id =>
    obtain ⟨sw, hlookup, rfl⟩ := map_eq_some_iff.mp hstep
    refine ⟨id, sw, rfl, hlookup, ?_⟩
    split at hgone
    next =>
      obtain ⟨rfl, hlive, hmarker⟩ := visit_deletes hheld hgone
      exact ⟨hlive, hmarker⟩
    next => exact absurd hheld hgone
    next => exact absurd hheld hgone

/-- **In a calm run no sweep deletes what is in use, and none deletes before its grace is
over.** The artifact is any of the three kinds, and the step any step of the machine. -/
theorem calm_spares_used {st'' : GcState} {acts : List GcAction} (hfresh : st.Fresh)
    (hcalm : Along (GcState.step sound) Calm st acts)
    (hrun : runFrom (GcState.step sound) st acts = some st') (hstep : st'.step sound act = some st'')
    (hheld : st'.store.holds a) (hgone : ¬ st''.store.holds a) : st'.Spared act a := by
  have hkept : st'.Kept :=
    runFrom_invariant (fun s act s' hs hact hstep => hs.step hact hstep) hfresh.kept hcalm hrun
  obtain ⟨id, sw, rfl, hlookup, hlive, hmarker⟩ := deletes_of_gone hstep hheld hgone
  have hsw := hkept.sweeps id sw hlookup
  have hcurrent : a ∉ st'.store.references st'.slot.current := hsw.live ▸ hlive
  refine ⟨fun hopened => hcurrent ?_, hcurrent, fun other sw' hact hlookup' hgrace => ?_⟩
  · rw [hsw.pointer]
    exact hkept.opened hopened
  · cases hact
    rw [hlookup] at hlookup'
    cases hlookup'
    obtain ⟨mtime, hmtime, hold⟩ := hmarker hgrace
    rw [grace_eq hsw.grace] at hold
    exact (hkept.markers a mtime hmtime).mono (by omega)

/-! ### Runs -/

/-- Two sets: 1 stacks the segment 10 on its base, 2 is a base alone. -/
def twoSets : GraphStore where
  sets := insert 1 { segments := [10] } (insert 2 {} ∅)
  segments := {10}

/-- A graph served from one of them, its delta bound to it. -/
def servedFrom (gen : GenId) (pending : List ResolvedOp) : GcState where
  slot :=
    { served := gen, current := gen
      writer := DeltaWriter.writeBatch
        { dir := {}, sink := 0, mem := .withBases 0 0, l0 := [], seq := 0, offHeap := false
          cache := false, coreUuid := gen } pending }
  opened := twoSets.references gen
  store := twoSets

theorem servedFrom_fresh (gen : GenId) (pending : List ResolvedOp) : (servedFrom gen pending).Fresh :=
  ⟨rfl, rfl, rfl, rfl⟩

/-- A sweep at a time. -/
def sweepAt (graceSecs : UInt64) (now : Int) : Sweep :=
  { graceSecs, now, mtime := now, later := Int.le_refl now, order := [.segment 10, .set 1, .set 2] }

instance : (act : GcAction) → Decidable (st.Calm act)
  | .begin _ input => inferInstanceAs (Decidable (st.slot.current = st.slot.served ∧
      input.graceSecs.toNat < 2 ^ 63 ∧ ∀ a ∈ st.store.references st.slot.current, a ∉ st.markers))
  | .slot (.publish gen) => inferInstanceAs (Decidable (st.sweeps = ∅ ∨ gen = st.slot.current))
  | .compose gen _ => inferInstanceAs (Decidable (st.sweeps = ∅ ∨ gen ≠ st.slot.current))
  | .slot .claim | .slot .release | .slot .guard | .slot (.take _ _) | .slot (.check _)
  | .slot (.append _ _) | .stage _ | .adopt | .settle _ | .sweep _ | .abort _ => .isTrue trivial

/-- After the actions the next step of sweep 0 deletes the artifact, in a state with a
property. -/
def deletesAfter (st : GcState) (acts : List GcAction) (a : Artifact) (P : GcState → Bool) : Bool :=
  (runFrom (step fun _ => true) st acts).any fun st' =>
    P st' && st'.store.holds a && (st'.step (fun _ => true) (.sweep 0)).any fun st'' => !st''.store.holds a

theorem exists_of_deletesAfter {acts : List GcAction} {P : GcState → Bool} (h : deletesAfter st acts a P = true) :
    ∃ st' st'', runFrom (step fun _ => true) st acts = some st' ∧ P st' = true ∧
      st'.step (fun _ => true) (.sweep 0) = some st'' ∧ st'.store.holds a ∧ ¬ st''.store.holds a := by
  obtain ⟨st', hrun, hst'⟩ := (any_eq_true _ _).mp h
  obtain ⟨hfirst, hnext⟩ := Bool.and_eq_true_iff.mp hst'
  obtain ⟨hP, hheld⟩ := Bool.and_eq_true_iff.mp hfirst
  obtain ⟨st'', hstep, hgone⟩ := (any_eq_true _ _).mp hnext
  refine ⟨st', st'', hrun, hP, hstep, hheld, fun hholds => ?_⟩
  rw [hholds] at hgone
  cases hgone

/-- A sweep marks the orphans of a graph, the next one finds the marker of the segment old
enough. -/
def markedThenAged : List GcAction :=
  [.begin 0 (sweepAt 60 100)] ++ List.replicate 7 (.sweep 0) ++ [.begin 0 (sweepAt 60 200), .sweep 0]

theorem markedThenAged_spares : ∃ st' st'', runFrom (step fun _ => true) (servedFrom 2 []) markedThenAged = some st' ∧
      st'.step (fun _ => true) (.sweep 0) = some st'' ∧ ¬ st''.store.holds (.segment 10) ∧
      st'.Spared (.sweep 0) (.segment 10) := by
  have hdeletes : deletesAfter (servedFrom 2 []) markedThenAged (.segment 10) (fun _ => true) = true := by
    decide +kernel
  obtain ⟨st', st'', hrun, -, hstep, hheld, hgone⟩ := exists_of_deletesAfter hdeletes
  exact ⟨st', st'', hrun, hstep, hgone,
    calm_spares_used (servedFrom_fresh 2 []) (by decide +kernel) hrun hstep hheld hgone⟩

/-- A generation is published over pending writes, the guard refuses it, and a sweep follows. -/
def refusedThenSwept : List GcAction :=
  [.slot (.publish 2)] ++ List.replicate 5 (.slot .guard) ++ [.begin 0 (sweepAt 0 100), .sweep 0]

/-- **A sweep after a refused swap deletes the segment that is being served.** -/
theorem sweep_deletes_served :
    ¬ ∀ (sound : GenId → Bool) (st st' st'' : GcState) (acts : List GcAction) (act : GcAction)
      (a : Artifact), st.Fresh → runFrom (step sound) st acts = some st' →
      st'.step sound act = some st'' → st'.store.holds a → ¬ st''.store.holds a → st'.Spared act a := by
  intro h
  have hdeletes : deletesAfter
      (servedFrom 1 [.node { label := "Person", key := "id", value := .int 1 } (.upsert []) none])
      refusedThenSwept (.segment 10) (fun st => decide (.segment 10 ∈ st.opened)) = true := by
    decide +kernel
  obtain ⟨st', st'', hrun, hused, hstep, hheld, hgone⟩ := exists_of_deletesAfter hdeletes
  exact (h _ _ st' st'' _ _ _ (servedFrom_fresh 1 _) hrun hstep hheld hgone).served (of_decide_eq_true hused)

-- a sweep that finds a marked segment live again leaves the marker, from which a later one counts the grace
example : (runFrom (step fun _ => true) { servedFrom 1 [] with markers := insert (.segment 10) 100 ∅ }
    (.begin 0 (sweepAt 60 150) :: List.replicate 7 (.sweep 0))).map (·.markers.lookup (.segment 10)) =
      some (some 100) := by
  decide +kernel

end GcState

end Slater
