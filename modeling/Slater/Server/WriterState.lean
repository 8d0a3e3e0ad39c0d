import Slater.Delta.OffheapCompaction
import Slater.Server.WriterFiles

/-!
# The delta of a writer

The writable layer is modelled twice. `DeltaState` is the active memtable over resident levels, all that the
statements of the write path look at. `DeltaWriter` adds the log, the files, the sequence numbers and the off-heap
levels. Here the two meet: a writer whose levels are resident holds a `DeltaState`, and publishes its snapshot
(`published_eq`).

A batch is the same operation on both (`state_writeBatch`). A flush is, but for the level it seals
(`state_flushToL0`). The writer drops the memtable and keeps what its file loads as, and loading derives three
indexes anew. With a spill directory the file is a segment. What is published then is what a `DeltaState` would
publish exactly if the memtable is spillable (`published_flush_offHeap`).

**What it does not establish.** Compactions and retirements have no counterpart in a `DeltaState`. Nothing is said
of when a reloaded level answers as the memtable did.
-/

namespace Slater

open Map List

namespace DeltaWriter

variable {w w' : DeltaWriter} {choices : Choices} {changed : Bool}

/-- The delta that a writer holds in resident levels. -/
def state (w : DeltaWriter) : DeltaState where
  mem := w.mem
  l0 := w.levels.filterMap L0Level.residentMemtable

/-- Every sealed level is resident. -/
def Resident (w : DeltaWriter) : Prop := ∀ l ∈ w.levels, l.isOffHeap = false

/-- **A writer with resident levels publishes the snapshot of its delta.** So what is proved of
a `DeltaState` and its snapshot is about what readers of such a writer are given. -/
theorem published_eq (h : w.Resident) : w.published = w.state.snapshot := by
  have hlevels : w.levels.map L0Level.asLevel = (w.levels.filterMap L0Level.residentMemtable).map Memtable.level := by
    unfold Resident at h
    generalize w.levels = levels at h
    induction levels with
    | nil => rfl
    | cons l levels ih =>
      obtain ⟨hl, hrest⟩ := forall_mem_cons.mp h
      cases l with
      | resident mem => exact congrArg (mem.level :: ·) (ih hrest)
      | offHeap segment => cases hl
  exact congrArg (DeltaSnapshot.mk w.mem) hlevels

/-- **A batch does to the delta what a commit does.** -/
theorem state_writeBatch (ops : List ResolvedOp) : (w.writeBatch ops).state = w.state.commit ops := by
  cases ops <;> rfl

/-- **A flush seals the memtable** as the level its file loads as, if there is something to
seal. Loading gives the same entries and derives the indexes anew, so the level need not be the
memtable itself. -/
theorem state_flushToL0 (hmode : w.offHeap = false) (hidle : w.consolidating = false)
    (h : w.flushToL0 choices = .ok (w', changed)) :
    if w.mem.isEmpty then w' = w ∧ w.state.flush = w.state
    else w'.state = { w.state.flush with l0 := w.mem.reloaded choices.load :: w.state.l0 } ∧
      (w.Resident → w'.Resident) := by
  have hflush : w.state.flush = bif w.mem.isEmpty then w.state else _ := rfl
  simp only [flushToL0, hidle, hmode, flushedFile, Bool.false_eq_true, if_false, Bool.false_and] at h
  cases hempty : w.mem.isEmpty with
  | true =>
    rw [hempty] at h hflush
    cases h
    exact ⟨rfl, hflush⟩
  | false =>
    rw [hempty] at h hflush
    obtain ⟨level, hlevel, h⟩ := bind_eq_ok.mp h
    cases h
    obtain ⟨m, hm, rfl⟩ := map_eq_ok.mp hlevel
    obtain ⟨-, rfl⟩ := Memtable.reload_eq_ok.mp hm
    rw [hflush]
    exact ⟨rfl, fun hresident => forall_mem_cons.mpr ⟨rfl, hresident⟩⟩

/-- **With a spill directory** a flush publishes what it would have published with the memtable
as its newest level, exactly if the memtable is spillable. -/
theorem published_flush_offHeap (hmode : w.offHeap = true) (hcoherent : w.mem.Coherent)
    (hfits : w.mem.toSegmentData.Fits choices.scope) {level : L0Level}
    (hopen : (w.flushedFile choices).openLevel w.cache choices.load = .ok level) :
    (w.flushed choices level).published =
      { mem := (w.flushed choices level).mem, l0 := w.mem.level :: w.published.l0 } ↔ w.mem.Spillable := by
  rw [flushedFile, if_pos hmode] at hopen
  obtain ⟨segment, hsegment, rfl⟩ := L0File.opens_offHeap.mp ⟨_, _, hopen⟩
  have hsealed : SealedAs w.mem segment := ⟨choices.scope, hfits, openSegment_of_open hsegment⟩
  obtain ⟨scope, hshallow, -, hlevel⟩ := hsealed.level_eq
  have hnewest : (w.flushed choices (.offHeap segment)).published =
      { mem := (w.flushed choices (.offHeap segment)).mem, l0 := segment.level :: w.published.l0 } := rfl
  rw [hnewest, ← hcoherent.answers_eq_level_iff (w.mem.toSegmentData_shallow.mp hshallow) scope, ← hlevel]
  constructor
  · intro h
    exact (cons_eq_cons.mp (congrArg DeltaSnapshot.l0 h)).1
  · intro h
    rw [h]

end DeltaWriter

end Slater
