import Slater.Delta.WalFaults
import Slater.Server.DeltaWriter

/-!
# The write path

`write` and `write_batch` of `slater/src/delta_writer.rs`, over the sink that writes the log byte by byte. A call
folds its operations into a private copy of the memtable, numbers the records, appends and commits them, and
installs the copy. Any file operation of the append may fail, at any record, inside a frame or at the commit
marker; the sink then cuts the segment back to where it was.

`SinkWriter` is a `DeltaWriter` with its open sink. The two know the same log: what the sink holds ends in a
marker, and its payloads are those of the open segment in the writer's directory (`logged`). A call keeps this
whether it returns or fails.

**A failed call** leaves the segment, the memtable, the sealed levels and what is published as they were.
`write` leaves the count of records too. `write_batch` does not: it numbers its records before it appends them and
does not count back (`failed_call_unchanged_iff`).

The rollback itself succeeds here, as in `Slater.Delta.WalFaults`. A panic of the fold happens before anything is
written, and is left out.
-/

namespace Slater

open List DeltaWriter WalSink

/-- A writer and the sink of its open log segment. That the sink holds the writer's log is a
field: a writer and a sink of different logs cannot be put together. -/
structure SinkWriter where
  writer : DeltaWriter
  sink : WalSink
  logged : ∃ log, sink.Holds (log, []) ∧
    writer.dir.wal.lookup writer.sink = some (log.map fun entry => entry.2.payload)

/-- What the file system and the cipher contribute to an append: the nonce of each frame, and if
the append fails, how many whole frames and which part of another were written by then. Without
a fault the append returns. -/
structure AppendIo where
  nonce : Nat → Bytes
  fault : Option (Nat × Bytes) := none

/-- The call of the sink that appends a batch. -/
def AppendIo.call (io : AppendIo) (recs : List WalRecord) (committed : Nat) : WalCall :=
  .appendBatch (recs.zipIdx.map fun rec => (io.nonce rec.2, rec.1)) (io.nonce recs.length) committed

/-- A writer with a fresh segment. -/
def SinkWriter.start (cipher : Option FrameCipher) (w : DeltaWriter) : SinkWriter where
  writer := { w with dir := w.dir.perform (.createWal w.sink) }
  sink := .create cipher
  logged := ⟨[], holds_after cipher [], Finmap.lookup_insert _⟩

namespace SinkWriter

variable (w : SinkWriter) (recs : List WalRecord) (committed : Nat) (io : AppendIo)

/-- The directory with a batch in the open segment. -/
def appendedDir : WriterDir := w.writer.dir.perform (.appendWal w.writer.sink recs committed)

theorem payload_frames : (io.call recs committed).frames.map (fun entry => entry.2.payload) =
    recs.map recordPayload ++ [commitPayload committed] := by
  have hrecs : ∀ k, (recs.zipIdx k).map (fun rec => (WalFrame.record rec.1).payload) = recs.map recordPayload := by
    intro k
    induction recs generalizing k with
    | nil => rfl
    | cons rec recs ih => rw [zipIdx_cons, map_cons, ih, map_cons, WalFrame.payload]
  have hall := hrecs 0
  simp only [AppendIo.call, WalCall.frames, map_append, map_map, map_cons, map_nil]
  exact congrArg (· ++ _) hall

/-- The sink and the directory take a batch alike. -/
theorem logged_call : ∃ log, (w.sink.call (io.call recs committed)).Holds (log, []) ∧
    (w.appendedDir recs committed).wal.lookup w.writer.sink = some (log.map fun entry => entry.2.payload) := by
  obtain ⟨log, hholds, hsegment⟩ := w.logged
  refine ⟨log ++ (io.call recs committed).frames, ?_, ?_⟩
  · have hcall := hholds.call (io.call recs committed)
    rwa [AppendIo.call, callLog, append_assoc] at hcall
  · have hperform : (w.appendedDir recs committed).wal.lookup w.writer.sink =
        some (((w.writer.dir.wal.lookup w.writer.sink).getD []).appendBatch recs committed) :=
      Finmap.lookup_insert _
    rw [hperform, hsegment, map_append, payload_frames, ← append_assoc]
    rfl

/-- A batch that fails is cut off again, so the sink still holds the segment of the
directory. -/
theorem logged_fail (whole : Nat) (torn : Bytes) :
    ∃ log, (w.sink.fail (io.call recs committed) whole torn).Holds (log, []) ∧
      w.writer.dir.wal.lookup w.writer.sink = some (log.map fun entry => entry.2.payload) := by
  obtain ⟨log, hholds, hsegment⟩ := w.logged
  rw [fail_eq hholds]
  exact ⟨log, hholds, hsegment⟩

/-- `append_batch` on the open segment, and whether it returned. -/
def append : SinkWriter × Bool :=
  match io.fault with
  | none =>
    ({ writer := { w.writer with dir := w.appendedDir recs committed }
       sink := w.sink.call (io.call recs committed)
       logged := w.logged_call recs committed io }, true)
  | some (whole, torn) =>
    ({ w with
       sink := w.sink.fail (io.call recs committed) whole torn
       logged := w.logged_fail recs committed io whole torn }, false)

/-- The count moves. -/
def count (seq : Nat) : SinkWriter := { w with writer := { w.writer with seq } }

/-- The prepared memtable takes the place of the old one, and with it what is published. -/
def install (mem : Memtable) : SinkWriter := { w with writer := { w.writer with mem } }

/-- `write`: the number is assigned once the record is durable. -/
def write (op : ResolvedOp) : SinkWriter × Except String Nat :=
  let mem := w.writer.mem.apply op
  let seq := w.writer.seq + 1
  match w.append [{ seq, op := op.op }] seq io with
  | (w, false) => (w, .error "append+commit WAL record")
  | (w, true) => ((w.count seq).install mem, .ok seq)

/-- `write_batch`: the numbers are assigned while the records are built, before anything is
appended. -/
def writeBatch : List ResolvedOp → SinkWriter × Except String Nat
  | [] => (w, .ok w.writer.seq)
  | op :: ops =>
    let mem := w.writer.mem.applyAll (op :: ops)
    let recs := numbered w.writer.seq (op :: ops)
    let last := w.writer.seq + (op :: ops).length
    match (w.count last).append recs last io with
    | (w, false) => (w, .error "append+commit WAL batch")
    | (w, true) => (w.install mem, .ok last)

variable {recs committed io}

/-- **An append that fails leaves no trace**, whatever it had written. The fault may come at any
record, inside a frame or at the marker. -/
theorem append_failed (h : io.fault.isSome) : w.append recs committed io = (w, false) := by
  obtain ⟨log, hholds, -⟩ := w.logged
  obtain ⟨⟨whole, torn⟩, hfault⟩ := Option.isSome_iff_exists.mp h
  have hsame : w.sink.fail (io.call recs committed) whole torn = w.sink := fail_eq hholds whole torn
  obtain ⟨writer, sink, logged⟩ := w
  simp only [append, hfault, hsame]

/-- A call that returns leaves what `DeltaWriter.writeBatch` says of it. -/
theorem writer_write (op : ResolvedOp) (h : io.fault = none) :
    (w.write io op).1.writer = w.writer.writeBatch [op] ∧ (w.write io op).2 = .ok (w.writer.seq + 1) := by
  constructor
  · simp only [write, append, h]
    rfl
  · simp only [write, append, h]

theorem writer_writeBatch (ops : List ResolvedOp) (h : io.fault = none) :
    (w.writeBatch io ops).1.writer = w.writer.writeBatch ops ∧
      (w.writeBatch io ops).2 = .ok (w.writer.seq + ops.length) := by
  cases ops with
  | nil => exact ⟨rfl, rfl⟩
  | cons op ops =>
    constructor
    · simp only [writeBatch, append, h]
      rfl
    · simp only [writeBatch, append, h]

/-- A call of `write` that fails. -/
theorem write_failed (op : ResolvedOp) (h : io.fault.isSome) :
    w.write io op = (w, .error "append+commit WAL record") := by
  simp only [write, w.append_failed h]

/-- A batch that fails has used up its numbers. -/
theorem writeBatch_failed {ops : List ResolvedOp} (hne : ops ≠ []) (h : io.fault.isSome) :
    w.writeBatch io ops = (w.count (w.writer.seq + ops.length), .error "append+commit WAL batch") := by
  cases ops with
  | nil => exact absurd rfl hne
  | cons op ops => simp only [writeBatch, append_failed _ h]

end SinkWriter

/-- A call of the write path. They differ in when the numbers are assigned. -/
inductive WriteCall where
  | write (op : ResolvedOp)
  | batch (ops : List ResolvedOp)

/-- The writer after a call, and what it returns. -/
def SinkWriter.call (w : SinkWriter) (io : AppendIo) : WriteCall → SinkWriter × Except String Nat
  | .write op => w.write io op
  | .batch ops => w.writeBatch io ops

/-- **A failed call leaves the writer as it was, and the number of the next write with it,
exactly if it is `write`.** After a failed batch everything but the count is as it was: the
memtable, the levels, what is published, the directory and the bytes of the segment. -/
theorem failed_call_unchanged_iff (w : SinkWriter) (io : AppendIo) (c : WriteCall) (e : String)
    (h : (w.call io c).2 = .error e) :
    (((w.call io c).1 = w ∧ ∀ io' op, ((w.call io c).1.write io' op).2 = (w.write io' op).2) ↔
        ∃ op, c = .write op) ∧
      (w.call io c).1 = w.count (w.call io c).1.writer.seq := by
  have hfault : io.fault.isSome := by
    by_contra hnone
    have hnone := Option.not_isSome_iff_eq_none.mp hnone
    cases c with
    | write op => cases (w.writer_write op hnone).2.symm.trans h
    | batch ops => cases (w.writer_writeBatch ops hnone).2.symm.trans h
  cases c with
  | write op =>
    have hcall : w.call io (.write op) = (w, .error "append+commit WAL record") := w.write_failed op hfault
    rw [hcall]
    exact ⟨iff_of_true ⟨rfl, fun _ _ => rfl⟩ ⟨op, rfl⟩, rfl⟩
  | batch ops =>
    have hne : ops ≠ [] := by
      rintro rfl
      cases h
    have hcall : w.call io (.batch ops) = (w.count (w.writer.seq + ops.length), .error "append+commit WAL batch") :=
      w.writeBatch_failed hne hfault
    rw [hcall]
    refine ⟨⟨fun ⟨hsame, _⟩ => ?_, fun ⟨_, hwrite⟩ => nomatch hwrite⟩, rfl⟩
    have hseq : w.writer.seq + ops.length = w.writer.seq := congrArg (·.writer.seq) hsame
    have := length_pos_of_ne_nil hne
    omega

namespace WritePath

/-- A writer of an empty delta. -/
def empty : SinkWriter :=
  .start none
    { dir := {}, sink := 0, mem := .withBases 0 0, l0 := [], seq := 0, offHeap := false, cache := false, coreUuid := 0 }

/-- The append fails inside its first frame. -/
def tornFrame : AppendIo := { nonce := fun _ => [], fault := some (0, [7]) }

def born (name : String) : ResolvedOp := .node ⟨"Person", "name", .str name⟩ (.upsert []) none

theorem failed_write_unchanged : (empty.call tornFrame (.write (born "a"))).1 = empty :=
  ((failed_call_unchanged_iff empty tornFrame (.write (born "a")) "append+commit WAL record"
    (congrArg Prod.snd (empty.write_failed (born "a") rfl))).1.mpr ⟨born "a", rfl⟩).1

/-- **A batch that was not appended has used up its numbers.** -/
theorem failed_batch_counts : ¬ ∀ (w : SinkWriter) (io : AppendIo) (c : WriteCall) (e : String),
      (w.call io c).2 = .error e →
      (w.call io c).1 = w ∧ ∀ io' op, ((w.call io c).1.write io' op).2 = (w.write io' op).2 := by
  intro h
  have hcall := empty.writeBatch_failed (cons_ne_nil (born "a") []) (show tornFrame.fault.isSome from rfl)
  have hsame := (h empty tornFrame (.batch [born "a"]) _ (congrArg Prod.snd hcall)).1
  rw [SinkWriter.call, hcall] at hsame
  exact absurd (congrArg (·.writer.seq) hsame) (by decide)

end WritePath

end Slater
