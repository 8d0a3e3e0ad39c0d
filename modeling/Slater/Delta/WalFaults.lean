import Slater.Delta.WalFrames

/-!
# Calls of the log that fail

Every file write and every sync of `WalSink::append_batch` and `commit` may fail. What the call wrote until
then, whole frames and part of one, is cut off again: `Rollback` and `commit` truncate the segment to the end of
the last marker, and set the counts of bytes and frames back with it. Here the truncation succeeds.

A failed call then leaves no trace (`WalSink.fail_eq`), so that a segment is at any time what the calls that
returned make of it, and the next batch is sealed at the ordinals at which replay opens it. Whether those
batches come back is a matter of their records, as in any segment (`acknowledged_durable_iff`).

**What it does not establish.** A truncation that fails, or a process that ends before it, is not considered here;
the second is a cut of the segment and falls under `PrefixDurable`. Whether a sync that fails has nevertheless
reached the disk plays no part, since the file is truncated in either case.
-/

namespace Slater

open WalSink List

/-- The frames that a call writes, with their nonces. -/
def WalCall.frames : WalCall → List (Bytes × WalFrame)
  | .append rec => [(rec.1, .record rec.2)]
  | .commit nonce seq => [(nonce, .commit seq)]
  | .appendBatch recs nonce seq => recs.map (fun rec => (rec.1, .record rec.2)) ++ [(nonce, .commit seq)]

/-- A call that ends in a marker. -/
def WalCall.Closing : WalCall → Prop
  | .append _ => False
  | .commit _ _ | .appendBatch _ _ _ => True

namespace WalSink

/-- What a call starts from: `append_batch` cuts off what an aborted batch left. -/
def floor (sink : WalSink) : WalCall → WalSink
  | .appendBatch .. =>
    if sink.curLen ≠ sink.committedLen then sink.truncateTo sink.committedLen sink.committedFrames else sink
  | _ => sink

/-- A call that fails after a number of whole frames and part of another. A marker may be among
the frames: `write_commit_frame` flushes it before the sync that can fail. -/
def fail (sink : WalSink) (c : WalCall) (whole : Nat) (torn : Bytes) : WalSink :=
  let written := (c.frames.take whole).foldl (fun s f => s.writePayload f.1 f.2.payload) (sink.floor c)
  { written with bytes := written.bytes ++ torn }.truncateTo sink.committedLen sink.committedFrames

end WalSink

/-- A call and, if it failed, what it had written by then. What was written is any number of
whole frames and any bytes after them. -/
structure WalAttempt where
  call : WalCall
  fault : Option (Nat × Bytes) := none

/-- The sink after a call that returns or fails. -/
def WalSink.attempt (sink : WalSink) (a : WalAttempt) : WalSink :=
  match a.fault with
  | none => sink.call a.call
  | some (whole, torn) => sink.fail a.call whole torn

variable (cipher : Option FrameCipher)

/-- The sink after a sequence of calls on a new segment. -/
def WalSink.afterAttempts (attempts : List WalAttempt) : WalSink :=
  attempts.foldl attempt (create cipher)

/-- The calls that returned. -/
def acknowledged (attempts : List WalAttempt) : List WalCall :=
  attempts.filterMap fun a => if a.fault.isNone then some a.call else none

/-! ## A failed call leaves no trace -/

namespace WalSink

variable {sink : WalSink} {log : List (Bytes × WalFrame)} {c : WalCall}

/-- Writing only adds bytes behind those that are there. -/
theorem writePayloads_bytes (fs : List (Bytes × WalFrame)) (sink : WalSink) :
    ∃ added, fs.foldl (fun s f => s.writePayload f.1 f.2.payload) sink =
      { sink with
        bytes := sink.bytes ++ added
        curLen := sink.curLen + added.length
        curFrames := sink.curFrames + fs.length } := by
  induction fs generalizing sink with
  | nil => exact ⟨[], by simp⟩
  | cons f fs ih =>
    obtain ⟨added, hrest⟩ := ih (sink.writePayload f.1 f.2.payload)
    refine ⟨frameBytes (storedBytes sink.cipher sink.curFrames f.1 f.2.payload) ++ added, ?_⟩
    rw [foldl_cons, hrest]
    simp only [writePayload, append_assoc, length_append, frameBytes_length, length_cons]
    congr 1 <;> omega

/-- **What a failed call wrote is cut off again**, and the counts are as they were. The frames
that were written whole and the bytes of a torn one are any, so the failure may come at every
write and at the sync. -/
theorem fail_eq (h : sink.Holds (log, [])) (whole : Nat) (torn : Bytes) : sink.fail c whole torn = sink := by
  have hbytes := h.bytes
  have hlen := h.committedLen
  have hframes : sink.committedFrames = sink.curFrames := by
    rw [h.committedFrames, h.curFrames, append_nil]
  have hfloor : sink.committedLen = sink.bytes.length := by
    rw [hlen, hbytes, append_nil, length_append, magicOf_length]
  have hcur : sink.curLen = sink.committedLen := h.curLen.trans hfloor.symm
  have hstart : sink.floor c = sink := by
    cases c with
    | append | commit => rfl
    | appendBatch => exact if_neg (not_not.mpr hcur)
  obtain ⟨added, hwritten⟩ := writePayloads_bytes (c.frames.take whole) sink
  rw [fail, hstart, hwritten]
  simp only [truncateTo, append_assoc]
  have htake : (sink.bytes ++ (added ++ torn)).take sink.committedLen = sink.bytes := by
    rw [hfloor, take_left]
  rw [htake]
  cases sink
  cases hcur
  cases hframes
  rfl

end WalSink

/-! ## What comes back -/

/-- Calls that end in a marker leave their frames, one call after another. -/
theorem logAfter_closing {calls : List WalCall} (hcalls : ∀ c ∈ calls, c.Closing) :
    logAfter calls = (calls.flatMap WalCall.frames, []) := by
  induction calls using reverseRecOn with
  | nil => rfl
  | append_singleton calls c ih =>
    obtain ⟨hinit, hc⟩ := forall_mem_append.mp hcalls
    rw [logAfter, foldl_append, ← logAfter, ih hinit, flatMap_append, flatMap_singleton]
    cases c with
    | append rec => exact absurd (hc _ (.head _)) id
    | commit nonce seq => exact congrArg (·, []) (congrArg (· ++ _) (append_nil _))
    | appendBatch recs nonce seq => exact congrArg (·, []) (append_assoc ..)

theorem closing_acknowledged {attempts : List WalAttempt} (hcalls : ∀ a ∈ attempts, a.call.Closing) :
    ∀ c ∈ acknowledged attempts, c.Closing := by
  intro c hc
  obtain ⟨a, ha, hac⟩ := mem_filterMap.mp hc
  obtain ⟨-, ⟨⟩⟩ := Option.ite_none_right_eq_some.mp hac
  exact hcalls a ha

/-- **A segment is what the calls that returned make of it.** -/
theorem afterAttempts_eq {attempts : List WalAttempt}
    (hcalls : ∀ a ∈ attempts, a.call.Closing) : afterAttempts cipher attempts = after cipher (acknowledged attempts) := by
  induction attempts using reverseRecOn with
  | nil => rfl
  | append_singleton attempts a ih =>
    obtain ⟨hinit, -⟩ := forall_mem_append.mp hcalls
    have hholds := holds_after cipher (acknowledged attempts)
    rw [logAfter_closing (closing_acknowledged hinit)] at hholds
    have happend : acknowledged (attempts ++ [a]) = acknowledged attempts ++ acknowledged [a] := filterMap_append
    rw [afterAttempts, foldl_append, ← afterAttempts, ih hinit, happend]
    obtain ⟨c, fault⟩ := a
    cases fault with
    | none =>
      rw [WalSink.after, WalSink.after, foldl_append]
      rfl
    | some fault =>
      show (after cipher (acknowledged attempts)).fail c fault.1 fault.2 = after cipher (acknowledged attempts ++ [])
      rw [append_nil]
      exact fail_eq hholds fault.1 fault.2

/-- **Whatever fails, the segment is what the calls that returned make of it**: the file holds
their frames, the counts are those of the file, and replay gives the records back, from a cut
file too, exactly if none of them is too deep to be read. The calls are those that end with a
marker, `commit` and `append_batch`; the first two parts rest on nothing but that. -/
theorem acknowledged_durable_iff (cipher : Option FrameCipher) (attempts : List WalAttempt)
    (hcalls : ∀ a ∈ attempts, a.call.Closing) :
    let sink := afterAttempts cipher attempts
    let calls := acknowledged attempts
    let frames := calls.flatMap WalCall.frames
    sink = after cipher calls ∧
      sink.bytes = magicOf cipher ++ logBytes cipher 0 frames ∧
      (sink.committedLen = sink.bytes.length ∧ sink.curLen = sink.bytes.length) ∧
      (sink.committedFrames = frames.length ∧ sink.curFrames = frames.length) ∧
      ((∀ entry ∈ frames, entry.2.Fits ∧ entry.2.Sized cipher) →
        (PrefixDurable cipher calls ↔ ∀ entry ∈ frames, entry.2.Shallow)) := by
  intro sink calls frames
  have hsame : sink = after cipher calls := afterAttempts_eq cipher hcalls
  have hlog : logAfter calls = (frames, []) := logAfter_closing (closing_acknowledged hcalls)
  have hholds := holds_after cipher calls
  rw [hlog, ← hsame] at hholds
  have hcipher : sink.cipher = cipher := by rw [hsame, after_cipher]
  have hbytes := hholds.bytes
  have hlen := hholds.committedLen
  have hcount := hholds.curFrames
  simp only [hcipher, append_nil] at hbytes hlen hcount
  refine ⟨hsame, hbytes, ⟨?_, hholds.curLen⟩, ⟨hholds.committedFrames, hcount⟩, fun hread => ?_⟩
  · rw [hlen, hbytes, length_append, magicOf_length]
  · have hframes : framesAfter calls = frames := by rw [framesAfter, hlog, append_nil]
    rw [← hframes] at hread ⊢
    have hfits := fun entry hentry => (hread entry hentry).1
    have hsized := fun entry hentry => (hread entry hentry).2
    exact ⟨shallow_of_prefixDurable hfits hsized, prefixDurable_of_shallow hfits hsized⟩

namespace WalFaults

open WalFrames

/-- A batch fails at its second frame, and another is appended. -/
def retried (v : Value) : List WalAttempt :=
  [⟨.appendBatch [([], upsert (.int 1)), ([], upsert (.int 2))] [] 2, some (1, [7, 7])⟩,
    ⟨.appendBatch [([], upsert v)] [] 1, none⟩]

theorem closing_retried (v : Value) : ∀ a ∈ retried v, a.call.Closing := by
  simp [retried, WalCall.Closing]

theorem durable_retried : PrefixDurable none (acknowledged (retried (.int 3))) :=
  ((acknowledged_durable_iff none (retried (.int 3)) (closing_retried _)).2.2.2.2 (by decide +kernel)).mpr
    (by decide +kernel)

/-- **A batch that returned after a failed one, and cannot be replayed.** -/
theorem retried_too_deep : ¬ ∀ (cipher : Option FrameCipher) (attempts : List WalAttempt),
      (∀ a ∈ attempts, a.call.Closing) →
      (∀ entry ∈ (acknowledged attempts).flatMap WalCall.frames, entry.2.Fits ∧ entry.2.Sized cipher) →
      ∃ r, replayBytes cipher {} (afterAttempts cipher attempts).bytes = .ok r := by
  intro h
  have hread : ∀ entry ∈ framesAfter [.appendBatch [([], upsert tooDeep)] [] 1], entry.2.Fits ∧ entry.2.Sized none := by
    decide +kernel
  obtain ⟨r, hr⟩ := h none (retried tooDeep) (closing_retried _) hread
  have hreplay := @replayBytes_after none [.appendBatch [([], upsert tooDeep)] [] 1]
    (fun entry hentry => (hread entry hentry).2) {}
  have hshallow := shallow_of_replaySegment (fun entry hentry => (hread entry hentry).1)
    (fun entry hentry => (hread entry hentry).2) (hreplay.symm.trans hr)
  exact absurd hshallow (by decide +kernel)

end WalFaults

end Slater
