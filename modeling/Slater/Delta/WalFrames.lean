import Slater.Lib.Machine
import Slater.Delta.Wal

/-!
# The bytes of a log segment

`WalSink` and `replay_bytes` of `slater-delta/src/wal.rs`, byte by byte. A segment is a magic and a sequence of
frames, each the length and the checksum of what it stores and then the stored bytes; under a key the stored bytes
are sealed at the frame's ordinal. A sink counts its bytes and frames and remembers both as of the last commit, the
floor that a batch is rolled back to.

`replay_bytes` reads frame by frame and stops without an error at what looks torn: a short header, a length of zero,
a length past the end, a wrong checksum. Records wait until a commit marker follows them.

**The law** (`prefixDurable_iff`): cut a segment at any byte past its magic, and replay gives exactly the records
that a commit marker within the kept bytes covers, in order, and the same as from the bytes up to that marker. It
holds if and only if every record in the segment is one that `read_value` takes back, provided the frames have
lengths of 32 bits. The sink does not look at the values it is given, since the limits on nesting are set where a
statement is decoded; a record past them is appended and committed, and replay of the segment fails. A cut is as good as a stop after some call (`crash_after_call`).

The sink's file holds what was handed to it, buffered or not; a buffer that did not reach the disk is a cut. Calls
that fail, and the rollback they start, are left out, and so is the file system's part of `create` and `seal`.
`replay_bytes` reports the records and the highest committed number, and no length.
-/

namespace Slater

open Reader List

/-! ## Checksum and seal -/

/-- One bit of the CRC-32C. -/
def crcBit (c : UInt32) : UInt32 := if c &&& 1 = 1 then (c >>> 1) ^^^ 0x82F63B78 else c >>> 1

/-- One byte of the CRC-32C. -/
def crcByte (c : UInt32) (b : UInt8) : UInt32 := Nat.repeat crcBit 8 (c ^^^ b.toUInt32)

/-- `crc32c`. -/
def crc32c (bytes : Bytes) : UInt32 := bytes.foldl crcByte 0xFFFFFFFF ^^^ 0xFFFFFFFF

/-- `FileCipher`, bound to a segment: what it seals at an ordinal under a nonce, it opens at
that ordinal. -/
structure FrameCipher where
  sealAt : Nat → Bytes → Bytes → Bytes
  openAt : Nat → Bytes → Except String Bytes
  opens : ∀ ordinal nonce payload, openAt ordinal (sealAt ordinal nonce payload) = .ok payload
  /-- A nonce of 24 bytes and a tag of 16. -/
  length : ∀ ordinal nonce payload, (sealAt ordinal nonce payload).length = payload.length + 40

/-! ## Frames -/

/-- `WAL_MAGIC`. -/
def walMagic : Bytes := stringBytes "SLWAL001"

/-- `WAL_MAGIC_SEALED`. -/
def walMagicSealed : Bytes := stringBytes "SLWALE01"

variable (cipher : Option FrameCipher)

/-- The magic of a segment under a key or without one. -/
def magicOf : Bytes := if cipher.isSome then walMagicSealed else walMagic

theorem magicOf_length : (magicOf cipher).length = 8 := by
  cases cipher with
  | none => decide +kernel
  | some c => exact (by decide +kernel : walMagicSealed.length = 8)

/-- The payload of a frame. -/
def WalFrame.payload : WalFrame → Bytes
  | .record rec => recordPayload rec
  | .commit seq => commitPayload seq

/-- What `write_payload` stores. -/
def storedBytes (ordinal : Nat) (nonce payload : Bytes) : Bytes :=
  match cipher with
  | none => payload
  | some c => c.sealAt ordinal nonce payload

/-- `write_frame`. -/
def frameBytes (stored : Bytes) : Bytes :=
  littleEndian 4 (stored.length % 2 ^ 32) ++ littleEndian 4 (crc32c stored).toNat ++ stored

/-- `frame_len`. -/
theorem frameBytes_length (stored : Bytes) : (frameBytes stored).length = 8 + stored.length := by
  rw [frameBytes, length_append, length_append, littleEndian_length, littleEndian_length]

/-! ## The sink -/

/-- `WalSink`: the bytes of the segment, and the counts of bytes and frames, in all and as of
the last commit. The bytes stand for the file and for what is still buffered. -/
structure WalSink where
  cipher : Option FrameCipher
  bytes : Bytes
  committedLen : Nat
  curLen : Nat
  committedFrames : Nat
  curFrames : Nat

namespace WalSink

/-- `create`. -/
def create : WalSink where
  cipher
  bytes := magicOf cipher
  committedLen := walMagic.length
  curLen := walMagic.length
  committedFrames := 0
  curFrames := 0

variable (sink : WalSink)

/-- `write_payload`, with the nonce it draws. -/
def writePayload (nonce payload : Bytes) : WalSink :=
  let stored := storedBytes sink.cipher sink.curFrames nonce payload
  { sink with
    bytes := sink.bytes ++ frameBytes stored
    curLen := sink.curLen + (8 + stored.length)
    curFrames := sink.curFrames + 1 }

/-- `write_record_frame`. -/
def writeRecordFrame (rec : Bytes × WalRecord) : WalSink := sink.writePayload rec.1 (recordPayload rec.2)

/-- `write_commit_frame`. -/
def writeCommitFrame (nonce : Bytes) (seq : Nat) : WalSink :=
  let sink := sink.writePayload nonce (commitPayload seq)
  { sink with committedLen := sink.curLen, committedFrames := sink.curFrames }

/-- `truncate_to`. -/
def truncateTo (off frames : Nat) : WalSink :=
  { sink with bytes := sink.bytes.take off, curLen := off, curFrames := frames }

/-- `append_batch`: what an aborted batch left is cut off first. -/
def appendBatch (recs : List (Bytes × WalRecord)) (nonce : Bytes) (seq : Nat) : WalSink :=
  let sink := if sink.curLen ≠ sink.committedLen then sink.truncateTo sink.committedLen sink.committedFrames
    else sink
  (recs.foldl writeRecordFrame sink).writeCommitFrame nonce seq

end WalSink

/-- A call of the sink that returned, with the nonces it drew. The three are the public calls
that write; a nonce stands for what the cipher drew at random. -/
inductive WalCall where
  | append (rec : Bytes × WalRecord)
  | commit (nonce : Bytes) (seq : Nat)
  | appendBatch (recs : List (Bytes × WalRecord)) (nonce : Bytes) (seq : Nat)

/-- The sink after a call. -/
def WalSink.call (sink : WalSink) : WalCall → WalSink
  | .append rec => sink.writeRecordFrame rec
  | .commit nonce seq => sink.writeCommitFrame nonce seq
  | .appendBatch recs nonce seq => sink.appendBatch recs nonce seq

variable (calls : List WalCall)

/-- The sink after a sequence of calls on a new segment. -/
def WalSink.after : WalSink :=
  calls.foldl call (create cipher)

/-! ## Replay -/

/-- `DeltaSealRejected::KeyRequired`. -/
def keyRequired (subject : String) : String :=
  subject ++ " is sealed at rest but no master key is configured — supply the key this graph's delta was " ++
    "written under (or discard the delta)"

/-- `DeltaSealRejected::Unsealed`. -/
def unsealed (subject : String) : String :=
  subject ++ " is plaintext but a master key is configured — refusing to replay unauthenticated delta data " ++
    "into an encrypted graph. If this is an upgrade of a keyed deployment that was already writable, its delta " ++
    "predates at-rest sealing: consolidate (or otherwise drain the delta) on the previous version first, then " ++
    "upgrade. Deleting the WAL and L0 directories also clears it, at the cost of every write not yet folded " ++
    "into the core"

/-- The stored bytes of a frame, opened at its ordinal. -/
def openStored (ordinal : Nat) (stored : Bytes) : Except String Bytes :=
  match cipher with
  | none => .ok stored
  | some c =>
    match c.openAt ordinal stored with
    | .ok payload => .ok payload
    | .error _ => .error ("open sealed WAL frame at ordinal " ++ toString ordinal)

/-- What is left when the loop ends: the records past the last marker are dropped. -/
def Replay.finish (r : Replay) : Replay := { r with pending := [] }

/-- The loop of `replay_bytes`, on what follows the position; every frame takes a byte at
least. -/
def replayFrames : Nat → Nat → Replay → Bytes → Except String Replay
  | 0, _, r, _ => .ok r.finish
  | fuel + 1, ordinal, r, bytes =>
    if bytes.length < 8 then .ok r.finish
    else
      let len := fromLittleEndian (bytes.take 4)
      let crc := fromLittleEndian ((bytes.drop 4).take 4)
      if len = 0 then .ok r.finish
      else if bytes.length < 8 + len then .ok r.finish
      else
        let stored := (bytes.drop 8).take len
        if (crc32c stored).toNat ≠ crc then .ok r.finish
        else do
          let payload ← openStored cipher ordinal stored
          let frame ← WalFrame.read.decode payload
          replayFrames fuel (ordinal + 1) (r.add frame) (bytes.drop (8 + len))

/-- `replay_bytes`. The fuel is the number of bytes, as a frame has at least one. -/
def replayBytes (r : Replay) (bytes : Bytes) : Except String Replay :=
  if bytes = [] then .ok r
  else if bytes.length < walMagic.length then .error "bad or missing WAL magic"
  else
    let magic := bytes.take walMagic.length
    let frames := bytes.drop walMagic.length
    if magic = walMagic then
      if cipher.isSome then .error (unsealed "WAL segment") else replayFrames cipher frames.length 0 r frames
    else if magic = walMagicSealed then
      if cipher.isSome then replayFrames cipher frames.length 0 r frames else .error (keyRequired "WAL segment")
    else .error "bad or missing WAL magic"

/-! ## What a segment holds -/

/-- The bytes of a frame of the log, at its ordinal. -/
def entryBytes (ordinal : Nat) (entry : Bytes × WalFrame) : Bytes :=
  frameBytes (storedBytes cipher ordinal entry.1 entry.2.payload)

/-- The bytes of the frames of a log, the first at an ordinal. -/
def logBytes : Nat → List (Bytes × WalFrame) → Bytes
  | _, [] => []
  | ordinal, entry :: log => entryBytes cipher ordinal entry ++ logBytes (ordinal + 1) log

/-- The frames that lie wholly within the first `n` bytes. -/
def framesWithin : Nat → List (Bytes × WalFrame) → Nat → List WalFrame
  | _, [], _ => []
  | ordinal, entry :: log, n =>
    let len := (entryBytes cipher ordinal entry).length
    if len ≤ n then entry.2 :: framesWithin (ordinal + 1) log (n - len) else []

/-- Whether a frame is a commit marker. -/
def WalFrame.isCommit : WalFrame → Bool
  | .record _ => false
  | .commit _ => true

/-- The record in a frame. -/
def WalFrame.record? : WalFrame → Option WalRecord
  | .record rec => some rec
  | .commit _ => none

/-- The records that a later commit marker covers. -/
def committedRecords : List WalFrame → List WalRecord
  | [] => []
  | frame :: frames => if frames.any WalFrame.isCommit then frame.record?.toList ++ committedRecords frames else []

/-- Where the last commit marker wholly within the first `n` bytes ends; 0 if there is none. -/
def durableEnd : Nat → List (Bytes × WalFrame) → Nat → Nat
  | _, [], _ => 0
  | ordinal, entry :: log, n =>
    let len := (entryBytes cipher ordinal entry).length
    if len ≤ n then
      let rest := durableEnd (ordinal + 1) log (n - len)
      if entry.2.isCommit ∨ rest ≠ 0 then len + rest else 0
    else 0

/-- The log that a call leaves: the frames up to the last marker, and the records after it. -/
def callLog (log : List (Bytes × WalFrame) × List (Bytes × WalFrame)) :
    WalCall → List (Bytes × WalFrame) × List (Bytes × WalFrame)
  | .append (nonce, rec) => (log.1, log.2 ++ [(nonce, .record rec)])
  | .commit nonce seq => (log.1 ++ log.2 ++ [(nonce, .commit seq)], [])
  | .appendBatch recs nonce seq =>
    (log.1 ++ recs.map (fun rec => (rec.1, .record rec.2)) ++ [(nonce, .commit seq)], [])

/-- The log that a sequence of calls leaves in a segment. -/
def logAfter : List (Bytes × WalFrame) × List (Bytes × WalFrame) :=
  calls.foldl callLog ([], [])

/-! ## One frame -/

section

variable (ordinal : Nat) (nonce payload : Bytes)

theorem storedBytes_length :
    (storedBytes cipher ordinal nonce payload).length = payload.length + if cipher.isSome then 40 else 0 := by
  cases cipher with
  | none => rfl
  | some c => exact c.length ordinal nonce payload

theorem openStored_storedBytes :
    openStored cipher ordinal (storedBytes cipher ordinal nonce payload) = .ok payload := by
  cases cipher with
  | none => rfl
  | some c => simp only [openStored, storedBytes, c.opens]

end

/-- The length of the stored bytes fits the frame's length field. -/
def WalFrame.Sized (frame : WalFrame) : Prop :=
  frame.payload.length + (if cipher.isSome then 40 else 0) < 2 ^ 32
deriving Decidable

theorem WalFrame.Sized.payload {frame : WalFrame} (h : frame.Sized cipher) : ¬ 2 ^ 32 ≤ frame.payload.length :=
  Nat.not_le.mpr (Nat.lt_of_le_of_lt (Nat.le_add_right ..) h)

theorem WalFrame.payload_pos (frame : WalFrame) : 0 < frame.payload.length := by
  cases frame <;> exact Nat.succ_pos _

/-- A length that fits its field is read back. -/
theorem fromLittleEndian_length {stored : Bytes} (h : stored.length < 2 ^ 32) :
    fromLittleEndian (littleEndian 4 (stored.length % 2 ^ 32)) = stored.length := by
  rw [Nat.mod_eq_of_lt h]
  exact fromLittleEndian_littleEndian h

section Frame

variable {cipher} {fuel ordinal n : Nat} {r : Replay} {rest : Bytes}
  {entry : Bytes × WalFrame}

theorem entryBytes_length : (entryBytes cipher ordinal entry).length =
      8 + (entry.2.payload.length + if cipher.isSome then 40 else 0) := by
  rw [entryBytes, frameBytes_length, storedBytes_length]

/-- **A whole frame** is opened and read, and the loop goes on behind it. -/
theorem replayFrames_entry (hsized : entry.2.Sized cipher) :
    replayFrames cipher (fuel + 1) ordinal r (entryBytes cipher ordinal entry ++ rest) =
      (WalFrame.read.decode entry.2.payload >>= fun frame =>
        replayFrames cipher fuel (ordinal + 1) (r.add frame) rest) := by
  have hopen := openStored_storedBytes cipher ordinal entry.1 entry.2.payload
  have hlen := storedBytes_length cipher ordinal entry.1 entry.2.payload
  have hpos := entry.2.payload_pos
  rw [WalFrame.Sized, ← hlen] at hsized
  rw [entryBytes]
  generalize storedBytes cipher ordinal entry.1 entry.2.payload = stored at *
  have hcrc4 : fromLittleEndian (littleEndian 4 (crc32c stored).toNat) = (crc32c stored).toNat :=
    fromLittleEndian_littleEndian (crc32c stored).toNat_lt
  have hbytes : frameBytes stored ++ rest = littleEndian 4 (stored.length % 2 ^ 32) ++
      (littleEndian 4 (crc32c stored).toNat ++ (stored ++ rest)) := by
    simp [frameBytes]
  have htake : (frameBytes stored ++ rest).take 4 = littleEndian 4 (stored.length % 2 ^ 32) := by
    rw [hbytes, take_left' (littleEndian_length ..)]
  have hdrop : (frameBytes stored ++ rest).drop 4 = littleEndian 4 (crc32c stored).toNat ++ (stored ++ rest) := by
    rw [hbytes, drop_left' (littleEndian_length ..)]
  have hdrop8 : (frameBytes stored ++ rest).drop 8 = stored ++ rest := by
    have h := congrArg (drop 4) hdrop
    rwa [drop_drop, drop_left' (littleEndian_length ..)] at h
  have hlength : (frameBytes stored ++ rest).length = 8 + stored.length + rest.length := by
    rw [length_append, frameBytes_length]
  rw [replayFrames, if_neg (by omega), htake, hdrop, take_left' (littleEndian_length ..),
    fromLittleEndian_length hsized, hcrc4]
  rw [if_neg (by omega), if_neg (by omega), hdrop8, take_left, if_neg (by simp)]
  rw [hopen]
  have hrest : (frameBytes stored ++ rest).drop (8 + stored.length) = rest := by
    rw [← frameBytes_length, drop_left]
  rw [hrest]
  rfl

/-- **A torn frame** ends the loop. -/
theorem replayFrames_torn (hsized : entry.2.Sized cipher) (hn : n < (entryBytes cipher ordinal entry).length) :
    replayFrames cipher fuel ordinal r ((entryBytes cipher ordinal entry).take n) = .ok r.finish := by
  have hlen := storedBytes_length cipher ordinal entry.1 entry.2.payload
  rw [WalFrame.Sized, ← hlen] at hsized
  rw [entryBytes] at hn ⊢
  generalize storedBytes cipher ordinal entry.1 entry.2.payload = stored at *
  rw [frameBytes_length] at hn
  have hlength : ((frameBytes stored).take n).length = n := by
    rw [length_take, frameBytes_length]
    omega
  cases fuel with
  | zero => rfl
  | succ fuel =>
    rw [replayFrames]
    by_cases hshort : n < 8
    · rw [if_pos (by omega)]
    · have htake : ((frameBytes stored).take n).take 4 = littleEndian 4 (stored.length % 2 ^ 32) := by
        rw [take_take, Nat.min_eq_left (by omega), frameBytes, append_assoc,
          take_left' (littleEndian_length ..)]
      rw [if_neg (by omega), htake, fromLittleEndian_length hsized]
      show (if stored.length = 0 then _ else if _ then _ else _) = _
      split
      next => rfl
      next => rw [if_pos (by omega)]

end Frame

/-! ## A log of frames -/

/-- The numbers and lengths in a frame have 64 bits. -/
def WalFrame.Fits : WalFrame → Prop
  | .record rec => IsU64 rec.seq ∧ rec.op.Fits
  | .commit seq => IsU64 seq

instance (frame : WalFrame) : Decidable frame.Fits :=
  match frame with
  | .record rec => inferInstanceAs (Decidable (rec.seq < 2 ^ 64 ∧ rec.op.Fits))
  | .commit seq => inferInstanceAs (Decidable (seq < 2 ^ 64))

/-- The record of a frame is one that `read_value` takes back. -/
def WalFrame.Shallow : WalFrame → Prop
  | .record rec => rec.op.Shallow
  | .commit _ => True

instance (frame : WalFrame) : Decidable frame.Shallow :=
  match frame with
  | .record rec => inferInstanceAs (Decidable rec.op.Shallow)
  | .commit _ => .isTrue trivial

theorem readsIff_frame {frame : WalFrame} (h : frame.Fits) :
    ReadsIff WalFrame.read frame.payload frame frame.Shallow := by
  cases frame with
  | record rec =>
    exact ReadsIff.bind_reads (reads_next "WAL byte truncated" (1 : UInt8))
      ((readsIff_record h.1 h.2).bind_pure WalFrame.record)
  | commit seq =>
    have hread : Reads WalFrame.read (commitPayload seq) (.commit seq) :=
      (reads_next "WAL byte truncated" (2 : UInt8)).bind ((reads_uvarint h).bind_pure WalFrame.commit)
    exact hread.iff

section Log

variable {cipher} {log : List (Bytes × WalFrame)} {r : Replay}

/-- **The frames return the payloads appended to them.** -/
theorem replayFrames_log (hsized : ∀ entry ∈ log, entry.2.Sized cipher) {fuel ordinal : Nat}
    (hfuel : (logBytes cipher ordinal log).length ≤ fuel) :
    replayFrames cipher fuel ordinal r (logBytes cipher ordinal log) = replaySegment r (log.map (·.2.payload)) := by
  induction log generalizing fuel ordinal r with
  | nil => cases fuel <;> rfl
  | cons entry log ih =>
    rw [forall_mem_cons] at hsized
    rw [logBytes, length_append, entryBytes_length] at hfuel
    obtain ⟨fuel, rfl⟩ : ∃ k, fuel = k + 1 := ⟨fuel - 1, by omega⟩
    rw [logBytes, replayFrames_entry hsized.1, map_cons, replaySegment, if_neg hsized.1.payload]
    refine congrArg _ (funext fun frame => ?_)
    exact ih hsized.2 (by omega)

/-- **A cut log** replays the frames that are whole. -/
theorem replayFrames_cut (hsized : ∀ entry ∈ log, entry.2.Sized cipher) (hfits : ∀ entry ∈ log, entry.2.Fits)
    (hshallow : ∀ entry ∈ log, entry.2.Shallow) {fuel ordinal n : Nat}
    (hfuel : ((logBytes cipher ordinal log).take n).length ≤ fuel) :
    replayFrames cipher fuel ordinal r ((logBytes cipher ordinal log).take n) =
      .ok ((framesWithin cipher ordinal log n).foldl Replay.add r).finish := by
  induction log generalizing fuel ordinal n r with
  | nil =>
    rw [logBytes, take_nil]
    cases fuel <;> rfl
  | cons entry log ih =>
    rw [forall_mem_cons] at hsized hfits hshallow
    rw [framesWithin]
    rw [logBytes, take_append] at hfuel ⊢
    split
    next hle =>
      rw [take_of_length_le hle] at hfuel ⊢
      rw [length_append] at hfuel
      have hpos : 0 < (entryBytes cipher ordinal entry).length := by rw [entryBytes_length]; omega
      obtain ⟨fuel, rfl⟩ : ∃ k, fuel = k + 1 := ⟨fuel - 1, by omega⟩
      have hread : WalFrame.read.decode entry.2.payload = .ok entry.2 :=
        ((readsIff_frame hfits.1).reads hshallow.1).decode
      rw [replayFrames_entry hsized.1, hread]
      exact ih hsized.2 hfits.2 hshallow.2 (by omega)
    next hgt =>
      have hnone : n - (entryBytes cipher ordinal entry).length = 0 := by omega
      rw [hnone, take_zero, append_nil]
      exact replayFrames_torn hsized.1 (by omega)

/-- A log that replays at all holds nothing that is too deep. -/
theorem shallow_of_replaySegment (hfits : ∀ entry ∈ log, entry.2.Fits) {r' : Replay}
    (hsized : ∀ entry ∈ log, entry.2.Sized cipher) (h : replaySegment r (log.map (·.2.payload)) = .ok r') :
    ∀ entry ∈ log, entry.2.Shallow := by
  induction log generalizing r with
  | nil => exact nofun
  | cons entry log ih =>
    rw [forall_mem_cons] at hsized hfits
    rw [map_cons, replaySegment, if_neg hsized.1.payload] at h
    obtain ⟨frame, hframe, h⟩ := bind_eq_ok.mp h
    have hentry := (readsIff_frame hfits.1).decode_eq_ok.mp ⟨frame, hframe⟩
    exact forall_mem_cons.mpr ⟨hentry, ih hfits.2 hsized.2 h⟩

end Log

/-! ## Commit markers -/

/-- **What replay keeps of a sequence of frames**: what it had, and if a marker follows, what
was pending and the records that a marker covers. -/
theorem records_foldl_add (frames : List WalFrame) (r : Replay) : (frames.foldl Replay.add r).records =
      r.records ++ if frames.any WalFrame.isCommit then r.pending ++ committedRecords frames else [] := by
  induction frames generalizing r with
  | nil => simp
  | cons frame frames ih =>
    rw [foldl_cons, ih, committedRecords, any_cons]
    cases frame with
    | record rec | commit seq =>
      cases hany : frames.any WalFrame.isCommit <;> simp [Replay.add, WalFrame.isCommit, WalFrame.record?]

section

variable {frames : List WalFrame} (h : frames.any WalFrame.isCommit = false)
include h

theorem committedRecords_eq_nil : committedRecords frames = [] := by
  cases frames with
  | nil => rfl
  | cons frame frames =>
    rw [any_cons, Bool.or_eq_false_iff] at h
    rw [committedRecords, h.2]
    rfl

/-- Frames without a marker leave nothing. -/
theorem finish_foldl_add (r : Replay) : (frames.foldl Replay.add r).finish = r.finish := by
  induction frames generalizing r with
  | nil => rfl
  | cons frame frames ih =>
    rw [any_cons, Bool.or_eq_false_iff] at h
    rw [foldl_cons, ih h.2]
    cases frame with
    | record rec => rfl
    | commit seq => cases h.1

end

section Durable

variable (log : List (Bytes × WalFrame)) (ordinal n : Nat)

theorem durableEnd_eq_zero :
    durableEnd cipher ordinal log n = 0 ↔ (framesWithin cipher ordinal log n).any WalFrame.isCommit = false := by
  induction log generalizing ordinal n with
  | nil => exact iff_of_true rfl rfl
  | cons entry log ih =>
    have hpos : 0 < (entryBytes cipher ordinal entry).length := by rw [entryBytes_length]; omega
    rw [durableEnd, framesWithin]
    simp only
    split
    next =>
      rw [any_cons, Bool.or_eq_false_iff, ← ih]
      split
      next hsome =>
        refine iff_of_false (by omega) fun h => ?_
        rcases hsome with hcommit | hrest
        · rw [h.1] at hcommit
          cases hcommit
        · exact hrest h.2
      next hnone =>
        rw [not_or, not_not, Bool.not_eq_true] at hnone
        exact iff_of_true rfl hnone
    next => exact iff_of_true rfl rfl

/-- What lies past the last whole marker is of no matter. -/
theorem finish_durableEnd (r : Replay) :
    ((framesWithin cipher ordinal log (durableEnd cipher ordinal log n)).foldl Replay.add r).finish =
      ((framesWithin cipher ordinal log n).foldl Replay.add r).finish := by
  induction log generalizing ordinal n r with
  | nil => rfl
  | cons entry log ih =>
    by_cases hzero : durableEnd cipher ordinal (entry :: log) n = 0
    · rw [finish_foldl_add ((durableEnd_eq_zero cipher _ _ _).mp hzero), hzero]
      rfl
    · rw [durableEnd] at hzero ⊢
      rw [framesWithin, framesWithin]
      simp only at hzero ⊢
      split at hzero
      next hle =>
        split at hzero
        next hsome =>
          rw [if_pos hle, if_pos hle, if_pos hsome, if_pos (Nat.le_add_right ..), Nat.add_sub_cancel_left]
          exact ih (ordinal + 1) _ (r.add entry.2)
        next => exact absurd rfl hzero
      next => exact absurd rfl hzero

end Durable

/-! ## The sink and its log -/

theorem logBytes_append (log log' : List (Bytes × WalFrame)) (ordinal : Nat) : logBytes cipher ordinal (log ++ log') =
      logBytes cipher ordinal log ++ logBytes cipher (ordinal + log.length) log' := by
  induction log generalizing ordinal with
  | nil => rfl
  | cons entry log ih =>
    rw [cons_append, logBytes, logBytes, ih, append_assoc, length_cons, Nat.add_right_comm,
      Nat.add_assoc]

namespace WalSink

/-- The sink holds a log: the frames up to the last marker, and the records after it. -/
structure Holds (sink : WalSink) (log : List (Bytes × WalFrame) × List (Bytes × WalFrame)) : Prop where
  bytes : sink.bytes = magicOf sink.cipher ++ logBytes sink.cipher 0 (log.1 ++ log.2)
  curLen : sink.curLen = sink.bytes.length
  curFrames : sink.curFrames = (log.1 ++ log.2).length
  committedLen : sink.committedLen = 8 + (logBytes sink.cipher 0 log.1).length
  committedFrames : sink.committedFrames = log.1.length

variable {sink : WalSink} {log : List (Bytes × WalFrame) × List (Bytes × WalFrame)}

/-- A frame goes to the end. -/
theorem Holds.writePayload (h : sink.Holds log) (nonce : Bytes) (frame : WalFrame) :
    (sink.writePayload nonce frame.payload).Holds (log.1, log.2 ++ [(nonce, frame)]) where
  bytes := by
    have hlog : logBytes sink.cipher 0 (log.1 ++ (log.2 ++ [(nonce, frame)])) =
        logBytes sink.cipher 0 (log.1 ++ log.2) ++ entryBytes sink.cipher (log.1 ++ log.2).length (nonce, frame) := by
      rw [← append_assoc, logBytes_append, Nat.zero_add]
      exact congrArg _ (append_nil _)
    show sink.bytes ++ frameBytes _ = magicOf sink.cipher ++ logBytes sink.cipher 0 _
    rw [hlog, h.bytes, h.curFrames, append_assoc]
    rfl
  curLen := by
    show sink.curLen + _ = (sink.bytes ++ frameBytes _).length
    rw [h.curLen, length_append, frameBytes_length]
  curFrames := by
    show sink.curFrames + 1 = (log.1 ++ (log.2 ++ [(nonce, frame)])).length
    rw [h.curFrames]
    simp only [length_append, length_cons, length_nil]
    omega
  committedLen := h.committedLen
  committedFrames := h.committedFrames

theorem Holds.writeCommitFrame (h : sink.Holds log) (nonce : Bytes) (seq : Nat) :
    (sink.writeCommitFrame nonce seq).Holds (log.1 ++ log.2 ++ [(nonce, .commit seq)], []) := by
  have hwrite := h.writePayload nonce (.commit seq)
  have happend : log.1 ++ (log.2 ++ [(nonce, .commit seq)]) = log.1 ++ log.2 ++ [(nonce, .commit seq)] :=
    (append_assoc ..).symm
  have hbytes := hwrite.bytes
  have hframes := hwrite.curFrames
  simp only [happend] at hbytes hframes
  refine ⟨by rw [append_nil]; exact hbytes, hwrite.curLen, by rw [append_nil]; exact hframes, ?_, hframes⟩
  show (sink.writePayload nonce (commitPayload seq)).curLen = _
  rw [show commitPayload seq = (WalFrame.commit seq).payload from rfl, hwrite.curLen, hbytes, length_append,
    magicOf_length]
  rfl

theorem Holds.writeRecords (h : sink.Holds log) (recs : List (Bytes × WalRecord)) :
    (recs.foldl WalSink.writeRecordFrame sink).Holds (log.1, log.2 ++ recs.map fun rec => (rec.1, .record rec.2)) := by
  induction recs generalizing sink log with
  | nil => rwa [map_nil, append_nil]
  | cons rec recs ih =>
    have hrest := ih (h.writePayload rec.1 (.record rec.2))
    rw [append_assoc] at hrest
    exact hrest

/-- The floor of a batch is the end of the last marker. -/
theorem Holds.truncate (h : sink.Holds log) :
    (sink.truncateTo sink.committedLen sink.committedFrames).Holds (log.1, []) where
  bytes := by
    show sink.bytes.take sink.committedLen = magicOf sink.cipher ++ logBytes sink.cipher 0 (log.1 ++ [])
    rw [h.bytes, h.committedLen, logBytes_append, ← append_assoc, append_nil]
    exact take_left' (by rw [length_append, magicOf_length])
  curLen := by
    show sink.committedLen = (sink.bytes.take sink.committedLen).length
    rw [length_take, h.bytes, h.committedLen, logBytes_append, length_append, length_append,
      magicOf_length]
    omega
  curFrames := by rw [append_nil]; exact h.committedFrames
  committedLen := h.committedLen
  committedFrames := h.committedFrames

/-- **A call keeps the log.** -/
theorem Holds.call (h : sink.Holds log) (c : WalCall) : (sink.call c).Holds (callLog log c) := by
  cases c with
  | append rec => exact h.writePayload rec.1 (.record rec.2)
  | commit nonce seq => exact h.writeCommitFrame nonce seq
  | appendBatch recs nonce seq =>
    have hfloor : (if sink.curLen ≠ sink.committedLen then
        sink.truncateTo sink.committedLen sink.committedFrames else sink).Holds (log.1, []) := by
      split
      next => exact h.truncate
      next heq =>
        -- nothing was appended since the last marker, so nothing is pending
        rw [h.curLen, h.bytes, h.committedLen, length_append, magicOf_length, logBytes_append, length_append] at heq
        have hnil : log.2 = [] := by
          cases hpending : log.2 with
          | nil => rfl
          | cons entry rest =>
            rw [hpending, logBytes, length_append, entryBytes_length] at heq
            omega
        have hlog : log = (log.1, []) := by rw [← hnil]
        exact hlog ▸ h
    exact (hfloor.writeRecords recs).writeCommitFrame nonce seq

variable (calls : List WalCall)

/-- **Every sequence of calls** leaves its log in the segment. -/
theorem holds_after : (after cipher calls).Holds (logAfter calls) :=
  foldl_rel ⟨(append_nil _).symm, (magicOf_length cipher).symm, rfl, rfl, rfl⟩ fun c _ _ _ h => h.call c

theorem after_cipher : (after cipher calls).cipher = cipher := by
  refine foldlRecOn (motive := fun s : WalSink => s.cipher = cipher) calls call rfl fun sink h c _ => ?_
  cases c with
  | append rec => exact h
  | commit nonce seq => exact h
  | appendBatch recs nonce seq =>
    refine foldlRecOn (motive := fun s : WalSink => s.cipher = cipher) recs writeRecordFrame ?_ fun _ h _ _ => h
    split <;> exact h

end WalSink

/-! ## Cut segments -/

/-- Behind the magic of its own kind the frames are read. -/
theorem replayBytes_magic (r : Replay) (frames : Bytes) :
    replayBytes cipher r (magicOf cipher ++ frames) = replayFrames cipher frames.length 0 r frames := by
  cases cipher with
  | none => rfl
  | some c => rfl

/-- The frames in the segment after a sequence of calls. -/
def framesAfter : List (Bytes × WalFrame) := (logAfter calls).1 ++ (logAfter calls).2

/-- **Prefix durability.** However the segment is cut past its magic, replay gives the records
that a marker within the kept bytes covers, and the same from the bytes up to that marker. The
second part stands for the length that `replay_bytes` does not report: nothing past the marker
matters. -/
def PrefixDurable : Prop :=
  ∀ n, walMagic.length ≤ n → n ≤ (WalSink.after cipher calls).bytes.length →
    ∃ r, replayBytes cipher {} ((WalSink.after cipher calls).bytes.take n) = .ok r ∧
      r.records = committedRecords (framesWithin cipher 0 (framesAfter calls) (n - walMagic.length)) ∧
      replayBytes cipher {} ((WalSink.after cipher calls).bytes.take
        (walMagic.length + durableEnd cipher 0 (framesAfter calls) (n - walMagic.length))) = .ok r

/-- The calls up to the first whose commit marker ends past the limit. A call that writes no
marker, an `append`, goes with the calls before it. -/
def callsWithin (limit : Nat) : WalSink → List WalCall → List WalCall
  | _, [] => []
  | sink, c :: calls =>
    if (sink.call c).committedLen ≤ limit then c :: callsWithin limit (sink.call c) calls else []

/-- What replay keeps of a log. -/
def replayed (log : List (Bytes × WalFrame)) : Replay := ((log.map Prod.snd).foldl Replay.add {}).finish

section Cut

variable {cipher} {calls : List WalCall}

/-- What a segment is cut to. -/
theorem take_after (cipher : Option FrameCipher) (calls : List WalCall) (n : Nat) :
    (WalSink.after cipher calls).bytes.take (walMagic.length + n) =
      magicOf cipher ++ (logBytes cipher 0 (framesAfter calls)).take n := by
  have hbytes := (WalSink.holds_after cipher calls).bytes
  have hlength : walMagic.length = (magicOf cipher).length := (magicOf_length none).trans (magicOf_length _).symm
  rw [WalSink.after_cipher] at hbytes
  rw [hbytes, hlength, take_length_add_append]
  rfl

/-- **The bytes refine the payloads**: replay of a whole segment is replay of what was appended
to it. So what is shown about a log of payloads holds of its bytes, under a key or not. -/
theorem replayBytes_after (hsized : ∀ entry ∈ framesAfter calls, entry.2.Sized cipher) (r : Replay) :
    replayBytes cipher r (WalSink.after cipher calls).bytes =
      replaySegment r ((framesAfter calls).map (·.2.payload)) := by
  have hbytes := (WalSink.holds_after cipher calls).bytes
  rw [WalSink.after_cipher] at hbytes
  rw [hbytes, replayBytes_magic]
  exact replayFrames_log hsized le_rfl

theorem framesWithin_initial (log : List (Bytes × WalFrame)) (ordinal n : Nat) :
    framesWithin cipher ordinal log n <+: log.map Prod.snd := by
  induction log generalizing ordinal n with
  | nil => exact prefix_rfl
  | cons entry log ih =>
    rw [framesWithin]
    split
    next => exact (prefix_cons_inj entry.2).mpr (ih _ _)
    next => exact nil_prefix

/-- The frames before the cut are whole. -/
theorem framesWithin_append {log rest : List (Bytes × WalFrame)} {ordinal n : Nat}
    (h : (logBytes cipher ordinal log).length ≤ n) : framesWithin cipher ordinal (log ++ rest) n =
      log.map Prod.snd ++ framesWithin cipher (ordinal + log.length) rest (n - (logBytes cipher ordinal log).length) := by
  induction log generalizing ordinal n with
  | nil => rfl
  | cons entry log ih =>
    rw [logBytes, length_append] at h
    rw [cons_append, framesWithin, if_pos (by omega), ih (by omega), logBytes, length_append, Nat.sub_sub, length_cons,
      Nat.add_right_comm, Nat.add_assoc]
    rfl

/-- From the frame that the cut goes through on, nothing is left. -/
theorem framesWithin_torn {log rest : List (Bytes × WalFrame)} {entry : Bytes × WalFrame} {ordinal n : Nat}
    (h : n < (logBytes cipher ordinal (log ++ [entry])).length) :
    framesWithin cipher ordinal (log ++ entry :: rest) n = framesWithin cipher ordinal log n := by
  induction log generalizing ordinal n with
  | nil =>
    rw [nil_append, logBytes, logBytes, append_nil] at h
    exact if_neg (by omega)
  | cons first log ih =>
    rw [cons_append, logBytes, length_append] at h
    rw [cons_append, framesWithin, framesWithin]
    split
    next => rw [ih (by omega)]
    next => rfl

/-- The frames behind the last marker hold none. -/
theorem pending_logAfter (calls : List WalCall) : ∀ entry ∈ (logAfter calls).2, entry.2.isCommit = false := by
  refine foldlRecOn (motive := fun log => ∀ entry ∈ log.2, entry.2.isCommit = false) calls callLog ?_ ?_
  · exact forall_mem_nil _
  intro log hlog c _
  cases c with
  | append rec => exact forall_mem_append.mpr ⟨hlog, forall_mem_singleton.mpr rfl⟩
  | commit | appendBatch => exact forall_mem_nil _

/-- A call leaves the committed frames alone, or adds frames and one marker to them. -/
theorem callLog_committed {log : List (Bytes × WalFrame) × List (Bytes × WalFrame)}
    (hlog : ∀ entry ∈ log.2, entry.2.isCommit = false) (c : WalCall) : (callLog log c).1 = log.1 ∨
      ∃ batch marker, (callLog log c).1 = log.1 ++ batch ++ [marker] ∧ ∀ entry ∈ batch, entry.2.isCommit = false := by
  cases c with
  | append rec => exact .inl rfl
  | commit nonce seq => exact .inr ⟨log.2, _, rfl, hlog⟩
  | appendBatch recs nonce seq =>
    refine .inr ⟨_, _, rfl, fun entry hentry => ?_⟩
    obtain ⟨rec, -, rfl⟩ := mem_map.mp hentry
    rfl

/-- No call takes back a committed frame. -/
theorem committed_stays (log : List (Bytes × WalFrame) × List (Bytes × WalFrame)) (calls : List WalCall) :
    log.1 <+: (calls.foldl callLog log).1 := by
  refine foldlRecOn (motive := fun later => log.1 <+: later.1) calls callLog prefix_rfl ?_
  intro later hlater c _
  cases c with
  | append rec => exact hlater
  | commit | appendBatch => exact hlater.trans ((prefix_append ..).trans (prefix_append ..))

/-- Behind frames that lie before the cut, frames without a marker add nothing to what is
replayed. -/
theorem finish_within {log batch : List (Bytes × WalFrame)} {n : Nat} (h : (logBytes cipher 0 log).length ≤ n)
    (hbatch : ∀ entry ∈ batch, entry.2.isCommit = false) :
    ((framesWithin cipher 0 (log ++ batch) n).foldl Replay.add {}).finish = replayed log := by
  have hnone : ∀ m ordinal, (framesWithin cipher ordinal batch m).any WalFrame.isCommit = false := by
    intro m ordinal
    rw [any_eq_false]
    intro frame hframe
    obtain ⟨entry, hentry, rfl⟩ := mem_map.mp ((framesWithin_initial batch ordinal m).subset hframe)
    rw [hbatch entry hentry]
    exact Bool.false_ne_true
  rw [framesWithin_append h, foldl_append, finish_foldl_add (hnone _ _)]
  rfl

theorem replayed_append {log batch : List (Bytes × WalFrame)} (hbatch : ∀ entry ∈ batch, entry.2.isCommit = false) :
    replayed (log ++ batch) = replayed log := by
  have hnone : (batch.map Prod.snd).any WalFrame.isCommit = false := by
    rw [any_map, any_eq_false]
    exact fun entry hentry => Bool.eq_false_iff.mp (hbatch entry hentry)
  rw [replayed, map_append, foldl_append, finish_foldl_add hnone]
  rfl

theorem committedLen_after (cipher : Option FrameCipher) (calls : List WalCall) :
    (WalSink.after cipher calls).committedLen = walMagic.length + (logBytes cipher 0 (logAfter calls).1).length := by
  have h := (WalSink.holds_after cipher calls).committedLen
  rwa [WalSink.after_cipher] at h

/-- **What a cut keeps**, with the calls split into those that lie before it and the others. -/
theorem finish_callsWithin {n : Nat} (first rest : List WalCall)
    (hfirst : (WalSink.after cipher first).committedLen ≤ walMagic.length + n) :
    ((framesWithin cipher 0 (framesAfter (first ++ rest)) n).foldl Replay.add {}).finish =
      replayed (framesAfter (first ++ callsWithin (walMagic.length + n) (WalSink.after cipher first) rest)) := by
  induction rest generalizing first with
  | nil =>
    rw [committedLen_after] at hfirst
    rw [callsWithin, append_nil, framesAfter, replayed_append (pending_logAfter first)]
    exact finish_within (by omega) (pending_logAfter first)
  | cons c rest ih =>
    have hcall : (WalSink.after cipher first).call c = WalSink.after cipher (first ++ [c]) := by
      rw [WalSink.after, WalSink.after, foldl_concat]
    rw [callsWithin, hcall]
    split
    next hle =>
      have hrest := ih (first ++ [c]) hle
      rwa [append_assoc, append_assoc] at hrest
    next hgt =>
      -- the marker of this call ends past the cut, so the call left the committed frames as they were before it
      rw [committedLen_after] at hfirst hgt
      have hlog : logAfter (first ++ [c]) = callLog (logAfter first) c := foldl_concat ..
      obtain ⟨later, hlater⟩ : (logAfter (first ++ [c])).1 <+: framesAfter (first ++ c :: rest) := by
        have hstays := committed_stays (logAfter (first ++ [c])) rest
        rw [logAfter, ← foldl_append, append_assoc] at hstays
        exact hstays.trans (prefix_append ..)
      rw [hlog] at hgt hlater
      rcases callLog_committed (pending_logAfter first) c with hsame | ⟨batch, marker, hbatch, hnone⟩
      · rw [hsame] at hgt
        exact absurd hfirst hgt
      · rw [hbatch] at hgt hlater
        rw [← hlater, append_assoc, singleton_append, framesWithin_torn (by omega), append_nil, framesAfter,
          replayed_append (pending_logAfter first)]
        exact finish_within (by omega) hnone

section

variable (hfits : ∀ entry ∈ framesAfter calls, entry.2.Fits)
include hfits

variable (hsized : ∀ entry ∈ framesAfter calls, entry.2.Sized cipher)
include hsized

theorem prefixDurable_of_shallow
    (hshallow : ∀ entry ∈ framesAfter calls, entry.2.Shallow) : PrefixDurable cipher calls := by
  have hcut : ∀ n, replayBytes cipher {} ((WalSink.after cipher calls).bytes.take (walMagic.length + n)) =
      .ok ((framesWithin cipher 0 (framesAfter calls) n).foldl Replay.add {}).finish := by
    intro n
    rw [take_after, replayBytes_magic]
    exact replayFrames_cut hsized hfits hshallow le_rfl
  intro n hmagic _
  obtain ⟨n, rfl⟩ := Nat.exists_eq_add_of_le hmagic
  rw [Nat.add_sub_cancel_left]
  refine ⟨_, hcut n, ?_, ?_⟩
  · show (foldl Replay.add {} _).records = _
    rw [records_foldl_add]
    cases hany : (framesWithin cipher 0 (framesAfter calls) n).any WalFrame.isCommit with
    | true => rfl
    | false => exact (committedRecords_eq_nil hany).symm
  · rw [hcut, finish_durableEnd]

/-- **A crash is as if the sink had stopped after a call**: wherever a segment is cut past its
magic, replay gives what the calls left whose markers end before the cut. A batch is lost as a
whole or kept as a whole, and what was committed before the cut is kept. -/
theorem crash_after_call (hshallow : ∀ entry ∈ framesAfter calls, entry.2.Shallow) (n : Nat) :
    replayBytes cipher {} ((WalSink.after cipher calls).bytes.take (walMagic.length + n)) =
      .ok (replayed (framesAfter (callsWithin (walMagic.length + n) (.create cipher) calls))) := by
  have hmagic : (WalSink.after cipher []).committedLen ≤ walMagic.length + n := Nat.le_add_right ..
  rw [take_after, replayBytes_magic, replayFrames_cut hsized hfits hshallow le_rfl]
  exact congrArg _ (finish_callsWithin [] calls hmagic)

theorem shallow_of_prefixDurable (h : PrefixDurable cipher calls) : ∀ entry ∈ framesAfter calls, entry.2.Shallow := by
  have hmagic : walMagic.length ≤ (WalSink.after cipher calls).bytes.length := by
    rw [(WalSink.holds_after cipher calls).bytes, length_append, magicOf_length]
    exact Nat.le_add_right ..
  obtain ⟨r, hreplay, -⟩ := h _ hmagic le_rfl
  rw [take_length, replayBytes_after hsized] at hreplay
  exact shallow_of_replaySegment hfits hsized hreplay

end

/-- **A segment is durable by its prefixes exactly if its records are no deeper than they can be
read**, with frames of 32 bits. A record in the segment counts even if no marker covers it yet,
because replay decodes it before it waits. -/
theorem prefixDurable_iff (hfits : ∀ entry ∈ framesAfter calls, entry.2.Fits)
    (hsized : ∀ entry ∈ framesAfter calls, entry.2.Sized cipher) :
    PrefixDurable cipher calls ↔ ∀ entry ∈ framesAfter calls, entry.2.Shallow :=
  ⟨shallow_of_prefixDurable hfits hsized, prefixDurable_of_shallow hfits hsized⟩

end Cut

namespace WalFrames

def upsert (v : Value) : WalRecord :=
  { seq := 1, op := .node ⟨"Person", "name", .str "a"⟩ (.upsert [("p", v)]) }

/-- One record of a batch, one appended without a marker. -/
def batchAndTail : List WalCall :=
  [.appendBatch [([], upsert (.int 1))] [] 1, .append ([], upsert (.int 2))]

theorem prefixDurable_batchAndTail : PrefixDurable none batchAndTail :=
  (prefixDurable_iff (by decide +kernel) (by decide +kernel)).mpr (by decide +kernel)

theorem crash_after_call_batch :
    replayBytes none {} ((WalSink.after none batchAndTail).bytes.take (walMagic.length + 40)) =
      .ok (replayed (framesAfter (callsWithin (walMagic.length + 40) (.create none) batchAndTail))) :=
  crash_after_call (by decide +kernel) (by decide +kernel) (by decide +kernel) 40

/-- A value one level deeper than `read_value` follows. -/
def tooDeep : Value := Nat.repeat (fun v => .list [v]) maxValueDepth .null

/-- **A record that is appended and committed, and cannot be replayed.** -/
theorem committed_too_deep :
    ¬ ∀ (cipher : Option FrameCipher) (calls : List WalCall), (∀ entry ∈ framesAfter calls, entry.2.Fits) →
      (∀ entry ∈ framesAfter calls, entry.2.Sized cipher) → PrefixDurable cipher calls := by
  intro h
  have hfits : ∀ entry ∈ framesAfter [.appendBatch [([], upsert tooDeep)] [] 1], entry.2.Fits := by
    decide +kernel
  have hsized : ∀ entry ∈ framesAfter [.appendBatch [([], upsert tooDeep)] [] 1], entry.2.Sized none := by
    decide +kernel
  have hshallow := shallow_of_prefixDurable hfits hsized (h none _ hfits hsized)
  exact absurd hshallow (by decide +kernel)

end WalFrames

end Slater
