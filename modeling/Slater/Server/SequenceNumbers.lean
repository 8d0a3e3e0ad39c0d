import Slater.Server.Recovery
import Slater.Server.WritePath

/-!
# Sequence numbers

Every record of the log carries the number that the writer gave it. The writer counts in memory, and
`open_with_cache` and `retire` set the count to the last number the log has a marker for.

No number should be given twice. That is so as long as whatever sets the count from the log still finds the last
number in it (`numbers_increase`). A flush deletes the log, and the count survives it in memory only. A batch that
was not appended has used up its numbers (`Slater.Server.WritePath`), so numbers may be left out.

Whether the log has the last number can be read off the operations (`countLogged_of_keepsMarker`). A batch puts a
marker into the open segment; compactions, restarts and freezes leave the log as it is; a retirement deletes the
segments of its freeze, so it wants a write since. Flushes and failed batches lose the marker. A flush of an empty
memtable does nothing and would not, which the operation alone does not show.
-/

namespace Slater

open List DeltaWriter

/-! ## Numbers along a run -/

/-- An operation in the life of a graph's writer, under whatever core is served at the time. A
retirement is handed what some freeze returned. A call of `write` that fails changes nothing and
is not an event. -/
inductive WriterEvent where
  | act (core : WriterCore) (action : WriterAction)
  | failed (ops : List ResolvedOp)
  | freeze (choices : Choices)
  | retire (frozen : DeltaWriter.Frozen) (core : WriterCore)

namespace DeltaWriter

variable (w : DeltaWriter)

/-- The writer after a batch that was not appended. -/
def failedBatch (ops : List ResolvedOp) : DeltaWriter := { w with seq := w.seq + ops.length }

/-- The failing call of the write path leaves just that. -/
theorem writer_failedBatch {w : SinkWriter} {io : AppendIo} {ops : List ResolvedOp} (hne : ops ≠ [])
    (h : io.fault.isSome) : (w.writeBatch io ops).1.writer = w.writer.failedBatch ops := by
  rw [w.writeBatch_failed hne h]
  rfl

/-- The writer after an operation that returns, or a batch that fails. -/
def event : WriterEvent → Option DeltaWriter
  | .act core action => core.step w action
  | .failed ops => some (w.failedBatch ops)
  | .freeze choices => some (w.freeze choices).1
  | .retire frozen core =>
    (w.retire frozen core.uuid core.nodeCount core.edgeCount core.generation.resolveOp).toOption

/-- The numbers of the records that an operation acknowledges. -/
def stamped : WriterEvent → List Nat
  | .act _ (.write ops) => (numbered w.seq ops).map WalRecord.seq
  | _ => []

/-- The numbers of the records acknowledged in a run, in order. -/
def numbers : DeltaWriter → List WriterEvent → List Nat
  | _, [] => []
  | w, e :: es =>
    match w.event e with
    | none => []
    | some w' => w.stamped e ++ numbers w' es

/-- The number of the last marker in a log that can be replayed. -/
def lastLogged (dir : WriterDir) : Option Nat := (replayDir dir.wal).toOption.map (·.lastSeq)

/-- Where the count is set from the log, the log still has the last number. -/
def CountLogged : WriterEvent → Prop
  | .act _ (.reopen ..) => ∀ n ∈ lastLogged w.dir, w.seq ≤ n
  | .retire frozen _ => ∀ n ∈ lastLogged (w.dir.performAll (retireSteps frozen)), w.seq ≤ n
  | _ => True

instance (w : DeltaWriter) (e : WriterEvent) : Decidable (w.CountLogged e) := by
  unfold CountLogged
  split <;> infer_instance

/-- What chance can do in an operation (`Faithful`). -/
def FaithfulEvent : WriterEvent → Prop
  | .act _ action => w.Faithful action
  | _ => True

instance (w : DeltaWriter) (e : WriterEvent) : Decidable (w.FaithfulEvent e) := by
  unfold FaithfulEvent
  split <;> infer_instance

theorem numbered_seqs (seq : Nat) (ops : List ResolvedOp) :
    (numbered seq ops).map WalRecord.seq = range' (seq + 1) ops.length := by
  induction ops generalizing seq with
  | nil => rfl
  | cons op ops ih => rw [numbered, map_cons, ih, length_cons, range'_succ]

variable {w w' : DeltaWriter} {e : WriterEvent}

/-- **An operation numbers on from the count**, and the count is past what it numbered. -/
theorem event_counts (h : w.event e = some w') (hlogged : w.CountLogged e) :
    ∃ n, w.stamped e = range' (w.seq + 1) n ∧ w.seq + n ≤ w'.seq := by
  cases e with
  | act core action =>
    cases action with
    | write ops =>
      obtain ⟨-, ⟨⟩⟩ := Option.ite_none_right_eq_some.mp h
      refine ⟨ops.length, numbered_seqs w.seq ops, ?_⟩
      cases ops <;> exact le_rfl
    | flush choices =>
      obtain ⟨⟨_, changed⟩, hflush, rfl⟩ := Option.map_eq_some_iff.mp h
      rcases flushToL0_cases (toOption_eq_some.mp hflush) with rfl | ⟨level, -, rfl⟩ <;>
        exact ⟨0, rfl, le_rfl⟩
    | compact sizes choices =>
      obtain ⟨⟨_, changed⟩, hcompact, rfl⟩ := Option.map_eq_some_iff.mp h
      rcases compactL0_cases (toOption_eq_some.mp hcompact) with rfl | ⟨_, _, _, _, _, _, _, -, -, -, -, rfl⟩ <;>
        exact ⟨0, rfl, le_rfl⟩
    | reopen offHeap cache load =>
      obtain ⟨levels, replay, -, hreplay, rfl⟩ := openWriter_eq_ok.mp (toOption_eq_some.mp h)
      exact ⟨0, rfl, hlogged _ (by rw [lastLogged, hreplay]; rfl)⟩
  | failed ops =>
    cases h
    exact ⟨0, rfl, Nat.le_add_right ..⟩
  | freeze choices =>
    cases h
    exact ⟨0, rfl, le_rfl⟩
  | retire frozen core =>
    obtain ⟨replay, hreplay, hw'⟩ := bind_eq_ok.mp (toOption_eq_some.mp h)
    cases hw'
    exact ⟨0, rfl, hlogged _ (by rw [lastLogged, hreplay]; rfl)⟩

/-- **The numbers of a run are strictly increasing**, and past the count it starts with, if the
log has the last number wherever the count is set from it. The count is set from the log by a
restart and by a retirement; only there is anything asked. -/
theorem numbers_increase (w : DeltaWriter) (events : List WriterEvent) (h : Along event CountLogged w events) :
    (numbers w events).Pairwise (· < ·) ∧ ∀ n ∈ numbers w events, w.seq < n := by
  induction events generalizing w with
  | nil => exact ⟨.nil, nofun⟩
  | cons e events ih =>
    rw [numbers]
    cases hevent : w.event e with
    | none => exact ⟨.nil, nofun⟩
    | some w' =>
      obtain ⟨k, hstamped, hcount⟩ := event_counts hevent h.1
      obtain ⟨hrest, hpast⟩ := ih w' (h.2 w' hevent)
      have hstamps : ∀ n ∈ w.stamped e, w.seq < n ∧ n ≤ w.seq + k := by
        intro n hn
        rw [hstamped, mem_range'_1] at hn
        omega
      refine ⟨pairwise_append.mpr ⟨?_, hrest, ?_⟩, ?_⟩
      · rw [hstamped]
        exact pairwise_lt_range'
      · intro a ha b hb
        have := hpast b hb
        have := hstamps a ha
        omega
      · intro n hn
        rcases mem_append.mp hn with hn | hn
        · exact (hstamps n hn).1
        · have := hpast n hn
          omega

end DeltaWriter

/-! ## The marker of the last number -/

/-- Replay of the segment comes to a marker with this number. -/
def WalSegment.Reaches (segment : WalSegment) (seq : Nat) : Prop :=
  ∃ before payload after, segment = before ++ payload :: after ∧ (∀ p ∈ before ++ [payload], p.length < 2 ^ 32) ∧
    WalFrame.read.decode payload = .ok (.commit seq)

theorem WalSegment.Reaches.cons {segment : WalSegment} {seq : Nat} {payload : Bytes} (h : segment.Reaches seq)
    (hshort : payload.length < 2 ^ 32) : WalSegment.Reaches (payload :: segment) seq := by
  obtain ⟨before, marker, after, rfl, hlens, hmarker⟩ := h
  exact ⟨payload :: before, marker, after, rfl, forall_mem_cons.mpr ⟨hshort, hlens⟩, hmarker⟩

/-- The log has a marker with this number, unless no number was given. -/
def Marked (wal : Map Nat WalSegment) (seq : Nat) : Prop :=
  seq = 0 ∨ ∃ n segment, wal.lookup n = some segment ∧ segment.Reaches seq

/-- What the last number of a replay is: no less than before, no less than any marker reached,
and one of these. -/
structure Replay.Raised (r r' : Replay) (markers : Nat → Prop) : Prop where
  mono : r.lastSeq ≤ r'.lastSeq
  above : ∀ seq, markers seq → seq ≤ r'.lastSeq
  attained : r'.lastSeq = r.lastSeq ∨ markers r'.lastSeq

theorem replaySegment_raised {segment : WalSegment} {r r' : Replay} (h : replaySegment r segment = .ok r') :
    r.Raised r' segment.Reaches := by
  induction segment generalizing r with
  | nil =>
    cases h
    refine ⟨le_rfl, ?_, .inl rfl⟩
    rintro seq ⟨before, payload, after, hnil, -⟩
    cases before <;> cases hnil
  | cons payload rest ih =>
    rw [replaySegment] at h
    split at h
    next hlong =>
      cases h
      refine ⟨le_rfl, ?_, .inl rfl⟩
      rintro seq ⟨before, marker, after, hsplit, hlens, -⟩
      have hfirst : payload ∈ before ++ [marker] := by
        cases before <;> cases hsplit <;> exact .head _
      exact absurd (hlens payload hfirst) (Nat.not_lt.mpr hlong)
    next hshort =>
      obtain ⟨frame, hframe, h⟩ := bind_eq_ok.mp h
      obtain ⟨hmono, habove, hattained⟩ := ih h
      have hadd : r.lastSeq ≤ (r.add frame).lastSeq := by
        cases frame with
        | record rec => exact le_rfl
        | commit seq => exact le_max_left ..
      refine ⟨hadd.trans hmono, ?_, ?_⟩
      · rintro seq ⟨before, marker, after, hsplit, hlens, hmarker⟩
        cases before with
        | nil =>
          cases hsplit
          cases hframe.symm.trans hmarker
          exact (le_max_right ..).trans hmono
        | cons _ before =>
          cases hsplit
          exact habove seq ⟨before, marker, after, rfl, (forall_mem_cons.mp hlens).2, hmarker⟩
      · rcases hattained with hsame | hrest
        · cases frame with
          | record rec => exact .inl hsame
          | commit seq =>
            rcases max_choice r.lastSeq seq with hmax | hmax
            · exact .inl (hsame.trans hmax)
            · refine .inr ⟨[], payload, rest, rfl, forall_mem_singleton.mpr (Nat.not_le.mp hshort), ?_⟩
              rw [hframe, hsame.trans hmax]
        · exact .inr (hrest.cons (Nat.not_le.mp hshort))

theorem replaySegments_raised {segments : List (Nat × WalSegment)} {r r' : Replay}
    (h : segments.foldlM (fun r segment => replaySegment r segment.2) r = .ok r') :
    r.Raised r' fun seq => ∃ s ∈ segments, s.2.Reaches seq := by
  induction segments generalizing r with
  | nil =>
    cases h
    exact ⟨le_rfl, fun seq ⟨s, hs, _⟩ => absurd hs not_mem_nil, .inl rfl⟩
  | cons s segments ih =>
    obtain ⟨r₁, hfirst, hrest⟩ := bind_eq_ok.mp h
    have hs := replaySegment_raised hfirst
    obtain ⟨hmono, habove, hattained⟩ := ih hrest
    refine ⟨hs.mono.trans hmono, ?_, ?_⟩
    · rintro seq ⟨s', hs', hreach⟩
      rcases mem_cons.mp hs' with rfl | hs'
      · exact (hs.above seq hreach).trans hmono
      · exact habove seq ⟨s', hs', hreach⟩
    · rcases hattained with hsame | ⟨s', hs', hreach⟩
      · rcases hs.attained with hsame' | hreach
        · exact .inl (hsame.trans hsame')
        · exact .inr ⟨s, .head _, hsame ▸ hreach⟩
      · exact .inr ⟨s', .tail _ hs', hreach⟩

theorem replayDir_raised {wal : Map Nat WalSegment} {r : Replay} (h : replayDir wal = .ok r) :
    Marked wal r.lastSeq ∧ ∀ seq, Marked wal seq → seq ≤ r.lastSeq := by
  obtain ⟨-, -, h⟩ := bind_eq_ok.mp h
  have hraised := replaySegments_raised h
  constructor
  · rcases hraised.attained with hzero | ⟨⟨n, segment⟩, hs, hreach⟩
    · exact .inl hzero
    · exact .inr ⟨n, segment, Map.mem_pairs.mp hs, hreach⟩
  · rintro seq (rfl | ⟨n, segment, hsegment, hreach⟩)
    · exact Nat.zero_le _
    · exact hraised.above seq ⟨(n, segment), Map.mem_pairs.mpr hsegment, hreach⟩

/-- A fresh segment does not hide a marker. -/
theorem Marked.createWal {dir : WriterDir} {seq : Nat} (h : Marked dir.wal seq) :
    Marked (dir.perform (.createWal (nextNumber dir.wal))).wal seq := by
  rcases h with rfl | ⟨n, segment, hsegment, hreach⟩
  · exact .inl rfl
  · refine .inr ⟨n, segment, ?_, hreach⟩
    have hne : n ≠ nextNumber dir.wal := by
      rintro rfl
      rw [lookup_nextNumber] at hsegment
      cases hsegment
    exact (Finmap.lookup_insert_of_ne _ hne).trans hsegment

namespace DeltaWriter

variable {w w' : DeltaWriter} {e : WriterEvent}

/-- The operation leaves the marker of the last number in the log, as far as the operation
shows. A batch is appended behind frames that replay reads through; a retirement spares the open
segment, which has the marker. -/
def KeepsMarker (w : DeltaWriter) : WriterEvent → Prop
  | .act _ (.write ops) => IsU64 (w.seq + ops.length) ∧
      ∀ p ∈ (w.dir.wal.lookup w.sink).getD [] ++ (numbered w.seq ops).map recordPayload, p.length < 2 ^ 32
  | .act _ (.flush _) => False
  | .failed ops => ops = []
  | .retire frozen _ => w.seq = 0 ∨ w.sink ∉ frozen.consumed ∧
      ∃ segment, w.dir.wal.lookup w.sink = some segment ∧ segment.Reaches w.seq
  | _ => True

/-- A batch has its marker in the open segment. -/
theorem marked_writeBatch {ops : List ResolvedOp} (hm : Marked w.dir.wal w.seq) (hseq : IsU64 (w.seq + ops.length))
    (hshort : ∀ p ∈ (w.dir.wal.lookup w.sink).getD [] ++ (numbered w.seq ops).map recordPayload, p.length < 2 ^ 32) :
    Marked (w.writeBatch ops).dir.wal (w.writeBatch ops).seq := by
  cases ops with
  | nil => exact hm
  | cons op ops =>
    refine .inr ⟨w.sink, _, Finmap.lookup_insert _, _, _, [], rfl, ?_, ?_⟩
    · rw [forall_mem_append]
      exact ⟨hshort, forall_mem_singleton.mpr (commitPayload_length hseq)⟩
    · exact decode_commitPayload hseq

/-- A retirement that spares the open segment spares its marker. -/
theorem marked_retireSteps {frozen : Frozen} {core : WriterCore} (hkeeps : w.KeepsMarker (.retire frozen core)) :
    Marked (w.dir.performAll (retireSteps frozen)).wal w.seq := by
  rcases hkeeps with hzero | ⟨hspared, segment, hsegment, hreach⟩
  · exact .inl hzero
  · refine .inr ⟨w.sink, segment, ?_, hreach⟩
    rw [retireSteps, WriterDir.performAll_append, WriterDir.performAll_removeWal, WriterDir.performAll_removeL0]
    exact (Map.lookup_eraseAll ..).trans ((if_neg hspared).trans hsegment)

/-- Where the count is set from a log that has the marker, it finds it. -/
theorem countLogged_of_marked (hm : Marked w.dir.wal w.seq) (hkeeps : w.KeepsMarker e) : w.CountLogged e := by
  have hlogged : ∀ dir : WriterDir, Marked dir.wal w.seq → ∀ n ∈ lastLogged dir, w.seq ≤ n := by
    intro dir hmarked n hn
    obtain ⟨r, hr, rfl⟩ := Option.map_eq_some_iff.mp hn
    exact (replayDir_raised (toOption_eq_some.mp hr)).2 w.seq hmarked
  cases e with
  | act core action =>
    cases action with
    | write ops | flush choices | compact sizes choices => trivial
    | reopen offHeap cache load => exact hlogged w.dir hm
  | failed ops | freeze choices => trivial
  | retire frozen core => exact hlogged _ (marked_retireSteps hkeeps)

/-- **The log keeps the last marker** through an operation, or has a new one after it. -/
theorem marked_event (h : w.event e = some w') (hm : Marked w.dir.wal w.seq) (hkeeps : w.KeepsMarker e) :
    Marked w'.dir.wal w'.seq := by
  cases e with
  | act core action =>
    cases action with
    | write ops =>
      obtain ⟨-, ⟨⟩⟩ := Option.ite_none_right_eq_some.mp h
      exact marked_writeBatch hm hkeeps.1 hkeeps.2
    | flush choices => exact hkeeps.elim
    | compact sizes choices =>
      obtain ⟨⟨_, changed⟩, hcompact, rfl⟩ := Option.map_eq_some_iff.mp h
      rcases compactL0_cases (toOption_eq_some.mp hcompact) with rfl | ⟨_, _, _, _, _, _, _, -, -, -, -, rfl⟩
      · exact hm
      · rw [compacted_wal]
        exact hm
    | reopen offHeap cache load =>
      obtain ⟨levels, replay, -, hreplay, rfl⟩ := openWriter_eq_ok.mp (toOption_eq_some.mp h)
      exact (replayDir_raised hreplay).1.createWal
  | failed ops =>
    cases h
    cases hkeeps
    exact hm
  | freeze choices =>
    cases h
    exact hm.createWal
  | retire frozen core =>
    obtain ⟨replay, hreplay, hw'⟩ := bind_eq_ok.mp (toOption_eq_some.mp h)
    cases hw'
    exact (replayDir_raised hreplay).1

/-- **The log has the last number wherever it is asked for**, in a run of operations that leave
the marker. This turns the condition on states into one on operations, at the price of asking a
little more. -/
theorem countLogged_of_keepsMarker (events : List WriterEvent) (hm : Marked w.dir.wal w.seq)
    (h : Along event KeepsMarker w events) : Along event CountLogged w events := by
  induction events generalizing w with
  | nil => trivial
  | cons e events ih =>
    exact ⟨countLogged_of_marked hm h.1, fun w' hw' => ih (marked_event hw' hm h.1) (h.2 w' hw')⟩

end DeltaWriter

namespace SequenceNumbers

open Recovery

/-- A node is written. -/
def born (name : String) : WriterAction := .write [.node (person name) (.upsert []) none]

/-- Two writes with a restart in between. -/
def restarted : List WriterEvent :=
  [.act noNodes (born "a"), .act noNodes (.reopen false false fun _ => []), .act noNodes (born "b")]

/-- The same with a flush before the restart. -/
def flushedAway : List WriterEvent :=
  [.act noNodes (born "a"), .act noNodes (.flush { listing := [0] }),
    .act noNodes (.reopen false false fun _ => []), .act noNodes (born "b")]

/-- A restart alone keeps the count. -/
theorem numbers_restarted : ∃ start, noNodes.openWriter {} false false (fun _ => []) = .ok start ∧
    (numbers start restarted).Pairwise (· < ·) := by
  have hlogged : Along event DeltaWriter.CountLogged fresh restarted := by decide +kernel
  exact ⟨fresh, openWriter_noNodes, (numbers_increase fresh restarted hlogged).1⟩

/-- **After a flush and a restart the first number is given again.** -/
theorem number_given_twice : ¬ ∀ (core : WriterCore) (start : DeltaWriter) (events : List WriterEvent),
      core.openWriter {} false false (fun _ => []) = .ok start → Along event DeltaWriter.FaithfulEvent start events →
      (numbers start events).Pairwise (· < ·) := by
  intro h
  have hfaithful : Along event DeltaWriter.FaithfulEvent fresh flushedAway := by decide +kernel
  have hincrease := h noNodes fresh flushedAway openWriter_noNodes hfaithful
  exact absurd hincrease (by decide)

end SequenceNumbers

end Slater
