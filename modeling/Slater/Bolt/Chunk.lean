import Slater.Wire

/-!
# Chunks

`slater/src/bolt/chunk.rs` frames a message as chunks, each a length of two bytes and that many bytes, up to a chunk
of length zero. `decode_message_capped` reads a message from the front of a buffer. `ChunkReassembler` reads it while
it arrives: it keeps the body so far and its place in the buffer, so that no chunk is read twice. The framer of
`slater/src/server.rs` calls it on the buffer as it grows.

The place is where the loop from the front would be (`Framed.Resumes`), whatever bytes follow, and every event keeps
that. So a call answers as `decode_message_capped` does, and of a stream of messages it hands on the bodies in order
(`Framed.run_delivers`).

**What it does not establish.** What a body means is not looked at, and a stream that ends in the middle of a
message is left with the bytes it has.
-/

namespace Slater

/-- The number whose bytes are given, most significant first. -/
def fromBigEndian (bs : Bytes) : Nat := bs.foldl (fun n b => n * 256 + b.toNat) 0

/-- The low `n` bytes of a number, most significant first. -/
def bigEndian (n v : Nat) : Bytes := (littleEndian n v).reverse

theorem fromBigEndian_bigEndian {n v : Nat} (h : v < 256 ^ n) : fromBigEndian (bigEndian n v) = v := by
  have hreverse : ∀ bs : Bytes, fromBigEndian bs.reverse = fromLittleEndian bs := by
    intro bs
    rw [fromBigEndian, List.foldl_reverse]
    induction bs with
    | nil => rfl
    | cons b bs ih => rw [List.foldr_cons, ih, fromLittleEndian, Nat.mul_comm, Nat.add_comm]
  rw [bigEndian, hreverse, fromLittleEndian_littleEndian h]

namespace Chunk

open List

/-! ## The loop and its callers -/

/-- `MAX_CHUNK`. -/
def maxChunk : Nat := 65535

/-- The pieces of `body.chunks(MAX_CHUNK)`. -/
def chunks (body : Bytes) : List Bytes :=
  if body = [] then [] else body.take maxChunk :: chunks (body.drop maxChunk)
termination_by body.length
decreasing_by
  rw [length_drop]
  exact Nat.sub_lt (length_pos_iff.mpr ‹_›) (by decide)

/-- A chunk: its length in two bytes, then its bytes. -/
def chunk (piece : Bytes) : Bytes := bigEndian 2 piece.length ++ piece

/-- `encode_message`. -/
def encodeMessage (body : Bytes) : Bytes :=
  (chunks body).flatMap chunk ++ [0x00, 0x00]

/-- `ChunkReassembler`, with the counter of its tests. -/
structure ChunkReassembler where
  body : Bytes := []
  pos : Nat := 0
  copied : Nat := 0
  deriving DecidableEq

/-- Why the loop over the chunks of a buffer ends: more bytes are needed, the message is
complete, or it would exceed the limit. -/
inductive Stop where
  | waiting
  | complete
  | tooLarge
  deriving DecidableEq

/-- The loop of `decode_message_capped` and `feed`. -/
def chunkLoop (buf : Bytes) (maxBody : Nat) (r : ChunkReassembler) : Stop × ChunkReassembler :=
  if buf.length < r.pos + 2 then (.waiting, r)
  else
    let len := fromBigEndian ((buf.drop r.pos).take 2)
    if len = 0 then (.complete, r)
    else if buf.length < r.pos + 2 + len then (.waiting, r)
    else if maxBody < r.body.length + len then (.tooLarge, r)
    else chunkLoop buf maxBody
      { body := r.body ++ (buf.drop (r.pos + 2)).take len, pos := r.pos + 2 + len, copied := r.copied + len }
termination_by buf.length - r.pos
decreasing_by omega

/-- What a call answers: the body and the bytes it takes, terminator included. -/
def outcome (maxBody : Nat) : Stop × ChunkReassembler → Except String (Option (Bytes × Nat))
  | (.waiting, _) => .ok none
  | (.complete, r) => .ok (some (r.body, r.pos + 2))
  | (.tooLarge, _) =>
    .error ("Bolt message exceeds the " ++ toString maxBody ++ "-byte limit; closing connection")

/-- `decode_message_capped`. It starts at the front of the buffer each time, and so is the
meaning that the reassembler is measured against. -/
def decodeMessageCapped (buf : Bytes) (maxBody : Nat) : Except String (Option (Bytes × Nat)) :=
  outcome maxBody (chunkLoop buf maxBody {})

/-- `feed`: a completed message resets the reassembler. -/
def ChunkReassembler.feed (r : ChunkReassembler) (buf : Bytes) (maxBody : Nat) :
    Except String (Option (Bytes × Nat)) × ChunkReassembler :=
  let (stop, r) := chunkLoop buf maxBody r
  (outcome maxBody (stop, r), if stop = .complete then { copied := r.copied } else r)

/-- `Framed`: the receive buffer, the reassembler and the bodies handed on so far. The bodies
stand for what the server has been given; nothing is taken back from them. -/
structure Framed where
  buf : Bytes := []
  reassembler : ChunkReassembler := {}
  bodies : List Bytes := []
  deriving DecidableEq

/-- Bytes arrive, or the framer calls the reassembler. -/
inductive Event where
  | receive (piece : Bytes)
  | call

/-- The loop of `read_message`, one event at a time, without its bound on the buffer. -/
def Framed.step (maxBody : Nat) (f : Framed) : Event → Framed
  | .receive piece => { f with buf := f.buf ++ piece }
  | .call =>
    match f.reassembler.feed f.buf maxBody with
    | (.ok (some (body, consumed)), r) =>
      { buf := f.buf.drop consumed, reassembler := r, bodies := f.bodies ++ [body] }
    | (_, r) => { f with reassembler := r }

def Framed.run (maxBody : Nat) (events : List Event) : Framed := events.foldl (Framed.step maxBody) {}

/-- The bytes that arrive. -/
def received : List Event → Bytes
  | [] => []
  | .receive piece :: events => piece ++ received events
  | .call :: events => received events

/-! ## Resuming -/

variable {buf : Bytes} {maxBody : Nat} {r : ChunkReassembler}

theorem drop_take_append (more : Bytes) {pos n : Nat} (h : pos + n ≤ buf.length) :
    ((buf ++ more).drop pos).take n = (buf.drop pos).take n := by
  rw [drop_append_of_le_length (by omega), take_append_of_le_length (by rw [length_drop]; omega)]

/-- Where the loop stops it can be resumed once more bytes are there; unless it waits for them,
they change nothing. -/
theorem chunkLoop_resume (more : Bytes) :
    chunkLoop (buf ++ more) maxBody (chunkLoop buf maxBody r).2 = chunkLoop (buf ++ more) maxBody r ∧
      ((chunkLoop buf maxBody r).1 ≠ .waiting → (chunkLoop buf maxBody r).2.pos + 2 ≤ buf.length ∧
        chunkLoop (buf ++ more) maxBody r = chunkLoop buf maxBody r) := by
  have hlength : (buf ++ more).length = buf.length + more.length := length_append
  fun_induction chunkLoop buf maxBody r with
  | case1 r h => exact ⟨rfl, nofun⟩
  | case2 r h len hlen =>
    refine ⟨rfl, fun _ => ⟨Nat.le_of_not_lt h, ?_⟩⟩
    rw [chunkLoop, if_neg (by omega), drop_take_append more (by omega), if_pos hlen]
  | case3 => exact ⟨rfl, nofun⟩
  | case4 r h len hlen hfits hlarge =>
    refine ⟨rfl, fun _ => ⟨Nat.le_of_not_lt h, ?_⟩⟩
    rw [chunkLoop, if_neg (by omega), drop_take_append more (by omega), if_neg hlen, if_neg (by omega), if_pos hlarge]
  | case5 r h len hlen hfits hlarge ih =>
    rw [chunkLoop.eq_1 (buf ++ more) _ r, if_neg (by omega), drop_take_append more (by omega), if_neg hlen,
      if_neg (by omega), if_neg hlarge, drop_take_append more (by omega)]
    exact ih

theorem outcome_copied (copied : Nat) :
    outcome maxBody (chunkLoop buf maxBody { r with copied }) = outcome maxBody (chunkLoop buf maxBody r) := by
  fun_induction chunkLoop buf maxBody r generalizing copied with
  | case1 r h => rw [chunkLoop, if_pos h]; rfl
  | case2 r h len hlen => rw [chunkLoop, if_neg h, if_pos hlen]; rfl
  | case3 r h len hlen hfits => rw [chunkLoop, if_neg h, if_neg hlen, if_pos hfits]; rfl
  | case4 r h len hlen hfits hlarge => rw [chunkLoop, if_neg h, if_neg hlen, if_neg hfits, if_pos hlarge]; rfl
  | case5 r h len hlen hfits hlarge ih =>
    rw [chunkLoop, if_neg h, if_neg hlen, if_neg hfits, if_neg hlarge]
    exact ih _

/-! ## What is written is read back -/

theorem chunks_spec (body : Bytes) :
    (chunks body).flatten = body ∧ ∀ piece ∈ chunks body, piece ≠ [] ∧ piece.length ≤ maxChunk := by
  fun_induction chunks body with
  | case1 => exact ⟨rfl, nofun⟩
  | case2 body hbody ih =>
    rw [flatten_cons, ih.1, take_append_drop, forall_mem_cons]
    refine ⟨rfl, ⟨?_, length_take_le _ _⟩, ih.2⟩
    rw [ne_eq, take_eq_nil_iff, not_or]
    exact ⟨by decide, hbody⟩

theorem chunkLoop_chunks {pieces : List Bytes} (hpieces : ∀ piece ∈ pieces, piece ≠ [] ∧ piece.length ≤ maxChunk)
    {before body : Bytes} (hbody : body.length + pieces.flatten.length ≤ maxBody) (rest : Bytes) (copied : Nat) :
    chunkLoop (before ++ (pieces.flatMap chunk ++ 0x00 :: 0x00 :: rest)) maxBody ⟨body, before.length, copied⟩ =
      (.complete, ⟨body ++ pieces.flatten, before.length + (pieces.flatMap chunk).length,
        copied + pieces.flatten.length⟩) := by
  induction pieces generalizing before body copied with
  | nil =>
    have hlen : fromBigEndian (take 2 (0x00 :: 0x00 :: rest)) = 0 := rfl
    rw [chunkLoop, if_neg (by simp), flatMap_nil, nil_append, drop_left, hlen, flatten_nil, append_nil]
    rfl
  | cons piece pieces ih =>
    obtain ⟨⟨hpiece, hlength⟩, hpieces⟩ := forall_mem_cons.mp hpieces
    have hlen : fromBigEndian (bigEndian 2 piece.length) = piece.length :=
      fromBigEndian_bigEndian (Nat.lt_succ_of_le hlength)
    have hwidth : (bigEndian 2 piece.length).length = 2 := by rw [bigEndian, length_reverse, littleEndian_length]
    have hnonempty := length_pos_iff.mpr hpiece
    rw [flatten_cons, length_append] at hbody
    have hnext := @ih hpieces (before ++ chunk piece) (body ++ piece) (by rw [length_append]; omega)
      (copied + piece.length)
    rw [append_assoc, length_append, chunk, length_append, hwidth] at hnext
    rw [flatMap_cons, append_assoc, chunk, append_assoc, chunkLoop,
      if_neg (by simp only [length_append, hwidth]; omega), drop_left, take_left' hwidth]
    simp only [hlen]
    rw [if_neg (Nat.ne_of_gt hnonempty), if_neg (by simp only [length_append, hwidth]; omega), if_neg (by omega),
      ← drop_drop, drop_left, drop_left' hwidth, take_left, flatten_cons, ← append_assoc, length_append]
    simpa [hwidth, Nat.add_assoc] using hnext

theorem chunkLoop_encodeMessage {body : Bytes} (hbody : body.length ≤ maxBody) (rest : Bytes) (copied : Nat) :
    ∃ pos, pos + 2 = (encodeMessage body).length ∧
      chunkLoop (encodeMessage body ++ rest) maxBody { copied } = (.complete, ⟨body, pos, copied + body.length⟩) := by
  obtain ⟨hflatten, hpieces⟩ := chunks_spec body
  have h := @chunkLoop_chunks maxBody _ hpieces [] [] (by rwa [hflatten, length_nil, Nat.zero_add]) rest copied
  rw [hflatten, length_nil, Nat.zero_add] at h
  rw [encodeMessage, length_append, append_assoc]
  exact ⟨_, rfl, h⟩

/-! ## Runs -/

namespace Framed

variable {f : Framed} {copied : Nat}

/-- The reassembler is where the loop would be that starts again from the front. -/
def Resumes (maxBody : Nat) (f : Framed) (copied : Nat) : Prop :=
  ∀ more, chunkLoop (f.buf ++ more) maxBody { copied } = chunkLoop (f.buf ++ more) maxBody f.reassembler

theorem Resumes.receive (h : f.Resumes maxBody copied) (piece : Bytes) :
    (f.step maxBody (.receive piece)).Resumes maxBody copied := by
  intro more
  rw [step, append_assoc]
  exact h (piece ++ more)

/-- A call completes a message, or it leaves all but the reassembler alone. -/
theorem step_call (maxBody : Nat) (f : Framed) : ∃ stop r, chunkLoop f.buf maxBody f.reassembler = (stop, r) ∧
    (stop = .complete ∧ f.step maxBody .call = ⟨f.buf.drop (r.pos + 2), { copied := r.copied }, f.bodies ++ [r.body]⟩ ∨
      stop ≠ .complete ∧ f.step maxBody .call = { f with reassembler := r }) := by
  rw [step, ChunkReassembler.feed]
  obtain ⟨stop, r⟩ := chunkLoop f.buf maxBody f.reassembler
  refine ⟨stop, r, rfl, ?_⟩
  cases stop with
  | complete => exact .inl ⟨rfl, rfl⟩
  | waiting | tooLarge => exact .inr ⟨nofun, rfl⟩

theorem Resumes.wait (h : f.Resumes maxBody copied) {stop : Stop} {r : ChunkReassembler}
    (hloop : chunkLoop f.buf maxBody f.reassembler = (stop, r)) :
    Resumes maxBody { f with reassembler := r } copied := fun more => by
  have hresume := (@chunkLoop_resume f.buf maxBody f.reassembler more).1
  rw [hloop] at hresume
  exact (h more).trans hresume.symm

theorem resumes_run (maxBody : Nat) (events : List Event) : ∃ copied, (run maxBody events).Resumes maxBody copied := by
  refine foldlRecOn (motive := fun f => ∃ copied, Resumes maxBody f copied) events (step maxBody) ⟨0, fun _ => rfl⟩ ?_
  rintro f ⟨copied, h⟩ event -
  cases event with
  | receive piece => exact ⟨copied, h.receive piece⟩
  | call =>
    obtain ⟨stop, r, hloop, ⟨-, hstep⟩ | ⟨-, hstep⟩⟩ := step_call maxBody f
    · exact ⟨r.copied, hstep ▸ fun _ => rfl⟩
    · exact ⟨copied, hstep ▸ h.wait hloop⟩

/-- What is still to come of a well-formed stream: the framer holds the start of the messages of
`pending`, and `future` is the rest of their bytes. -/
def Awaits (maxBody : Nat) (pending : List Bytes) (future : Bytes) (f : Framed) : Prop :=
  f.buf ++ future = pending.flatMap encodeMessage ∧ f.Resumes maxBody (f.bodies.map length).sum

variable {pending : List Bytes} {future : Bytes}

/-- A call hands on the next body, or its bytes are not all there. -/
theorem Awaits.call (hcap : ∀ body ∈ pending, body.length ≤ maxBody) (h : Awaits maxBody pending future f) :
    (Awaits maxBody pending future (f.step maxBody .call) ∧ (f.step maxBody .call).bodies = f.bodies ∧
      (future = [] → pending = [])) ∨
    ∃ body later, pending = body :: later ∧ Awaits maxBody later future (f.step maxBody .call) ∧
      (f.step maxBody .call).bodies = f.bodies ++ [body] := by
  obtain ⟨hbytes, hresumes⟩ := h
  obtain ⟨stop, r, hloop, hstep⟩ := step_call maxBody f
  have hmore := (@chunkLoop_resume f.buf maxBody f.reassembler future).2
  rw [hloop] at hmore
  have hwait : stop = .waiting → Awaits maxBody pending future (f.step maxBody .call) ∧
      (f.step maxBody .call).bodies = f.bodies := by
    rintro rfl
    obtain ⟨hcomplete, -⟩ | ⟨-, hstep⟩ := hstep
    · cases hcomplete
    · rw [hstep]
      exact ⟨⟨hbytes, hresumes.wait hloop⟩, rfl⟩
  cases pending with
  | nil =>
    have hbuf := (append_eq_nil_iff.mp hbytes).1
    rw [hbuf, chunkLoop, length_nil, if_pos (Nat.zero_lt_succ _)] at hloop
    cases hloop
    exact .inl ⟨(hwait rfl).1, (hwait rfl).2, fun _ => rfl⟩
  | cons body later =>
    obtain ⟨pos, hpos, hfull⟩ := chunkLoop_encodeMessage (hcap body mem_cons_self) (later.flatMap encodeMessage)
      (f.bodies.map length).sum
    rw [← flatMap_cons, ← hbytes, hresumes future] at hfull
    by_cases hstop : stop = .waiting
    · refine .inl ⟨(hwait hstop).1, (hwait hstop).2, ?_⟩
      rintro rfl
      rw [append_nil, hloop, hstop] at hfull
      cases hfull
    · obtain ⟨hroom, hsame⟩ := hmore hstop
      cases hfull.symm.trans hsame
      obtain ⟨-, hstep⟩ | ⟨hcomplete, -⟩ := hstep
      · rw [hstep]
        refine .inr ⟨body, later, rfl, ⟨?_, ?_⟩, rfl⟩
        · rw [hpos, ← drop_append_of_le_length (hpos ▸ hroom), hbytes, flatMap_cons, drop_left]
        · rw [map_append, sum_append, map_singleton, sum_singleton]
          exact fun _ => rfl
      · exact absurd rfl hcomplete

theorem Awaits.events {events : List Event} (hcap : ∀ body ∈ pending, body.length ≤ maxBody)
    (h : Awaits maxBody pending (received events) f) :
    ∃ later, Awaits maxBody later [] (events.foldl (step maxBody) f) ∧
      (events.foldl (step maxBody) f).bodies ++ later = f.bodies ++ pending := by
  induction events generalizing f pending with
  | nil => exact ⟨pending, h, rfl⟩
  | cons event events ih =>
    cases event with
    | receive piece =>
      refine ih hcap ⟨?_, h.2.receive piece⟩
      rw [step, append_assoc]
      exact h.1
    | call =>
      obtain ⟨hsame, hbodies, -⟩ | ⟨body, later, rfl, hlater, hbodies⟩ := h.call hcap
      · rw [← hbodies]
        exact ih hcap hsame
      · obtain ⟨last, hlast, heq⟩ := ih (forall_mem_cons.mp hcap).2 hlater
        exact ⟨last, hlast, heq.trans (by rw [hbodies, append_assoc]; rfl)⟩

theorem Awaits.calls (hcap : ∀ body ∈ pending, body.length ≤ maxBody) (h : Awaits maxBody pending [] f) {calls : Nat}
    (hcalls : pending.length ≤ calls) : (replicate calls Event.call).foldl (step maxBody) f =
      ⟨[], { copied := ((f.bodies ++ pending).map length).sum }, f.bodies ++ pending⟩ := by
  induction calls generalizing f pending with
  | zero =>
    obtain rfl := length_eq_zero_iff.mp (Nat.le_zero.mp hcalls)
    obtain ⟨buf, r, bodies⟩ := f
    obtain ⟨hbytes, hresumes⟩ := h
    obtain rfl := (append_eq_nil_iff.mp hbytes).1
    -- where the empty message is complete is the front of the buffer
    have h := (@chunkLoop_chunks maxBody [] nofun [] [] (Nat.zero_le _) [] _).symm.trans (hresumes [0x00, 0x00])
    rw [chunkLoop] at h
    split at h
    · cases h
    next hpos =>
      have hpos : r.pos = 0 := by
        change ¬ 2 < r.pos + 2 at hpos
        omega
      rw [hpos] at h
      have hreset : r = { copied := (bodies.map length).sum } := (Prod.ext_iff.mp (h.trans (if_pos rfl))).2.symm
      rw [hreset, append_nil]
      rfl
  | succ calls ih =>
    obtain ⟨hsame, hbodies, hnone⟩ | ⟨body, later, rfl, hlater, hbodies⟩ := h.call hcap
    · obtain rfl := hnone rfl
      rw [replicate_succ, foldl_cons, ih hcap hsame (Nat.zero_le calls), hbodies]
    · rw [replicate_succ, foldl_cons, ih (forall_mem_cons.mp hcap).2 hlater (Nat.le_of_succ_le_succ hcalls), hbodies,
        append_assoc]
      rfl

end Framed

/-- **Reassembly does not depend on how the stream is split.** On any run every call answers as
`decode_message_capped` does on the whole buffer. A stream of messages within the limit, however
it arrives and whenever the framer calls, is handed on body by body, each byte of them copied
once. -/
theorem Framed.run_delivers (maxBody : Nat) :
    (∀ events, ((Framed.run maxBody events).reassembler.feed (Framed.run maxBody events).buf maxBody).1 =
      decodeMessageCapped (Framed.run maxBody events).buf maxBody) ∧
    ∀ bodies events calls, (∀ body ∈ bodies, body.length ≤ maxBody) → received events = bodies.flatMap encodeMessage →
      bodies.length ≤ (Framed.run maxBody events).bodies.length + calls →
      Framed.run maxBody (events ++ replicate calls .call) =
        { buf := [], reassembler := { copied := (bodies.map length).sum }, bodies } := by
  constructor
  · intro events
    obtain ⟨copied, hresumes⟩ := Framed.resumes_run maxBody events
    have h := hresumes []
    rw [append_nil] at h
    rw [decodeMessageCapped, ← outcome_copied copied]
    exact congrArg (outcome maxBody) h.symm
  · intro bodies events calls hcap hstream hcalls
    have hstart : Framed.Awaits maxBody bodies (received events) {} := ⟨hstream, fun more => rfl⟩
    obtain ⟨later, hlater, hbodies⟩ := hstart.events hcap
    have hbodies : (Framed.run maxBody events).bodies ++ later = bodies := hbodies
    rw [Framed.run, foldl_append, hlater.calls (fun body hbody => hcap body (hbodies ▸ mem_append_right _ hbody)) ?_]
    · exact congrArg (fun bodies => (⟨[], { copied := (bodies.map length).sum }, bodies⟩ : Framed)) hbodies
    · rw [← hbodies, length_append] at hcalls
      omega

theorem Framed.run_delivers_split :
    Framed.run 3 ([.receive [0, 1], .call, .receive [7, 0], .receive [0]] ++ replicate 1 .call) =
      { buf := [], reassembler := { copied := 1 }, bodies := [[7]] } :=
  (Framed.run_delivers 3).2 [[7]] [.receive [0, 1], .call, .receive [7, 0], .receive [0]] 1 (by decide)
    (by decide +kernel) (by decide +kernel)

end Chunk

end Slater
