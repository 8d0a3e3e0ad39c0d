import Slater.Lib.Fallible

/-!
# Prefix readers

A decoder takes its fields off the front of an input, one after another, and may refuse. `Reader` is
that monad, over any alphabet and any type of refusals, with the three moves decoders are made of:
take the next symbol, take a chunk, read a counted sequence.

`ReadsIff r bs a p` says what a reader does on every input that starts with `bs`: if `p` holds it
reads `a` and leaves the rest, and otherwise it refuses. It composes along `bind` and along counted
sequences, so the fate of a whole record is read off its fields: it is read exactly when every field
is. A format without a limit of its own has `p` true throughout, which is `Reads`. `Tracks` compares two
readers of one format on inputs that need not be the image of anything.
-/

namespace Slater

open List

/-- A reader of `α` off the front of a list of symbols, which may refuse with an `ε`. -/
abbrev Reader (σ ε α : Type) := StateT (List σ) (Except ε) α

namespace Reader

variable {σ ε α β : Type} {r : Reader σ ε α} {bs : List σ} {a : α} {write : α → List σ} {xs : List α} (short : ε)

/-- The next symbol; `short` refuses the end of the input. -/
def next : Reader σ ε σ := fun input =>
  match input with
  | [] => .error short
  | x :: rest => .ok (x, rest)

/-- The next `n` symbols. -/
def chunk (n : Nat) : Reader σ ε (List σ) := fun input =>
  if n ≤ input.length then .ok (input.take n, input.drop n) else .error short

/-- The loop `for _ in 0..n`, collecting what is read. -/
def times (r : Reader σ ε α) : Nat → Reader σ ε (List α)
  | 0 => pure []
  | n + 1 => do
    let a ← r
    let as ← times r n
    pure (a :: as)

/-- Run a reader on a whole input; what it leaves unread is ignored. -/
def decode (r : Reader σ ε α) (input : List σ) : Except ε α := (r.run input).map Prod.fst

/-- Decode the records of a file, each whole. -/
def decodeAll (r : Reader σ ε α) : List (List σ) → Except ε (List α)
  | [] => .ok []
  | input :: inputs => do
    let a ← r.decode input
    let as ← decodeAll r inputs
    pure (a :: as)

/-! ## Reading what was written -/

/-- On every input that starts with `bs` the reader reads `a` and leaves the rest. -/
def Reads (r : Reader σ ε α) (bs : List σ) (a : α) : Prop := ∀ rest, r.run (bs ++ rest) = .ok (a, rest)

/-- The reader refuses every input that starts with `bs`. -/
def Refuses (r : Reader σ ε α) (bs : List σ) : Prop := ∀ rest, ∃ e, r.run (bs ++ rest) = .error e

/-- On every input that starts with `bs` the reader reads `a` if `p` holds, and refuses
otherwise. The two halves exclude a reader that goes on past a bad field or that reads another
value. -/
structure ReadsIff (r : Reader σ ε α) (bs : List σ) (a : α) (p : Prop) : Prop where
  reads : p → Reads r bs a
  refuses : ¬p → Refuses r bs

theorem reads_pure (a : α) : Reads (pure a : Reader σ ε α) [] a := fun _ => rfl

theorem reads_next (x : σ) : Reads (next short) [x] x := fun _ => rfl

theorem reads_chunk {n : Nat} (h : bs.length = n) : Reads (chunk short n) bs bs := by
  intro rest
  show (if n ≤ (bs ++ rest).length then Except.ok _ else Except.error short) = _
  rw [if_pos (by rw [length_append]; omega), take_left' h, drop_left' h]

theorem run_bind (r : Reader σ ε α) (f : α → Reader σ ε β) (input : List σ) :
    (r >>= f).run input = (r.run input).bind fun x => (f x.1).run x.2 := rfl

theorem Reads.bind {f : α → Reader σ ε β} {bs' : List σ} {b : β}
    (hr : Reads r bs a) (hf : Reads (f a) bs' b) : Reads (r >>= f) (bs ++ bs') b := by
  intro rest
  rw [run_bind, append_assoc, hr]
  exact hf rest

/-- The last reader of a record writes nothing of its own. -/
theorem Reads.bind_pure (hr : Reads r bs a) (f : α → β) : Reads (r >>= fun a => pure (f a)) bs (f a) := by
  have h := hr.bind (f := fun a => pure (f a)) (reads_pure (f a))
  rwa [append_nil] at h

theorem Reads.decode (h : Reads r bs a) : r.decode bs = .ok a := by
  have hrun := h []
  rw [append_nil] at hrun
  rw [Reader.decode, hrun]
  rfl

/-! ## Records and counted sequences -/

theorem Reads.iff (h : Reads r bs a) : ReadsIff r bs a True :=
  ⟨fun _ => h, absurd trivial⟩

namespace ReadsIff

variable {r : Reader σ ε α} {bs bs' : List σ} {a : α} {p q : Prop} {f : α → Reader σ ε β} {b : β}

theorem congr (h : ReadsIff r bs a p) (hpq : p ↔ q) : ReadsIff r bs a q :=
  ⟨fun hq => h.reads (hpq.mpr hq), fun hq => h.refuses (mt hpq.mp hq)⟩

theorem bind (hr : ReadsIff r bs a p) (hf : ReadsIff (f a) bs' b q) : ReadsIff (r >>= f) (bs ++ bs') b (p ∧ q) := by
  refine ⟨fun h => (hr.reads h.1).bind (hf.reads h.2), fun h rest => ?_⟩
  rw [run_bind, append_assoc]
  by_cases hp : p
  · obtain ⟨e, he⟩ := hf.refuses (fun hq => h ⟨hp, hq⟩) rest
    exact ⟨e, by rw [hr.reads hp]; exact he⟩
  · obtain ⟨e, he⟩ := hr.refuses hp (bs' ++ rest)
    exact ⟨e, by rw [he]; rfl⟩

/-- A field without a limit of its own in front of a record. -/
theorem bind_reads (hr : Reads r bs a) (hf : ReadsIff (f a) bs' b q) : ReadsIff (r >>= f) (bs ++ bs') b q :=
  (hr.iff.bind hf).congr (iff_of_eq (true_and q))

/-- The fields after the last one with a limit. -/
theorem then_reads (hr : ReadsIff r bs a p) (hf : Reads (f a) bs' b) : ReadsIff (r >>= f) (bs ++ bs') b p :=
  (hr.bind hf.iff).congr (iff_of_eq (and_true p))

/-- The last field of a record. -/
theorem bind_pure (hr : ReadsIff r bs a p) (f : α → β) : ReadsIff (r >>= fun a => pure (f a)) bs (f a) p := by
  have h := hr.then_reads (f := fun a => pure (f a)) (reads_pure (f a))
  rwa [append_nil] at h

/-- A whole input decodes exactly when its reader's condition holds. -/
theorem decode_eq_ok (h : ReadsIff r bs a p) : (∃ b, r.decode bs = .ok b) ↔ p := by
  constructor
  · rintro ⟨b, hb⟩
    refine Classical.byContradiction fun hp => ?_
    obtain ⟨e, he⟩ := h.refuses hp []
    rw [append_nil] at he
    rw [Reader.decode, he] at hb
    cases hb
  · intro hp
    exact ⟨a, (h.reads hp).decode⟩

/-- A counted sequence is read exactly when every item is. -/
theorem times {write : α → List σ} {ok : α → Prop} {xs : List α} (h : ∀ x ∈ xs, ReadsIff r (write x) x (ok x)) :
    ReadsIff (Reader.times r xs.length) (xs.flatMap write) xs (∀ x ∈ xs, ok x) := by
  induction xs with
  | nil => exact (reads_pure _).iff.congr (by simp)
  | cons x xs ih =>
    have hx := h x (mem_cons_self ..)
    have hxs := ih fun y hy => h y (mem_cons_of_mem x hy)
    exact (hx.bind (hxs.bind_pure (x :: ·))).congr forall_mem_cons.symm

end ReadsIff

theorem Reads.times (h : ∀ x ∈ xs, Reads r (write x) x) : Reads (Reader.times r xs.length) (xs.flatMap write) xs :=
  (ReadsIff.times fun x hx => (h x hx).iff).reads fun _ _ => trivial

/-- A file of records decodes exactly when every record does. -/
theorem decodeAll_eq_ok {ok : α → Prop} {ys : List α} (h : ∀ x ∈ xs, ReadsIff r (write x) x (ok x)) :
    decodeAll r (xs.map write) = .ok ys ↔ ys = xs ∧ ∀ x ∈ xs, ok x := by
  induction xs generalizing ys with
  | nil => exact ⟨fun h => ⟨(Except.ok.inj h).symm, nofun⟩, fun h => by rw [h.1]; rfl⟩
  | cons x xs ih =>
    have hx := h x (mem_cons_self ..)
    have hxs := fun as => @ih as fun y hy => h y (mem_cons_of_mem x hy)
    rw [forall_mem_cons]
    constructor
    · intro hall
      obtain ⟨a, ha, htail⟩ := bind_eq_ok.mp hall
      obtain ⟨as, has, hcons⟩ := bind_eq_ok.mp htail
      have hok := hx.decode_eq_ok.mp ⟨a, ha⟩
      rw [(hx.reads hok).decode] at ha
      obtain ⟨rfl, hrest⟩ := (hxs as).mp has
      cases ha
      exact ⟨(Except.ok.inj hcons).symm, hok, hrest⟩
    · rintro ⟨rfl, hok, hrest⟩
      rw [map_cons, decodeAll, (hx.reads hok).decode, (hxs xs).mpr ⟨rfl, hrest⟩]
      rfl

/-! ## Splitting a successful read -/

theorem next_eq_ok {short : ε} {x : σ} {input rest : List σ} (h : (next short).run input = .ok (x, rest)) :
    input = x :: rest := by
  cases input with
  | nil => cases h
  | cons y ys => cases h; rfl

theorem chunk_eq_ok {short : ε} {n : Nat} {input rest : List σ} (h : (chunk short n).run input = .ok (bs, rest)) :
    n ≤ input.length ∧ bs = input.take n ∧ rest = input.drop n := by
  change (if n ≤ input.length then Except.ok _ else Except.error _) = _ at h
  split at h
  · cases h
    exact ⟨‹_›, rfl, rfl⟩
  · cases h

section Tracks

variable {α' β' : Type} {bound : Nat} {f : α → α'} {g : β → β'} {s : Reader σ ε α'}
  {k : α → Reader σ ε β} {l : α' → Reader σ ε β'}

/-- On every input shorter than `bound` that `r` reads, `s` reads the same symbols and returns
the image of what `r` does. -/
def Tracks (bound : Nat) (f : α → α') (r : Reader σ ε α) (s : Reader σ ε α') : Prop :=
  ∀ input a rest, input.length < bound → r.run input = .ok (a, rest) →
    s.run input = .ok (f a, rest) ∧ rest.length ≤ input.length

theorem tracks_pure (f : α → α') (a : α) : Tracks bound f (pure a : Reader σ ε α) (pure (f a)) := by
  rintro input a rest - ⟨⟩
  exact ⟨rfl, Nat.le_refl _⟩

theorem tracks_next (short : ε) : Tracks bound id (next short : Reader σ ε σ) (next short) := by
  intro input x rest _ h
  obtain rfl := next_eq_ok h
  exact ⟨h, Nat.le_succ _⟩

theorem Tracks.bind (hr : Tracks bound f r s) (hk : ∀ a, Tracks bound g (k a) (l (f a))) :
    Tracks bound g (r >>= k) (s >>= l) := by
  intro input b rest hlen h
  obtain ⟨⟨a, mid⟩, ha, hb⟩ := bind_eq_ok.mp h
  obtain ⟨hs, hmid⟩ := hr input a mid hlen ha
  obtain ⟨hl, hrest⟩ := hk a mid b rest (by omega) hb
  refine ⟨?_, by omega⟩
  rw [run_bind, hs]
  exact hl

theorem Tracks.times (hr : Tracks bound f r s) (n : Nat) : Tracks bound (map f) (times r n) (times s n) := by
  induction n with
  | zero => exact tracks_pure _ []
  | succ n ih => exact hr.bind fun a => ih.bind fun as => tracks_pure (map f) (a :: as)

end Tracks

/-- A rendering that can be split off the front of any input. -/
def PrefixFree (write : α → List σ) : Prop :=
  ∀ ⦃a a' : α⦄ ⦃rest rest' : List σ⦄, write a ++ rest = write a' ++ rest' → a = a' ∧ rest = rest'

theorem PrefixFree.flatMap (h : PrefixFree write) : ∀ {xs xs' : List α} {rest rest' : List σ},
    xs.length = xs'.length → xs.flatMap write ++ rest = xs'.flatMap write ++ rest' → xs = xs' ∧ rest = rest'
  | [], [], _, _, _, heq => ⟨rfl, heq⟩
  | x :: xs, x' :: xs', _, _, hlen, heq => by
    rw [flatMap_cons, flatMap_cons, append_assoc, append_assoc] at heq
    obtain ⟨hx, heq⟩ := h heq
    obtain ⟨hxs, hrest⟩ := h.flatMap (Nat.succ.inj hlen) heq
    exact ⟨by rw [hx, hxs], hrest⟩

end Reader

end Slater
