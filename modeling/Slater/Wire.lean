import Slater.Lib.Reader
import Slater.Value

/-!
# The value encoding

`graph-format/src/wire.rs`: unsigned LEB128 integers and the tagged, self-delimiting image of a
property value. The image is what identities compare, and the key under which a snapshot merges
the edges of its levels contains it.

The readers refuse with the source's texts. `readsIff_value` is the law of the encoding: the image of
a value is read back exactly when the value nests at most as deep as the reader follows, whatever
comes after it. Numbers and lengths are `u64` in the source and `Nat` here, so the laws ask that they
are below `2 ^ 64` (`Value.Fits`).

The last two sections are about inputs that no writer made. `skip_value` leaves what `read_value` leaves
(`value_read_or_skipped`), and `read_uvarint` returns the number that was spelled unless it has a tenth
group of more than one bit (`uvarint_exact_iff`).

**What it does not establish.** The encoding is not canonical for inputs that no writer made: a number may be
spelled with empty groups at its end, and such inputs are read without complaint.
-/

namespace Slater

open List Value

variable {n fuel v : Nat} {rest rest' : Bytes}

/-- A byte string; lists carry the inductions. -/
abbrev Bytes := List UInt8

/-- The groups of `write_uvarint`, at most `fuel + 1` of them. -/
def uvarintGroups : Nat → Nat → Bytes
  | 0, v => [UInt8.ofNat v]
  | fuel + 1, v =>
    if v < 128 then [UInt8.ofNat v]
    else UInt8.ofNat (v % 128 + 128) :: uvarintGroups fuel (v / 128)

/-- `write_uvarint`. A number has at most as many groups as its own size. -/
def writeUvarint (v : Nat) : Bytes := uvarintGroups v v

/-- The low `n` bytes of `v`, least significant first. -/
def littleEndian : Nat → Nat → Bytes
  | 0, _ => []
  | n + 1, v => UInt8.ofNat (v % 256) :: littleEndian n (v / 256)

/-- `zigzag`: the sign moves to the lowest bit. -/
def zigzag (i : Int64) : Nat :=
  if 0 ≤ i.toInt then 2 * i.toInt.toNat else 2 * (-i.toInt).toNat - 1

/-- The UTF-8 image of a string. -/
def stringBytes (s : String) : Bytes := s.toByteArray.data.toList

mutual

/-- `write_value`. -/
def writeValue : Value → Bytes
  | .null => [0]
  | .bool b => [1, if b then 1 else 0]
  | .int i => 2 :: writeUvarint (zigzag i)
  | .float bits => 3 :: littleEndian 8 bits.toNat
  | .str s => 4 :: (writeUvarint (stringBytes s).length ++ stringBytes s)
  | .list items => 5 :: (writeUvarint items.length ++ writeValues items)
  | .vector xs => 6 :: (writeUvarint xs.length ++ xs.flatMap fun x => littleEndian 4 x.toNat)

/-- The items of a list, one after another. -/
def writeValues : List Value → Bytes
  | [] => []
  | v :: vs => writeValue v ++ writeValues vs

end

/-! ## Reading -/

/-- A decoder of bytes that refuses with a text. -/
abbrev Read := Reader UInt8 String

open Reader

/-- `for` loop of `read_uvarint`: `n` more groups may follow and the next one is shifted by
`shift`. The groups do not overlap, so that adding a group is the source's `|=`; the shift drops
what does not fit 64 bits. -/
def readGroups : Nat → Nat → Nat → Read Nat
  | 0, _, _ => throw "varint too long"
  | n + 1, shift, result => do
    let byte ← next "varint truncated"
    let result := result + byte.toNat % 128 * 2 ^ shift % 2 ^ 64
    if byte.toNat < 128 then pure result else readGroups n (shift + 7) result

/-- `read_uvarint`: ten groups reach the shift of 64 at which it gives up. -/
def readUvarint : Read Nat := readGroups 10 0 0

/-- The number whose bytes are given, least significant first. -/
def fromLittleEndian : Bytes → Nat
  | [] => 0
  | b :: bs => b.toNat + 256 * fromLittleEndian bs

/-- A number of `n` bytes, least significant first. -/
def readLittleEndian (short : String) (n : Nat) : Read Nat := do
  let bs ← chunk short n
  pure (fromLittleEndian bs)

/-- `unzigzag`. -/
def unzigzag (v : Nat) : Int64 :=
  if v % 2 = 0 then Int64.ofInt (v / 2 : Nat) else Int64.ofInt (-(v / 2 : Nat) - 1)

/-- The text with the given UTF-8 image. -/
def textOf (invalid : String) (bs : Bytes) : Read String :=
  match String.fromUTF8? ⟨bs.toArray⟩ with
  | some s => pure s
  | none => throw invalid

/-- The bits of an `f32`. -/
def readF32 : Read UInt32 := do
  let bits ← readLittleEndian "failed to fill whole buffer" 4
  pure (UInt32.ofNat bits)

/-- `MAX_VALUE_DEPTH`. -/
def maxValueDepth : Nat := 256

/-- `read_value_at`, for a value at the depth below which `levels` levels may still be
entered. -/
def readValueAt : Nat → Read Value
  | 0 => throw s!"property value nests deeper than the {maxValueDepth}-level limit"
  | levels + 1 => do
    let tag ← next "value truncated (no tag)"
    match tag with
    | 0 => pure .null
    | 1 => do
      let b ← next "bool truncated"
      pure (.bool (b != 0))
    | 2 => do
      let v ← readUvarint
      pure (.int (unzigzag v))
    | 3 => do
      let bits ← readLittleEndian "failed to fill whole buffer" 8
      pure (.float (UInt64.ofNat bits))
    | 4 => do
      let len ← readUvarint
      let bs ← chunk "string truncated" len
      let s ← textOf "invalid utf-8" bs
      pure (.str s)
    | 5 => do
      let n ← readUvarint
      let items ← times (readValueAt levels) n
      pure (.list items)
    | 6 => do
      let n ← readUvarint
      let xs ← times readF32 n
      pure (.vector xs)
    | other => throw s!"unknown value tag {other}"

/-- `read_value`. -/
def readValue : Read Value := readValueAt maxValueDepth

/-! ## Reading numbers back -/

/-- What the source's `u64` holds. -/
abbrev IsU64 (n : Nat) : Prop := n < 2 ^ 64

theorem uvarintGroups_of_lt (h : v < 128) : uvarintGroups fuel v = [UInt8.ofNat v] := by
  cases fuel <;> simp [uvarintGroups, h]

theorem uvarintGroups_of_ge (h : ¬ v < 128) (hf : v ≤ fuel) :
    ∃ f, v / 128 ≤ f ∧ uvarintGroups fuel v = UInt8.ofNat (v % 128 + 128) :: uvarintGroups f (v / 128) := by
  obtain ⟨f, rfl⟩ : ∃ f, fuel = f + 1 := ⟨fuel - 1, by omega⟩
  exact ⟨f, by omega, by simp [uvarintGroups, h]⟩

/-- The last group ends the number. -/
theorem reads_lastGroup {shift result : Nat} (hv : v < 128) (hfit : v * 2 ^ shift < 2 ^ 64) :
    Reads (readGroups (n + 1) shift result) (uvarintGroups fuel v) (result + v * 2 ^ shift) := by
  have hbyte : (UInt8.ofNat v).toNat = v := by simp; omega
  rw [uvarintGroups_of_lt hv, ← append_nil [UInt8.ofNat v]]
  refine Reads.bind (reads_next _ _) ?_
  simpa only [hbyte, if_pos hv, Nat.mod_eq_of_lt hv, Nat.mod_eq_of_lt hfit] using reads_pure _

theorem reads_groups {n : Nat} : ∀ {shift result fuel v : Nat}, v < 128 ^ (n + 1) → v * 2 ^ shift < 2 ^ 64 → v ≤ fuel →
    Reads (readGroups (n + 1) shift result) (uvarintGroups fuel v) (result + v * 2 ^ shift) := by
  -- Induction on the groups that may still follow; the shift grows by what the value is divided by.
  induction n with
  | zero =>
    intro shift result fuel v hv hfit _
    exact reads_lastGroup (by simpa using hv) hfit
  | succ n ih =>
    intro shift result fuel v hv hfit hfuel
    by_cases hsmall : v < 128
    · exact reads_lastGroup hsmall hfit
    obtain ⟨f, hf, hbytes⟩ := uvarintGroups_of_ge hsmall hfuel
    have hbyte : (UInt8.ofNat (v % 128 + 128)).toNat = v % 128 + 128 := by simp; omega
    have hlow : v % 128 * 2 ^ shift < 2 ^ 64 :=
      Nat.lt_of_le_of_lt (Nat.mul_le_mul_right _ (Nat.mod_le v 128)) hfit
    have hsplit : v % 128 * 2 ^ shift + v / 128 * 2 ^ (shift + 7) = v * 2 ^ shift := by
      rw [Nat.pow_add, ← Nat.mul_assoc, Nat.mul_right_comm, ← Nat.add_mul]
      congr 1
      omega
    have htail := @ih (shift + 7) (result + v % 128 * 2 ^ shift) f (v / 128)
      (by rw [Nat.pow_succ] at hv; omega) (by omega) hf
    rw [Nat.add_assoc, hsplit] at htail
    rw [hbytes, ← singleton_append]
    refine Reads.bind (reads_next _ _) ?_
    simpa only [hbyte, Nat.add_mod_right, Nat.mod_mod, Nat.mod_eq_of_lt hlow,
      if_neg (show ¬ v % 128 + 128 < 128 by omega)] using htail

theorem reads_uvarint (h : IsU64 v) : Reads readUvarint (writeUvarint v) v := by
  have hreads := @reads_groups 9 0 0 v v (Nat.lt_trans h (by decide)) (by simpa using h) (Nat.le_refl v)
  rwa [Nat.pow_zero, Nat.mul_one, Nat.zero_add] at hreads

theorem littleEndian_length (n v : Nat) : (littleEndian n v).length = n := by
  induction n generalizing v with
  | zero => rfl
  | succ n ih => rw [littleEndian, length_cons, ih]

theorem fromLittleEndian_littleEndian (h : v < 256 ^ n) : fromLittleEndian (littleEndian n v) = v := by
  induction n generalizing v with
  | zero => simp_all [littleEndian, fromLittleEndian]
  | succ n ih =>
    rw [littleEndian, fromLittleEndian, ih (by rw [Nat.pow_succ] at h; omega)]
    simp
    omega

theorem reads_littleEndian (short : String) (h : v < 256 ^ n) :
    Reads (readLittleEndian short n) (littleEndian n v) v := by
  have hreads := (reads_chunk short (littleEndian_length n v)).bind_pure fromLittleEndian
  rwa [fromLittleEndian_littleEndian h] at hreads

theorem reads_f32 (x : UInt32) : Reads readF32 (littleEndian 4 x.toNat) x := by
  have h := (reads_littleEndian "failed to fill whole buffer" (n := 4) x.toNat_lt).bind_pure UInt32.ofNat
  rwa [UInt32.ofNat_toNat] at h

theorem zigzag_isU64 (i : Int64) : IsU64 (zigzag i) := by
  have hlo := i.le_toInt
  have hhi := i.toInt_lt
  unfold zigzag
  split <;> omega

theorem unzigzag_zigzag (i : Int64) : unzigzag (zigzag i) = i := by
  unfold zigzag unzigzag
  by_cases hi : 0 ≤ i.toInt
  · have hnum : ((2 * i.toInt.toNat / 2 : Nat) : Int) = i.toInt := by omega
    rw [if_pos hi, if_pos (by omega), hnum, Int64.ofInt_toInt]
  · have hnum : -((2 * (-i.toInt).toNat - 1) / 2 : Nat) - 1 = i.toInt := by omega
    rw [if_neg hi, if_neg (by omega), hnum, Int64.ofInt_toInt]

theorem reads_textOf (invalid : String) (s : String) : Reads (textOf invalid (stringBytes s)) [] s := by
  have htext : String.fromUTF8? ⟨(stringBytes s).toArray⟩ = some s := by
    have harray : (⟨(stringBytes s).toArray⟩ : ByteArray) = s.toByteArray := by simp [stringBytes]
    rw [harray, String.fromUTF8?, dif_pos s.isValidUTF8]
    rfl
  rw [textOf, htext]
  exact reads_pure s

/-! ## Reading values back -/

namespace Value

mutual

/-- Nesting of a value, itself included: a scalar has one level. It is what the reader counts
down, one for each list it enters and one for the value itself. -/
def nesting : Value → Nat
  | .list items => nestingItems items + 1
  | _ => 1

/-- The deepest nesting among the items. -/
def nestingItems : List Value → Nat
  | [] => 0
  | v :: vs => max (nesting v) (nestingItems vs)

end

mutual

/-- The lengths of a value are numbers of the source. A value in the memory of the source always
has this. -/
def Fits : Value → Prop
  | .str s => IsU64 (stringBytes s).length
  | .list items => IsU64 items.length ∧ FitsItems items
  | .vector xs => IsU64 xs.length
  | _ => True

def FitsItems : List Value → Prop
  | [] => True
  | v :: vs => Fits v ∧ FitsItems vs

end

mutual

instance decidableFits : ∀ v : Value, Decidable (Fits v)
  | .null | .bool _ | .int _ | .float _ => inferInstanceAs (Decidable True)
  | .str s => inferInstanceAs (Decidable (IsU64 (stringBytes s).length))
  | .list items =>
    have := decidableFitsItems items
    inferInstanceAs (Decidable (IsU64 items.length ∧ FitsItems items))
  | .vector xs => inferInstanceAs (Decidable (IsU64 xs.length))

instance decidableFitsItems : ∀ vs : List Value, Decidable (FitsItems vs)
  | [] => inferInstanceAs (Decidable True)
  | v :: vs =>
    have := decidableFits v
    have := decidableFitsItems vs
    inferInstanceAs (Decidable (Fits v ∧ FitsItems vs))

end

theorem nestingItems_le {vs : List Value} {levels : Nat} :
    nestingItems vs ≤ levels ↔ ∀ v ∈ vs, nesting v ≤ levels := by
  induction vs with
  | nil => simp [nestingItems]
  | cons v vs ih => rw [nestingItems, Nat.max_le, ih, forall_mem_cons]

theorem fitsItems_iff {vs : List Value} : FitsItems vs ↔ ∀ v ∈ vs, Fits v := by
  induction vs with
  | nil => simp [FitsItems]
  | cons v vs ih => rw [FitsItems, ih, forall_mem_cons]

theorem one_le_nesting (v : Value) : 1 ≤ nesting v := by
  cases v <;> simp [nesting]

end Value

theorem writeValues_eq (vs : List Value) : writeValues vs = vs.flatMap writeValue := by
  induction vs with
  | nil => rfl
  | cons v vs ih => rw [writeValues, ih, flatMap_cons]

/-- **A value is read back exactly when the reader follows its nesting.** The refusal of a
deeper value is part of the law, so a record fails exactly when one of its values does. -/
theorem readsIff_valueAt (levels : Nat) (v : Value) (hv : v.Fits) :
    ReadsIff (readValueAt levels) (writeValue v) v (v.nesting ≤ levels) := by
  induction levels generalizing v with
  | zero =>
    have hdeep : ¬ v.nesting ≤ 0 := by have := v.one_le_nesting; omega
    exact ⟨fun h => absurd h hdeep, fun _ _ => ⟨_, rfl⟩⟩
  | succ levels ih =>
    -- Only a list enters another level; every other value is read whenever its tag is.
    have scalar : Reads (readValueAt (levels + 1)) (writeValue v) v → v.nesting = 1 →
        ReadsIff (readValueAt (levels + 1)) (writeValue v) v (v.nesting ≤ levels + 1) :=
      fun h hone => h.iff.congr (by simp [hone])
    cases v with
    | null => exact scalar (Reads.bind (reads_next _ 0) (reads_pure _)) rfl
    | bool b =>
      refine scalar (Reads.bind (reads_next _ 1) ?_) rfl
      have h := (reads_next "bool truncated" (if b then 1 else 0 : UInt8)).bind_pure
        fun b => bool (b != 0)
      cases b <;> exact h
    | int i =>
      refine scalar (Reads.bind (reads_next _ 2) ?_) rfl
      have h := (reads_uvarint (zigzag_isU64 i)).bind_pure fun v => int (unzigzag v)
      rwa [unzigzag_zigzag] at h
    | float bits =>
      refine scalar (Reads.bind (reads_next _ 3) ?_) rfl
      have h := (reads_littleEndian "failed to fill whole buffer" (n := 8) bits.toNat_lt).bind_pure
        fun bits => float (UInt64.ofNat bits)
      rwa [UInt64.ofNat_toNat] at h
    | str s =>
      refine scalar (Reads.bind (reads_next _ 4) (Reads.bind (reads_uvarint hv) ?_)) rfl
      rw [← append_nil (stringBytes s)]
      exact Reads.bind (reads_chunk _ (by rw [append_nil])) ((reads_textOf _ s).bind_pure str)
    | list items =>
      have hitems := ReadsIff.times fun x hx => ih x (fitsItems_iff.mp hv.2 x hx)
      refine (ReadsIff.bind_reads (reads_next _ 5) (ReadsIff.bind_reads (reads_uvarint hv.1)
        (writeValues_eq items ▸ hitems.bind_pure list))).congr ?_
      rw [nesting, Nat.add_le_add_iff_right, nestingItems_le]
    | vector xs =>
      refine scalar (Reads.bind (reads_next _ 6) (Reads.bind (reads_uvarint hv) ?_)) rfl
      exact (Reads.times fun x _ => reads_f32 x).bind_pure vector

theorem readsIff_value {v : Value} (hv : v.Fits) : ReadsIff readValue (writeValue v) v (v.nesting ≤ maxValueDepth) :=
  readsIff_valueAt maxValueDepth v hv

/-! ## Images are self-delimiting

Two images that start the same input are images of one thing, whatever their sizes. -/

theorem ofNat_inj {a b : Nat} (ha : a < 256) (hb : b < 256) (h : UInt8.ofNat a = UInt8.ofNat b) : a = b := by
  have := congrArg UInt8.toNat h
  simpa [Nat.mod_eq_of_lt ha, Nat.mod_eq_of_lt hb] using this

theorem uvarintGroups_unique : ∀ {v' fuel fuel' : Nat} {rest rest' : Bytes}, v ≤ fuel →
    v' ≤ fuel' → uvarintGroups fuel v ++ rest = uvarintGroups fuel' v' ++ rest' → v = v' ∧ rest = rest' := by
  induction v using Nat.strongRecOn with
  | _ v ih =>
    intro v' fuel fuel' rest rest' hv hv' h
    by_cases hs : v < 128 <;> by_cases hs' : v' < 128
    · rw [uvarintGroups_of_lt hs, uvarintGroups_of_lt hs'] at h
      obtain ⟨hb, hr⟩ := cons.inj h
      exact ⟨ofNat_inj (by omega) (by omega) hb, hr⟩
    · obtain ⟨f', _, hf'⟩ := uvarintGroups_of_ge hs' hv'
      rw [uvarintGroups_of_lt hs, hf'] at h
      have := ofNat_inj (by omega) (by omega) (cons.inj h).1
      omega
    · obtain ⟨f, _, hf⟩ := uvarintGroups_of_ge hs hv
      rw [uvarintGroups_of_lt hs', hf] at h
      have := ofNat_inj (by omega) (by omega) (cons.inj h).1
      omega
    · obtain ⟨f, hle, hf⟩ := uvarintGroups_of_ge hs hv
      obtain ⟨f', hle', hf'⟩ := uvarintGroups_of_ge hs' hv'
      rw [hf, hf'] at h
      obtain ⟨hb, ht⟩ := cons.inj h
      have hlow := ofNat_inj (by omega) (by omega) hb
      obtain ⟨hhigh, hr⟩ := ih (v / 128) (by omega) hle hle' ht
      exact ⟨by omega, hr⟩

theorem writeUvarint_unique {v' : Nat} (h : writeUvarint v ++ rest = writeUvarint v' ++ rest') :
    v = v' ∧ rest = rest' :=
  uvarintGroups_unique (Nat.le_refl v) (Nat.le_refl v') h

/-- A chunk behind its length. -/
theorem sized_unique {bs bs' : Bytes}
    (h : writeUvarint bs.length ++ bs ++ rest = writeUvarint bs'.length ++ bs' ++ rest') :
    bs = bs' ∧ rest = rest' := by
  rw [append_assoc, append_assoc] at h
  obtain ⟨hlen, h⟩ := writeUvarint_unique h
  exact append_inj h hlen

theorem littleEndian_unique {v' : Nat} (hv : v < 256 ^ n) (hv' : v' < 256 ^ n)
    (h : littleEndian n v ++ rest = littleEndian n v' ++ rest') : v = v' ∧ rest = rest' := by
  have h := append_inj h (by rw [littleEndian_length, littleEndian_length])
  refine ⟨?_, h.2⟩
  rw [← fromLittleEndian_littleEndian hv, h.1, fromLittleEndian_littleEndian hv']

theorem stringBytes_inj {s s' : String} (h : stringBytes s = stringBytes s') : s = s' := by
  apply String.toByteArray_inj.mp
  exact congrArg ByteArray.mk (Array.toList_inj.mp h)

mutual

/-- **The image of a value determines it**, whatever follows. So an image can stand in the
middle of a key without a delimiter after it. -/
theorem writeValue_unique : ∀ {v v' : Value} {rest rest' : Bytes},
    writeValue v ++ rest = writeValue v' ++ rest' → v = v' ∧ rest = rest'
  | .null, v', _, _, h => by cases v' <;> simp_all [writeValue]
  | .bool b, v', _, _, h => by
    cases v' <;> simp [writeValue] at h ⊢
    cases b <;> rename_i b' <;> cases b' <;> simp_all
  | .int i, v', _, _, h => by
    cases v' <;> simp [writeValue] at h ⊢
    obtain ⟨hi, hrest⟩ := writeUvarint_unique h
    exact ⟨by rw [← unzigzag_zigzag i, hi, unzigzag_zigzag], hrest⟩
  | .float b, v', _, _, h => by
    cases v' <;> simp [writeValue] at h ⊢
    obtain ⟨hb, hrest⟩ := littleEndian_unique b.toNat_lt (UInt64.toNat_lt _) h
    exact ⟨UInt64.toNat_inj.mp hb, hrest⟩
  | .str s, v', _, _, h => by
    cases v' <;> simp [writeValue] at h ⊢
    obtain ⟨hs, hrest⟩ := sized_unique (by simpa using h)
    exact ⟨stringBytes_inj hs, hrest⟩
  | .list items, v', _, _, h => by
    cases v' <;> simp [writeValue] at h ⊢
    obtain ⟨hlen, h⟩ := writeUvarint_unique h
    exact writeValues_unique hlen h
  | .vector xs, v', _, _, h => by
    cases v' <;> simp [writeValue] at h ⊢
    obtain ⟨hlen, h⟩ := writeUvarint_unique h
    exact PrefixFree.flatMap (fun x x' _ _ h =>
      (littleEndian_unique x.toNat_lt x'.toNat_lt h).imp_left UInt32.toNat_inj.mp) hlen h

theorem writeValues_unique : ∀ {vs vs' : List Value} {rest rest' : Bytes}, vs.length = vs'.length →
    writeValues vs ++ rest = writeValues vs' ++ rest' → vs = vs' ∧ rest = rest'
  | [], [], _, _, _, h => ⟨rfl, h⟩
  | v :: vs, v' :: vs', _, _, hlen, h => by
    rw [writeValues, writeValues, append_assoc, append_assoc] at h
    obtain ⟨hv, htail⟩ := writeValue_unique h
    obtain ⟨hvs, hrest⟩ := writeValues_unique (Nat.succ.inj hlen) htail
    exact ⟨by rw [hv, hvs], hrest⟩

end

/-! ## Numbers that were not written -/

/-- The number that groups spell: seven bits a byte, the lowest first. -/
def base128 : Bytes → Nat
  | [] => 0
  | b :: bs => b.toNat % 128 + 128 * base128 bs

/-- `uvarint_len`. A number that is not zero has `log2` and one bits, and zero counts as one
bit. -/
def uvarintLen (v : Nat) : Nat := (v.log2 + 1 + 6) / 7

/-- `n` bytes that each ask for another, and then a group of more than one bit. Nine bytes hold
sixty-three bits, so only the lowest bit of the tenth group has a place. -/
def overlong : Nat → Bytes → Bool
  | _, [] => false
  | 0, b :: _ => 1 < b.toNat % 128
  | n + 1, b :: bs => 128 ≤ b.toNat && overlong n bs

/-- The groups are added up exactly, but for the tenth: at the shift of 63 only its lowest bit
is kept. -/
theorem readGroups_eq_ok {shift result : Nat} {input : Bytes} (hshift : shift + 7 * n = 63) (hresult : result < 2 ^ shift)
    (h : (readGroups (n + 1) shift result).run input = .ok (v, rest)) : IsU64 v ∧ ∃ used, input = used ++ rest ∧
      if overlong n input then v < result + base128 used * 2 ^ shift else v = result + base128 used * 2 ^ shift := by
  induction n generalizing shift result input with
  | zero =>
    obtain ⟨⟨byte, tail⟩, hbyte, hrun⟩ := bind_eq_ok.mp h
    obtain rfl := next_eq_ok hbyte
    obtain rfl : shift = 63 := by omega
    dsimp only at hrun
    split at hrun
    · cases hrun
      refine ⟨by unfold IsU64; omega, [byte], rfl, ?_⟩
      simp only [overlong, base128, decide_eq_true_eq]
      split <;> omega
    · cases hrun
  | succ n ih =>
    obtain ⟨⟨byte, tail⟩, hbyte, hrun⟩ := bind_eq_ok.mp h
    obtain rfl := next_eq_ok hbyte
    have hpow : 2 ^ (shift + 7) ≤ 2 ^ 63 := Nat.pow_le_pow_right (by omega) (by omega)
    have hbig : result + byte.toNat % 128 * 2 ^ shift < 2 ^ (shift + 7) := by
      rw [Nat.pow_add]
      have : byte.toNat % 128 * 2 ^ shift ≤ 127 * 2 ^ shift := Nat.mul_le_mul_right _ (by omega)
      omega
    dsimp only at hrun
    rw [Nat.mod_eq_of_lt (by omega)] at hrun
    split at hrun
    · cases hrun
      refine ⟨by unfold IsU64; omega, [byte], rfl, ?_⟩
      simp [overlong, base128, *]
    · obtain ⟨hv, used, rfl, hvalue⟩ := ih (by omega) hbig hrun
      refine ⟨hv, byte :: used, rfl, ?_⟩
      have hsum : result + base128 (byte :: used) * 2 ^ shift =
          result + byte.toNat % 128 * 2 ^ shift + base128 used * 2 ^ (shift + 7) := by
        rw [base128, Nat.add_mul, Nat.mul_comm 128, Nat.mul_assoc, Nat.pow_add, Nat.mul_comm 128, Nat.add_assoc]
      have hlong : overlong (n + 1) (byte :: (used ++ rest)) = overlong n (used ++ rest) := by
        simp [overlong]; omega
      rw [hsum, hlong]
      exact hvalue

theorem log2_lt_of_lt {k : Nat} (h : v < 2 ^ k) (hk : 0 < k) : v.log2 < k := by
  rcases Nat.eq_zero_or_pos v with rfl | hpos
  · exact hk
  · exact (Nat.log2_lt (Nat.ne_of_gt hpos)).mpr h

theorem uvarintGroups_length : ∀ {fuel : Nat}, v ≤ fuel → (uvarintGroups fuel v).length = uvarintLen v := by
  induction v using Nat.strongRecOn with
  | _ v ih =>
    intro fuel hv
    by_cases hs : v < 128
    · have hlog := log2_lt_of_lt (k := 7) hs (by decide)
      rw [uvarintGroups_of_lt hs, uvarintLen, length_singleton]
      omega
    · obtain ⟨f, hle, hf⟩ := uvarintGroups_of_ge hs hv
      have hlog : 7 ≤ v.log2 := (Nat.le_log2 (by omega)).mpr (by omega)
      have hdiv : (v / 128).log2 = v.log2 - 7 := by
        rw [Nat.log2_eq_log_two, Nat.log2_eq_log_two, show 128 = 2 ^ 7 from rfl, Nat.log_div_base_pow]
      rw [hf, length_cons, ih (v / 128) (by omega) hle, uvarintLen, uvarintLen]
      omega

theorem writeUvarint_length_le (h : IsU64 v) : (writeUvarint v).length ≤ 10 := by
  have hlog := log2_lt_of_lt h (by decide)
  rw [writeUvarint, uvarintGroups_length (Nat.le_refl v), uvarintLen]
  omega

/-- **A number is returned as it was spelled exactly if it is not overlong**, and a number that
was written is, in the announced number of bytes. -/
theorem uvarint_exact_iff (input : Bytes) (written : Nat) : (∀ v rest, readUvarint.run input = .ok (v, rest) →
      IsU64 v ∧ ∃ used, input = used ++ rest ∧ (v = base128 used ↔ overlong 9 input = false)) ∧
    (IsU64 written → Reads readUvarint (writeUvarint written) written ∧
      (writeUvarint written).length = uvarintLen written) := by
  refine ⟨fun v rest h => ?_, fun hv => ⟨reads_uvarint hv, uvarintGroups_length (Nat.le_refl written)⟩⟩
  obtain ⟨hv, used, hused, hvalue⟩ := readGroups_eq_ok (n := 9) rfl (by decide) h
  refine ⟨hv, used, hused, ?_⟩
  rw [Nat.zero_add, Nat.pow_zero, Nat.mul_one] at hvalue
  cases hlong : overlong 9 input with
  | false => simpa [hlong] using hvalue
  | true =>
    rw [hlong] at hvalue
    simp [Nat.ne_of_lt hvalue]

theorem uvarint_exact_short : (300 = base128 [172, 2] ↔ overlong 9 [172, 2] = false) ∧ (writeUvarint 300).length = 2 := by
  obtain ⟨hread, hwritten⟩ := uvarint_exact_iff [172, 2] 300
  obtain ⟨-, used, hused, h⟩ := hread 300 [] rfl
  rw [append_nil] at hused
  exact ⟨hused ▸ h, (hwritten (by decide)).2⟩

/-- **Nine empty groups and a second bit spell `2 ^ 64`, which is read as zero.** -/
theorem uvarint_tenth_group : ¬ ∀ (input : Bytes) (v : Nat) (rest : Bytes), readUvarint.run input = .ok (v, rest) →
      ∃ used, input = used ++ rest ∧ v = base128 used := by
  intro h
  obtain ⟨used, hused, hv⟩ := h [128, 128, 128, 128, 128, 128, 128, 128, 128, 2] 0 [] rfl
  rw [append_nil] at hused
  subst hused
  exact absurd hv (by decide)

/-! ## Skipping -/

/-- `skip_bytes`. -/
def skipBytes (n : Nat) : Read Unit := do
  let _ ← chunk "value truncated" n

/-- `skip_value_at`, for a value at the depth below which `levels` levels may still be
entered. -/
def skipValueAt : Nat → Read Unit
  | 0 => throw s!"property value nests deeper than the {maxValueDepth}-level limit"
  | levels + 1 => do
    let tag ← next "value truncated (no tag)"
    match tag with
    | 0 => pure ()
    | 1 => do
      let _ ← next "bool truncated"
    | 2 => do
      let _ ← readUvarint
    | 3 => skipBytes 8
    | 4 => do
      let len ← readUvarint
      skipBytes len
    | 5 => do
      let n ← readUvarint
      let _ ← times (skipValueAt levels) n
    | 6 => do
      let n ← readUvarint
      if IsU64 (n * 4) then skipBytes (n * 4) else throw "vector too long"
    | other => throw s!"unknown value tag {other}"

/-- `skip_value`. -/
def skipValue : Read Unit := skipValueAt maxValueDepth

theorem tracks_uvarint {bound : Nat} : Tracks bound id readUvarint readUvarint := by
  intro input v rest _ h
  obtain ⟨-, used, rfl, -⟩ := readGroups_eq_ok (n := 9) rfl (by decide) h
  exact ⟨h, by simp⟩

/-- What takes exactly `n` bytes is skipped by their number. -/
theorem tracks_skipBytes {α : Type} {bound : Nat} {r : Read α}
    (h : ∀ input a rest, r.run input = .ok (a, rest) → n ≤ input.length ∧ rest = input.drop n) :
    Tracks bound (fun _ => ()) r (skipBytes n) := by
  intro input a rest _ hrun
  obtain ⟨hn, rfl⟩ := h input a rest hrun
  refine ⟨?_, by simp⟩
  show (Except.bind (if n ≤ input.length then Except.ok _ else Except.error _) _) = _
  rw [if_pos hn]
  rfl

theorem readLittleEndian_eq_ok {short : String} {input : Bytes} (h : (readLittleEndian short n).run input = .ok (v, rest)) :
    n ≤ input.length ∧ rest = input.drop n := by
  obtain ⟨⟨bs, _⟩, hbs, ⟨⟩⟩ := bind_eq_ok.mp h
  obtain ⟨hn, -, hrest⟩ := chunk_eq_ok hbs
  exact ⟨hn, hrest⟩

theorem times_readF32_eq_ok {input : Bytes} {xs : List UInt32} (h : (times readF32 n).run input = .ok (xs, rest)) :
    n * 4 ≤ input.length ∧ rest = input.drop (n * 4) := by
  induction n generalizing input xs with
  | zero => cases h; simp
  | succ n ih =>
    obtain ⟨⟨x, mid⟩, hx, hxs⟩ := bind_eq_ok.mp h
    obtain ⟨⟨bits, _⟩, hbits, ⟨⟩⟩ := bind_eq_ok.mp hx
    obtain ⟨⟨tail, _⟩, htail, ⟨⟩⟩ := bind_eq_ok.mp hxs
    obtain ⟨hlen, rfl⟩ := readLittleEndian_eq_ok hbits
    obtain ⟨hmore, rfl⟩ := ih htail
    rw [length_drop] at hmore
    rw [drop_drop]
    exact ⟨by omega, by congr 1; omega⟩

/-- A value that is read is also skipped, and the same bytes are left. -/
theorem tracks_valueAt (levels : Nat) : Tracks (2 ^ 64) (fun _ => ()) (readValueAt levels) (skipValueAt levels) := by
  induction levels with
  | zero => exact fun _ _ _ _ h => nomatch h
  | succ levels ih =>
    refine (tracks_next _).bind fun tag => ?_
    split
    · exact tracks_pure _ _
    · exact (tracks_next _).bind fun b => tracks_pure _ _
    · exact tracks_uvarint.bind fun v => tracks_pure _ _
    · refine tracks_skipBytes fun input v rest h => ?_
      obtain ⟨⟨bits, _⟩, hbits, ⟨⟩⟩ := bind_eq_ok.mp h
      exact readLittleEndian_eq_ok hbits
    · refine tracks_uvarint.bind fun len => tracks_skipBytes fun input v rest h => ?_
      obtain ⟨⟨bs, _⟩, hbs, hs⟩ := bind_eq_ok.mp h
      obtain ⟨hn, -, rfl⟩ := chunk_eq_ok hbs
      refine ⟨hn, ?_⟩
      dsimp only [textOf] at hs
      split at hs <;> cases hs
      rfl
    · exact tracks_uvarint.bind fun n => (ih.times n).bind fun items => tracks_pure _ _
    · -- The elements are there, so that their bytes are counted by a `usize`.
      refine tracks_uvarint.bind fun n input v rest hlen h => ?_
      obtain ⟨⟨xs, _⟩, hxs, ⟨⟩⟩ := bind_eq_ok.mp h
      have hmore := times_readF32_eq_ok hxs
      dsimp only [id]
      rw [if_pos (show IsU64 (n * 4) by unfold IsU64; omega)]
      exact tracks_skipBytes (fun _ _ _ h => times_readF32_eq_ok h) input xs rest hlen hxs
    · exact fun _ _ _ _ h => nomatch h

/-- **A value is read back and skipped whole, and whatever is read as a value is skipped as
one.** -/
theorem value_read_or_skipped :
    (∀ (v : Value) (s : Bytes), v.Fits → v.nesting ≤ maxValueDepth → IsU64 (writeValue v ++ s).length →
      readValue.run (writeValue v ++ s) = .ok (v, s) ∧ skipValue.run (writeValue v ++ s) = .ok ((), s)) ∧
    ∀ (input : Bytes) (v : Value) (rest : Bytes), IsU64 input.length → readValue.run input = .ok (v, rest) →
      skipValue.run input = .ok ((), rest) := by
  have hskip : ∀ (input : Bytes) (v : Value) (rest : Bytes), IsU64 input.length → readValue.run input = .ok (v, rest) →
      skipValue.run input = .ok ((), rest) := fun input v rest hlen h =>
    (tracks_valueAt maxValueDepth input v rest hlen h).1
  refine ⟨fun v s hv hdeep hlen => ?_, hskip⟩
  have hread := (readsIff_value hv).reads hdeep s
  exact ⟨hread, hskip _ v s hlen hread⟩

theorem value_skipped_list : skipValue.run (writeValue (.list [.int 7, .str "a"]) ++ [9]) = .ok ((), [9]) :=
  (value_read_or_skipped.1 (.list [.int 7, .str "a"]) [9] (by decide) (by decide) (by decide)).2

end Slater
