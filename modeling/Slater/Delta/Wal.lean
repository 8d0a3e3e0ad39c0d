import Slater.Delta.OffheapCodec

/-!
# The write-ahead log

`slater-delta/src/wal.rs`. A segment is a sequence of frames: records, each an operation under its
sequence number, and commit markers. `replay_dir` reads the segments of a directory in ascending
order, refuses a directory with a gap in its numbering, and keeps the records up to the last marker of
each segment.

The framing returns the payloads appended to it; a payload whose length does not fit the 32-bit length
field reads back as a torn tail. The checksum and the seal of an encrypted deployment are left out, and
so are the directory's name in the texts and the rollback of a failed append.

A record is read back exactly when no value in it nests deeper than `read_value` follows
(`readsIff_record`). The log does not look: it appends and commits a deeper record too, and the directory
then does not replay. The source keeps such values out further up, where a statement is decoded and
parsed; the limits it sets there are not modelled.
-/

namespace Slater

open Map Reader List ReadsIff

variable {id : EdgeIdentity}

/-! ## Operations -/

/-- `WalOp`: an operation of the log, before anything is resolved. The five node operations
share their key. Ids are not part of it: they are resolved anew when the log is replayed. -/
inductive WalOp where
  | node (id : NodeIdentity) (w : NodeWrite)
  | upsertEdge (id : EdgeIdentity) (replace : Bool) (patches : List (String × Value))
  | deleteEdge (id : EdgeIdentity)
  deriving DecidableEq

/-- The operation of the log that a resolved operation was made from. -/
def ResolvedOp.op : ResolvedOp → WalOp
  | .node id w _ => .node id w
  | .upsertEdge id replace patches _ _ _ => .upsertEdge id replace patches
  | .deleteEdge id _ _ => .deleteEdge id

/-! ## Records -/

/-- `read_str`. -/
def readStr : Read String := do
  let n ← readUvarint
  let bs ← chunk "WAL string truncated" n
  textOf "WAL string not utf-8" bs

/-- A business key, label first. -/
def readNodeKey : Read NodeIdentity := do
  let label ← readStr
  let key ← readStr
  let value ← readValue
  pure { label, key, value }

/-- A named value. -/
def readNamed : Read (String × Value) := do
  let name ← readStr
  let value ← readValue
  pure (name, value)

/-- `write_edge_key`. -/
def writeEdgeKey : Option (String × Value) → Bytes := wOption wProp

/-- `read_edge_key`. -/
def readEdgeKey : Read (Option (String × Value)) := rOption "WAL byte truncated" readNamed

/-- The endpoints and the type of an edge operation. -/
def writeEnds (id : EdgeIdentity) : Bytes :=
  identityKeyBytes id.src ++ (wStr id.reltype ++ identityKeyBytes id.dst)

def readEnds : Read (NodeIdentity × String × NodeIdentity) := do
  let src ← readNodeKey
  let reltype ← readStr
  let dst ← readNodeKey
  pure (src, reltype, dst)

/-- The tag of an operation and its body (`encode_payload`). An edge operation is written under
its second tag only if the first has no room for it. -/
def WalOp.write : WalOp → Bytes
  | .node id (.upsert patches) => [1] ++ (identityKeyBytes id ++ wCounted wProp patches)
  | .node id .delete => [2] ++ identityKeyBytes id
  | .node id (.removeProps props) => [5] ++ (identityKeyBytes id ++ wCounted wStr props)
  | .node id (.replace patches) => [6] ++ (identityKeyBytes id ++ wCounted wProp patches)
  | .node id (.setLabels added removed) =>
    [7] ++ (identityKeyBytes id ++ (wCounted wStr added ++ wCounted wStr removed))
  | .upsertEdge id replace patches =>
    if id.key.isSome || replace then
      [8] ++ (writeEnds id ++ (writeEdgeKey id.key ++ ([flagByte replace] ++ wCounted wProp patches)))
    else [3] ++ (writeEnds id ++ wCounted wProp patches)
  | .deleteEdge id =>
    if id.key.isSome then [9] ++ (writeEnds id ++ writeEdgeKey id.key) else [4] ++ writeEnds id

/-- The body of an operation, after its tag (`decode_record_body`). -/
def WalOp.readBody : UInt8 → Read WalOp
  | 1 => do
    let id ← readNodeKey
    let patches ← rCounted readNamed
    pure (.node id (.upsert patches))
  | 2 => do
    let id ← readNodeKey
    pure (.node id .delete)
  | 5 => do
    let id ← readNodeKey
    let props ← rCounted readStr
    pure (.node id (.removeProps props))
  | 6 => do
    let id ← readNodeKey
    let patches ← rCounted readNamed
    pure (.node id (.replace patches))
  | 7 => do
    let id ← readNodeKey
    let added ← rCounted readStr
    let removed ← rCounted readStr
    pure (.node id (.setLabels added removed))
  | 3 => do
    let (src, reltype, dst) ← readEnds
    let patches ← rCounted readNamed
    pure (.upsertEdge ⟨src, reltype, dst, none⟩ false patches)
  | 8 => do
    let (src, reltype, dst) ← readEnds
    let key ← readEdgeKey
    let replace ← readFlag "WAL byte truncated"
    let patches ← rCounted readNamed
    pure (.upsertEdge ⟨src, reltype, dst, key⟩ replace patches)
  | 4 => do
    let (src, reltype, dst) ← readEnds
    pure (.deleteEdge ⟨src, reltype, dst, none⟩)
  | 9 => do
    let (src, reltype, dst) ← readEnds
    let key ← readEdgeKey
    pure (.deleteEdge ⟨src, reltype, dst, key⟩)
  | other => throw s!"unknown WAL op tag {other}"

/-- `WalRecord`. The number orders the records of one writer; replay reports the highest one
that was committed. -/
structure WalRecord where
  seq : Nat
  op : WalOp
  deriving DecidableEq

/-- `encode_payload`, after its kind byte. -/
def WalRecord.write (rec : WalRecord) : Bytes := writeUvarint rec.seq ++ rec.op.write

/-- `decode_record_body`. -/
def WalRecord.read : Read WalRecord := do
  let seq ← readUvarint
  let tag ← next "WAL byte truncated"
  let op ← WalOp.readBody tag
  pure { seq, op }

/-! ### What is read back -/

/-- The lengths of a business key. -/
@[mk_iff] structure NodeIdentity.Fits (id : NodeIdentity) : Prop where
  label : TextFits id.label
  key : TextFits id.key
  value : id.value.Fits

instance (id : NodeIdentity) : Decidable id.Fits := decidable_of_iff' _ (NodeIdentity.fits_iff id)

/-- The lengths of a list of names. -/
def NameListFits (names : List String) : Prop := IsU64 names.length ∧ ∀ n ∈ names, TextFits n
deriving Decidable

def NodeWrite.Fits : NodeWrite → Prop
  | .upsert patches | .replace patches => PropsFit patches
  | .removeProps props => NameListFits props
  | .setLabels added removed => NameListFits added ∧ NameListFits removed
  | .delete => True

instance (w : NodeWrite) : Decidable w.Fits :=
  match w with
  | .upsert _ | .replace _ => inferInstanceAs (Decidable (PropsFit _))
  | .removeProps _ => inferInstanceAs (Decidable (NameListFits _))
  | .setLabels _ _ => inferInstanceAs (Decidable (_ ∧ _))
  | .delete => .isTrue trivial

/-- The values a node operation assigns are read back. -/
def NodeWrite.Shallow : NodeWrite → Prop
  | .upsert patches | .replace patches => PropsShallow patches
  | .removeProps _ | .setLabels _ _ | .delete => True

instance (w : NodeWrite) : Decidable w.Shallow :=
  match w with
  | .upsert _ | .replace _ => inferInstanceAs (Decidable (PropsShallow _))
  | .removeProps _ | .setLabels _ _ | .delete => .isTrue trivial

@[mk_iff] structure EdgeIdentity.Fits (id : EdgeIdentity) : Prop where
  src : id.src.Fits
  reltype : TextFits id.reltype
  dst : id.dst.Fits
  key : ∀ kv ∈ id.key, PropFits kv

instance (id : EdgeIdentity) : Decidable id.Fits := decidable_of_iff' _ (EdgeIdentity.fits_iff id)

/-- The values in an edge's identity are read back. -/
def EdgeIdentity.Shallow (id : EdgeIdentity) : Prop :=
  id.src.value.Shallow ∧ id.dst.value.Shallow ∧ ∀ kv ∈ id.key, kv.2.Shallow

instance (id : EdgeIdentity) : Decidable id.Shallow := inferInstanceAs (Decidable (_ ∧ _))

namespace WalOp

/-- The lengths in an operation. -/
def Fits : WalOp → Prop
  | .node id w => id.Fits ∧ w.Fits
  | .upsertEdge id _ patches => id.Fits ∧ PropsFit patches
  | .deleteEdge id => id.Fits

instance (op : WalOp) : Decidable op.Fits :=
  match op with
  | .node .. => inferInstanceAs (Decidable (_ ∧ _))
  | .upsertEdge .. => inferInstanceAs (Decidable (_ ∧ _))
  | .deleteEdge id => inferInstanceAs (Decidable id.Fits)

/-- No value of the operation nests deeper than `read_value` follows. -/
def Shallow : WalOp → Prop
  | .node id w => id.value.Shallow ∧ w.Shallow
  | .upsertEdge id _ patches => id.Shallow ∧ PropsShallow patches
  | .deleteEdge id => id.Shallow

instance (op : WalOp) : Decidable op.Shallow :=
  match op with
  | .node .. => inferInstanceAs (Decidable (_ ∧ _))
  | .upsertEdge .. => inferInstanceAs (Decidable (_ ∧ _))
  | .deleteEdge id => inferInstanceAs (Decidable id.Shallow)

end WalOp

theorem reads_walStr {s : String} (h : TextFits s) : Reads readStr (wStr s) s := by
  refine (reads_uvarint h).bind ?_
  have hbytes := (reads_chunk "WAL string truncated" (rfl : (stringBytes s).length = _)).bind
    (reads_textOf "WAL string not utf-8" s)
  rwa [append_nil] at hbytes

theorem readsIff_nodeKey {id : NodeIdentity} (h : id.Fits) :
    ReadsIff readNodeKey (identityKeyBytes id) id id.value.Shallow :=
  bind_reads (reads_walStr h.label) (bind_reads (reads_walStr h.key)
    ((readsIff_value h.value).bind_pure (NodeIdentity.mk id.label id.key)))

theorem readsIff_named {p : String × Value} (h : PropFits p) : ReadsIff readNamed (wProp p) p p.2.Shallow :=
  bind_reads (reads_walStr h.1) ((readsIff_value h.2).bind_pure (p.1, ·))

theorem readsIff_nameds {props : List (String × Value)} (h : PropsFit props) :
    ReadsIff (rCounted readNamed) (wCounted wProp props) props (PropsShallow props) :=
  readsIff_counted h.1 fun p hp => readsIff_named (h.2 p hp)

theorem reads_names {names : List String} (h : NameListFits names) :
    Reads (rCounted readStr) (wCounted wStr names) names :=
  reads_counted h.1 fun n hn => reads_walStr (h.2 n hn)

theorem readsIff_ends (h : id.Fits) :
    ReadsIff readEnds (writeEnds id) (id.src, id.reltype, id.dst) (id.src.value.Shallow ∧ id.dst.value.Shallow) :=
  (readsIff_nodeKey h.src).bind (bind_reads (reads_walStr h.reltype)
    ((readsIff_nodeKey h.dst).bind_pure fun dst => (id.src, id.reltype, dst)))

theorem readsIff_edgeKey (h : id.Fits) :
    ReadsIff readEdgeKey (writeEdgeKey id.key) id.key (∀ kv ∈ id.key, kv.2.Shallow) :=
  readsIff_option _ fun kv hkv => readsIff_named (h.key kv hkv)

theorem readsIff_nodeWrite {id : NodeIdentity} {w : NodeWrite} (hid : id.Fits) (hw : w.Fits) :
    ReadsIff (next "WAL byte truncated" >>= WalOp.readBody) (WalOp.node id w).write (.node id w)
      (WalOp.node id w).Shallow := by
  have hkey := readsIff_nodeKey hid
  cases w with
  | upsert patches =>
    exact bind_reads (reads_next _ 1)
      (hkey.bind ((readsIff_nameds hw).bind_pure fun patches => WalOp.node id (.upsert patches)))
  | replace patches =>
    exact bind_reads (reads_next _ 6)
      (hkey.bind ((readsIff_nameds hw).bind_pure fun patches => WalOp.node id (.replace patches)))
  | removeProps props =>
    exact bind_reads (reads_next _ 5)
      (hkey.bind ((reads_names hw).iff.bind_pure fun props => WalOp.node id (.removeProps props)))
  | setLabels added removed =>
    refine bind_reads (reads_next _ 7) (hkey.bind ?_)
    exact bind_reads (reads_names hw.1)
      ((reads_names hw.2).iff.bind_pure fun removed => WalOp.node id (.setLabels added removed))
  | delete =>
    have hdelete := bind_reads (f := WalOp.readBody) (reads_next "WAL byte truncated" (2 : UInt8))
      (hkey.bind_pure fun id => WalOp.node id .delete)
    exact hdelete.congr (iff_of_eq (and_true _).symm)

theorem readsIff_upsertEdge {patches : List (String × Value)} (hid : id.Fits) (hpatches : PropsFit patches)
    (replace : Bool) :
    ReadsIff (next "WAL byte truncated" >>= WalOp.readBody) (WalOp.upsertEdge id replace patches).write
      (.upsertEdge id replace patches) (WalOp.upsertEdge id replace patches).Shallow := by
  have hends := readsIff_ends hid
  rw [WalOp.write]
  split
  next =>
    have hbody : ReadsIff (WalOp.readBody 8) _ (.upsertEdge id replace patches) _ :=
      hends.bind ((readsIff_edgeKey hid).bind (bind_reads (reads_flag _ replace)
        ((readsIff_nameds hpatches).bind_pure (WalOp.upsertEdge id replace))))
    refine (bind_reads (reads_next _ 8) hbody).congr ?_
    rw [WalOp.Shallow, EdgeIdentity.Shallow]
    tauto
  next hplain =>
    obtain ⟨src, reltype, dst, key⟩ := id
    rw [Bool.or_eq_true, not_or, Bool.not_eq_true, Bool.not_eq_true, Option.isSome_eq_false_iff,
      Option.isNone_iff_eq_none] at hplain
    obtain ⟨hkey, rfl⟩ := hplain
    cases hkey
    have hbody := (readsIff_nameds hpatches).bind_pure fun patches =>
      WalOp.upsertEdge ⟨src, reltype, dst, none⟩ false patches
    refine (bind_reads (reads_next _ 3) (hends.bind hbody)).congr ?_
    rw [WalOp.Shallow, EdgeIdentity.Shallow]
    simp

theorem readsIff_deleteEdge (hid : id.Fits) :
    ReadsIff (next "WAL byte truncated" >>= WalOp.readBody) (WalOp.deleteEdge id).write (.deleteEdge id)
      (WalOp.deleteEdge id).Shallow := by
  have hends := readsIff_ends hid
  rw [WalOp.write]
  split
  next =>
    have hbody := (readsIff_edgeKey hid).bind_pure fun key =>
      WalOp.deleteEdge ⟨id.src, id.reltype, id.dst, key⟩
    refine (bind_reads (reads_next _ 9) (hends.bind hbody)).congr ?_
    rw [WalOp.Shallow, EdgeIdentity.Shallow]
    tauto
  next hplain =>
    obtain ⟨src, reltype, dst, key⟩ := id
    rw [Bool.not_eq_true, Option.isSome_eq_false_iff, Option.isNone_iff_eq_none] at hplain
    cases hplain
    have hbody := hends.bind_pure fun ends => WalOp.deleteEdge ⟨ends.1, ends.2.1, ends.2.2, none⟩
    refine (bind_reads (reads_next _ 4) hbody).congr ?_
    rw [WalOp.Shallow, EdgeIdentity.Shallow]
    simp

/-- The tag and the body of an operation. -/
theorem readsIff_op {op : WalOp} (h : op.Fits) :
    ReadsIff (next "WAL byte truncated" >>= WalOp.readBody) op.write op op.Shallow := by
  cases op with
  | node id w => exact readsIff_nodeWrite h.1 h.2
  | upsertEdge id replace patches => exact readsIff_upsertEdge h.1 h.2 replace
  | deleteEdge id => exact readsIff_deleteEdge h

/-- **A record is read back exactly when its operation is shallow.** -/
theorem readsIff_record {rec : WalRecord} (hseq : IsU64 rec.seq) (h : rec.op.Fits) :
    ReadsIff WalRecord.read rec.write rec rec.op.Shallow := by
  have hop := (readsIff_op h).bind_pure (WalRecord.mk rec.seq)
  rw [bind_assoc] at hop
  exact bind_reads (reads_uvarint hseq) hop

/-! ### Images are self-delimiting -/

theorem prefixFree_wStr : PrefixFree wStr := fun _ _ _ _ h =>
  have h := sized_unique h
  ⟨stringBytes_inj h.1, h.2⟩

theorem prefixFree_wProp : PrefixFree wProp := by
  intro p p' rest rest' h
  rw [wProp, wProp, append_assoc, append_assoc] at h
  obtain ⟨hname, h⟩ := prefixFree_wStr h
  obtain ⟨hvalue, hrest⟩ := writeValue_unique h
  exact ⟨Prod.ext hname hvalue, hrest⟩

theorem prefixFree_counted {α : Type} {write : α → Bytes} (hw : PrefixFree write) : PrefixFree (wCounted write) := by
  intro xs xs' rest rest' h
  rw [wCounted, wCounted, append_assoc, append_assoc] at h
  obtain ⟨hlen, h⟩ := writeUvarint_unique h
  exact hw.flatMap hlen h

theorem prefixFree_nodeKey : PrefixFree identityKeyBytes := by
  intro id id' rest rest' h
  simp only [identityKeyBytes, append_assoc] at h
  obtain ⟨hlabel, h⟩ := prefixFree_wStr h
  obtain ⟨hprop, hrest⟩ := @prefixFree_wProp (id.key, id.value) (id'.key, id'.value) rest rest'
    (by simpa only [wProp, append_assoc] using h)
  cases id
  cases hlabel
  cases hprop
  exact ⟨rfl, hrest⟩

theorem prefixFree_edgeKey : PrefixFree writeEdgeKey := by
  rintro (_ | kv) (_ | kv') rest rest' h <;> simp [writeEdgeKey, wOption] at h ⊢
  · exact h
  · exact prefixFree_wProp h

/-- The image of the ends determines an identity up to its key. -/
theorem writeEnds_unique {id' : EdgeIdentity} {rest rest' : Bytes} (h : writeEnds id ++ rest = writeEnds id' ++ rest') :
    { id with key := id'.key } = id' ∧ rest = rest' := by
  simp only [writeEnds, append_assoc] at h
  obtain ⟨hsrc, h⟩ := prefixFree_nodeKey h
  obtain ⟨hreltype, h⟩ := prefixFree_wStr h
  obtain ⟨hdst, h⟩ := prefixFree_nodeKey h
  exact ⟨by rw [hsrc, hreltype, hdst], h⟩

theorem flagByte_inj {b b' : Bool} (h : flagByte b = flagByte b') : b = b' := by
  cases b <;> cases b' <;> simp_all [flagByte]

theorem prefixFree_nodeWrite {id id' : NodeIdentity} {w w' : NodeWrite} {rest rest' : Bytes}
    (h : (WalOp.node id w).write ++ rest = (WalOp.node id' w').write ++ rest') : (id = id' ∧ w = w') ∧ rest = rest' := by
  have hprops := prefixFree_counted prefixFree_wProp
  have hnames := prefixFree_counted prefixFree_wStr
  -- Two images under different tags differ in their first byte.
  cases w <;> cases w' <;> simp [WalOp.write] at h ⊢ <;> obtain ⟨rfl, hargs⟩ := prefixFree_nodeKey h
  case upsert => simpa using hprops hargs
  case replace => simpa using hprops hargs
  case removeProps => simpa using hnames hargs
  case delete => exact ⟨rfl, hargs⟩
  case setLabels =>
    obtain ⟨hadded, hargs⟩ := hnames hargs
    obtain ⟨hremoved, hargs⟩ := hnames hargs
    exact ⟨⟨rfl, hadded, hremoved⟩, hargs⟩

theorem WalOp.prefixFree_write : PrefixFree WalOp.write := by
  have hprops := prefixFree_counted prefixFree_wProp
  intro op op' rest rest' h
  cases op with
  | node id w =>
    cases op' with
    | node id' w' =>
      obtain ⟨⟨hid, hw⟩, hrest⟩ := prefixFree_nodeWrite h
      exact ⟨by rw [hid, hw], hrest⟩
    | upsertEdge | deleteEdge => cases w <;> simp only [WalOp.write] at h <;> split at h <;> simp at h
  | upsertEdge id replace patches =>
    cases op' with
    | node id' w' => cases w' <;> simp only [WalOp.write] at h <;> split at h <;> simp at h
    | deleteEdge => simp only [WalOp.write] at h; split at h <;> split at h <;> simp at h
    | upsertEdge id' replace' patches' =>
      simp only [WalOp.write] at h
      split at h <;> split at h <;> simp at h <;> obtain ⟨hid, h⟩ := writeEnds_unique h
      · obtain ⟨hkey, h⟩ := prefixFree_edgeKey h
        obtain ⟨hreplace, h⟩ := cons.inj h
        obtain ⟨hpatches, hrest⟩ := hprops h
        exact ⟨by rw [← hid, ← hkey, flagByte_inj hreplace, hpatches], hrest⟩
      · obtain ⟨hpatches, hrest⟩ := hprops h
        have hkey : id.key = id'.key ∧ replace = replace' := by simp_all
        exact ⟨by rw [← hid, ← hkey.1, hkey.2, hpatches], hrest⟩
  | deleteEdge id =>
    cases op' with
    | node id' w' => cases w' <;> simp only [WalOp.write] at h <;> split at h <;> simp at h
    | upsertEdge => simp only [WalOp.write] at h; split at h <;> split at h <;> simp at h
    | deleteEdge id' =>
      simp only [WalOp.write] at h
      split at h <;> split at h <;> simp at h <;> obtain ⟨hid, h⟩ := writeEnds_unique h
      · obtain ⟨hkey, hrest⟩ := prefixFree_edgeKey h
        exact ⟨by rw [← hid, ← hkey], hrest⟩
      · have hkey : id.key = id'.key := by simp_all
        exact ⟨by rw [← hid, ← hkey], h⟩

/-! ## Segments -/

/-- The payload of a record frame. -/
def recordPayload (rec : WalRecord) : Bytes := [1] ++ rec.write

theorem recordPayload_inj {rec rec' : WalRecord} (h : recordPayload rec = recordPayload rec') : rec = rec' := by
  obtain ⟨-, h⟩ := cons.inj h
  obtain ⟨hseq, h⟩ := writeUvarint_unique h
  obtain ⟨hop, -⟩ := @WalOp.prefixFree_write _ _ [] [] (congrArg (· ++ []) h)
  cases rec
  exact congr (congrArg _ hseq) hop

/-- A keyed replacement of an edge's properties. -/
def keyedEdge : WalRecord :=
  ⟨7, .upsertEdge ⟨⟨"A", "k", .int 1⟩, "R", ⟨"A", "k", .int 2⟩, some ("uuid", .str "r")⟩ true [("p", .list [.null])]⟩

theorem record_round_trip : (∀ rec : WalRecord, IsU64 rec.seq → rec.op.Fits → rec.op.Shallow →
      ∃ body, recordPayload rec = 1 :: body ∧ WalRecord.read.run body = .ok (rec, [])) ∧
    ∀ rec rec' : WalRecord, rec ≠ rec' → recordPayload rec ≠ recordPayload rec' := by
  refine ⟨fun rec hseq hfits hshallow => ⟨rec.write, rfl, ?_⟩, fun _ _ hne h => hne (recordPayload_inj h)⟩
  have hread := (readsIff_record hseq hfits).reads hshallow []
  rwa [append_nil] at hread

theorem record_round_trip_keyed :
    ∃ body, recordPayload keyedEdge = 1 :: body ∧ WalRecord.read.run body = .ok (keyedEdge, []) :=
  record_round_trip.1 keyedEdge (by decide) (by decide +kernel) (by decide +kernel)

/-- The values an operation assigns are read back; those in its keys may be of any depth. -/
def WalOp.AssignsShallow : WalOp → Prop
  | .node _ w => w.Shallow
  | .upsertEdge _ _ patches => PropsShallow patches
  | .deleteEdge _ => True

/-- The key nests one level deeper than `read_value` follows. -/
def deepKey : WalRecord := ⟨1, .node ⟨"A", "k", Nat.repeat (fun v => .list [v]) maxValueDepth .null⟩ .delete⟩

/-- **A key that is logged and cannot be read back.** -/
theorem record_key_too_deep : ¬ ∀ rec : WalRecord, IsU64 rec.seq → rec.op.Fits → rec.op.AssignsShallow →
      ∃ body, recordPayload rec = 1 :: body ∧ WalRecord.read.run body = .ok (rec, []) := by
  intro h
  have hfits : deepKey.op.Fits := by decide +kernel
  obtain ⟨body, hbody, hread⟩ := h deepKey (by decide) hfits trivial
  obtain rfl : deepKey.write = body := (cons.inj hbody).2
  obtain ⟨e, he⟩ := (@readsIff_record deepKey (by decide) hfits).refuses (by decide +kernel) []
  rw [append_nil, hread] at he
  cases he

/-- The payload of a commit marker. -/
def commitPayload (seq : Nat) : Bytes := [2] ++ writeUvarint seq

/-- The payloads of a segment, in append order. -/
abbrev WalSegment := List Bytes

/-- `append_batch`: every record, then one marker. -/
def WalSegment.appendBatch (segment : WalSegment) (recs : List WalRecord) (committed : Nat) : WalSegment :=
  segment ++ recs.map recordPayload ++ [commitPayload committed]

/-- What `replay_bytes` carries from frame to frame; `pending` are the records past the last
marker. -/
structure Replay where
  records : List WalRecord := []
  lastSeq : Nat := 0
  pending : List WalRecord := []

/-- A frame of the source: a kind byte and what follows it. -/
inductive WalFrame where
  | record (rec : WalRecord)
  | commit (seq : Nat)

def WalFrame.read : Read WalFrame := do
  let kind ← next "WAL byte truncated"
  match kind with
  | 1 => do
    let rec ← WalRecord.read
    pure (.record rec)
  | 2 => do
    let seq ← readUvarint
    pure (.commit seq)
  | other => throw s!"unknown WAL frame kind {other}"

def Replay.add (r : Replay) : WalFrame → Replay
  | .record rec => { r with pending := r.pending ++ [rec] }
  | .commit seq =>
    { records := r.records ++ r.pending, lastSeq := max r.lastSeq seq, pending := [] }

/-- `replay_bytes`. -/
def replaySegment (r : Replay) : WalSegment → Except String Replay
  | [] => .ok { r with pending := [] }
  | payload :: rest =>
    -- the length field wraps; what it then covers is taken to fail its checksum
    if 2 ^ 32 ≤ payload.length then .ok { r with pending := [] }
    else do
      let frame ← WalFrame.read.decode payload
      replaySegment (r.add frame) rest

/-- The refusal of a directory with a gap. -/
def gapError (first last : Nat) (present : List Nat) : String :=
  "WAL dir is missing " ++ toString (last - first + 1 - present.length) ++
    " segment(s): numbering runs " ++ toString first ++ "..=" ++ toString last ++ " but only " ++
    toString present.length ++ " are present (" ++ toString present ++ "). A segment removed from " ++
    "the middle of the run would replay as a silently shorter history; refusing rather than " ++
    "serving it. If this is deliberate, remove the whole WAL directory (losing every " ++
    "unconsolidated write) rather than part of it."

/-- The dense and monotonic numbering `replay_dir` asks for. -/
def checkNumbering (present : List Nat) : Except String Unit :=
  match present.head?, present.getLast? with
  | some first, some last =>
    if present.length ≠ last - first + 1 then .error (gapError first last present) else .ok ()
  | _, _ => .ok ()

/-- `replay_dir`, over the segments by number. -/
def replayDir (wal : Map Nat WalSegment) : Except String Replay := do
  checkNumbering (ascending wal.keys)
  wal.pairs.foldlM (fun r segment => replaySegment r segment.2) {}

/-! ## What a log holds -/

/-- A record that replay takes back. Both conditions are on the record alone, so they can be
asked when it is written. -/
structure WalRecord.Readable (rec : WalRecord) : Prop where
  seq : IsU64 rec.seq
  fits : rec.op.Fits
  shallow : rec.op.Shallow
  frame : (recordPayload rec).length < 2 ^ 32

theorem commitPayload_length {seq : Nat} (h : IsU64 seq) : (commitPayload seq).length < 2 ^ 32 := by
  have hgroups := writeUvarint_length_le h
  rw [commitPayload, length_append]
  have hkind : ([2] : Bytes).length = 1 := rfl
  omega

section Replay

variable {r : Replay} {rest : WalSegment}

theorem replaySegment_record {rec : WalRecord} (h : rec.Readable) : replaySegment r (recordPayload rec :: rest) =
      replaySegment { r with pending := r.pending ++ [rec] } rest := by
  have hread : Reads WalFrame.read (recordPayload rec) (.record rec) :=
    (reads_next "WAL byte truncated" (1 : UInt8)).bind
      (((readsIff_record h.seq h.fits).reads h.shallow).bind_pure WalFrame.record)
  rw [replaySegment, if_neg (Nat.not_le.mpr h.frame), hread.decode]
  rfl

theorem replaySegment_records {recs : List WalRecord} (h : ∀ rec ∈ recs, rec.Readable) :
    replaySegment r (recs.map recordPayload ++ rest) = replaySegment { r with pending := r.pending ++ recs } rest := by
  induction recs generalizing r with
  | nil => simp
  | cons rec recs ih =>
    rw [map_cons, cons_append, replaySegment_record (h rec (.head _)),
      ih fun rec hrec => h rec (.tail _ hrec)]
    simp

/-- A marker is read back as it was written. -/
theorem decode_commitPayload {seq : Nat} (h : IsU64 seq) :
    WalFrame.read.decode (commitPayload seq) = .ok (.commit seq) := by
  have hread : Reads WalFrame.read (commitPayload seq) (.commit seq) :=
    (reads_next "WAL byte truncated" (2 : UInt8)).bind ((reads_uvarint h).bind_pure WalFrame.commit)
  exact hread.decode

theorem replaySegment_commit {seq : Nat} (h : IsU64 seq) :
    replaySegment r (commitPayload seq :: rest) = replaySegment (r.add (.commit seq)) rest := by
  rw [replaySegment, if_neg (Nat.not_le.mpr (commitPayload_length h)), decode_commitPayload h]
  rfl

theorem pending_of_replaySegment {r' : Replay} {segment : WalSegment}
    (h : replaySegment r segment = .ok r') : r'.pending = [] := by
  induction segment generalizing r with
  | nil =>
    cases h
    rfl
  | cons payload rest ih =>
    rw [replaySegment] at h
    split at h
    next =>
      cases h
      rfl
    next =>
      obtain ⟨frame, -, h⟩ := bind_eq_ok.mp h
      exact ih h

end Replay

/-- A segment that batches of readable records were appended to, and nothing else. Batches that
failed are not among them: a rollback leaves no frame behind (`Slater.Delta.WalFaults`). -/
inductive WalSegment.Holds : WalSegment → List WalRecord → Prop
  | empty : Holds [] []
  | batch {segment : WalSegment} {recs batch : List WalRecord} {committed : Nat} :
    Holds segment recs → (∀ rec ∈ batch, rec.Readable) → IsU64 committed →
      Holds (segment.appendBatch batch committed) (recs ++ batch)

/-- **A segment gives back what was appended to it.** -/
theorem WalSegment.Holds.replay {segment rest : WalSegment} {recs : List WalRecord} (h : segment.Holds recs)
    {r : Replay} (hr : r.pending = []) : ∃ lastSeq, replaySegment r (segment ++ rest) =
      replaySegment { records := r.records ++ recs, lastSeq, pending := [] } rest := by
  induction h generalizing rest with
  | empty => exact ⟨r.lastSeq, by rw [append_nil, nil_append, ← hr]⟩
  | @batch segment recs batch committed _ hbatch hcommitted ih =>
    obtain ⟨lastSeq, hsegment⟩ := @ih (batch.map recordPayload ++ ([commitPayload committed] ++ rest))
    refine ⟨max lastSeq committed, ?_⟩
    rw [appendBatch, append_assoc, append_assoc, hsegment, replaySegment_records hbatch,
      singleton_append, replaySegment_commit hcommitted, Replay.add, nil_append,
      append_assoc]

end Slater
