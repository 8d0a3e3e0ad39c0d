import Slater.Lib.Machine
import Slater.Server.WriterIds

/-!
# Recovery

A writer of `slater/src/delta_writer.rs` acknowledges a batch once the log has it, and answers from memory. What
it would answer after a restart is a function of its directory: `open_with_cache` opens the sealed levels and
replays the log over them, each record resolved again. This module runs the writer from a directory without
sealed levels through any sequence of batches, flushes, compactions and restarts, and compares the writer at the
end with the one its directory opens as.

The two publish the same snapshot (`recovers_of_closable`) if three things hold. Every record of the run is one
that replay takes back: its values are no deeper than `read_value` follows and its frame has a length of
32 bits. No resident level holds two identities that patch one core edge, since `deserialise` files them in hash
order and the last one stays. And the edge ids of the active memtable start where the newest level ends.

The last condition is not always met. A resident compaction may leave fewer born edges than its run had, while
the active memtable keeps the base it was given before; a restart takes the lower one, and the edges in the log
get other ids (`recovered_edge_id_differs`).

**What it does not establish.** Only what is published is compared, not the sequence numbers
(`Slater.Server.SequenceNumbers`). A process that stops inside an operation is not considered here, and the closing
conditions are on the last state: a run may break and mend them on the way.
-/

namespace Slater

open Map List Option Finmap DeltaWriter

variable {cache : Bool} {load : Nat → List EdgeIdentity} {l0 : List (Nat × L0Level)} {files : Map Nat L0File}
  {present : List Nat} {m : Memtable}

/-! ## The log -/

theorem checkNumbering_eq_ok {first last : Nat} (hfirst : present.head? = some first)
    (hlast : present.getLast? = some last) : checkNumbering present = .ok () ↔ present.length = last - first + 1 := by
  rw [checkNumbering, hfirst, hlast]
  show (if _ then _ else _) = _ ↔ _
  split
  next hne => exact iff_of_false nofun hne
  next heq => exact iff_of_true rfl (not_not.mp heq)

/-- The next number goes on with the numbering. -/
theorem checkNumbering_concat {n : Nat} (h : checkNumbering present = .ok ())
    (hn : ∀ last, present.getLast? = some last → n = last + 1) : checkNumbering (present ++ [n]) = .ok () := by
  cases present with
  | nil => simp [checkNumbering]
  | cons first rest =>
    obtain ⟨last, hlast⟩ : ∃ last, (first :: rest).getLast? = some last :=
      ⟨_, getLast?_eq_some_getLast (cons_ne_nil first rest)⟩
    have hnext := hn last hlast
    have hlength := (checkNumbering_eq_ok head?_cons hlast).mp h
    -- a run of one segment ends where it starts
    have hle : first ≤ last := by
      cases rest with
      | nil => exact Nat.le_of_eq (some.inj hlast)
      | cons second rest =>
        rw [length_cons, length_cons] at hlength
        omega
    have hfirst : (first :: rest ++ [n]).head? = some first := rfl
    refine (checkNumbering_eq_ok hfirst getLast?_concat).mpr ?_
    rw [length_append, length_singleton]
    omega

/-- Replay of a directory leaves nothing pending. -/
theorem pending_of_replaySegments {segments : List (Nat × WalSegment)} {r r' : Replay} (hr : r.pending = [])
    (h : segments.foldlM (fun r segment => replaySegment r segment.2) r = .ok r') : r'.pending = [] :=
  Fallible.foldlM_keeps (p := (·.pending = [])) (fun _ _ _ _ _ => pending_of_replaySegment) hr h

/-- The log holds the records: the earlier segments replay to some of them, and the open one was
appended the others. -/
structure LogHolds (wal : Map Nat WalSegment) (sink : Nat) (recs : List WalRecord) : Prop where
  numbering : checkNumbering (ascending wal.keys) = .ok ()
  last : ∀ n ∈ wal.keys, n ≤ sink
  segments : ∃ r segment tail,
    (pairs (wal.erase sink)).foldlM (fun r segment => replaySegment r segment.2) ({} : Replay) = .ok r ∧
    wal.lookup sink = some segment ∧ segment.Holds tail ∧ recs = r.records ++ tail

namespace LogHolds

variable {wal : Map Nat WalSegment} {sink : Nat} {recs : List WalRecord} {r : Replay}

/-- **Replay gives back what the log holds.** -/
theorem replay (h : LogHolds wal sink recs) : ∃ lastSeq, replayDir wal = .ok { records := recs, lastSeq } := by
  obtain ⟨r, segment, tail, hearlier, hsink, hholds, rfl⟩ := h.segments
  obtain ⟨lastSeq, hlast⟩ :=
    @WalSegment.Holds.replay segment [] tail hholds r (pending_of_replaySegments rfl hearlier)
  refine ⟨lastSeq, ?_⟩
  rw [append_nil] at hlast
  refine bind_eq_ok.mpr ⟨(), h.numbering, ?_⟩
  rw [pairs_eq_concat hsink h.last, foldlM_append]
  refine bind_eq_ok.mpr ⟨r, hearlier, ?_⟩
  exact bind_eq_ok.mpr ⟨_, hlast, rfl⟩

/-- A batch goes to the open segment. -/
theorem append (h : LogHolds wal sink recs) {batch : List WalRecord} {committed : Nat}
    (hbatch : ∀ rec ∈ batch, rec.Readable) (hcommitted : IsU64 committed) :
    LogHolds (wal.insert sink (((wal.lookup sink).getD []).appendBatch batch committed)) sink (recs ++ batch) := by
  obtain ⟨r, segment, tail, hearlier, hsink, hholds, rfl⟩ := h.segments
  rw [hsink]
  have hkeys : ∀ v, (wal.insert sink v).keys = wal.keys := by
    intro v
    ext n
    rw [Finmap.mem_keys, Finmap.mem_insert, Finmap.mem_keys]
    exact or_iff_right_of_imp fun heq => heq ▸ mem_of_lookup_eq_some hsink
  have herase : ∀ v, (wal.insert sink v).erase sink = wal.erase sink := by
    intro v
    apply ext_lookup
    intro n
    rw [lookup_erase_ite, lookup_erase_ite, lookup_insert_ite]
    split <;> rfl
  constructor
  case numbering => exact (hkeys _).symm ▸ h.numbering
  case last => exact (hkeys _).symm ▸ h.last
  case segments =>
    refine ⟨r, _, tail ++ batch, ?_, lookup_insert _, .batch hholds hbatch hcommitted,
      append_assoc ..⟩
    rw [herase]
    exact hearlier

/-- A fresh segment after the others. -/
theorem of_fresh {next : Nat} (hnumbering : checkNumbering (ascending wal.keys) = .ok ())
    (hnext : ∀ last, (ascending wal.keys).getLast? = some last → next = last + 1) (habove : ∀ n ∈ wal.keys, n < next)
    (hreplay : wal.pairs.foldlM (fun r segment => replaySegment r segment.2) ({} : Replay) = .ok r) :
    LogHolds (wal.insert next []) next r.records := by
  have hfresh : wal.lookup next = none := by
    rw [lookup_eq_none]
    exact fun h => Nat.lt_irrefl _ (habove next (mem_keys.mpr h))
  have hkeys : ∀ n, n ∈ (wal.insert next []).keys ↔ n ∈ wal.keys ∨ n = next := by
    intro n
    rw [Finmap.mem_keys, Finmap.mem_insert, Finmap.mem_keys, or_comm]
  have herase : (wal.insert next []).erase next = wal := by
    apply ext_lookup
    intro n
    rw [lookup_erase_ite, lookup_insert_ite]
    split
    next heq => rw [heq, hfresh]
    next => rfl
  constructor
  case numbering =>
    rw [ascending_keys_concat hkeys habove]
    exact checkNumbering_concat hnumbering hnext
  case last =>
    intro n hn
    rcases (hkeys n).mp hn with hn | rfl
    · exact Nat.le_of_lt (habove n hn)
    · exact le_rfl
  case segments =>
    refine ⟨r, [], [], ?_, lookup_insert _, .empty, (append_nil _).symm⟩
    rw [herase]
    exact hreplay

/-- Opening a directory starts a fresh segment. -/
theorem opened (h : replayDir wal = .ok r) : LogHolds (wal.insert (nextNumber wal) []) (nextNumber wal) r.records := by
  obtain ⟨⟨⟩, hnumbering, hreplay⟩ := bind_eq_ok.mp h
  refine of_fresh hnumbering (fun last hlast => ?_) (fun n hn => lt_nextNumber hn) hreplay
  have hmem : last ∈ wal.keys := mem_ascending.mp (mem_of_getLast? hlast)
  refine Nat.le_antisymm (Finset.sup_le fun n hn => ?_) (lt_nextNumber hmem)
  obtain ⟨init, hinit⟩ := getLast?_eq_some_iff.mp hlast
  have hsorted := ascending_strict wal.keys
  rw [hinit, pairwise_append] at hsorted
  have hn : n ∈ init ++ [last] := hinit ▸ mem_ascending.mpr hn
  rcases mem_append.mp hn with hold | hlast
  · exact Nat.succ_le_succ (Nat.le_of_lt (hsorted.2.2 n hold last (mem_singleton_self _)))
  · rw [mem_singleton.mp hlast]

/-- A flush starts a fresh segment and removes the others. -/
theorem rotated {listing : List Nat} (hlisting : ∀ n, n ∈ listing ↔ n ∈ wal.keys) :
    LogHolds (eraseAll (wal.insert (nextNumber wal) []) listing) (nextNumber wal) [] := by
  have hfresh : nextNumber wal ∉ wal.keys := fun h => Nat.lt_irrefl _ (lt_nextNumber h)
  have halone : eraseAll (wal.insert (nextNumber wal) []) listing =
      (∅ : Map Nat WalSegment).insert (nextNumber wal) [] := by
    apply ext_lookup
    intro n
    rw [lookup_eraseAll, lookup_insert_ite, lookup_insert_ite, lookup_empty]
    split
    next hn =>
      have hne : n ≠ nextNumber wal := fun heq => hfresh (heq ▸ (hlisting n).mp hn)
      rw [if_neg hne]
    next hn =>
      have hnone : wal.lookup n = none :=
        lookup_eq_none.mpr fun h => hn ((hlisting n).mpr (mem_keys.mpr h))
      rw [hnone]
  rw [halone]
  exact of_fresh (r := {}) rfl nofun nofun rfl

end LogHolds

/-! ## The levels -/

instance {κ β : Type} [DecidableEq κ] (order : List κ) (m : Map κ β) : Decidable (Enumerates order m.lookup) :=
  decidable_of_iff (order.Nodup ∧ order.toFinset = m.keys) <| by
    rw [Enumerates, Finset.ext_iff]
    simp only [List.mem_toFinset, mem_keys_iff, isSome_iff_exists]

/-- The order lists the edge entries a resident file is loaded with. -/
def L0File.ListedBy (order : List EdgeIdentity) : L0File → Prop
  | .resident image => Enumerates order image.edges.lookup
  | .offHeap _ => True

instance (order : List EdgeIdentity) (file : L0File) : Decidable (file.ListedBy order) :=
  match file with
  | .resident image => inferInstanceAs (Decidable (Enumerates order image.edges.lookup))
  | .offHeap _ => .isTrue trivial

/-- No two identities patch one core edge. -/
def Memtable.PatchesApart (m : Memtable) : Prop :=
  m.edges.All fun id e => m.edges.All fun id' e' => e.coreEdge.isSome → e.coreEdge = e'.coreEdge → id = id'
deriving Decidable

theorem Memtable.PatchesApart.eq (h : m.PatchesApart) {id id' : EdgeIdentity} {c : Nat}
    (hid : (m.edges.lookup id).bind (·.coreEdge) = some c)
    (hid' : (m.edges.lookup id').bind (·.coreEdge) = some c) : id = id' := by
  obtain ⟨e, he, hc⟩ := bind_eq_some_iff.mp hid
  obtain ⟨e', he', hc'⟩ := bind_eq_some_iff.mp hid'
  exact all_iff.mp (all_iff.mp h id e he) id' e' he' (hc ▸ rfl) (hc.trans hc'.symm)

/-- The index of patched core edges does not depend on the order. -/
theorem Memtable.lookup_collectEdgeIds (h : m.PatchesApart) {order : List EdgeIdentity}
    (horder : Enumerates order m.edges.lookup) (c : Nat) (id : EdgeIdentity) :
    (m.collectEdgeIds order).lookup c = some id ↔ (m.edges.lookup id).bind (·.coreEdge) = some c := by
  have hfst : (order.filterMap fun id => ((m.edges.lookup id).bind (·.coreEdge)).map (·, id)).map Prod.fst =
      order.filterMap fun id => (m.edges.lookup id).bind (·.coreEdge) := by
    rw [map_filterMap]
    congr 1
    funext id
    cases (m.edges.lookup id).bind (·.coreEdge) <;> rfl
  have hnodup : (order.filterMap fun id => (m.edges.lookup id).bind (·.coreEdge)).Nodup :=
    horder.1.filterMap fun id id' c hid hid' => h.eq hid hid'
  rw [collectEdgeIds, lookup_insertAll_eq_some (hfst ▸ hnodup), mem_filterMap]
  constructor
  · rintro ⟨id', -, heq⟩
    obtain ⟨c', hc', heq⟩ := map_eq_some_iff.mp heq
    cases heq
    exact hc'
  · intro hc
    obtain ⟨e, he, -⟩ := bind_eq_some_iff.mp hc
    exact ⟨id, (horder.2 id).mpr (isSome_iff_exists.mpr ⟨e, he⟩), by rw [hc]; rfl⟩

namespace L0Level

/-- The index of a resident level was collected from all its entries. -/
def Indexed : L0Level → Prop
  | .resident m => ∃ order, Enumerates order m.edges.lookup ∧ m.byEdgeId = m.collectEdgeIds order
  | .offHeap _ => True

/-- A level in which no two identities patch one core edge; a segment keeps its index on
disk. -/
def PatchesApart : L0Level → Prop
  | .resident m => m.PatchesApart
  | .offHeap _ => True

instance (l : L0Level) : Decidable l.PatchesApart :=
  match l with
  | .resident m => inferInstanceAs (Decidable m.PatchesApart)
  | .offHeap _ => inferInstanceAs (Decidable True)

end L0Level

namespace L0File

variable {file : L0File} {l l' : L0Level} {cache : Bool} {order : List EdgeIdentity}

theorem indexed_openLevel (h : file.openLevel cache order = .ok l) (horder : file.ListedBy order) : l.Indexed := by
  cases file with
  | resident image =>
    obtain ⟨m, hm, rfl⟩ := map_eq_ok.mp h
    obtain ⟨-, rfl⟩ := Memtable.reload_eq_ok.mp hm
    exact ⟨order, horder, rfl⟩
  | offHeap files =>
    obtain ⟨segment, -, rfl⟩ := opens_offHeap.mp ⟨_, _, h⟩
    trivial

theorem cache_of_openLevel (h : file.openLevel cache order = .ok l) (hl : l.isOffHeap = true) : cache = true := by
  cases file with
  | resident image =>
    obtain ⟨m, -, rfl⟩ := map_eq_ok.mp h
    cases hl
  | offHeap files =>
    cases cache with
    | false => cases h
    | true => rfl

/-- What opened once opens again. -/
theorem Opens.openLevel (h : file.Opens l) (hcache : l.isOffHeap = true → cache = true)
    (order : List EdgeIdentity) : ∃ l', file.openLevel cache order = .ok l' := by
  cases file with
  | resident image =>
    obtain ⟨hload, -⟩ := opens_resident.mp h
    exact ⟨_, map_eq_ok.mpr ⟨_, Memtable.reload_eq_ok.mpr ⟨hload, rfl⟩, rfl⟩⟩
  | offHeap files =>
    obtain ⟨segment, hs, rfl⟩ := opens_offHeap.mp h
    rw [hcache rfl]
    exact ⟨.offHeap segment, map_eq_ok.mpr ⟨segment, hs, rfl⟩⟩

/-- **Two openings of a file are one level**, if the order of its entries is of no matter. -/
theorem Opens.eq (h : file.Opens l) (h' : file.Opens l') (hindexed : l.Indexed) (hindexed' : l'.Indexed)
    (hapart : l.PatchesApart) : l' = l := by
  rcases h.two h' with rfl | ⟨image, order, order', -, rfl, rfl⟩
  · rfl
  obtain ⟨o, ho, hby⟩ := hindexed
  obtain ⟨o', ho', hby'⟩ := hindexed'
  have hindex : image.collectEdgeIds order' = image.collectEdgeIds order := by
    refine (hby'.trans (ext_lookup fun c => ext fun id => ?_)).trans hby.symm
    exact (image.lookup_collectEdgeIds hapart ho' c id).trans (image.lookup_collectEdgeIds hapart ho c id).symm
  rw [Memtable.reloaded, Memtable.reloaded, hindex]

end L0File

theorem openLevels_eq_ok {files : List (Nat × L0File)} (h : ∀ f ∈ files, ∃ l, f.2.openLevel cache (load f.1) = .ok l) :
    ∃ levels, openLevels cache load files = .ok levels := by
  induction files with
  | nil => exact ⟨[], rfl⟩
  | cons f files ih =>
    obtain ⟨l, hl⟩ := h f (.head _)
    obtain ⟨levels, hlevels⟩ := ih fun f hf => h f (.tail _ hf)
    exact ⟨(f.1, l) :: levels, bind_eq_ok.mpr ⟨l, hl, bind_eq_ok.mpr ⟨levels, hlevels, rfl⟩⟩⟩

section

variable (h : OnDisk files l0) (hcache : ∀ l ∈ l0.map Prod.snd, l.isOffHeap = true → cache = true)
include h hcache

/-- The levels of a directory open again. -/
theorem OnDisk.exists_openLevels (load : Nat → List EdgeIdentity) :
    ∃ levels, openLevels cache load files.pairs = .ok levels := by
  refine openLevels_eq_ok fun f hf => ?_
  obtain ⟨l, hl, hopens⟩ := h.level_of_file (mem_pairs.mp hf)
  exact hopens.openLevel (hcache l hl) _

/-- The levels of a directory open again, as they were. -/
theorem OnDisk.openLevels
    (hindexed : ∀ l ∈ l0.map Prod.snd, l.Indexed) (hapart : ∀ l ∈ l0.map Prod.snd, l.PatchesApart)
    (hload : ∀ n file, files.lookup n = some file → file.ListedBy (load n)) :
    ∃ levels, openLevels cache load files.pairs = .ok levels ∧ levels.reverse.map Prod.snd = l0.map Prod.snd := by
  obtain ⟨levels, hlevels⟩ := h.exists_openLevels hcache load
  refine ⟨levels, hlevels, ?_⟩
  have hsame := (h.reopen hlevels).2
  generalize l0.map Prod.snd = old at *
  generalize levels.reverse.map Prod.snd = new at *
  clear hcache
  induction hsame with
  | nil => rfl
  | cons hl _ ih =>
    obtain ⟨n, file, hfile, hopens, hlevel⟩ := hl
    rw [forall_mem_cons] at hindexed hapart
    have hindexed' := L0File.indexed_openLevel hlevel (hload n file hfile)
    rw [hopens.eq ⟨_, _, hlevel⟩ hindexed.1 hindexed' hapart.1, ih hindexed.2 hapart.2]

end

/-! ## The machine -/

/-- What a graph opens its writer with: the core, its counts and its name. -/
structure WriterCore where
  generation : Generation
  uuid : GenId
  nodeCount : Nat
  edgeCount : Nat

/-- An operation of the writer, with what it leaves to chance. Operations that fail are not
steps. -/
inductive WriterAction where
  | write (ops : List ResolvedOp)
  | flush (choices : Choices)
  | compact (sizes : List Nat) (choices : Choices)
  | reopen (offHeap cache : Bool) (load : Nat → List EdgeIdentity)

namespace WriterCore

variable (core : WriterCore)

/-- The ids the core and the sealed levels of a writer give to keys. -/
def below (w : DeltaWriter) : NodeIdentity → Option Nat := belowOf core.generation.uniqueNode w.sealedLevels

/-- `open_with_cache` over this core. -/
def openWriter (dir : WriterDir) (offHeap cache : Bool) (load : Nat → List EdgeIdentity) : Except String DeltaWriter :=
  openWithCache dir core.uuid core.nodeCount core.edgeCount offHeap cache core.generation.resolveOp load

/-- An operation that returns. A batch carries the ids that resolution finds. -/
def step (w : DeltaWriter) : WriterAction → Option DeltaWriter
  | .write ops =>
    if ∀ op ∈ ops, op.ResolvedBy (core.below w) core.generation.patchedEdge w.mem then some (w.writeBatch ops)
    else none
  | .flush choices => (w.flushToL0 choices).toOption.map Prod.fst
  | .compact sizes choices => (w.compactL0 sizes choices).toOption.map Prod.fst
  | .reopen offHeap cache load => (core.openWriter w.dir offHeap cache load).toOption

/-- The core's node ids lie below its node count. -/
def Covers : Prop := ∀ id d, core.generation.uniqueNode id = some d → d < core.nodeCount

end WriterCore

/-- What chance can do: orders list what they order, and numbers and lengths have 64 bits. No
writer of the source can do otherwise. -/
def DeltaWriter.Faithful (w : DeltaWriter) : WriterAction → Prop
  | .write ops => (∀ op ∈ ops, op.op.Fits) ∧ IsU64 (w.seq + ops.length)
  | .flush choices => choices.listing.toFinset = w.dir.wal.keys ∧
      (w.offHeap = true → w.mem.toSegmentData.Fits choices.scope) ∧
      (w.flushedFile choices).ListedBy choices.load
  | .compact sizes choices => DeltaWriter.CompactionFits choices ((w.compactionRun sizes).map Prod.snd) ∧
      ∀ file ∈ mergedFile choices ((w.compactionRun sizes).map Prod.snd), file.ListedBy choices.load
  | .reopen _ _ load => w.dir.l0.All fun n file => file.ListedBy (load n)

instance (choices : Choices) (run : List L0Level) : Decidable (DeltaWriter.CompactionFits choices run) :=
  decidable_of_iff
    ((∀ segments ∈ run.mapM L0Level.offheapReader, ∀ oldest ∈ segments.getLast?,
        (MergeRun.data oldest segments).Fits choices.scope) ∧
      ∀ mems ∈ run.mapM L0Level.residentMemtable,
        Enumerates choices.nodeOrder (foldedNode mems) ∧ Enumerates choices.edgeOrder (foldedEdge mems))
    ⟨fun ⟨offHeap, resident⟩ =>
      ⟨fun segments oldest hrun => offHeap segments (mapM_offheapReader.mpr hrun) oldest,
        fun mems hrun => resident mems (mapM_residentMemtable.mpr hrun)⟩,
      fun ⟨offHeap, resident⟩ =>
        ⟨fun segments hrun oldest => offHeap segments oldest (mapM_offheapReader.mp hrun),
          fun mems hrun => resident mems (mapM_residentMemtable.mp hrun)⟩⟩

instance (w : DeltaWriter) (act : WriterAction) : Decidable (w.Faithful act) :=
  match act with
  | .write ops => inferInstanceAs (Decidable ((∀ op ∈ ops, op.op.Fits) ∧ w.seq + ops.length < 2 ^ 64))
  | .flush _ => inferInstanceAs (Decidable (_ ∧ _ ∧ _))
  | .compact sizes choices => inferInstanceAs (Decidable (_ ∧ ∀ file ∈ mergedFile choices
      ((w.compactionRun sizes).map Prod.snd), file.ListedBy choices.load))
  | .reopen _ _ load => inferInstanceAs (Decidable (w.dir.l0.All fun n file => file.ListedBy (load n)))

/-- Replay takes the records of the batch back. -/
def DeltaWriter.Recordable (w : DeltaWriter) : WriterAction → Prop
  | .write ops => ∀ rec ∈ numbered w.seq ops, rec.op.Shallow ∧ (recordPayload rec).length < 2 ^ 32
  | _ => True

instance (w : DeltaWriter) (act : WriterAction) : Decidable (w.Recordable act) :=
  match act with
  | .write ops => inferInstanceAs (Decidable (∀ rec ∈ numbered w.seq ops, _ ∧ _))
  | .flush _ => .isTrue trivial
  | .compact _ _ => .isTrue trivial
  | .reopen .. => .isTrue trivial

/-- The levels are opened again as they are, and the edge ids of the active memtable start where
they end. Both parts can be read off the writer before it stops. -/
@[mk_iff] structure DeltaWriter.Closable (edgeCount : Nat) (w : DeltaWriter) : Prop where
  apart : ∀ l ∈ w.levels, l.PatchesApart
  edgeBase : w.mem.edgeSyntheticBase = edgeTopOf edgeCount w.levels

instance (edgeCount : Nat) (w : DeltaWriter) : Decidable (w.Closable edgeCount) :=
  decidable_of_iff' _ (closable_iff edgeCount w)

/-! ## The invariant -/

namespace DeltaWriter

variable {w : DeltaWriter}

theorem numbered_ops (seq : Nat) (ops : List ResolvedOp) (f : WalOp → ResolvedOp) :
    (numbered seq ops).map (fun rec => f rec.op) = ops.map fun op => f op.op := by
  induction ops generalizing seq with
  | nil => rfl
  | cons op ops ih => rw [numbered, map_cons, map_cons, ih]

theorem seq_of_numbered {seq : Nat} {ops : List ResolvedOp} {rec : WalRecord} (h : rec ∈ numbered seq ops) :
    rec.seq ≤ seq + ops.length ∧ ∃ op ∈ ops, rec.op = op.op := by
  induction ops generalizing seq with
  | nil => cases h
  | cons op ops ih =>
    rw [length_cons]
    rcases mem_cons.mp h with rfl | h
    · exact ⟨by show seq + 1 ≤ _; omega, op, .head _, rfl⟩
    · obtain ⟨hseq, op', hop', heq⟩ := ih h
      exact ⟨by omega, op', .tail _ hop', heq⟩

theorem replayInto_append (mem : Memtable) (resolve : WalOp → ResolvedOp) (recs recs' : List WalRecord) :
    replayInto mem resolve (recs ++ recs') =
      (replayInto mem resolve recs).applyAll (recs'.map fun rec => resolve rec.op) := by
  rw [replayInto, map_append, Memtable.applyAll, foldl_append]
  rfl

/-- A flush leaves an empty log. -/
theorem logHolds_flushed {choices : Choices} (hlisting : choices.listing.toFinset = w.dir.wal.keys)
    (level : L0Level) : LogHolds (w.flushed choices level).dir.wal (w.flushed choices level).sink [] := by
  have hwal : (w.flushed choices level).dir.wal =
      eraseAll (w.dir.wal.insert (nextNumber w.dir.wal) []) choices.listing := by
    show (WriterDir.performAll _ (choices.listing.map .removeWal)).wal = _
    rw [WriterDir.performAll_removeWal]
    rfl
  rw [hwal]
  exact LogHolds.rotated fun n => by rw [← hlisting, List.mem_toFinset]

/-- A compaction leaves the log alone. -/
theorem compacted_wal (w : DeltaWriter) (above run below : List (Nat × L0Level)) (o : Nat) (file : L0File)
    (merged : L0Level) : (w.compacted above run below o file merged).dir.wal = w.dir.wal := by
  cases file
  all_goals
    show (WriterDir.performAll _ ((run.map Prod.fst).map .removeL0)).wal = _
    rw [WriterDir.performAll_removeL0]
    rfl

/-- A compaction brings in the merged level alone. -/
theorem mem_levels_compacted {above run below : List (Nat × L0Level)} {o : Nat} {oldest : L0Level}
    (hl0 : w.l0 = above ++ (run ++ (o, oldest) :: below)) (file : L0File) (merged : L0Level) :
    ∀ l ∈ (w.compacted above run below o file merged).levels, l ∈ w.levels ∨ l = merged := by
  intro l hl
  obtain ⟨entry, hentry, rfl⟩ := mem_map.mp hl
  rw [levels, hl0]
  rcases mem_append.mp hentry with habove | hrest
  · exact .inl (mem_map_of_mem (mem_append_left _ habove))
  · rcases mem_cons.mp hrest with rfl | hbelow
    · exact .inr rfl
    · exact .inl (mem_map_of_mem
        (mem_append_right _ (mem_append_right _ (.tail _ hbelow))))

/-- What a writer keeps of what its directory holds. The memtable is what replay of the log
makes of an empty one with the same bases; that a restart takes the same bases is not part of
it. -/
structure Recovers (core : WriterCore) (w : DeltaWriter) : Prop where
  ids : w.IdsKept core.generation.uniqueNode core.generation.patchedEdge core.nodeCount core.edgeCount
  log : ∃ recs, LogHolds w.dir.wal w.sink recs ∧
    w.mem = replayInto (.withBases w.mem.syntheticBase w.mem.edgeSyntheticBase)
      (·.resolveBy (core.below w) core.generation.patchedEdge) recs
  indexed : ∀ l ∈ w.levels, l.Indexed
  cached : ∀ l ∈ w.levels, l.isOffHeap = true → w.cache = true

/-- What a reopened writer is. -/
theorem openWriter_eq_ok {core : WriterCore} {dir : WriterDir} {offHeap cache : Bool}
    {load : Nat → List EdgeIdentity} : core.openWriter dir offHeap cache load = .ok w ↔
      ∃ levels replay, openLevels cache load dir.l0.pairs = .ok levels ∧ replayDir dir.wal = .ok replay ∧
        w = { dir := dir.perform (.createWal (nextNumber dir.wal)), sink := nextNumber dir.wal
              mem := replayInto
                (.withBases (levels.foldl (fun base l => max base l.2.nodeTop) core.nodeCount)
                  (levels.foldl (fun base l => max base l.2.edgeTop) core.edgeCount))
                (·.resolveBy (belowOf core.generation.uniqueNode ((levels.reverse.map Prod.snd).map L0Level.asLevel))
                  core.generation.patchedEdge) replay.records
              l0 := levels.reverse, seq := replay.lastSeq, offHeap, cache, coreUuid := core.uuid } := by
  have hresolve : ∀ l0 : List L0Level, (fun op => resolveWithL0 l0 (core.generation.resolveOp op)) =
      (·.resolveBy (belowOf core.generation.uniqueNode (l0.map L0Level.asLevel))
        core.generation.patchedEdge) := fun l0 => funext (resolveWithL0_eq core.generation l0)
  constructor
  · intro h
    obtain ⟨levels, hlevels, replay, hreplay, rfl⟩ := bind_bind_eq_ok.mp h
    exact ⟨levels, replay, hlevels, hreplay, by rw [← hresolve]⟩
  · rintro ⟨levels, replay, hlevels, hreplay, rfl⟩
    refine bind_eq_ok.mpr ⟨levels, hlevels, bind_eq_ok.mpr ⟨replay, hreplay, ?_⟩⟩
    rw [← hresolve]
    rfl

namespace Recovers

variable {core : WriterCore} {w w' : DeltaWriter}
variable {load : Nat → List EdgeIdentity} {choices : Choices} {changed cache : Bool}

/-- A writer that was just opened. -/
theorem opened {dir : WriterDir} {offHeap : Bool} (hopen : core.openWriter dir offHeap cache load = .ok w)
    (hids : w.IdsKept core.generation.uniqueNode core.generation.patchedEdge core.nodeCount core.edgeCount)
    (hload : ∀ n file, dir.l0.lookup n = some file → file.ListedBy (load n)) : w.Recovers core := by
  obtain ⟨levels, replay, hlevels, hreplay, rfl⟩ := openWriter_eq_ok.mp hopen
  have hopened := opened_of_openLevels hlevels
  constructor
  case ids => exact hids
  case log =>
    refine ⟨replay.records, LogHolds.opened hreplay, ?_⟩
    obtain ⟨hnode, hedge⟩ := replayInto_bases (levels.foldl (fun base l => max base l.2.nodeTop) core.nodeCount)
      (levels.foldl (fun base l => max base l.2.edgeTop) core.edgeCount)
      (·.resolveBy (belowOf core.generation.uniqueNode ((levels.reverse.map Prod.snd).map L0Level.asLevel))
        core.generation.patchedEdge) replay.records
    rw [hnode, hedge]
    rfl
  case indexed =>
    intro l hl
    obtain ⟨n, file, hfile, hlevel⟩ := hopened l hl
    exact L0File.indexed_openLevel hlevel (hload n file hfile)
  case cached =>
    intro l hl
    obtain ⟨n, file, -, hlevel⟩ := hopened l hl
    exact L0File.cache_of_openLevel hlevel

variable (h : w.Recovers core)
include h

/-- **A batch** goes to the log and to the memtable. -/
theorem writeBatch {ops : List ResolvedOp}
    (hops : ∀ op ∈ ops, op.ResolvedBy (core.below w) core.generation.patchedEdge w.mem)
    (hfaithful : w.Faithful (.write ops)) (hrecord : w.Recordable (.write ops)) :
    (w.writeBatch ops).Recovers core := by
  cases ops with
  | nil => exact h
  | cons op ops =>
    obtain ⟨recs, hlog, hmem⟩ := h.log
    have hreadable : ∀ rec ∈ numbered w.seq (op :: ops), rec.Readable := by
      intro rec hrec
      obtain ⟨hseq, op', hop', heq⟩ := seq_of_numbered hrec
      exact ⟨Nat.lt_of_le_of_lt hseq hfaithful.2, heq ▸ hfaithful.1 op' hop', (hrecord rec hrec).1,
        (hrecord rec hrec).2⟩
    obtain ⟨hnode, hedge⟩ := w.mem.applyAll_bases (op :: ops)
    constructor
    case ids => exact h.ids.writeBatch hops
    case log =>
      refine ⟨_, hlog.append hreadable hfaithful.2, ?_⟩
      show w.mem.applyAll (op :: ops) = replayInto (.withBases (w.mem.applyAll (op :: ops)).syntheticBase
        (w.mem.applyAll (op :: ops)).edgeSyntheticBase)
        (·.resolveBy (core.below w) core.generation.patchedEdge) _
      rw [hnode, hedge, replayInto_append, ← hmem, numbered_ops]
      exact (h.ids.active.applyAll_resolveBy hops).symm
    case indexed => exact h.indexed
    case cached => exact h.cached

/-- **A flush** starts the log and the memtable anew. -/
theorem flushToL0 (hfaithful : w.Faithful (.flush choices)) (hflush : w.flushToL0 choices = .ok (w', changed)) :
    w'.Recovers core := by
  have hids := h.ids.flushToL0 hfaithful.2.1 hflush
  rcases flushToL0_cases hflush with rfl | ⟨level, hlevel, rfl⟩
  · exact h
  constructor
  case ids => exact hids
  case log => exact ⟨[], logHolds_flushed hfaithful.1 level, rfl⟩
  case indexed =>
    intro l hl
    rcases mem_cons.mp hl with rfl | hl
    · exact L0File.indexed_openLevel hlevel hfaithful.2.2
    · exact h.indexed l hl
  case cached =>
    intro l hl
    rcases mem_cons.mp hl with rfl | hl
    · exact L0File.cache_of_openLevel hlevel
    · exact h.cached l hl

/-- **A compaction** leaves the log and the memtable alone, and what keys resolve to. -/
theorem compactL0 {sizes : List Nat} (hfaithful : w.Faithful (.compact sizes choices))
    (hcompact : w.compactL0 sizes choices = .ok (w', changed)) : w'.Recovers core := by
  have hids := h.ids.compactL0 hfaithful.1 hcompact
  have hbelow : core.below w' = core.below w := h.ids.belowOf_compactL0 hfaithful.1 hcompact
  rcases compactL0_cases hcompact with rfl | ⟨above, run, o, oldest, older, file, merged, hl0, hrun, hfile,
    hlevel, rfl⟩
  · exact h
  have hlevels := mem_levels_compacted hl0 file merged
  constructor
  case ids => exact hids
  case log =>
    rw [hbelow, compacted_wal]
    exact h.log
  case indexed =>
    intro l hl
    rcases hlevels l hl with hl | rfl
    · exact h.indexed l hl
    · exact L0File.indexed_openLevel hlevel (hfaithful.2 file (hrun ▸ hfile))
  case cached =>
    intro l hl
    rcases hlevels l hl with hl | rfl
    · exact h.cached l hl
    · exact L0File.cache_of_openLevel hlevel

/-- **A restart**, with whatever its directory holds. -/
theorem reopen {offHeap : Bool} (hfaithful : w.Faithful (.reopen offHeap cache load))
    (hopen : core.openWriter w.dir offHeap cache load = .ok w') : w'.Recovers core :=
  opened hopen (h.ids.reopen le_rfl le_rfl (fun _ => ⟨rfl, rfl⟩) hopen) (all_iff.mp hfaithful)

/-- **Every step of a writer** keeps what its directory holds. -/
theorem step {act : WriterAction} (hfaithful : w.Faithful act)
    (hrecord : w.Recordable act) (hstep : core.step w act = some w') : w'.Recovers core := by
  cases act with
  | write ops =>
    obtain ⟨hops, hw⟩ := ite_none_right_eq_some.mp hstep
    cases hw
    exact h.writeBatch hops hfaithful hrecord
  | flush choices =>
    obtain ⟨⟨w', changed⟩, hflush, rfl⟩ := map_eq_some_iff.mp hstep
    exact h.flushToL0 hfaithful (toOption_eq_some.mp hflush)
  | compact sizes choices =>
    obtain ⟨⟨w', changed⟩, hcompact, rfl⟩ := map_eq_some_iff.mp hstep
    exact h.compactL0 hfaithful (toOption_eq_some.mp hcompact)
  | reopen offHeap cache load => exact h.reopen hfaithful (toOption_eq_some.mp hstep)

/-- **What is opened again is what was closed.** -/
theorem close (hclose : w.Closable core.edgeCount)
    (hload : ∀ n file, w.dir.l0.lookup n = some file → file.ListedBy (load n)) :
    ∃ w', core.openWriter w.dir w.offHeap w.cache load = .ok w' ∧ w'.published = w.published := by
  obtain ⟨levels, hlevels, hsame⟩ := h.ids.files.openLevels h.cached h.indexed hclose.apart hload
  obtain ⟨recs, hlog, hmem⟩ := h.log
  obtain ⟨lastSeq, hreplay⟩ := hlog.replay
  refine ⟨_, openWriter_eq_ok.mpr ⟨levels, _, hlevels, hreplay, rfl⟩, ?_⟩
  have hlevels : levels.reverse.map Prod.snd = w.levels := hsame
  have hnodes := h.ids.nodes
  rw [sealedLevels, ← hlevels] at hnodes
  have hnode := IdsKept.foldl_nodeTop hnodes (Nat.le_refl core.nodeCount) fun _ => rfl
  have hedge := IdsKept.foldl_edgeTop (hlevels ▸ h.ids.edges) (Nat.le_refl core.edgeCount) fun _ => rfl
  show DeltaSnapshot.mk (replayInto (.withBases (levels.foldl _ _) (levels.foldl _ _)) _ _)
    ((levels.reverse.map Prod.snd).map L0Level.asLevel) = _
  rw [hnode, hedge, hlevels, ← hclose.edgeBase]
  show DeltaSnapshot.mk (replayInto (.withBases (nodeTopOf core.nodeCount w.sealedLevels) _) _ _) _ = _
  rw [← h.ids.nodeBase]
  exact congrArg (DeltaSnapshot.mk · _) hmem.symm

end Recovers

end DeltaWriter

/-! ## Recovery -/

/-- **Recovery equals the live state.** From a directory without sealed levels, after any run
whose records replay takes back, a writer that can be closed is opened again with the same
memtable and the same levels. The run starts from any directory without sealed levels, log
segments included, and may itself contain restarts. -/
theorem recovers_of_closable {core : WriterCore} (hcovers : core.Covers) {dir : WriterDir} (hbare : dir.l0 = ∅)
    {offHeap cache : Bool} {first load : Nat → List EdgeIdentity} {start w : DeltaWriter}
    {acts : List WriterAction} (hopen : core.openWriter dir offHeap cache first = .ok start)
    (hrun : runFrom core.step start acts = some w) (hfaithful : Along core.step DeltaWriter.Faithful start acts)
    (hrecord : Along core.step DeltaWriter.Recordable start acts) (hclose : w.Closable core.edgeCount)
    (hload : w.dir.l0.All fun n file => file.ListedBy (load n)) :
    ∃ w', core.openWriter w.dir w.offHeap w.cache load = .ok w' ∧ w'.published = w.published := by
  have hstart : start.Recovers core := by
    refine .opened hopen (.reopen_empty (hbare ▸ OnDisk.empty) hcovers hopen) fun n file hfile => ?_
    rw [hbare] at hfile
    cases hfile
  have hend : w.Recovers core :=
    runFrom_invariant (fun s act s' hs hact hstep => hs.step hact.1 hact.2 hstep) hstart (hfaithful.and hrecord) hrun
  exact hend.close hclose (all_iff.mp hload)

namespace Recovery

/-- A graph without nodes. -/
def noNodes : WriterCore where
  generation := CoreGraph.generation { nodes := [], edges := [], ends := CoreGraph.ends_nil }
  uuid := 0
  nodeCount := 0
  edgeCount := 0

theorem noNodes_covers : noNodes.Covers := nofun

/-- Its writer, in an empty directory. -/
def fresh : DeltaWriter := (noNodes.openWriter {} false false fun _ => []).toOption.get rfl

theorem openWriter_noNodes : noNodes.openWriter {} false false (fun _ => []) = .ok fresh := rfl

def person (name : String) : NodeIdentity := ⟨"Person", "name", .str name⟩

def knows (src dst : String) : EdgeIdentity := ⟨person src, "KNOWS", person dst, none⟩

/-- An edge between people nobody knew, flushed, and an edge back. -/
def edgeOverLevel : List WriterAction :=
  [.write [.upsertEdge (knows "a" "b") false [] none none none],
    .flush { load := [knows "a" "b"], listing := [0] },
    .write [.upsertEdge (knows "b" "a") false [] (some 1) (some 0) none]]

/-- Recovered with the ids it had. -/
theorem edgeOverLevel_recovers : ∃ start w w', noNodes.openWriter {} false false (fun _ => []) = .ok start ∧
      runFrom noNodes.step start edgeOverLevel = some w ∧
      noNodes.openWriter w.dir w.offHeap w.cache (fun _ => [knows "a" "b"]) = .ok w' ∧ w'.published = w.published := by
  have hfaithful : Along noNodes.step DeltaWriter.Faithful fresh edgeOverLevel := by decide +kernel
  have hrecord : Along noNodes.step DeltaWriter.Recordable fresh edgeOverLevel := by decide +kernel
  have hend : ((runFrom noNodes.step fresh edgeOverLevel).any fun w =>
      decide (w.Closable noNodes.edgeCount ∧ w.dir.l0.All fun _ file => file.ListedBy [knows "a" "b"])) =
        true := by decide +kernel
  obtain ⟨w, hrun, hw⟩ := (any_eq_true _ _).mp hend
  have hw := of_decide_eq_true hw
  obtain ⟨w', hopen, heq⟩ :=
    recovers_of_closable noNodes_covers rfl openWriter_noNodes hrun hfaithful hrecord hw.1 hw.2
  exact ⟨fresh, w, w', openWriter_noNodes, hrun, hopen, heq⟩

/-- An edge is flushed, patched and flushed, and the two levels are compacted; then another edge
is born. -/
def edgeOverMerged : List WriterAction :=
  [.write [.upsertEdge (knows "a" "b") false [] none none none],
    .flush { load := [knows "a" "b"], listing := [0] },
    .write [.upsertEdge (knows "a" "b") false [("since", .int 1)] (some 0) (some 1) none],
    .flush { load := [knows "a" "b"], listing := [1] },
    .compact [1, 1]
      { load := [knows "a" "b"], nodeOrder := [person "a", person "b"], edgeOrder := [knows "a" "b"] },
    .write [.upsertEdge (knows "b" "a") false [] (some 1) (some 0) none]]

/-- **The recovered edge has another id**: the live writer numbers on from the levels as they
were flushed, the recovered one from the merged level. -/
theorem recovered_edge_id_differs : ¬ ∀ (core : WriterCore), core.Covers → ∀ (dir : WriterDir), dir.l0 = ∅ →
      ∀ (offHeap cache : Bool) (first load : Nat → List EdgeIdentity) (start w : DeltaWriter)
        (acts : List WriterAction), core.openWriter dir offHeap cache first = .ok start →
      runFrom core.step start acts = some w → Along core.step DeltaWriter.Faithful start acts →
      Along core.step DeltaWriter.Recordable start acts → (w.dir.l0.All fun n file => file.ListedBy (load n)) →
      ∃ w', core.openWriter w.dir w.offHeap w.cache load = .ok w' ∧
        ∀ node, w'.published.outEdges node = w.published.outEdges node := by
  intro h
  have hfaithful : Along noNodes.step DeltaWriter.Faithful fresh edgeOverMerged := by decide +kernel
  have hrecord : Along noNodes.step DeltaWriter.Recordable fresh edgeOverMerged := by decide +kernel
  have hend : ((runFrom noNodes.step fresh edgeOverMerged).any fun w =>
      decide (w.dir.l0.All fun _ file => file.ListedBy [knows "a" "b"]) &&
      (w.published.outEdges 1).map (·.edgeId) == [some 2] &&
      ((noNodes.openWriter w.dir w.offHeap w.cache fun _ => [knows "a" "b"]).toOption.any fun w' =>
        (w'.published.outEdges 1).map (·.edgeId) == [some 1])) = true := by decide +kernel
  obtain ⟨w, hrun, hw⟩ := (any_eq_true _ _).mp hend
  rw [Bool.and_eq_true, Bool.and_eq_true, beq_iff_eq] at hw
  obtain ⟨⟨hload, hlive⟩, hreopened⟩ := hw
  obtain ⟨w'', hopen'', hborn⟩ := (any_eq_true _ _).mp hreopened
  obtain ⟨w', hopen, heq⟩ := h noNodes noNodes_covers {} rfl false false _ _ fresh w edgeOverMerged
    openWriter_noNodes hrun hfaithful hrecord (of_decide_eq_true hload)
  cases hopen.symm.trans (toOption_eq_some.mp hopen'')
  rw [heq 1, hlive] at hborn
  exact absurd hborn (by decide)

end Recovery

end Slater
