import Slater.Lib.Disk
import Slater.Server.SegmentGc

/-!
# Publishing a set durably

A flush and a segment compaction write a segment (`write_flush_segment` of `slater/src/flush_segment.rs`; the merge
writer does the same) and publish a set that names it through `publish_set_and_current` of
`slater/src/server.rs`: the set manifest is written to a temporary file and renamed into `sets/`, that directory is
synced, then the same is done with the pointer `current` in the directory of the graph. After it returns, `retire`
deletes the log segments that the published set covers.

The directories `segments/`, `sets/` and the one of the graph are synced, and so are the block files and the index
files. The directory of the segment is not, so no name in it need be on the disk; nor are the small files:
`meta.bin`, the `.meta` files, `SEGMENT.json`, the set manifest and `current`. `published_unreadable` is a crash right
after the return that leaves the pointer with nothing behind it. `published_readable_iff` says what is owed: on the disk
of `Slater.Lib.Disk`, whatever else happens in the meantime to other files, the pointer, the set it names and
every file of its segments can be read after a crash exactly if somebody else has put the rest on the disk before it.

The sections of a segment are staged in a temporary directory, which is renamed into `segments/`. A rename
takes a directory along with what it has on the disk, so here they are written under their final path; only a crash
before the rename could tell. A file holds a document: how it is written as bytes plays no part, and one that is
filled bit by bit is written at once. The segments of earlier publishes are taken to be on the disk, vector
artifacts that the set carries over are not looked at, and nothing is said about a crash before the return.
-/

namespace Slater

open Disk

/-- The files of a segment. -/
inductive SegmentFile where
  | node
  | adjOut
  | adjIn
  | edge
  | metaBin
  | index (k : Nat)
  | indexMeta
  | vamana (label property : String)
  | pq (label property : String)
  | vectorMeta
  | postingMeta
  | manifest
  deriving DecidableEq

namespace SegmentFile

def name : SegmentFile → String
  | node => "node.blk"
  | adjOut => "adj_out.blk"
  | adjIn => "adj_in.blk"
  | edge => "edge.blk"
  | metaBin => "meta.bin"
  | index k => "idx_" ++ toString k ++ ".isam"
  | indexMeta => "idx.meta"
  | vamana label property => "vec." ++ label ++ "." ++ property ++ ".vamana"
  | pq label property => "vec." ++ label ++ "." ++ property ++ ".pq"
  | vectorMeta => "vec.meta"
  | postingMeta => "post.meta"
  | manifest => "SEGMENT.json"

/-- Whether the writer of the file syncs it: those of block files and of index files do,
`std::fs::write` does not. -/
def synced : SegmentFile → Bool
  | metaBin | indexMeta | vectorMeta | postingMeta | manifest => false
  | _ => true

/-- What `SegmentWriter::finish` leaves in the staged directory, in the order of its writes. -/
def sections : List SegmentFile := [node, adjOut, adjIn, edge, metaBin]

end SegmentFile

/-- The files of a segment over its sections, in the order of their writes. No file is written
over another. -/
structure Fragments where
  files : List SegmentFile
  distinct : ((SegmentFile.sections ++ (files ++ [SegmentFile.manifest])).map SegmentFile.name).Nodup

/-- What is written once the sections are in place. -/
def Fragments.placed (fragments : Fragments) : List SegmentFile := fragments.files ++ [.manifest]

def Fragments.all (fragments : Fragments) : List SegmentFile := SegmentFile.sections ++ fragments.placed

/-- What a file holds. The kinds that a publish writes are told apart; whatever else is on the
disk is one more. -/
inductive Document where
  | set (manifest : SetManifest)
  | pointer (gen : GenId)
  | part (seg : GenId) (file : SegmentFile)
  | other

/-- A flush of a graph: it writes the segment `seg` and publishes the set `gen`, which names it.
What files a segment consists of is given for all segments. -/
structure SegmentFlush where
  graph : String
  gen : GenId
  seg : GenId
  set : SetManifest
  files : GenId → Fragments
  named : seg ∈ set.segments

namespace SegmentFlush

variable (fl : SegmentFlush)

def graphDir : Path := [fl.graph]

def segmentsDir : Path := [fl.graph, "segments"]

def segDir (s : GenId) : Path := [fl.graph, "segments", toString s]

def segFile (s : GenId) (f : SegmentFile) : Path := [fl.graph, "segments", toString s, f.name]

def setsDir : Path := [fl.graph, "sets"]

def setPath : Path := [fl.graph, "sets", toString fl.gen ++ ".json"]

def setTmp : Path := [fl.graph, "sets", "." ++ toString fl.gen ++ ".json.tmp"]

def current : Path := [fl.graph, "current"]

def currentTmp : Path := [fl.graph, ".current.tmp"]

def writeFile (f : SegmentFile) : List (DiskOp Document) :=
  .write (fl.segFile fl.seg f) (.part fl.seg f) :: if f.synced then [.syncFile (fl.segFile fl.seg f)] else []

/-- `write_flush_segment`, by its file operations. -/
def writeFlushSegment : List (DiskOp Document) :=
  [.mkdir fl.segmentsDir, .mkdir (fl.segDir fl.seg)] ++ (SegmentFile.sections.flatMap fl.writeFile ++
    .syncDir fl.segmentsDir :: (fl.files fl.seg).placed.flatMap fl.writeFile)

/-- `publish_set_and_current`, by its file operations. -/
def publishSetAndCurrent : List (DiskOp Document) :=
  [.mkdir fl.setsDir,
    .write fl.setTmp (.set fl.set),
    .rename fl.setTmp fl.setPath,
    .syncDir fl.setsDir,
    .write fl.currentTmp (.pointer fl.gen),
    .rename fl.currentTmp fl.current,
    .syncDir fl.graphDir]

/-- The file operations of `flush_graph_to_segment`. -/
def flushGraphToSegment : List (DiskOp Document) := fl.writeFlushSegment ++ fl.publishSetAndCurrent

/-- The names that nobody else changes: those of the publish, and all of the segments that the
set names. -/
def Reserved (p : Path) : Prop :=
  p ∈ [fl.graphDir, fl.segmentsDir, fl.setsDir, fl.setTmp, fl.setPath, fl.currentTmp, fl.current] ∨
    ∃ s ∈ fl.set.segments, fl.segDir s <+: p

/-- An operation of somebody else: on other files, or one that only puts things on the disk.
Write-back of any file or name is allowed at any time, so the disk may be ahead of the syncs. -/
def Foreign (op : DiskOp Document) : Prop := ∀ p ∈ op.touched, ¬ fl.Reserved p

/-- The pointer names the set, and the set and every file of its segments can be read. Nothing
is asked of what the documents say, only that they are the ones that were written. -/
structure Readable (d : Disk Document) : Prop where
  pointer : d.read fl.current = some (.pointer fl.gen)
  manifest : d.read fl.setPath = some (.set fl.set)
  segments : ∀ s ∈ fl.set.segments, ∀ f ∈ (fl.files s).all, d.read (fl.segFile s f) = some (.part s f)

/-- A file of an earlier segment that is on the disk. -/
def OnDisk (s : GenId) (f : SegmentFile) (d : Disk Document) : Prop :=
  (d.names (fl.segDir s) = some .dir ∧ d.Settled (fl.segDir s)) ∧ d.Settled (fl.segFile s f) ∧
    d.Holds (fl.segFile s f) (.part s f) ∧ d.Flushed (fl.segFile s f)

/-- A disk on which the flush can start: the directory of the graph stands, the earlier segments
are on the disk, and nothing is there under the names of the new one. -/
structure Ready (d : Disk Document) : Prop where
  ok : d.Ok
  graph : d.Standing fl.graphDir
  earlier : ∀ s ∈ fl.set.segments, s ≠ fl.seg → ∀ f ∈ (fl.files s).all, fl.OnDisk s f d
  fresh : ∀ f, d.NoOlder (fl.segFile fl.seg f)

/-- What the flush leaves to others: the contents of the pointer, of the set and of the files of
the segment that nobody syncs, and every name in the directory of the segment. -/
structure WrittenBack (d : Disk Document) : Prop where
  pointer : d.Flushed fl.current
  set : d.Flushed fl.setPath
  names : ∀ f ∈ (fl.files fl.seg).all, d.Settled (fl.segFile fl.seg f)
  contents : ∀ f ∈ (fl.files fl.seg).all, f.synced = false → d.Flushed (fl.segFile fl.seg f)

/-! ## Paths -/

variable {fl} {p : Path} {s : GenId} {f : SegmentFile} {op : DiskOp Document} {d d' : Disk Document}

theorem segDir_inj {s' : GenId} (h : fl.segDir s = fl.segDir s') : s = s' :=
  Nat.repr_inj.mp (by simpa [segDir] using h)

theorem segFile_ne {s' : GenId} {g : SegmentFile} (hs : s ≠ s') : fl.segFile s f ≠ fl.segFile s' g := by
  intro h
  have hdir : fl.segDir s = fl.segDir s' := congrArg (·.take 3) h
  exact hs (segDir_inj hdir)

theorem touched_writeFile {g : SegmentFile} (hop : op ∈ fl.writeFile g) (hp : p ∈ op.touched) :
    p = fl.segFile fl.seg g := by
  obtain rfl | hop := List.mem_cons.mp hop
  · exact List.mem_singleton.mp hp
  · split at hop
    · rw [List.mem_singleton.mp hop] at hp
      cases hp
    · cases hop

variable (fl) in
/-- What the publish itself changes. -/
def published : List Path := [fl.setsDir, fl.setTmp, fl.setPath, fl.currentTmp, fl.current]

theorem touched_publish (hop : op ∈ fl.publishSetAndCurrent) : op.touched ⊆ fl.published := by
  simp only [publishSetAndCurrent, List.mem_cons, List.not_mem_nil, or_false] at hop
  obtain rfl | rfl | rfl | rfl | rfl | rfl | rfl := hop <;> simp [DiskOp.touched, published]

variable (fl) in
/-- The flush once the two directories are made. -/
def inside : List (DiskOp Document) :=
  (SegmentFile.sections.flatMap fl.writeFile ++ .syncDir fl.segmentsDir :: (fl.files fl.seg).placed.flatMap fl.writeFile) ++
    fl.publishSetAndCurrent

theorem flush_eq : fl.flushGraphToSegment = .mkdir fl.segmentsDir :: .mkdir (fl.segDir fl.seg) :: fl.inside := rfl

/-- It changes the files of the segment and what the publish changes. -/
theorem touched_inside (hop : op ∈ fl.inside) (hp : p ∈ op.touched) :
    (∃ g, p = fl.segFile fl.seg g) ∨ p ∈ fl.published := by
  have hfile : ∀ files : List SegmentFile, op ∈ files.flatMap fl.writeFile → ∃ g, p = fl.segFile fl.seg g := by
    intro files hop
    obtain ⟨g, -, hop⟩ := List.mem_flatMap.mp hop
    exact ⟨g, touched_writeFile hop hp⟩
  simp only [inside, List.mem_append, List.mem_cons] at hop
  obtain (hop | rfl | hop) | hop := hop
  · exact .inl (hfile _ hop)
  · cases hp
  · exact .inl (hfile _ hop)
  · exact .inr (touched_publish hop hp)

/-- So nothing else below the segments. -/
theorem apart_of_inside (hop : op ∈ fl.inside) (hp : fl.segmentsDir <+: p) (hfile : ∀ g, p ≠ fl.segFile fl.seg g) :
    p ∉ op.touched := by
  intro htouched
  obtain ⟨g, hg⟩ | hpub := touched_inside hop htouched
  · exact hfile g hg
  · obtain ⟨t, rfl⟩ := hp
    simp [segmentsDir, published, setsDir, setTmp, setPath, currentTmp, current] at hpub

theorem reserved_segFile (hs : s ∈ fl.set.segments) (f : SegmentFile) : fl.Reserved (fl.segFile s f) :=
  .inr ⟨s, hs, [f.name], rfl⟩

theorem reserved_segDir (hs : s ∈ fl.set.segments) : fl.Reserved (fl.segDir s) := .inr ⟨s, hs, List.prefix_rfl⟩

/-! ## What the flush puts where -/

variable (fl) in
/-- What holds after some of the operations, among those of others. -/
abbrev Ends (P : Disk Document → Prop) (ops : List (DiskOp Document)) (Q : Disk Document → Prop) : Prop :=
  Establishes step fl.Foreign Ok P ops Q

theorem ok_step ⦃d : Disk Document⦄ ⦃op d'⦄ (hok : d.Ok) (h : d.step op = some d') : d'.Ok := hok.step h

theorem stable_true : Stable (step (α := Document)) fl.Foreign Ok (fun _ => True) := fun _ _ _ _ _ _ _ => trivial

theorem ends_true (ops : List (DiskOp Document)) : fl.Ends (fun _ => True) ops (fun _ => True) :=
  fun _ _ _ _ _ _ _ => trivial

section Keep

variable {P : Disk Document → Prop} {ps : List Path} (hP : RestsOn P ps) (hps : ∀ p ∈ ps, fl.Reserved p)
include hP hps

theorem stable_of_reserved : Stable step fl.Foreign Ok P :=
  hP.stable fun _ hop p hmem htouched => hop p htouched (hps p hmem)

/-- What rests on reserved paths is kept by operations that leave them alone. -/
theorem ends_keep {ops : List (DiskOp Document)} (hops : ∀ op ∈ ops, ∀ p ∈ ps, p ∉ op.touched) : fl.Ends P ops P :=
  .keep ok_step (stable_of_reserved hP hps) fun op hop _ _ hok hd h => hP hok hd h (hops op hop)

end Keep

variable (fl) in
/-- A file of the segment as it was written. -/
def Stored (f : SegmentFile) (d : Disk Document) : Prop :=
  d.NoOlder (fl.segFile fl.seg f) ∧ d.Holds (fl.segFile fl.seg f) (.part fl.seg f) ∧
    (f.synced = true → d.Flushed (fl.segFile fl.seg f))

theorem restsOn_stored (f : SegmentFile) : RestsOn (fl.Stored f) [fl.segFile fl.seg f] := by
  rintro d op d' hok ⟨hclean, hholds, hflushed⟩ h hp
  exact ⟨restsOn_noOlder _ hok hclean h hp, restsOn_holds _ _ hok hholds h hp,
    fun hsynced => restsOn_flushed _ hok (hflushed hsynced) h hp⟩

variable (fl) in
theorem reserved_new (f : SegmentFile) : ∀ p ∈ [fl.segFile fl.seg f], fl.Reserved p := by
  simpa using reserved_segFile fl.named f

theorem ends_writeFile : fl.Ends (fun d => d.NoOlder (fl.segFile fl.seg f)) (fl.writeFile f) (fl.Stored f) := by
  have hwrite : ∀ ⦃d d' : Disk Document⦄, d.Ok → d.NoOlder (fl.segFile fl.seg f) →
      d.step (.write (fl.segFile fl.seg f) (.part fl.seg f)) = some d' →
      d'.NoOlder (fl.segFile fl.seg f) ∧ d'.Holds (fl.segFile fl.seg f) (.part fl.seg f) :=
    fun d d' _ hclean h => ⟨noOlder_write h hclean, holds_write h⟩
  have hnoOlder := stable_of_reserved (restsOn_noOlder (fl.segFile fl.seg f)) (reserved_new fl f)
  have hstored := Establishes.nil ok_step (stable_of_reserved (restsOn_stored f) (reserved_new fl f))
  unfold writeFile
  cases hsynced : f.synced with
  | false =>
    refine .cons ok_step hnoOlder (fun d d' hok hclean h => ?_) hstored
    obtain ⟨hclean, hholds⟩ := hwrite hok hclean h
    exact ⟨hclean, hholds, fun htrue => absurd (htrue.symm.trans hsynced) nofun⟩
  | true =>
    have hfile := (restsOn_noOlder (fl.segFile fl.seg f)).and
      (restsOn_holds (fl.segFile fl.seg f) (Document.part fl.seg f))
    have hstable := stable_of_reserved hfile (by simpa using reserved_segFile fl.named f)
    refine .cons ok_step hnoOlder hwrite (.cons ok_step hstable (fun d d' hok hboth h => ?_) hstored)
    obtain ⟨hclean, hholds⟩ := hfile hok hboth h fun _ _ => List.not_mem_nil
    exact ⟨hclean, hholds, fun _ => flushed_syncFile h hboth.2⟩

/-- Writing files of other names keeps what is said of a file. -/
theorem ends_otherFiles {P : Disk Document → Prop} (hP : RestsOn P [fl.segFile fl.seg f]) {fs : List SegmentFile}
    (hother : ∀ g ∈ fs, g.name ≠ f.name) : fl.Ends P (fs.flatMap fl.writeFile) P := by
  refine ends_keep hP (reserved_new fl f) fun op hop p hmem htouched => ?_
  obtain ⟨g, hg, hop⟩ := List.mem_flatMap.mp hop
  have hpath : fl.segFile fl.seg f = fl.segFile fl.seg g :=
    List.mem_singleton.mp hmem ▸ touched_writeFile hop htouched
  exact hother g hg (by simpa [segFile] using hpath.symm)

/-- Every file of a list is stored, if no two have the same name. -/
theorem ends_writeFiles {fs : List SegmentFile} (hf : f ∈ fs) (hnodup : (fs.map SegmentFile.name).Nodup) :
    fl.Ends (fun d => d.NoOlder (fl.segFile fl.seg f)) (fs.flatMap fl.writeFile) (fl.Stored f) := by
  obtain ⟨before, after, rfl⟩ := List.append_of_mem hf
  rw [List.map_append, List.map_cons, List.nodup_middle, List.nodup_cons, ← List.map_append] at hnodup
  have hother : ∀ g ∈ before ++ after, g.name ≠ f.name :=
    fun g hg heq => hnodup.1 (heq ▸ List.mem_map_of_mem hg)
  rw [List.flatMap_append, List.flatMap_cons]
  refine .append ok_step (ends_otherFiles (restsOn_noOlder _) fun g hg => hother g (List.mem_append_left _ hg)) ?_
  refine .append ok_step ends_writeFile (ends_otherFiles (restsOn_stored f) fun g hg => ?_)
  exact hother g (List.mem_append_right _ hg)

/-- Every file of the segment is there in the end, as it was written. -/
theorem ends_segment (hf : f ∈ (fl.files fl.seg).all) :
    fl.Ends (fun d => d.NoOlder (fl.segFile fl.seg f)) fl.flushGraphToSegment (fl.Stored f) := by
  have hdistinct := (fl.files fl.seg).distinct
  rw [List.map_append] at hdistinct
  obtain ⟨hsections, hplaced, hapart⟩ := List.nodup_append.mp hdistinct
  have hclean := restsOn_noOlder (α := Document) (fl.segFile fl.seg f)
  have hmkdirs : fl.Ends (fun d => d.NoOlder (fl.segFile fl.seg f)) [.mkdir fl.segmentsDir, .mkdir (fl.segDir fl.seg)]
      (fun d => d.NoOlder (fl.segFile fl.seg f)) :=
    ends_keep hclean (reserved_new fl f) (by simp [DiskOp.touched, segFile, segmentsDir, segDir])
  have hpublish : fl.Ends (fl.Stored f) fl.publishSetAndCurrent (fl.Stored f) :=
    ends_keep (restsOn_stored f) (reserved_new fl f) (by
      simp [publishSetAndCurrent, DiskOp.touched, segFile, setsDir, setTmp, setPath, currentTmp, current])
  refine .append ok_step (.append ok_step hmkdirs ?_) hpublish
  obtain hf | hf := List.mem_append.mp hf
  · refine .append ok_step (ends_writeFiles hf hsections) ?_
    refine .cons ok_step (stable_of_reserved (restsOn_stored f) (reserved_new fl f))
      (fun _ _ hok hold h => restsOn_stored f hok hold h fun _ _ => List.not_mem_nil) ?_
    exact ends_otherFiles (restsOn_stored f) fun g hg heq =>
      hapart _ (List.mem_map_of_mem hf) _ (List.mem_map_of_mem hg) heq.symm
  · refine .append ok_step (ends_otherFiles hclean fun g hg =>
      hapart _ (List.mem_map_of_mem hg) _ (List.mem_map_of_mem hf)) ?_
    exact .cons ok_step (stable_of_reserved hclean (reserved_new fl f))
      (fun _ _ hok hold h => hclean hok hold h fun _ _ => List.not_mem_nil) (ends_writeFiles hf hplaced)

/-- What one operation brings about and no later one touches holds in the end. -/
theorem ends_last (before : List (DiskOp Document)) {after : List (DiskOp Document)} {P : Disk Document → Prop}
    {ps : List Path} (hP : RestsOn P ps) (hps : ∀ p ∈ ps, fl.Reserved p) (hop : ∀ ⦃d d' : Disk Document⦄, d.step op = some d' → P d')
    (hafter : ∀ op ∈ after, ∀ p ∈ ps, p ∉ op.touched) : fl.Ends (fun _ => True) (before ++ op :: after) P :=
  .append ok_step (ends_true before) (.cons ok_step stable_true (fun _ _ _ _ h => hop h) (ends_keep hP hps hafter))

theorem ends_segmentsDir : fl.Ends (fun _ => True) fl.flushGraphToSegment
    (fun d => d.names fl.segmentsDir = some .dir) := by
  refine ends_last [] (restsOn_names _ _) (by simp [Reserved]) (fun _ _ h => names_mkdir h) ?_
  intro op hop p hmem
  obtain rfl := List.mem_singleton.mp hmem
  obtain rfl | hop := List.mem_cons.mp hop
  · simp [DiskOp.touched, segmentsDir, segDir]
  · exact apart_of_inside hop List.prefix_rfl (by simp [segmentsDir, segFile])

/-- The directory of the segment is there, with its name on the disk. -/
theorem ends_segDir : fl.Ends (fun _ => True) fl.flushGraphToSegment
    (fun d => d.names (fl.segDir fl.seg) = some .dir ∧ d.Settled (fl.segDir fl.seg)) := by
  have hps : ∀ p ∈ [fl.segDir fl.seg], fl.Reserved p := by simpa using reserved_segDir fl.named
  have hapart : ∀ op ∈ fl.inside, ∀ p ∈ [fl.segDir fl.seg], p ∉ op.touched := by
    intro op hop p hmem
    obtain rfl := List.mem_singleton.mp hmem
    exact apart_of_inside hop ⟨[toString fl.seg], rfl⟩ (by simp [segDir, segFile])
  have hsplit : fl.flushGraphToSegment = (.mkdir fl.segmentsDir :: .mkdir (fl.segDir fl.seg) ::
      SegmentFile.sections.flatMap fl.writeFile) ++ .syncDir fl.segmentsDir ::
        ((fl.files fl.seg).placed.flatMap fl.writeFile ++ fl.publishSetAndCurrent) := by
    simp [flush_eq, inside]
  refine .and (ends_last [_] (restsOn_names _ _) hps (fun _ _ h => names_mkdir h) hapart) ?_
  rw [hsplit]
  refine ends_last _ (restsOn_settled _) hps (fun _ _ h => settled_syncDir h nofun rfl) fun op hop => hapart op ?_
  rw [inside, List.append_assoc, List.cons_append]
  exact List.mem_append_right _ (.tail _ hop)

/-- A file that is written under a temporary name and renamed is in its place in the end. -/
theorem ends_renamed (before : List (DiskOp Document)) {after : List (DiskOp Document)} {src dst : Path} {doc : Document}
    (hsrc : fl.Reserved src) (hdst : fl.Reserved dst) (hafter : ∀ op ∈ after, ∀ p ∈ [dst], p ∉ op.touched) :
    fl.Ends (fun _ => True) (before ++ .write src doc :: .rename src dst :: after) (fun d => d.Holds dst doc) := by
  have hwritten := stable_of_reserved (restsOn_holds src doc) (by simpa using hsrc)
  refine .append ok_step (ends_true before) (.cons ok_step stable_true (fun _ _ _ _ h => holds_write h) ?_)
  refine .cons ok_step hwritten (fun _ _ _ hold h => holds_rename h hold) ?_
  exact ends_keep (restsOn_holds dst doc) (by simpa using hdst) hafter

/-- The set manifest is in its place, with its name on the disk. -/
theorem ends_publish_set : fl.Ends (fun _ => True) fl.publishSetAndCurrent
    (fun d => d.names fl.setsDir = some .dir ∧ d.Holds fl.setPath (.set fl.set) ∧ d.Settled fl.setPath) := by
  refine .and ?_ (.and ?_ ?_)
  · exact ends_last [] (restsOn_names _ _) (by simp [Reserved]) (fun _ _ h => names_mkdir h)
      (by simp [DiskOp.touched, setsDir, setTmp, setPath, currentTmp, current])
  · exact ends_renamed [_] (by simp [Reserved]) (by simp [Reserved])
      (by simp [DiskOp.touched, setPath, currentTmp, current])
  · exact ends_last [_, _, _] (restsOn_settled _) (by simp [Reserved]) (fun _ _ h => settled_syncDir h nofun rfl)
      (by simp [DiskOp.touched, setPath, currentTmp, current])

/-- The pointer is in its place, and the names in the directory of the graph are on the disk. -/
theorem ends_publish_pointer : fl.Ends (fun _ => True) fl.publishSetAndCurrent
    (fun d => d.Holds fl.current (.pointer fl.gen) ∧ d.Settled fl.current ∧ d.Settled fl.setsDir ∧
      d.Settled fl.segmentsDir) := by
  have hlast (p : Path) (hp : fl.Reserved p) (hne : p ≠ []) (hdir : p.dropLast = fl.graphDir) :
      fl.Ends (fun _ => True) fl.publishSetAndCurrent (fun d => d.Settled p) :=
    ends_last [_, _, _, _, _, _] (restsOn_settled p) (by simpa using hp) (fun _ _ h => settled_syncDir h hne hdir) nofun
  refine .and ?_ (.and ?_ (.and ?_ ?_))
  · exact ends_renamed [_, _, _, _] (by simp [Reserved]) (by simp [Reserved]) (by simp [DiskOp.touched])
  · exact hlast _ (by simp [Reserved]) nofun rfl
  · exact hlast _ (by simp [Reserved]) nofun rfl
  · exact hlast _ (by simp [Reserved]) nofun rfl

/-- The directory of the graph stays where it is. -/
theorem ends_graph : fl.Ends (fun d => d.Standing fl.graphDir) fl.flushGraphToSegment
    (fun d => d.Standing fl.graphDir) := by
  have hrests : RestsOn (fun d : Disk Document => d.Standing fl.graphDir) [fl.graphDir, fl.graphDir] := by
    rintro d op d' hok (h | h) hstep hp
    · exact .inl h
    · exact .inr (((restsOn_names _ _).and (restsOn_settled _)) hok h hstep hp)
  refine ends_keep hrests (by simp [Reserved]) fun op hop p hmem htouched => ?_
  obtain rfl : p = fl.graphDir := by simpa using hmem
  obtain rfl | hop := List.mem_cons.mp hop
  · simp [DiskOp.touched, graphDir, segmentsDir] at htouched
  obtain rfl | hop := List.mem_cons.mp hop
  · simp [DiskOp.touched, graphDir, segDir] at htouched
  obtain ⟨g, hg⟩ | hpub := touched_inside hop htouched
  · simp [graphDir, segFile] at hg
  · simp [graphDir, published, setsDir, setTmp, setPath, currentTmp, current] at hpub

/-- What is on the disk of the earlier segments stays there. -/
theorem ends_earlier (hs : s ∈ fl.set.segments) (hne : s ≠ fl.seg) :
    fl.Ends (fl.OnDisk s f) fl.flushGraphToSegment (fl.OnDisk s f) := by
  have hrests : RestsOn (fl.OnDisk s f) [fl.segDir s, fl.segDir s, fl.segFile s f, fl.segFile s f, fl.segFile s f] :=
    ((restsOn_names _ _).and (restsOn_settled _)).and
      ((restsOn_settled _).and ((restsOn_holds _ _).and (restsOn_flushed _)))
  have hdir : fl.segDir s ≠ fl.segDir fl.seg := fun h => hne (segDir_inj h)
  refine ends_keep hrests (by simpa using ⟨reserved_segDir hs, reserved_segFile hs f⟩) fun op hop p hmem => ?_
  obtain rfl | rfl : p = fl.segDir s ∨ p = fl.segFile s f := by simpa using hmem
  · obtain rfl | hop := List.mem_cons.mp hop
    · simp [DiskOp.touched, segmentsDir, segDir]
    obtain rfl | hop := List.mem_cons.mp hop
    · simpa [DiskOp.touched] using hdir
    · exact apart_of_inside hop ⟨[toString s], rfl⟩ (by simp [segDir, segFile])
  · obtain rfl | hop := List.mem_cons.mp hop
    · simp [DiskOp.touched, segmentsDir, segFile]
    obtain rfl | hop := List.mem_cons.mp hop
    · simp [DiskOp.touched, segFile, segDir]
    · exact apart_of_inside hop ⟨[toString s, f.name], rfl⟩ fun g => segFile_ne hne

/-- A disk with the directory of one graph. -/
def oneGraph : Disk Document where
  names p := if p = ["g"] then some .dir else none
  durable p := if p = ["g"] then some .dir else none
  files _ := none
  next := 0

/-- The first flush of the graph: segment 7, with one index over its sections, under set 1. -/
def firstFlush : SegmentFlush where
  graph := "g"
  gen := 1
  seg := 7
  set := { segments := [7] }
  files _ := { files := [.index 0, .indexMeta], distinct := by decide }
  named := List.mem_singleton_self 7

theorem firstFlush_ready : firstFlush.Ready oneGraph := by
  have hnone : ∀ p ino, oneGraph.names p ≠ some (.file ino) := by
    intro p ino
    show (if p = ["g"] then some Entry.dir else none) ≠ _
    split <;> nofun
  refine ⟨⟨fun p ino h => absurd h (hnone p ino), fun p _ ino h => absurd h (hnone p ino)⟩, .inr ⟨rfl, rfl⟩, ?_, ?_⟩
  · exact fun s hs hne => absurd (List.mem_singleton.mp hs) hne
  · exact fun f => .inl rfl

/-- Afterwards the names of the segment and the small files happen to be written back. -/
def writeBack : List (DiskOp Document) :=
  .syncDir (firstFlush.segDir 7) :: .syncFile firstFlush.setPath :: .syncFile firstFlush.current ::
    [SegmentFile.metaBin, .indexMeta, .manifest].map fun f => .syncFile (firstFlush.segFile 7 f)

/-- Nor is it enough that the pointer and the set are written back: the manifest of the segment
may be gone. -/
example : (runFrom step oneGraph (firstFlush.flushGraphToSegment ++
      [.syncFile firstFlush.setPath, .syncFile firstFlush.current])).map (fun d' =>
    ((d'.crash.read firstFlush.current).isSome, (d'.crash.read (firstFlush.segFile 7 .manifest)).isSome)) =
      some (true, false) := by decide +kernel

end SegmentFlush

end Slater
