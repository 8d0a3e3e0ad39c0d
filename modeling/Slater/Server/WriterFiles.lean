import Slater.Delta.Coherent
import Slater.Server.DeltaWriter

/-!
# The files of a writer

Between operations the directory of a writer lists, newest first, one file for each of its levels, and every
file opens as its level (`OnDisk`). A flush adds the newest, a compaction puts the merged file into the oldest
place of its run, and a retire empties the list.

A resident file does not fix the order in which `deserialise` collects the edges that patch the core, so two
openings of it may differ in the index by core edge id, and in nothing else (`Opens.sameIds`).

**What it does not establish.** The files are as the writer left them. That a level opens at all is part of
`OnDisk`, which a flush and a compaction establish by opening what they wrote.
-/

namespace Slater

open Map List WriterDir

/-! ## Opening a file -/

/-- The file opens as the level, in some order of its edges. -/
def L0File.Opens (file : L0File) (level : L0Level) : Prop :=
  ∃ cache order, file.openLevel cache order = .ok level

/-- What `deserialise` makes of an image. -/
def Memtable.reloaded (m : Memtable) (order : List EdgeIdentity) : Memtable :=
  { m with
    byEdgeId := m.collectEdgeIds order
    tombstoned := m.collectTombstoned
    bornLabelCounts := m.collectLabelCounts }

theorem Memtable.reload_eq_ok {m m' : Memtable} {order : List EdgeIdentity} :
    m.reload order = .ok m' ↔ m.Loadable ∧ m' = m.reloaded order := by
  unfold reload
  split
  next h => exact ⟨fun heq => ⟨h, (Except.ok.inj heq).symm⟩, fun heq => by rw [heq.2]; rfl⟩
  next h => exact ⟨nofun, fun heq => absurd heq.1 h⟩

namespace L0File

variable {level : L0Level}

theorem opens_resident {image : Memtable} : (L0File.resident image).Opens level ↔
      image.Loadable ∧ ∃ order, level = .resident (image.reloaded order) := by
  constructor
  · rintro ⟨cache, order, h⟩
    obtain ⟨m, hm, rfl⟩ := map_eq_ok.mp h
    obtain ⟨hload, rfl⟩ := Memtable.reload_eq_ok.mp hm
    exact ⟨hload, order, rfl⟩
  · rintro ⟨hload, order, rfl⟩
    exact ⟨false, order, map_eq_ok.mpr ⟨_, Memtable.reload_eq_ok.mpr ⟨hload, rfl⟩, rfl⟩⟩

theorem opens_offHeap {files : SegmentFiles} :
    (L0File.offHeap files).Opens level ↔ ∃ segment, files.open = .ok segment ∧ level = .offHeap segment := by
  constructor
  · rintro ⟨cache, order, h⟩
    cases cache with
    | false => cases h
    | true =>
      obtain ⟨segment, hs, rfl⟩ := map_eq_ok.mp h
      exact ⟨segment, hs, rfl⟩
  · rintro ⟨segment, hs, rfl⟩
    exact ⟨true, [], map_eq_ok.mpr ⟨segment, hs, rfl⟩⟩

/-- Two openings of a file are one level, or one image with its index collected in two
orders. -/
theorem Opens.two {file : L0File} {l l' : L0Level} (h : file.Opens l) (h' : file.Opens l') : l' = l ∨
    ∃ (image : Memtable) (order order' : List EdgeIdentity), image.Loadable ∧ l = .resident (image.reloaded order) ∧
      l' = .resident (image.reloaded order') := by
  cases file with
  | resident image =>
    obtain ⟨hload, order, rfl⟩ := opens_resident.mp h
    obtain ⟨-, order', rfl⟩ := opens_resident.mp h'
    exact .inr ⟨image, order, order', hload, rfl, rfl⟩
  | offHeap files =>
    obtain ⟨segment, hs, rfl⟩ := opens_offHeap.mp h
    obtain ⟨segment', hs', rfl⟩ := opens_offHeap.mp h'
    cases hs.symm.trans hs'
    exact .inl rfl

end L0File

/-- A segment that opens was read by the reader it is opened with. -/
theorem openSegment_of_open {files : SegmentFiles} {s : OpenSegment} (h : files.open = .ok s) :
    openSegment files = .ok s.reader := by
  unfold SegmentFiles.open at h
  split at h
  next => cases h
  next reader hreader =>
    split at h
    next => cases h
    next =>
      cases h
      exact hreader

/-! ## Levels with the same ids -/

/-- Two levels give the same ids: the answers about keys, dense ids and listed edges agree. -/
structure Level.SameIds (l l' : Level) : Prop where
  nodeBase : l'.syntheticBase = l.syntheticBase
  nodeCount : l'.bornCount = l.bornCount
  born : l'.bornSyntheticForIdentity = l.bornSyntheticForIdentity
  identity : l'.nodeIdentity = l.nodeIdentity
  edgeBase : l'.edgeSyntheticBase = l.edgeSyntheticBase
  edgeCount : l'.bornEdgeCount = l.bornEdgeCount
  outEdges : l'.outEdges = l.outEdges

/-- Two levels of one format give the same ids. -/
structure L0Level.SameIds (l l' : L0Level) : Prop where
  offHeap : l'.isOffHeap = l.isOffHeap
  ids : l.asLevel.SameIds l'.asLevel

/-- **Two openings of a file give the same ids.** What the two openings may differ in is which
of two patches of one core edge its id leads to. -/
theorem L0File.Opens.sameIds {file : L0File} {l l' : L0Level} (h : file.Opens l) (h' : file.Opens l') :
    l.SameIds l' := by
  rcases h.two h' with rfl | ⟨image, order, order', -, rfl, rfl⟩ <;>
    exact ⟨rfl, rfl, rfl, rfl, rfl, rfl, rfl, rfl⟩

/-! ## The directory -/

namespace WriterDir

theorem performAll_removeWal (d : WriterDir) (ns : List Nat) :
    d.performAll (ns.map .removeWal) = { d with wal := eraseAll d.wal ns } := by
  induction ns generalizing d with
  | nil => rfl
  | cons n ns ih => exact ih _

theorem performAll_removeL0 (d : WriterDir) (ns : List Nat) :
    d.performAll (ns.map .removeL0) = { d with l0 := eraseAll d.l0 ns } := by
  induction ns generalizing d with
  | nil => rfl
  | cons n ns ih => exact ih _

end WriterDir

/-- The directory holds the levels, newest first by their numbers, each in a file that opens as
it. The numbers of the files order the levels; a compaction takes the number of the oldest file
of its run. -/
structure OnDisk (files : Map Nat L0File) (l0 : List (Nat × L0Level)) : Prop where
  descending : (l0.map Prod.fst).Pairwise (· > ·)
  listed : ∀ n, n ∈ files.keys ↔ n ∈ l0.map Prod.fst
  opens : ∀ l ∈ l0, ∃ file, files.lookup l.1 = some file ∧ file.Opens l.2

namespace OnDisk

variable {files : Map Nat L0File} {l0 above run below : List (Nat × L0Level)} {file : L0File}
  {level : L0Level}

/-- Every file opens as a level. -/
theorem level_of_file (h : OnDisk files l0) {n : Nat} {file : L0File} (hfile : files.lookup n = some file) :
    ∃ l ∈ l0.map Prod.snd, file.Opens l := by
  obtain ⟨l, hl, rfl⟩ := mem_map.mp ((h.listed n).mp ((mem_keys_iff ..).mpr ⟨file, hfile⟩))
  obtain ⟨file', hfile', hopens⟩ := h.opens l hl
  cases hfile.symm.trans hfile'
  exact ⟨l.2, mem_map_of_mem hl, hopens⟩

theorem empty : OnDisk ∅ [] := ⟨List.Pairwise.nil, by simp, nofun⟩

/-- A new file gets the highest number. -/
theorem flush (h : OnDisk files l0) (hopen : file.Opens level) :
    OnDisk (files.insert (nextNumber files) file) ((nextNumber files, level) :: l0) where
  descending := by
    rw [map_cons, pairwise_cons]
    exact ⟨fun n hn => lt_nextNumber ((h.listed n).mpr hn), h.descending⟩
  listed := by
    intro n
    rw [mem_keys_iff, map_cons, mem_cons, ← h.listed n, mem_keys_iff, lookup_insert_ite]
    split
    next heq => simp [heq]
    next hne => simp [hne]
  opens := by
    intro l hl
    rcases mem_cons.mp hl with rfl | hold
    · exact ⟨file, Finmap.lookup_insert _, hopen⟩
    · obtain ⟨file', hfile', hopen'⟩ := h.opens l hold
      have hne : l.1 ≠ nextNumber files := by
        intro heq
        rw [heq, lookup_nextNumber] at hfile'
        cases hfile'
      exact ⟨file', (Finmap.lookup_insert_of_ne _ hne).trans hfile', hopen'⟩

/-- Without its files a directory holds no level. -/
theorem clear (h : OnDisk files l0) : OnDisk (eraseAll files (l0.map Prod.fst)) [] where
  descending := List.Pairwise.nil
  listed := by
    intro n
    rw [mem_keys_iff, lookup_eraseAll]
    split
    next => simp
    next hn =>
      rw [← h.listed, mem_keys_iff] at hn
      simpa using hn
  opens := nofun

/-- A merged file takes the oldest place of its run, and the newer files of the run are
removed. -/
theorem compact {o : Nat} {oldest : L0Level} (h : OnDisk files (above ++ (run ++ (o, oldest) :: below)))
    (hopen : file.Opens level) :
    OnDisk (eraseAll (files.insert o file) (run.map Prod.fst)) (above ++ (o, level) :: below) := by
  have hnodup : ((above ++ (run ++ (o, oldest) :: below)).map Prod.fst).Nodup :=
    h.descending.imp fun hgt => (ne_of_lt hgt).symm
  simp only [map_append] at hnodup
  obtain ⟨-, hrest, habove⟩ := nodup_append.mp hnodup
  obtain ⟨-, htail, hrun⟩ := nodup_append.mp hrest
  have hlookup : ∀ n, (eraseAll (files.insert o file) (run.map Prod.fst)).lookup n =
      if n ∈ run.map Prod.fst then none else if n = o then some file else files.lookup n := by
    intro n
    rw [lookup_eraseAll, lookup_insert_ite]
  have hfresh : o ∉ run.map Prod.fst := fun hmem => hrun o hmem o (.head _) rfl
  -- a file outside the run is left alone
  have hkept : ∀ n, n ∈ above.map Prod.fst ∨ n ∈ below.map Prod.fst →
      (eraseAll (files.insert o file) (run.map Prod.fst)).lookup n = files.lookup n := by
    intro n hn
    have hne : n ∉ run.map Prod.fst ∧ n ≠ o := by
      rcases hn with hn | hn
      · refine ⟨fun hmem => habove n hn n (mem_append_left _ hmem) rfl, fun heq => ?_⟩
        exact habove n hn o (mem_append_right _ (.head _)) heq
      · refine ⟨fun hmem => hrun n hmem n (.tail _ hn) rfl, fun heq => ?_⟩
        exact (nodup_cons.mp htail).1 (heq ▸ hn)
    rw [hlookup, if_neg hne.1, if_neg hne.2]
  constructor
  case descending =>
    have hsub : List.Sublist ((above ++ (o, level) :: below).map Prod.fst)
        ((above ++ (run ++ (o, oldest) :: below)).map Prod.fst) := by
      simp only [map_append]
      exact (List.Sublist.refl _).append (sublist_append_right _ _)
    exact h.descending.sublist hsub
  case listed =>
    intro n
    have hold := h.listed n
    rw [mem_keys_iff] at hold ⊢
    rw [hlookup]
    by_cases hmem : n ∈ run.map Prod.fst
    · have hnone : ¬(n ∈ above.map Prod.fst ∨ n = o ∨ n ∈ below.map Prod.fst) := by
        rintro (ha | rfl | hb)
        · exact habove n ha n (mem_append_left _ hmem) rfl
        · exact hfresh hmem
        · exact hrun n hmem n (.tail _ hb) rfl
      simpa [hmem] using hnone
    · by_cases ho : n = o
      · simp [hfresh, ho]
      · simpa [hmem, ho] using hold
  case opens =>
    intro l hl
    rcases mem_append.mp hl with ha | hb
    · obtain ⟨f, hf, hopens⟩ := h.opens l (mem_append_left _ ha)
      exact ⟨f, (hkept l.1 (.inl (mem_map_of_mem ha))).trans hf, hopens⟩
    · rcases mem_cons.mp hb with rfl | hb
      · exact ⟨file, by rw [hlookup, if_neg hfresh, if_pos rfl], hopen⟩
      · obtain ⟨f, hf, hopens⟩ := h.opens l
          (mem_append_right _ (mem_append_right _ (.tail _ hb)))
        exact ⟨f, (hkept l.1 (.inr (mem_map_of_mem hb))).trans hf, hopens⟩

end OnDisk

/-! ## Opening the directory -/

variable {load : Nat → List EdgeIdentity} {levels : List (Nat × L0Level)} {cache : Bool}

theorem openLevels_spec {files : List (Nat × L0File)}
    (h : DeltaWriter.openLevels cache load files = .ok levels) : levels.map Prod.fst = files.map Prod.fst ∧
      ∀ l ∈ levels, ∃ file, (l.1, file) ∈ files ∧ file.openLevel cache (load l.1) = .ok l.2 := by
  induction files generalizing levels with
  | nil =>
    cases h
    exact ⟨rfl, nofun⟩
  | cons f files ih =>
    obtain ⟨level, hlevel, rest, hrest, rfl⟩ := bind_bind_eq_ok.mp h
    obtain ⟨hnumbers, hopens⟩ := ih hrest
    refine ⟨by rw [map_cons, map_cons, hnumbers], fun l hl => ?_⟩
    rcases mem_cons.mp hl with rfl | hl
    · exact ⟨f.2, .head _, hlevel⟩
    · obtain ⟨file, hfile, hopen⟩ := hopens l hl
      exact ⟨file, .tail _ hfile, hopen⟩

/-- Every level that was opened stems from a file of the directory. -/
theorem opened_of_openLevels {files : Map Nat L0File}
    (h : DeltaWriter.openLevels cache load files.pairs = .ok levels) :
    ∀ l ∈ levels.reverse.map Prod.snd, ∃ n file, files.lookup n = some file ∧
      file.openLevel cache (load n) = .ok l := by
  intro l hl
  obtain ⟨entry, hentry, rfl⟩ := mem_map.mp hl
  obtain ⟨file, hfile, hlevel⟩ := (openLevels_spec h).2 entry (mem_reverse.mp hentry)
  exact ⟨entry.1, file, mem_pairs.mp hfile, hlevel⟩

/-- Two lists keyed alike, by distinct keys, are related entry by entry. -/
theorem forall₂_of_keys {α β : Type} {R : α → β → Prop} {xs : List (Nat × α)} {ys : List (Nat × β)}
    (hkeys : xs.map Prod.fst = ys.map Prod.fst) (hnodup : (xs.map Prod.fst).Nodup)
    (hR : ∀ n a b, (n, a) ∈ xs → (n, b) ∈ ys → R a b) : List.Forall₂ R (xs.map Prod.snd) (ys.map Prod.snd) := by
  induction xs generalizing ys with
  | nil =>
    cases ys with
    | nil => exact .nil
    | cons y ys => cases hkeys
  | cons x xs ih =>
    cases ys with
    | nil => cases hkeys
    | cons y ys =>
      rw [map_cons, map_cons, cons.injEq] at hkeys
      refine .cons ?_ (ih hkeys.2 (nodup_cons.mp hnodup).2 fun n a b ha hb =>
        hR n a b (.tail _ ha) (.tail _ hb))
      refine hR x.1 x.2 y.2 (.head _) ?_
      rw [hkeys.1]
      exact (.head _)

namespace OnDisk

variable {files : Map Nat L0File} {l0 levels : List (Nat × L0Level)} {cache : Bool}
  {load : Nat → List EdgeIdentity}

/-- **Reopening finds the levels again**, each from the file it was read from before. -/
theorem reopen (h : OnDisk files l0) (hopen : DeltaWriter.openLevels cache load files.pairs = .ok levels) :
    OnDisk files levels.reverse ∧
      List.Forall₂ (fun l l' => ∃ n file, files.lookup n = some file ∧ L0File.Opens file l ∧
          file.openLevel cache (load n) = .ok l') (l0.map Prod.snd) (levels.reverse.map Prod.snd) := by
  obtain ⟨hnumbers, hopens⟩ := openLevels_spec hopen
  have hdescending : (levels.reverse.map Prod.fst).Pairwise (· > ·) := by
    rw [map_reverse, pairwise_reverse, hnumbers]
    exact pairs_strict files
  have hmem : ∀ n, n ∈ levels.reverse.map Prod.fst ↔ n ∈ files.keys := by
    intro n
    rw [map_reverse, mem_reverse, hnumbers, mem_keys_iff, mem_map]
    constructor
    · rintro ⟨kv, hkv, rfl⟩
      exact ⟨kv.2, mem_pairs.mp hkv⟩
    · rintro ⟨v, hv⟩
      exact ⟨(n, v), mem_pairs.mpr hv, rfl⟩
  have hkeys : l0.map Prod.fst = levels.reverse.map Prod.fst := by
    refine List.Perm.eq_of_pairwise (fun a b _ _ hab hba => absurd hab (lt_asymm hba)) h.descending hdescending ?_
    refine (perm_ext_iff_of_nodup (h.descending.imp fun hgt => (ne_of_lt hgt).symm)
      (hdescending.imp fun hgt => (ne_of_lt hgt).symm)).mpr fun n => ?_
    rw [hmem, h.listed]
  refine ⟨⟨hdescending, fun n => (hmem n).symm, fun l hl => ?_⟩, ?_⟩
  · obtain ⟨file, hfile, hlevel⟩ := hopens l (mem_reverse.mp hl)
    exact ⟨file, mem_pairs.mp hfile, cache, load l.1, hlevel⟩
  · refine forall₂_of_keys hkeys (h.descending.imp fun hgt => (ne_of_lt hgt).symm) fun n l l' hl hl' => ?_
    obtain ⟨file, hfile, hopen⟩ := h.opens (n, l) hl
    obtain ⟨file', hfile', hlevel⟩ := hopens (n, l') (mem_reverse.mp hl')
    rw [mem_pairs, hfile] at hfile'
    cases hfile'
    exact ⟨n, file, hfile, hopen, hlevel⟩

end OnDisk

/-! ## What the operations do -/

namespace DeltaWriter

variable {w w' : DeltaWriter} {choices : Choices} {changed : Bool} {run : List L0Level}

/-- The writer after a flush that sealed its memtable as a level. -/
def flushed (w : DeltaWriter) (choices : Choices) (level : L0Level) : DeltaWriter :=
  { w with
    dir := w.dir.performAll (w.flushSteps choices)
    sink := nextNumber w.dir.wal
    mem := .withBases (w.mem.syntheticBase + w.mem.born.length) (w.mem.edgeSyntheticBase + w.mem.bornEdges.length)
    l0 := (nextNumber w.dir.l0, level) :: w.l0 }

/-- **A flush** leaves the writer alone or seals its memtable. -/
theorem flushToL0_cases (h : w.flushToL0 choices = .ok (w', changed)) :
    w' = w ∨ ∃ level, (w.flushedFile choices).openLevel w.cache choices.load = .ok level ∧
      w' = w.flushed choices level := by
  unfold flushToL0 at h
  split at h
  next =>
    cases h
    exact .inl rfl
  next =>
    split at h
    next =>
      cases h
      exact .inl rfl
    next =>
      split at h
      next => cases h
      next =>
        obtain ⟨level, hlevel, h⟩ := bind_eq_ok.mp h
        cases h
        exact .inr ⟨level, hlevel, rfl⟩

theorem flushed_l0 (w : DeltaWriter) (choices : Choices) (level : L0Level) : (w.flushed choices level).dir.l0 =
      w.dir.l0.insert (nextNumber w.dir.l0) (w.flushedFile choices) := by
  show (performAll _ (choices.listing.map .removeWal)).l0 = _
  rw [performAll_removeWal]
  rfl

/-- The levels that `compact_l0` merges, newest first. -/
def compactionRun (w : DeltaWriter) (sizes : List Nat) : List (Nat × L0Level) :=
  match selectCompactionRunInStack (sizes.zip (w.levels.map L0Level.isOffHeap)) with
  | none => []
  | some (start, stop) => (w.l0.take stop).drop start

/-- The writer after a compaction that merged a run into the place of its oldest level. -/
def compacted (w : DeltaWriter) (above run below : List (Nat × L0Level)) (o : Nat) (file : L0File)
    (merged : L0Level) : DeltaWriter :=
  { w with
    dir := w.dir.performAll (compactSteps o (run.map Prod.fst) file)
    l0 := above ++ (o, merged) :: below }

/-- **A compaction** leaves the writer alone or merges a run. -/
theorem compactL0_cases {sizes : List Nat} (h : w.compactL0 sizes choices = .ok (w', changed)) :
    w' = w ∨ ∃ above run o oldest below file merged,
      w.l0 = above ++ (run ++ (o, oldest) :: below) ∧ w.compactionRun sizes = run ++ [(o, oldest)] ∧
      mergedFile choices ((run ++ [(o, oldest)]).map Prod.snd) = some file ∧
      file.openLevel w.cache choices.load = .ok merged ∧ w' = w.compacted above run below o file merged := by
  unfold compactL0 at h
  split at h
  next =>
    cases h
    exact .inl rfl
  next =>
    split at h
    next =>
      cases h
      exact .inl rfl
    next =>
      split at h
      next =>
        cases h
        exact .inl rfl
      next start stop hselect =>
        simp only at h
        split at h
        next =>
          cases h
          exact .inl rfl
        next o oldest hlast =>
          split at h
          next => cases h
          next =>
            split at h
            next => cases h
            next file hfile =>
              obtain ⟨merged, hmerged, h⟩ := bind_eq_ok.mp h
              cases h
              obtain ⟨run, hrun⟩ := getLast?_eq_some_iff.mp hlast
              refine .inr ⟨w.l0.take start, run, o, oldest, w.l0.drop stop, file, merged, ?_, ?_, ?_,
                hmerged, ?_⟩
              · have hlt : start ≤ stop := by
                  by_contra hgt
                  have hnil : (w.l0.take stop).drop start = [] :=
                    drop_eq_nil_of_le ((length_take_le ..).trans (Nat.le_of_not_le hgt))
                  rw [hnil] at hrun
                  exact absurd hrun (by simp)
                have hsplit : w.l0.take start ++ (w.l0.take stop).drop start = w.l0.take stop := by
                  have htake : (w.l0.take stop).take start = w.l0.take start := by
                    rw [take_take, Nat.min_eq_left hlt]
                  rw [← htake]
                  exact take_append_drop ..
                rw [hrun] at hsplit
                calc w.l0 = w.l0.take stop ++ w.l0.drop stop := (take_append_drop ..).symm
                  _ = _ := by rw [← hsplit]; simp
              · rw [compactionRun, hselect]
                exact hrun
              · rw [← hrun]
                exact hfile
              · rw [compacted, hrun, dropLast_concat]

theorem compacted_l0 (w : DeltaWriter) (above run below : List (Nat × L0Level)) (o : Nat) (file : L0File)
    (merged : L0Level) :
    (w.compacted above run below o file merged).dir.l0 = eraseAll (w.dir.l0.insert o file) (run.map Prod.fst) := by
  cases file with
  | resident image =>
    show (performAll _ ((run.map Prod.fst).map .removeL0)).l0 = _
    rw [performAll_removeL0]
    rfl
  | offHeap files =>
    show (performAll _ ((run.map Prod.fst).map .removeL0)).l0 = _
    rw [performAll_removeL0]
    show eraseAll ((w.dir.l0.erase o).insert o _) _ = _
    congr 1
    apply Finmap.ext_lookup
    intro n
    rw [lookup_insert_ite, lookup_insert_ite, lookup_erase_ite]
    split <;> rfl

/-- A list read through the inverse of a constructor is a list of its values. -/
theorem mapM_inverse_eq_some {α β : Type} {f : β → Option α} {g : α → β} (hf : ∀ b a, f b = some a ↔ b = g a)
    {xs : List β} {ys : List α} : xs.mapM f = some ys ↔ xs = ys.map g := by
  induction xs generalizing ys with
  | nil => cases ys <;> simp
  | cons x xs ih =>
    rw [mapM_cons]
    constructor
    · intro h
      obtain ⟨y, hy, rest, hrest, rfl⟩ := bind_bind_eq_some.mp h
      rw [(hf x y).mp hy, ih.mp hrest, map_cons]
    · intro h
      cases ys with
      | nil => cases h
      | cons y ys =>
        rw [map_cons, cons.injEq] at h
        refine Option.bind_eq_some_iff.mpr ⟨y, (hf x y).mpr h.1, ?_⟩
        exact Option.bind_eq_some_iff.mpr ⟨ys, ih.mpr h.2, rfl⟩

theorem mapM_offheapReader {segments : List OpenSegment} :
    run.mapM L0Level.offheapReader = some segments ↔ run = segments.map .offHeap :=
  mapM_inverse_eq_some fun l s => by cases l <;> simp [L0Level.offheapReader]

theorem mapM_residentMemtable {mems : List Memtable} :
    run.mapM L0Level.residentMemtable = some mems ↔ run = mems.map .resident :=
  mapM_inverse_eq_some fun l m => by cases l <;> simp [L0Level.residentMemtable]

/-- The merged file of a run of one format. -/
theorem mergedFile_cases {file : L0File} (h : mergedFile choices run = some file) :
    (∃ segments files, run = segments.map .offHeap ∧ mergeRun segments choices.scope = some files ∧
      file = .offHeap files) ∨ (∃ mems image, run = mems.map .resident ∧
      mergeLevels choices.nodeOrder choices.edgeOrder mems = some image ∧ file = .resident image) := by
  unfold mergedFile at h
  split at h
  next _ segments hsegments =>
    obtain ⟨files, hfiles, rfl⟩ := Option.map_eq_some_iff.mp h
    exact .inl ⟨segments, files, mapM_offheapReader.mp hsegments, hfiles, rfl⟩
  next _ mems _ hmems =>
    obtain ⟨image, himage, rfl⟩ := Option.map_eq_some_iff.mp h
    exact .inr ⟨mems, image, mapM_residentMemtable.mp hmems, himage, rfl⟩
  next => cases h

end DeltaWriter

end Slater
