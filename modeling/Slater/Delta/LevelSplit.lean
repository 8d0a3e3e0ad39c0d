import Slater.Delta.Facet
import Slater.Exec.NodeOverlay

/-!
# Splitting a node's writes over levels

`flush_to_l0` seals the active memtable and starts a fresh one, so the writes to one node end up cut
into consecutive chunks, each folded into its own level. A level keeps a summary of its chunk, and
`node_patch` folds the summaries. The question is whether the fold shows the node as one memtable
with all the writes would.

`foldPresent_chunks` answers what the fold shows: of each chunk, what its summary remembers. A summary
remembers a delete only if it is the chunk's last write. If the chunk writes the node again after
deleting it, the summary holds the later writes alone, and whatever the levels below still carry
shows through. `splitSnapshot_readsSame_iff` says that this is the only way the two readings part, and
that they part exactly when a facet the older levels carry is not decided again after the delete.

The chunks write one identity resolved to one dense id, so no level allocates a node, and the
synthetic bases play no part.
-/

namespace Slater

open Map NodeDelta List Option DeltaSnapshot

/-! ## What a stack of summaries remembers -/

/-- What the summary of a run of writes remembers of it: a delete if it is the last write, else
the writes since the last delete. -/
def remembered (ws : List NodeWrite) : List NodeWrite :=
  match ws.getLast? with
  | some .delete => [.delete]
  | _ => sinceDelete ws

section

variable (ws : List NodeWrite)

theorem sinceDelete_concat (w : NodeWrite) :
    sinceDelete (ws ++ [w]) = if w = .delete then [] else sinceDelete ws ++ [w] := by
  by_cases hw : w = .delete <;> simp [sinceDelete, hw]

theorem delete_notMem_sinceDelete : .delete ∉ sinceDelete ws := by
  intro h
  simpa using mem_rtakeWhile_imp h

theorem remembered_concat (w : NodeWrite) :
    remembered (ws ++ [w]) = if w = .delete then [.delete] else sinceDelete (ws ++ [w]) := by
  cases w <;> simp [remembered]

/-- The delta of a run, with its tombstone cleared, is the delta of the writes since the last
delete. -/
theorem resurrect_writeAll :
    (({} : NodeDelta).writeAll ws).resurrect = ({} : NodeDelta).writeAll (sinceDelete ws) := by
  induction ws using reverseRecOn with
  | nil => rfl
  | append_singleton ws w ih =>
    rw [sinceDelete_concat, writeAll_append]
    split
    next hw => subst hw; rfl
    next hw =>
      rw [writeAll_append, ← ih]
      cases w <;> first | rfl | exact absurd rfl hw

theorem writeAll_remembered : ({} : NodeDelta).writeAll (remembered ws) = ({} : NodeDelta).writeAll ws := by
  induction ws using reverseRecOn with
  | nil => rfl
  | append_singleton ws w _ =>
    rw [remembered_concat]
    split
    next hw => subst hw; rw [writeAll_append]; rfl
    next hw =>
      rw [← resurrect_writeAll, writeAll_append]
      cases w <;> first | rfl | exact absurd rfl hw


end
variable {ws : List NodeWrite}

/-- **Folding one level**: onto an older delta, the summary of a run acts as the part of the run
it remembers. -/
theorem foldNewer_remembered {older : NodeDelta} (ho : older.Consistent) (hne : ws ≠ []) :
    older.foldNewer (({} : NodeDelta).writeAll ws) = older.writeAll (remembered ws) := by
  induction ws using reverseRecOn with
  | nil => exact absurd rfl hne
  | append_singleton ws w _ =>
    rw [← writeAll_remembered, remembered_concat]
    split
    next hw => exact foldNewer_of_tombstoned older rfl
    next hw =>
      rw [foldNewer_writeAll ho (delete_notMem_sinceDelete _), writeAll_resurrect]
      rw [sinceDelete_concat, if_neg hw]
      simp

/-- The summary one chunk of writes leaves in its level. -/
def chunkDelta (ws : List NodeWrite) : Option NodeDelta :=
  if ws = [] then none else some (({} : NodeDelta).writeAll ws)

theorem remembered_eq_nil : remembered ws = [] ↔ ws = [] := by
  induction ws using reverseRecOn with
  | nil => simp [remembered, sinceDelete]
  | append_singleton ws w _ =>
    rw [remembered_concat, sinceDelete_concat]
    split <;> simp

/-- **A stack of summaries reads as the writes it remembers**, chunk by chunk. An empty chunk
has no delta and takes no part in the fold. -/
theorem foldPresent_chunks (chunks : List (List NodeWrite)) :
    foldPresent foldNewer (chunks.map chunkDelta) = chunkDelta (chunks.flatMap remembered) := by
  induction chunks using reverseRecOn with
  | nil => rfl
  | append_singleton chunks c ih =>
    rw [map_append, map_singleton, foldPresent_concat, ih, flatMap_append,
      flatMap_singleton]
    by_cases hc : c = []
    · subst hc
      simp [chunkDelta, remembered, sinceDelete]
    · have hrc : remembered c ≠ [] := mt remembered_eq_nil.mp hc
      simp only [chunkDelta, hc, if_false, elim_some, append_eq_nil_iff, hrc, and_false,
        Option.some.injEq]
      split
      next h => rw [h]; exact (writeAll_remembered c).symm
      next h =>
        rw [elim_some, foldNewer_remembered (writeAll_consistent consistent_empty _) hc,
          writeAll_append]

/-! ## Levels of one node's writes -/

section Split

variable (nodeBase edgeBase : Nat) (id : NodeIdentity) (dense : Nat)
variable {ws post : List NodeWrite} {chunks : List (List NodeWrite)} {s : DeltaSnapshot} {d a b : NodeDelta}

/-- The memtable that receives a chunk of writes to one resolved node. -/
def chunkTable (ws : List NodeWrite) : Memtable :=
  (Memtable.withBases nodeBase edgeBase).applyAll (ws.map fun w => .node id w (some dense))

/-- The chunks, oldest first, each in its own level, and the active memtable over them. Every
level starts from the same bases, since none of the writes allocates. -/
def splitSnapshot (older : List (List NodeWrite)) (active : List NodeWrite) : DeltaSnapshot where
  mem := chunkTable nodeBase edgeBase id dense active
  l0 := (older.map fun ws => (chunkTable nodeBase edgeBase id dense ws).level).reverse

theorem applyAll_writes {m : Memtable} {entry : NodeEntry}
    (hn : m.nodes.lookup id = some entry) (hb : m.byDense.lookup dense = some id) (ws : List NodeWrite) :
    (m.applyAll (ws.map fun w => .node id w (some dense))).nodes.lookup id =
        some { entry with delta := entry.delta.writeAll ws } ∧
      (m.applyAll (ws.map fun w => .node id w (some dense))).byDense.lookup dense = some id := by
  induction ws generalizing m entry with
  | nil => exact ⟨hn, hb⟩
  | cons w ws ih =>
    have hstep : m.apply (.node id w (some dense)) = _ := Memtable.writeNode_some m id dense w
    have hentry : m.entryOf id = entry := by rw [Memtable.entryOf, hn, getD_some]
    rw [hentry] at hstep
    refine @ih _ { entry with delta := entry.delta.write w } ?_ ?_
    · rw [hstep]; exact Finmap.lookup_insert _
    · rw [hstep]; exact Finmap.lookup_insert _

theorem chunkTable_lookup (hne : ws ≠ []) : (chunkTable nodeBase edgeBase id dense ws).nodes.lookup id =
        some { delta := ({} : NodeDelta).writeAll ws } ∧
      (chunkTable nodeBase edgeBase id dense ws).byDense.lookup dense = some id := by
  cases ws with
  | nil => exact absurd rfl hne
  | cons w ws =>
    have hstep : (Memtable.withBases nodeBase edgeBase).apply (.node id w (some dense)) = _ :=
      Memtable.writeNode_some _ id dense w
    refine @applyAll_writes id dense _ { delta := ({} : NodeDelta).write w } ?_ ?_ ws
    · rw [hstep]; exact Finmap.lookup_insert _
    · rw [hstep]; exact Finmap.lookup_insert _

section

variable (ws : List NodeWrite)

theorem chunkTable_nodePatch : (chunkTable nodeBase edgeBase id dense ws).nodePatch dense = chunkDelta ws := by
  by_cases hne : ws = []
  · subst hne; rfl
  · obtain ⟨hn, hb⟩ := chunkTable_lookup nodeBase edgeBase id dense hne
    rw [Memtable.nodePatch, hb, bind_some, hn, map_some, chunkDelta, if_neg hne]

theorem chunkTable_nodeIdentity : (chunkTable nodeBase edgeBase id dense ws).nodeIdentity dense =
      if ws = [] then none else some id := by
  by_cases hne : ws = []
  · subst hne; rfl
  · obtain ⟨hn, hb⟩ := chunkTable_lookup nodeBase edgeBase id dense hne
    rw [Memtable.nodeIdentity, hb, bind_some, hn, map_some, if_neg hne]

theorem chunkTable_isEmpty : (chunkTable nodeBase edgeBase id dense ws).isEmpty = decide (ws = []) := by
  by_cases hne : ws = []
  · subst hne; rfl
  · obtain ⟨hn, -⟩ := chunkTable_lookup nodeBase edgeBase id dense hne
    have hnodes : (chunkTable nodeBase edgeBase id dense ws).nodes ≠ ∅ := by
      intro h
      rw [h] at hn
      exact nomatch hn
    rw [Memtable.isEmpty, decide_eq_false hnodes, decide_eq_false hne, Bool.false_and]

end

/-! ### The answers of the split stack -/

section

variable (older : List (List NodeWrite)) (active : List NodeWrite)

theorem splitSnapshot_levels : (splitSnapshot nodeBase edgeBase id dense older active).levels =
      ((older ++ [active]).map fun ws => (chunkTable nodeBase edgeBase id dense ws).level).reverse := by
  simp [levels, splitSnapshot]

theorem splitSnapshot_nodePatch : (splitSnapshot nodeBase edgeBase id dense older active).nodePatch dense =
      chunkDelta ((older ++ [active]).flatMap remembered) := by
  have hfold := foldPresent_chunks (older ++ [active])
  unfold nodePatch
  split
  next h =>
    have : older = [] := by simpa [splitSnapshot] using h
    subst this
    rw [← hfold]
    change (chunkTable nodeBase edgeBase id dense active).nodePatch dense = _
    rw [chunkTable_nodePatch]
    cases h : chunkDelta active <;> simp [foldPresent, h]
  next =>
    rw [splitSnapshot_levels, List.reverse_reverse, List.map_map, ← hfold]
    congr 1
    apply map_congr_left
    intro ws _
    exact chunkTable_nodePatch nodeBase edgeBase id dense ws


end
theorem findSome_levels {β : Type} (older : List (List NodeWrite)) (active : List NodeWrite)
    (read : Level → Option β) (g : List NodeWrite → Option β)
    (hread : ∀ ws, read (chunkTable nodeBase edgeBase id dense ws).level = g ws)
    (hnil : g [] = none) (hne : ∀ pre ws, ws ≠ [] → g (pre ++ ws) = g ws ∧ g ws ≠ none) :
    (splitSnapshot nodeBase edgeBase id dense older active).levels.findSome? read = g (older ++ [active]).flatten := by
  rw [splitSnapshot_levels]
  generalize older ++ [active] = chunks
  induction chunks using reverseRecOn with
  | nil => exact hnil.symm
  | append_singleton chunks c ih =>
    rw [map_append, reverse_append, map_singleton, reverse_singleton,
      singleton_append, findSome?_cons, hread, flatten_append, flatten_singleton]
    by_cases hc : c = []
    · subst hc
      rw [hnil, ih, append_nil]
    · obtain ⟨heq, hsome⟩ := hne chunks.flatten c hc
      obtain ⟨b, hb⟩ := ne_none_iff_exists'.mp hsome
      rw [heq, hb]

theorem writeAll_tombstoned_of_ne (hne : ws ≠ []) : (a.writeAll ws).tombstoned = (b.writeAll ws).tombstoned := by
  induction ws using reverseRecOn with
  | nil => exact absurd rfl hne
  | append_singleton ws w _ =>
    rw [writeAll_append, writeAll_append, writeAll_cons, writeAll_cons, writeAll_nil, writeAll_nil,
      write_tombstoned, write_tombstoned]

section

variable (older : List (List NodeWrite)) (active : List NodeWrite)

theorem splitSnapshot_isTombstoned : (splitSnapshot nodeBase edgeBase id dense older active).isTombstoned dense =
      ((chunkDelta (older ++ [active]).flatten).map (·.tombstoned)).getD false := by
  unfold isTombstoned
  rw [findSome_levels nodeBase edgeBase id dense older active (·.nodeTombstoned dense)
    (fun ws => (chunkDelta ws).map (·.tombstoned))]
  · intro ws
    show ((chunkTable nodeBase edgeBase id dense ws).nodePatch dense).map _ = _
    rw [chunkTable_nodePatch]
  · rfl
  · intro pre ws hne
    simp only [chunkDelta, append_eq_nil_iff, hne, and_false,
      writeAll_append]
    exact ⟨congrArg some (writeAll_tombstoned_of_ne hne), nofun⟩

theorem splitSnapshot_nodeIdentity : (splitSnapshot nodeBase edgeBase id dense older active).nodeIdentity dense =
      if (older ++ [active]).flatten = [] then none else some id := by
  unfold nodeIdentity
  rw [findSome_levels nodeBase edgeBase id dense older active (·.nodeIdentity dense)
    (fun ws => if ws = [] then none else some id)]
  · exact chunkTable_nodeIdentity nodeBase edgeBase id dense
  · rfl
  · intro pre ws hne
    simp [hne]

theorem splitSnapshot_isEmpty : (splitSnapshot nodeBase edgeBase id dense older active).isEmpty =
      decide ((older ++ [active]).flatten = []) := by
  rw [DeltaSnapshot.isEmpty, splitSnapshot_levels, List.all_reverse, List.all_map, Bool.eq_iff_iff,
    List.all_eq_true, decide_eq_true_eq, List.flatten_eq_nil_iff]
  refine forall₂_congr fun ws _ => ?_
  show (chunkTable nodeBase edgeBase id dense ws).isEmpty = true ↔ _
  rw [chunkTable_isEmpty, decide_eq_true_eq]

end

/-! ### Where the stack and the one memtable part -/

/-- The two snapshots show a node alike: same liveness, same properties over any core row,
whether or not the base generation holds it, and same labels over any core labels. Counts and
label scans, which ask every level and not the folded delta, are not compared. -/
structure ReadsSame (s t : DeltaSnapshot) (dense : Nat) : Prop where
  tombstoned : s.isTombstoned dense = t.isTombstoned dense
  props : ∀ born core, s.overlayNodeProps born dense core = t.overlayNodeProps born dense core
  labels : ∀ core, s.overlayLabels dense core = t.overlayLabels dense core

/-- Where the last delete of the sequence is followed by another write in its own chunk, the
writes after it decide every facet that the older chunks still carry. -/
def DeletesCovered (chunks : List (List NodeWrite)) : Prop :=
  ∀ older pre post newer, chunks = older ++ (pre ++ .delete :: post) :: newer → post ≠ [] →
    .delete ∉ post ++ newer.flatten →
    ∀ f, (∃ w ∈ sinceDelete (older.flatMap remembered), w.Writes f) → ∃ w ∈ post ++ newer.flatten, w.Writes f

theorem remembered_of_notMem (h : .delete ∉ ws) : remembered ws = ws := by
  induction ws using reverseRecOn with
  | nil => rfl
  | append_singleton ws w ih =>
    rw [mem_append, not_or, mem_singleton] at h
    rw [remembered_concat, if_neg (Ne.symm h.2), sinceDelete_concat, if_neg (Ne.symm h.2)]
    congr 1
    rw [sinceDelete, rtakeWhile_eq_self_iff]
    intro x hx
    have : x ≠ .delete := fun e => h.1 (e ▸ hx)
    simpa using this

theorem flatMap_remembered_of_notMem (h : .delete ∉ chunks.flatten) : chunks.flatMap remembered = chunks.flatten := by
  induction chunks with
  | nil => rfl
  | cons c chunks ih =>
    rw [flatten_cons, mem_append, not_or] at h
    rw [flatMap_cons, flatten_cons, remembered_of_notMem h.1, ih h.2]

theorem sinceDelete_after_delete (pre : List NodeWrite)
    (h : .delete ∉ post) : sinceDelete (pre ++ .delete :: post) = post := by
  induction post using reverseRecOn with
  | nil => rw [sinceDelete_concat, if_pos rfl]
  | append_singleton post w ih =>
    rw [mem_append, not_or, mem_singleton] at h
    rw [← cons_append, ← append_assoc, sinceDelete_concat, if_neg (Ne.symm h.2), ih h.1]

theorem remembered_after_delete (pre : List NodeWrite) (hne : post ≠ [])
    (h : .delete ∉ post) : remembered (pre ++ .delete :: post) = post := by
  induction post using reverseRecOn with
  | nil => exact absurd rfl hne
  | append_singleton post w _ =>
    have hs := sinceDelete_after_delete pre h
    rw [← cons_append, ← append_assoc] at hs ⊢
    rw [mem_append, not_or, mem_singleton] at h
    rw [remembered_concat, if_neg (Ne.symm h.2), hs]

theorem exists_last_delete (h : .delete ∈ ws) : ∃ pre post, ws = pre ++ .delete :: post ∧ .delete ∉ post := by
  obtain ⟨as, bs, heq, hnot⟩ := eq_append_cons_of_mem (mem_reverse.mpr h)
  refine ⟨bs.reverse, as.reverse, ?_, by simpa using hnot⟩
  rw [← reverse_reverse ws, heq]
  simp

theorem exists_last_delete_chunk (h : .delete ∈ chunks.flatten) :
    ∃ older pre post newer, chunks = older ++ (pre ++ .delete :: post) :: newer ∧ .delete ∉ post ++ newer.flatten := by
  induction chunks using reverseRecOn with
  | nil => exact absurd h not_mem_nil
  | append_singleton chunks c ih =>
    by_cases hc : .delete ∈ c
    · obtain ⟨pre, post, rfl, hpost⟩ := exists_last_delete hc
      exact ⟨chunks, pre, post, [], rfl, by simpa using hpost⟩
    · rw [flatten_append, flatten_singleton, mem_append] at h
      obtain ⟨older, pre, post, newer, rfl, hnot⟩ := ih (h.resolve_right hc)
      refine ⟨older, pre, post, newer ++ [c], by simp, ?_⟩
      rw [flatten_append, flatten_singleton, ← append_assoc, mem_append, not_or]
      exact ⟨hnot, hc⟩

section Parted

variable (older newer : List (List NodeWrite)) (pre : List NodeWrite) {post : List NodeWrite}

theorem chunkDelta_whole (hne : post ≠ []) : chunkDelta (older ++ (pre ++ .delete :: post) :: newer).flatten =
      some (({} : NodeDelta).writeAll (post ++ newer.flatten)) := by
  rw [flatten_append, flatten_cons, chunkDelta, if_neg (by simp)]
  rw [append_assoc, cons_append, writeAll_append, writeAll_append, writeAll_cons,
    write_delete, ← writeAll_resurrect tombstone (by simp [hne])]
  rfl

theorem chunkDelta_stack (hne : post ≠ []) (hnot : .delete ∉ post ++ newer.flatten) :
    chunkDelta ((older ++ (pre ++ .delete :: post) :: newer).flatMap remembered) =
      some ((({} : NodeDelta).writeAll (older.flatMap remembered)).writeAll (post ++ newer.flatten)) := by
  rw [mem_append, not_or] at hnot
  rw [flatMap_append, flatMap_cons, remembered_after_delete pre hne hnot.1,
    flatMap_remembered_of_notMem hnot.2, chunkDelta, if_neg (by simp [hne]), writeAll_append]

end Parted

theorem chunkDelta_of_covered (h : DeletesCovered chunks) :
    chunkDelta (chunks.flatMap remembered) = chunkDelta chunks.flatten := by
  by_cases hdel : .delete ∈ chunks.flatten
  · obtain ⟨older, pre, post, newer, rfl, hnot⟩ := exists_last_delete_chunk hdel
    by_cases hpost : post = []
    · -- the delete ends its chunk, and both sides start over behind it
      subst hpost
      have hrem : remembered (pre ++ [.delete]) = [.delete] := by rw [remembered_concat, if_pos rfl]
      rw [flatMap_append, flatMap_cons, hrem, flatMap_remembered_of_notMem hnot,
        flatten_append, flatten_cons, chunkDelta, chunkDelta, if_neg (by simp),
        if_neg (by simp)]
      simp only [writeAll_append, writeAll_cons, write_delete]
    · rw [chunkDelta_whole older newer pre hpost, chunkDelta_stack older newer pre hpost hnot]
      refine congrArg some (writeAll_eq_of_covered (writeAll_consistent consistent_empty _)
        (by simp [hpost]) hnot fun f hf => ?_)
      exact h older pre post newer rfl hpost hnot f ((touches_writeAll _ f).mp hf)
  · rw [flatMap_remembered_of_notMem hdel]

/-! ### The converse: an uncovered facet shows -/

variable {nodeBase edgeBase id dense}

section

variable (he : s.isEmpty = false) (hp : s.nodePatch dense = some d)
include he hp

theorem lookup_overlayNodeProps (hi : s.nodeIdentity dense = some id) (core : Map String Value) (k : String) :
    (s.overlayNodeProps false dense core).lookup k =
      (d.patches.lookup k).or (if k ∈ d.removed then none
        else bif d.replaced then (if k = id.key then some id.value else none) else core.lookup k) := by
  simp only [overlayNodeProps, he, hp, hi, cond_false, any_some,
    elim_some, lookup_union_or, lookup_restrict]
  cases d.replaced <;> by_cases hk : k ∈ d.removed <;> simp [lookup_insert_ite]

theorem overlayLabels_eq (core : Finset String) :
    s.overlayLabels dense core = (core \ d.labelsRemoved) ∪ d.labelsAdded := by
  simp [overlayLabels, he, hp]

/-- A touched property reads the same over every core row. -/
theorem lookup_overlay_const (hi : s.nodeIdentity dense = some id) {k : String} (ht : d.Touches (.prop k))
    (core core' : Map String Value) :
    (s.overlayNodeProps false dense core).lookup k = (s.overlayNodeProps false dense core').lookup k := by
  rw [lookup_overlayNodeProps he hp hi, lookup_overlayNodeProps he hp hi]
  rcases ht with ht | ht
  · obtain ⟨v, hv⟩ := ne_none_iff_exists'.mp ht
    rw [hv, some_or, some_or]
  · rcases hides_iff.mp ht with hr | hr
    · rw [hr, cond_true, cond_true]
    · rw [if_pos hr, if_pos hr]


end
theorem not_readsSame_of_touched {s t : DeltaSnapshot} {f : Facet}
    (hs : s.isEmpty = false ∧ s.nodePatch dense = some a ∧ s.nodeIdentity dense = some id)
    (ht : t.isEmpty = false ∧ t.nodePatch dense = some b ∧ t.nodeIdentity dense = some id)
    (ha : a.Touches f) (hb : ¬ b.Touches f) : ¬ ReadsSame s t dense := by
  intro hsame
  cases f with
  | prop k =>
    simp only [Touches, not_or, not_not, Bool.not_eq_true] at hb
    have hread : ∀ core, (t.overlayNodeProps false dense core).lookup k = core.lookup k := by
      intro core
      have hh := hb.2
      simp only [hides, Bool.or_eq_false_iff, decide_eq_false_iff_not] at hh
      rw [lookup_overlayNodeProps ht.1 ht.2.1 ht.2.2, hb.1, none_or, if_neg hh.2, hh.1,
        cond_false]
    have hconst := lookup_overlay_const hs.1 hs.2.1 hs.2.2 ha ∅ (Finmap.insert k .null ∅)
    rw [hsame.props, hsame.props, hread, hread, Finmap.lookup_insert] at hconst
    cases hconst
  | label l =>
    simp only [Touches, not_or] at hb
    have hread : ∀ core, l ∈ t.overlayLabels dense core ↔ l ∈ core := by
      intro core
      rw [overlayLabels_eq ht.1 ht.2.1]
      simp [hb.1, hb.2]
    -- a touched label is there over every core label set or over none
    have hconst : l ∈ s.overlayLabels dense {l} ↔ l ∈ s.overlayLabels dense ∅ := by
      rw [overlayLabels_eq hs.1 hs.2.1, overlayLabels_eq hs.1 hs.2.1]
      simp only [Touches] at ha
      grind
    rw [hsame.labels, hsame.labels, hread, hread] at hconst
    simp at hconst

variable (nodeBase edgeBase id dense)

/-- **A stack of levels shows a node as one memtable would exactly when no delete is
forgotten**: a level that deletes the node and writes it again keeps only the later writes, so
what the levels below it carry shows through unless those writes decide it. -/
theorem splitSnapshot_readsSame_iff (older : List (List NodeWrite)) (active : List NodeWrite) :
    ReadsSame (splitSnapshot nodeBase edgeBase id dense older active)
        (.fromMemtable (chunkTable nodeBase edgeBase id dense (older ++ [active]).flatten)) dense ↔
      DeletesCovered (older ++ [active]) := by
  -- one memtable is a stack without sealed levels
  change ReadsSame _ (splitSnapshot nodeBase edgeBase id dense [] (older ++ [active]).flatten) _ ↔ _
  have hwhole : chunkDelta (([] ++ [(older ++ [active]).flatten]).flatMap remembered) =
      chunkDelta (older ++ [active]).flatten := by
    rw [nil_append, flatMap_singleton]
    simp only [chunkDelta, remembered_eq_nil, writeAll_remembered]
  have hflat : ([] ++ [(older ++ [active]).flatten]).flatten = (older ++ [active]).flatten := by simp
  constructor
  · intro hsame o pre post n heq hpost hnot f hf
    by_contra hcov
    have hne : (older ++ [active]).flatten ≠ [] := by rw [heq]; simp
    have hstack := chunkDelta_stack o n pre hpost hnot
    have hone := chunkDelta_whole o n pre hpost
    rw [← heq] at hstack hone
    refine @not_readsSame_of_touched id dense _ _ _ _ f
      ⟨?_, (splitSnapshot_nodePatch nodeBase edgeBase id dense older active).trans hstack, ?_⟩
      ⟨?_, (splitSnapshot_nodePatch nodeBase edgeBase id dense [] _).trans (hwhole.trans hone), ?_⟩
      ((touches_writeAll_of_notMem hnot f).mpr (.inr ((touches_writeAll _ f).mpr hf))) ?_ hsame
    · rw [splitSnapshot_isEmpty, decide_eq_false hne]
    · rw [splitSnapshot_nodeIdentity, if_neg hne]
    · rw [splitSnapshot_isEmpty, hflat, decide_eq_false hne]
    · rw [splitSnapshot_nodeIdentity, hflat, if_neg hne]
    · rw [touches_writeAll_of_notMem hnot f]
      exact not_or.mpr ⟨hcov, not_touches_empty f⟩
  · intro hcov
    have hpatch : (splitSnapshot nodeBase edgeBase id dense older active).nodePatch dense =
        (splitSnapshot nodeBase edgeBase id dense [] (older ++ [active]).flatten).nodePatch dense := by
      rw [splitSnapshot_nodePatch, splitSnapshot_nodePatch, hwhole, chunkDelta_of_covered hcov]
    refine ⟨?_, fun born core => ?_, fun core => ?_⟩
    · rw [splitSnapshot_isTombstoned, splitSnapshot_isTombstoned, hflat]
    · simp [overlayNodeProps, hpatch, splitSnapshot_isEmpty, splitSnapshot_nodeIdentity]
    · simp only [overlayLabels, hpatch, splitSnapshot_isEmpty, hflat]


end Split

/-- One level patches a property; the next deletes the node and writes another property. The
stack still shows the first property, one memtable does not. -/
theorem level_split_changes_reads : ¬ ∀ (nodeBase edgeBase : Nat) (id : NodeIdentity) (dense : Nat)
      (older : List (List NodeWrite)) (active : List NodeWrite),
      ReadsSame (splitSnapshot nodeBase edgeBase id dense older active)
        (.fromMemtable (chunkTable nodeBase edgeBase id dense (older ++ [active]).flatten)) dense := by
  intro h
  have hprops := (h 10 0 ⟨"Person", "id", .int 1⟩ 3 [[.upsert [("a", .int 1)]]]
    [.delete, .upsert [("b", .int 2)]]).props false ∅
  revert hprops
  decide

end Slater
