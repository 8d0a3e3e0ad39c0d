import Slater.Server.EdgeSets

/-!
# Adjacency at a flush

A reader collects the edges of a node by `for_each_adj_overlaid` (`slater/src/exec.rs`): the edges of the base, then
segment by segment what the segment removes and adds. A flush of the delta into a segment lists them by a fold of
its own, `effective_adj` of `slater/src/flush_segment.rs`. Both go through the segments from the oldest to the
newest; the reader drops an added edge whose type the manifest does not know, and the flush keeps it under its name.

`effectiveAdj_perm_iff` says that this is the only difference: over an empty delta the two list the same edges, each
as often, exactly when the manifest knows the type of every added edge that no later segment removes. The order of
the two lists is not compared.
-/

namespace Slater

namespace View

open List

/-- An entry of a fragment, as a flush lists it. -/
def listed (e : SegmentAdj) : Nat × Nat × String := (e.edgeId, e.other, e.reltype)

/-- The born entries of the fragments, oldest first, that no later fragment removes. -/
def surviving (frags : List (List SegmentAdj)) : List SegmentAdj :=
  frags.foldl (fun live frag => live.filter (·.edgeId ∉ fragmentRemoved frag) ++ frag.filter (!·.removed)) []

variable (v : View) (node : Nat) (outgoing : Bool)

/-- An edge with its far end and the name of its type. -/
def named (a : Adj) : Nat × Nat × String := (a.edge, a.neighbour, (v.reltypes[a.reltype]?).getD "")

/-- `effective_adj` of `slater/src/flush_segment.rs`. An edge is kept with the name of its type,
whether or not the manifest has an id for it. -/
def effectiveAdj : List (Nat × Nat × String) :=
  (v.segments.map fun seg => seg node outgoing).foldl
    (fun list frag => list.filter (·.1 ∉ fragmentRemoved frag) ++ (frag.filter (!·.removed)).map listed)
    ((v.coreEdges node outgoing).map v.named)

variable {v} (frags : List (List SegmentAdj))

theorem surviving_concat (frag : List SegmentAdj) : surviving (frags ++ [frag]) =
    (surviving frags).filter (·.edgeId ∉ fragmentRemoved frag) ++ frag.filter (!·.removed) :=
  foldl_concat ..

theorem foldl_listed (list : List (Nat × Nat × String)) :
    frags.foldl (fun list frag => list.filter (·.1 ∉ fragmentRemoved frag) ++ (frag.filter (!·.removed)).map listed)
      list = list.filter (·.1 ∉ frags.flatMap fragmentRemoved) ++ (surviving frags).map listed := by
  induction frags using reverseRecOn with
  | nil => simp [surviving]
  | append_singleton frags frag ih =>
    rw [foldl_concat, ih, surviving_concat]
    simp [filter_map, Bool.and_comm]
    rfl

theorem removed_of_surviving {e : SegmentAdj} (he : e ∈ surviving frags) : e.removed = false := by
  induction frags using reverseRecOn with
  | nil => cases he
  | append_singleton frags frag ih =>
    rw [surviving_concat, mem_append, mem_filter, mem_filter] at he
    rcases he with he | he
    · exact ih he.1
    · simpa using he.2

/-- What a reader keeps of the fragments: an entry whose type the manifest does not know is
dropped. -/
theorem foldFragments_surviving : v.foldFragments frags =
    (frags.flatMap fragmentRemoved, v.fragmentBorn (surviving frags)) := by
  induction frags using reverseRecOn with
  | nil => rfl
  | append_singleton frags frag ih =>
    rw [foldFragments_concat, ih, surviving_concat]
    simp only [fragmentBorn, filterMap_append, flatMap_append, flatMap_singleton, filter_filterMap, filterMap_filter]
    congr 2 <;> refine filterMap_congr fun e _ => ?_ <;> cases e.removed <;> cases v.reltypeId e.reltype <;>
      simp [Option.filter]

variable (hnames : ∀ name rt, v.reltypeId name = some rt → v.reltypes[rt]? = some name)
include hnames

theorem named_surviving : (v.fragmentBorn (surviving frags)).map v.named =
    ((surviving frags).filter fun e => (v.reltypeId e.reltype).isSome).map listed := by
  rw [fragmentBorn, map_filterMap, ← filterMap_eq_map', filterMap_filter]
  refine filterMap_congr fun e he => ?_
  rw [removed_of_surviving frags he]
  cases hrt : v.reltypeId e.reltype with
  | none => simp
  | some rt => simp [named, listed, hnames _ _ hrt]

/-- **A flush sees the edges that a reader sees** exactly when the manifest knows the types of
the surviving entries. -/
theorem effectiveAdj_perm_iff (hempty : v.deltaEmpty = true) :
    (v.effectiveAdj node outgoing).Perm ((v.adjOverlaid node outgoing).map v.named) ↔
      ∀ e ∈ surviving (v.segments.map fun seg => seg node outgoing), (v.reltypeId e.reltype).isSome := by
  rw [effectiveAdj, foldl_listed, adjOverlaid, foldSegments, foldFragments_surviving]
  simp only [deltaSuppress, deltaDead, deltaBorn, hempty, cond_true, not_mem_nil, not_false_eq_true, decide_true,
    Bool.not_true, Bool.false_and, Bool.not_false, Bool.and_true, filter_true, append_nil, map_append,
    named_surviving _ hnames, List.filter_map]
  refine (perm_append_left_iff _).trans ⟨fun h => ?_, fun h => ?_⟩
  · have hlen := h.length_eq
    rw [length_map, length_map] at hlen
    exact length_filter_eq_length_iff.mp hlen.symm
  · rw [filter_eq_self.mpr h]

end View

/-! ## A relationship of another type -/

namespace FlushAdjacency

/-- A segment that replaces the relationship of two people by one of another type. -/
def retyped (reltype : String) : View :=
  { acquaintances.view with segments := [fun _ _ => [⟨"KNOWS", 1, 0, true⟩, ⟨reltype, 1, 1, false⟩]] }

end FlushAdjacency

open FlushAdjacency

theorem effectiveAdj_known :
    ((retyped "KNOWS").effectiveAdj 0 true).Perm (((retyped "KNOWS").adjOverlaid 0 true).map (retyped "KNOWS").named) :=
  (View.effectiveAdj_perm_iff _ _ (fun _ _ => CoreGraph.getElem?_of_idxOf?) rfl).mpr (by decide +kernel)

/-- An edge of a type that the manifest does not know is listed by the flush and not seen by a
reader. -/
theorem effectiveAdj_unknown : ¬ ((retyped "LIKES").effectiveAdj 0 true).Perm
      (((retyped "LIKES").adjOverlaid 0 true).map (retyped "LIKES").named) := by
  decide +kernel

end Slater
