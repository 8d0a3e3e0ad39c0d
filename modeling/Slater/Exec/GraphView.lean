import Slater.Exec.View

/-!
# Views of a graph

What makes a merged view the view of a graph: every part stores an edge at both of its ends, and an
edge id is allocated once. `GraphView` carries these facts of the parts, and the lemmas bring them
through the overlay: between nodes that are not deleted, the outgoing list of one end and the
incoming list of the other hold the same edges, each once.

The views of a server are such views: a generation (`CoreGraph.graphView`), a generation under segments
(`SegmentStack.graphView`), and either under a delta that a writer reaches (`GraphBase.graphView`). What is not
established is which edges are there.
-/

namespace Slater

open List View

namespace View

variable (v : View)

/-- Every entry the parts store for a node, deleted or not. -/
def storedAdj (node : Nat) (outgoing : Bool) : List Adj :=
  v.coreEdges node outgoing ++ v.segments.flatMap (fun seg => v.fragmentBorn (seg node outgoing)) ++
    v.deltaBorn node outgoing

/-- A node of the graph: an id of the space that no layer has deleted. The matcher starts from
live nodes only, unless a variable is bound already. -/
def live (id : Nat) : Prop := id < v.nodeCount ∧ v.suppressed id = false
deriving Decidable

theorem deltaDead_of_live {v : View} {id : Nat} (h : v.live id) : v.deltaDead id = false := by
  have hs := h.2
  unfold suppressed at hs
  unfold deltaDead
  cases hd : v.deltaEmpty <;> simp_all

/-! ## Labels -/

/-- The loop over the added labels adds only their ids. -/
theorem mem_addLabels (v : View) {lid : Nat} (added : List String) (ids : List Nat)
    (h : lid ∈ added.foldl (fun ids l => match v.labelId l with
      | some lid => if lid ∈ ids then ids else ids ++ [lid]
      | none => ids) ids) : lid ∈ ids ∨ ∃ l ∈ added, v.labelId l = some lid := by
  induction added generalizing ids with
  | nil => exact .inl h
  | cons l added ih =>
    rw [foldl_cons] at h
    rcases ih _ h with h | ⟨l', hl', hlid⟩
    · split at h
      next lid' hl =>
        split at h
        · exact .inl h
        · rcases mem_append.mp h with h | h
          · exact .inl h
          · exact .inr ⟨l, .head _, by rw [hl, mem_singleton.mp h]⟩
      next => exact .inl h
    · exact .inr ⟨l', .tail _ hl', hlid⟩

/-- A label comes from below the delta, or the delta adds it. -/
theorem mem_labelIds (v : View) {n lid : Nat} (h : lid ∈ v.labelIds n) : lid ∈ v.stackLabelIds n ∨
      v.deltaEmpty = false ∧ ∃ removed added, v.deltaLabels n = some (removed, added) ∧
        ∃ l ∈ added, v.labelId l = some lid := by
  unfold labelIds at h
  cases he : v.deltaEmpty with
  | true =>
    rw [he] at h
    exact .inl h
  | false =>
    cases hd : v.deltaLabels n with
    | none =>
      simp only [he, hd] at h
      exact .inl h
    | some ra =>
      simp only [he, hd] at h
      rcases v.mem_addLabels _ _ h with h | h
      · exact .inl (mem_filter.mp h).1
      · exact .inr ⟨rfl, ra.1, ra.2, rfl, h⟩

end View

/-- **A view of a graph.** The parts are asked one by one, as they are written by different code
at different times: the builder, the flush of a segment, and the memtable. -/
structure GraphView extends View where
  core_mirror : ∀ n w rt e, ⟨rt, w, e⟩ ∈ toView.coreEdges n true ↔ ⟨rt, n, e⟩ ∈ toView.coreEdges w false
  segments_mirror : ∀ seg ∈ segments, ∀ n w rt e removed,
    ⟨rt, w, e, removed⟩ ∈ seg n true ↔ ⟨rt, n, e, removed⟩ ∈ seg w false
  delta_mirror : ∀ n w rt e tombstoned,
    ⟨rt, w, e, tombstoned⟩ ∈ deltaAdj n true ↔ ⟨rt, n, e, tombstoned⟩ ∈ deltaAdj w false
  /-- A removal names the end nodes of the edge it removes. -/
  removal_names : ∀ seg ∈ segments, ∀ n outgoing, ∀ x ∈ seg n outgoing, x.removed →
    ∀ a ∈ toView.storedAdj n outgoing, a.edge = x.edgeId → a.neighbour = x.other
  /-- An edge id is allocated once. -/
  stored_once : ∀ n outgoing, ((toView.storedAdj n outgoing).map (·.edge)).Nodup

/-! ## The segments -/

namespace View

variable {v : View} {a : Adj} {node : Nat} {outgoing : Bool} {frag : List SegmentAdj}

theorem mem_fragmentBorn : a ∈ v.fragmentBorn frag ↔
      ∃ name, v.reltypeId name = some a.reltype ∧ ⟨name, a.neighbour, a.edge, false⟩ ∈ frag := by
  unfold fragmentBorn
  rw [mem_filterMap]
  constructor
  · rintro ⟨⟨name, other, id, removed⟩, hx, hsome⟩
    cases removed with
    | true => simp at hsome
    | false =>
      simp only [cond_false, Option.map_eq_some_iff] at hsome
      obtain ⟨rt, hrt, rfl⟩ := hsome
      exact ⟨name, hrt, hx⟩
  · rintro ⟨name, hrt, hx⟩
    exact ⟨_, hx, by simp [hrt]⟩

theorem mem_fragmentRemoved {e : Nat} : e ∈ fragmentRemoved frag ↔ ∃ x ∈ frag, x.removed = true ∧ x.edgeId = e := by
  unfold fragmentRemoved
  rw [mem_filterMap]
  refine exists_congr fun x => and_congr_right fun _ => ?_
  cases x.removed <;> simp

theorem foldFragments_concat (frags : List (List SegmentAdj)) (frag : List SegmentAdj) :
    v.foldFragments (frags ++ [frag]) = ((v.foldFragments frags).1 ++ fragmentRemoved frag,
        (v.foldFragments frags).2.filter (fun a => a.edge ∉ fragmentRemoved frag) ++ v.fragmentBorn frag) := by
  simp [foldFragments]

theorem foldFragments_sublist (frags : List (List SegmentAdj)) :
    (v.foldFragments frags).2.Sublist (frags.flatMap v.fragmentBorn) := by
  induction frags using reverseRecOn with
  | nil => exact List.Sublist.slnil
  | append_singleton frags frag ih =>
    rw [foldFragments_concat, flatMap_append, flatMap_singleton]
    exact (filter_sublist.trans ih).append_right _

/-- Two fragment lists that tell the same about one edge fold to the same about it. -/
theorem mem_foldFragments_congr {ι : Type} (segs : List ι) (f f' : ι → List SegmentAdj) {a' : Adj}
    (he : a'.edge = a.edge) (hborn : ∀ s ∈ segs, a ∈ v.fragmentBorn (f s) ↔ a' ∈ v.fragmentBorn (f' s))
    (hremoved : ∀ s ∈ segs, a.edge ∈ fragmentRemoved (f s) ↔ a.edge ∈ fragmentRemoved (f' s)) :
    (a.edge ∈ (v.foldFragments (segs.map f)).1 ↔ a.edge ∈ (v.foldFragments (segs.map f')).1) ∧
      (a ∈ (v.foldFragments (segs.map f)).2 ↔ a' ∈ (v.foldFragments (segs.map f')).2) := by
  induction segs using reverseRecOn with
  | nil => exact ⟨Iff.rfl, by simp [foldFragments]⟩
  | append_singleton segs s ih =>
    obtain ⟨ih1, ih2⟩ := ih (fun t ht => hborn t (mem_append_left _ ht))
      (fun t ht => hremoved t (mem_append_left _ ht))
    have hb := hborn s (by simp)
    have hr := hremoved s (by simp)
    simp [foldFragments_concat, he, ih1, ih2, hb, hr]

/-! ## The delta -/

theorem mem_deltaBorn : a ∈ v.deltaBorn node outgoing ↔ v.deltaEmpty = false ∧ ∃ name,
      v.reltypeId name = some a.reltype ∧ ⟨name, a.neighbour, some a.edge, false⟩ ∈ v.deltaAdj node outgoing := by
  unfold deltaBorn
  cases hd : v.deltaEmpty with
  | true => simp
  | false =>
    simp only [cond_false, mem_filterMap, true_and]
    constructor
    · rintro ⟨⟨name, other, id, tombstoned⟩, hx, hsome⟩
      cases tombstoned with
      | true => simp at hsome
      | false =>
        simp only [cond_false, Option.bind_eq_some_iff, Option.map_eq_some_iff] at hsome
        obtain ⟨id, rfl, rt, hrt, rfl⟩ := hsome
        exact ⟨name, hrt, hx⟩
    · rintro ⟨name, hrt, hx⟩
      exact ⟨_, hx, by simp [hrt]⟩

theorem mem_deltaSuppress {rt other : Nat} :
    (rt, other) ∈ v.deltaSuppress node outgoing ↔ v.deltaEmpty = false ∧ ∃ name id,
      v.reltypeId name = some rt ∧ ⟨name, other, id, true⟩ ∈ v.deltaAdj node outgoing := by
  unfold deltaSuppress
  cases hd : v.deltaEmpty with
  | true => simp
  | false =>
    simp only [cond_false, mem_filterMap, true_and]
    constructor
    · rintro ⟨⟨name, other', id, tombstoned⟩, hx, hsome⟩
      cases tombstoned with
      | false => simp at hsome
      | true =>
        simp only [cond_true, Option.map_eq_some_iff, Prod.mk.injEq] at hsome
        obtain ⟨rt, hrt, rfl, rfl⟩ := hsome
        exact ⟨name, id, hrt, hx⟩
    · rintro ⟨name, id, hrt, hx⟩
      exact ⟨_, hx, by simp [hrt]⟩

/-! ## The overlay -/

theorem mem_adjOverlaid : a ∈ v.adjOverlaid node outgoing ↔ v.deltaDead a.neighbour = false ∧
      (a ∈ v.deltaBorn node outgoing ∨ (a.reltype, a.neighbour) ∉ v.deltaSuppress node outgoing ∧
          (a ∈ v.coreEdges node outgoing ∧ a.edge ∉ (v.foldSegments node outgoing).1 ∨
            a ∈ (v.foldSegments node outgoing).2)) := by
  simp only [adjOverlaid, mem_append, mem_filter, Bool.and_eq_true, decide_eq_true_eq,
    Bool.not_eq_true']
  tauto

/-- Deleted neighbours are never handed out. -/
theorem deltaDead_of_mem_adjOverlaid (h : a ∈ v.adjOverlaid node outgoing) : v.deltaDead a.neighbour = false :=
  (mem_adjOverlaid.1 h).1

theorem adjOverlaid_sublist (node : Nat) (outgoing : Bool) :
    (v.adjOverlaid node outgoing).Sublist (v.storedAdj node outgoing) := by
  refine (filter_sublist.append (filter_sublist.trans ?_)).append filter_sublist
  have hsub := foldFragments_sublist (v := v) (v.segments.map fun seg => seg node outgoing)
  rwa [flatMap_map] at hsub

end View

namespace GraphView

variable (g : GraphView) {seg : Nat → Bool → List SegmentAdj}

theorem mem_fragmentBorn_mirror (hseg : seg ∈ g.segments) (n w rt e : Nat) :
    ⟨rt, w, e⟩ ∈ g.fragmentBorn (seg n true) ↔ ⟨rt, n, e⟩ ∈ g.fragmentBorn (seg w false) := by
  rw [mem_fragmentBorn, mem_fragmentBorn]
  exact exists_congr fun name => and_congr_right fun _ => g.segments_mirror seg hseg n w name e false

theorem mem_deltaBorn_mirror (n w rt e : Nat) :
    ⟨rt, w, e⟩ ∈ g.deltaBorn n true ↔ ⟨rt, n, e⟩ ∈ g.deltaBorn w false := by
  rw [mem_deltaBorn, mem_deltaBorn]
  exact and_congr_right fun _ => exists_congr fun name => and_congr_right fun _ =>
    g.delta_mirror n w name (some e) false

theorem mem_storedAdj_mirror (n w rt e : Nat) :
    ⟨rt, w, e⟩ ∈ g.storedAdj n true ↔ ⟨rt, n, e⟩ ∈ g.storedAdj w false := by
  simp only [storedAdj, mem_append, mem_flatMap, g.core_mirror n w rt e,
    g.mem_deltaBorn_mirror n w rt e]
  refine or_congr_left (or_congr_right (exists_congr fun seg => and_congr_right fun hseg => ?_))
  exact g.mem_fragmentBorn_mirror hseg n w rt e

/-- A segment removes an edge at both of its ends. -/
theorem removed_mirror (hseg : seg ∈ g.segments) {n w rt e : Nat} (hstored : ⟨rt, w, e⟩ ∈ g.storedAdj n true) :
    e ∈ fragmentRemoved (seg n true) ↔ e ∈ fragmentRemoved (seg w false) := by
  have hstored' := (g.mem_storedAdj_mirror n w rt e).1 hstored
  rw [mem_fragmentRemoved, mem_fragmentRemoved]
  constructor
  · rintro ⟨x, hx, hrem, rfl⟩
    have hw : w = x.other := g.removal_names seg hseg n true x hx hrem _ hstored rfl
    subst hw
    exact ⟨⟨x.reltype, n, x.edgeId, x.removed⟩, (g.segments_mirror seg hseg n _ _ _ _).1 hx, hrem, rfl⟩
  · rintro ⟨x, hx, hrem, rfl⟩
    have hn : n = x.other := g.removal_names seg hseg w false x hx hrem _ hstored' rfl
    subst hn
    exact ⟨⟨x.reltype, w, x.edgeId, x.removed⟩, (g.segments_mirror seg hseg _ w _ _ _).2 hx, hrem, rfl⟩

/-- **Both ends of an edge see it**, unless the delta has deleted one of them. -/
theorem mem_adjOverlaid_mirror {n w : Nat} (hn : g.deltaDead n = false) (hw : g.deltaDead w = false)
    (rt e : Nat) : ⟨rt, w, e⟩ ∈ g.adjOverlaid n true ↔ ⟨rt, n, e⟩ ∈ g.adjOverlaid w false := by
  by_cases hstored : (⟨rt, w, e⟩ : Adj) ∈ g.storedAdj n true
  · have hedge : (⟨rt, n, e⟩ : Adj).edge = (⟨rt, w, e⟩ : Adj).edge := rfl
    obtain ⟨hremoved, hborn⟩ := mem_foldFragments_congr (v := g.toView) g.segments
      (fun seg => seg n true) (fun seg => seg w false) hedge
      (fun seg hseg => g.mem_fragmentBorn_mirror hseg n w rt e)
      (fun seg hseg => g.removed_mirror hseg hstored)
    have hsuppress : (rt, w) ∈ g.deltaSuppress n true ↔ (rt, n) ∈ g.deltaSuppress w false := by
      rw [mem_deltaSuppress, mem_deltaSuppress]
      exact and_congr_right fun _ => exists_congr fun name => exists_congr fun id =>
        and_congr_right fun _ => g.delta_mirror n w name id true
    rw [mem_adjOverlaid, mem_adjOverlaid]
    simp only [hn, hw, true_and]
    refine or_congr (g.mem_deltaBorn_mirror n w rt e) (and_congr (not_congr hsuppress) ?_)
    exact or_congr (and_congr (g.core_mirror n w rt e) (not_congr hremoved)) hborn
  · have hstored' : (⟨rt, n, e⟩ : Adj) ∉ g.storedAdj w false :=
      fun h => hstored ((g.mem_storedAdj_mirror n w rt e).2 h)
    exact iff_of_false (fun h => hstored ((adjOverlaid_sublist n true).mem h))
      fun h => hstored' ((adjOverlaid_sublist w false).mem h)

end GraphView

/-! ## Hops -/

/-- A hop walked back to the node it came from. -/
def Hop.back (h : Hop) (node : Nat) : Hop := { h with neighbour := node }

namespace View

variable {v : View} {node : Nat} {te : Option LabelExpr} {h : Hop} {dir : Direction}

theorem mem_hopsSide {incoming : Bool} : h ∈ v.hopsSide node te incoming ↔ v.typeOk te h.reltype = true ∧
      ⟨h.reltype, h.neighbour, h.edge⟩ ∈ v.adjOverlaid node (!incoming) ∧
      h.start = (bif incoming then h.neighbour else node) ∧ h.end = (bif incoming then node else h.neighbour) := by
  simp only [hopsSide, mem_map, mem_filter]
  constructor
  · rintro ⟨a, ⟨ha, hty⟩, rfl⟩
    exact ⟨hty, ha, rfl, rfl⟩
  · rintro ⟨hty, ha, hs, he⟩
    refine ⟨_, ⟨ha, hty⟩, ?_⟩
    cases h
    simp_all [Hop.ofAdj]

/-- The sides a direction reads. -/
theorem mem_hops : h ∈ v.hops node dir te ↔ (dir ≠ .incoming ∧ h ∈ v.hopsSide node te false) ∨
        (dir ≠ .outgoing ∧ h ∈ v.hopsSide node te true) := by
  cases dir <;> simp [hops]

theorem deltaDead_of_mem_hops (hh : h ∈ v.hops node dir te) : v.deltaDead h.neighbour = false := by
  rcases mem_hops.1 hh with ⟨-, hh⟩ | ⟨-, hh⟩ <;>
    exact deltaDead_of_mem_adjOverlaid (mem_hopsSide.1 hh).2.1

end View

namespace GraphView

variable (g : GraphView) {te : Option LabelExpr} {n : Nat} {h : Hop}

theorem mem_hopsSide_back {incoming : Bool} (hn : g.deltaDead n = false) (hh : h ∈ g.hopsSide n te incoming) :
    h.back n ∈ g.hopsSide h.neighbour te (!incoming) := by
  obtain ⟨hty, ha, hs, he⟩ := mem_hopsSide.1 hh
  have hw := deltaDead_of_mem_adjOverlaid ha
  refine mem_hopsSide.2 ⟨hty, ?_, ?_, ?_⟩
  · cases incoming
    · exact (g.mem_adjOverlaid_mirror hn hw h.reltype h.edge).1 ha
    · exact (g.mem_adjOverlaid_mirror hw hn h.reltype h.edge).2 ha
  · cases incoming <;> exact hs
  · cases incoming <;> exact he

/-- **A hop can be walked back**, against its direction. The node that the hop leaves must not
be deleted, as its neighbour would not list it. -/
theorem mem_hops_back {dir : Direction} (hn : g.deltaDead n = false) (hh : h ∈ g.hops n dir te) :
    h.back n ∈ g.hops h.neighbour dir.flip te := by
  rw [mem_hops] at hh ⊢
  rcases hh with ⟨hd, hh⟩ | ⟨hd, hh⟩
  · exact .inr ⟨by cases dir <;> simp_all [Direction.flip], g.mem_hopsSide_back hn hh⟩
  · exact .inl ⟨by cases dir <;> simp_all [Direction.flip], g.mem_hopsSide_back hn hh⟩

theorem hopsSide_nodup (n : Nat) (te : Option LabelExpr) (incoming : Bool) : (g.hopsSide n te incoming).Nodup := by
  refine List.Nodup.of_map Hop.edge ?_
  rw [hopsSide, map_map]
  have hstored := (g.stored_once n !incoming).sublist ((adjOverlaid_sublist n !incoming).map _)
  exact hstored.sublist (filter_sublist.map _)

/-- The hops to other nodes are listed once each; a self-loop is listed once per side. -/
theorem hops_nodup (n : Nat) (dir : Direction) (te : Option LabelExpr) :
    ((g.hops n dir te).filter fun h => h.neighbour ≠ n).Nodup := by
  cases dir with
  | outgoing => exact (g.hopsSide_nodup n te false).filter _
  | incoming => exact (g.hopsSide_nodup n te true).filter _
  | undirected =>
    rw [hops, filter_append]
    refine ((g.hopsSide_nodup n te false).filter _).append ((g.hopsSide_nodup n te true).filter _) ?_
    intro h hout hin
    -- the outgoing hop starts at `n`, the incoming one at the neighbour
    have hstart := (mem_hopsSide.1 (mem_of_mem_filter hout)).2.2.1
    have hstart' := (mem_hopsSide.1 (mem_of_mem_filter hin)).2.2.1
    have hne := (mem_filter.1 hout).2
    exact (of_decide_eq_true hne) (hstart'.symm.trans hstart)

end GraphView

end Slater
