import Slater.Server.EdgeWrite

/-!
# Patches of a core edge

A `SET` on an edge of the core is stored under the identity its statement spelled, and read through
the slot of the core edge's id. A level has one slot for an edge, which points at the identity of the
level's last statement. So a level answers with the statements under that identity alone, and what
was set under another one, keyed where this one is keyless or named by another property, is not read.

Across levels nothing is lost: the fold of the levels composes what each of them answers.

The law is `edgeSets_read_iff`: the row read is the row all statements lead to exactly if the
statements the levels do not answer with change nothing. What one statement does to a row is
`EdgeSet.applyTo`; the property that identifies the edge is part of the statement.

**What it does not establish.** The edge is one of the core that nobody deletes in the meantime, and all statements
of the run are about it. Edges born in the delta have one identity and are not concerned.
-/

namespace Slater

open Map List Option GraphStep EdgeDelta DeltaState

/-! ## Rows -/

/-- A `SET` on an edge, with the identity it was made under. Statements under two identities may
be about one edge, which is where they part. -/
structure EdgeSet where
  id : EdgeIdentity
  replace : Bool
  patches : List (String × Value)
  deriving DecidableEq

/-- What a `SET` makes of the edge's properties. -/
def EdgeSet.applyTo (row : Map String Value) (s : EdgeSet) : Map String Value :=
  let row := insertAll (bif s.replace then ∅ else row) s.patches
  match s.id.key with
  | some (name, value) => row.insert name value
  | none => row

/-- Patches and a replace flag, laid over a row. -/
def overRow (row : Map String Value) (acc : Map String Value × Bool) : Map String Value :=
  bif acc.2 then acc.1 else acc.1 ∪ row

/-- The properties a snapshot shows for an edge, over its row below the delta. -/
def DeltaSnapshot.edgeRead (s : DeltaSnapshot) (edge : Nat) (row : Map String Value) : Map String Value :=
  overRow row (s.edgePatches edge, s.edgeReplaced edge)

namespace EdgeDelta

/-- The delta as the fold over the levels takes it. -/
def state (d : EdgeDelta) : Map String Value × Bool := (d.patches, d.replaced)

theorem insertAll_union (a b : Map String Value) (kvs : List (String × Value)) :
    insertAll a kvs ∪ b = insertAll (a ∪ b) kvs := by
  induction kvs generalizing a with
  | nil => rfl
  | cons kv kvs ih => rw [insertAll_cons, insertAll_cons, ih, Finmap.insert_union]

/-- Storing a `SET` and laying the delta over a row is laying the delta over it and setting. -/
theorem overRow_applyPatches (d : EdgeDelta) (row : Map String Value) (s : EdgeSet) :
    overRow row (d.applyPatches s.id.key s.replace s.patches).state = s.applyTo (overRow row d.state) := by
  obtain ⟨patches, replaced, tombstoned⟩ := d
  unfold applyPatches EdgeSet.applyTo overRow state
  cases s.replace <;> cases replaced <;> rcases s.id.key with _ | ⟨name, value⟩ <;>
    simp [insertAll_union, ← Finmap.insert_union]

/-- The fold of a newer level composes the two. -/
theorem overRow_foldDeltaEdge (row : Map String Value) (acc : Map String Value × Bool)
    {newer : EdgeDelta} (live : newer.tombstoned = false) :
    overRow row (foldDeltaEdge acc newer) = overRow (overRow row acc) newer.state := by
  unfold foldDeltaEdge overRow state
  rw [live]
  cases newer.replaced <;> cases acc.2 <;> simp [Finmap.union_assoc]

variable (sets : List EdgeSet)

/-- What a level holds of one identity after its statements. -/
def summary : EdgeDelta :=
  sets.foldl (fun d s => d.applyPatches s.id.key s.replace s.patches) {}

theorem summary_concat (s : EdgeSet) :
    summary (sets ++ [s]) = (summary sets).applyPatches s.id.key s.replace s.patches :=
  foldl_concat ..

theorem summary_live : (summary sets).tombstoned = false := by
  induction sets using reverseRecOn with
  | nil => rfl
  | append_singleton sets s ih => rw [summary_concat, applyPatches_tombstoned, ih]

theorem overRow_summary (row : Map String Value) (sets : List EdgeSet) :
    overRow row (summary sets).state = sets.foldl EdgeSet.applyTo row := by
  induction sets using reverseRecOn with
  | nil => exact Finmap.empty_union
  | append_singleton sets s ih => rw [summary_concat, overRow_applyPatches, ih, foldl_concat]

end EdgeDelta

/-! ## One level -/

/-- The statements of a level that it answers with: those under the identity of its last one.
The others stay stored in the level, and nobody reads them. -/
def keptSets (sets : List EdgeSet) : List EdgeSet :=
  match sets.getLast? with
  | some last => sets.filter (·.id = last.id)
  | none => []

/-- The level holds the statements about the core edge `c`, and nothing else. It is kept by
every statement about the edge, and a flush starts over with an empty list. -/
structure HoldsSets (edgeCount c : Nat) (m : Memtable) (sets : List EdgeSet) : Prop where
  nodes : m.nodes = ∅
  born : m.bornEdges = []
  base : m.edgeSyntheticBase = edgeCount
  below : sets ≠ [] → c < edgeCount
  slot : m.byEdgeId.lookup c = sets.getLast?.map (·.id)
  entry : ∀ id, (m.edges.lookup id).map (·.delta) =
    if ∃ s ∈ sets, s.id = id then some (summary (sets.filter (·.id = id))) else none

section Level

variable {edgeCount c : Nat} {m : Memtable} {sets : List EdgeSet}

theorem HoldsSets.fresh (nodeCount edgeCount c : Nat) : HoldsSets edgeCount c (.withBases nodeCount edgeCount) [] :=
  ⟨rfl, rfl, rfl, absurd rfl, rfl, fun id => by simp [Memtable.withBases]⟩

theorem HoldsSets.isEmpty (h : HoldsSets edgeCount c m sets) : m.isEmpty = decide (sets = []) := by
  have hedges : m.edges = ∅ ↔ sets = [] := by
    constructor
    · intro he
      by_contra hne
      obtain ⟨s, hs⟩ := exists_mem_of_ne_nil sets hne
      have hentry := h.entry s.id
      rw [he, if_pos ⟨s, hs, rfl⟩] at hentry
      cases hentry
    · rintro rfl
      refine Finmap.ext_lookup fun id => ?_
      have hentry := h.entry id
      exact map_eq_none_iff.mp hentry
  rw [Memtable.isEmpty, decide_eq_true h.nodes]
  exact decide_eq_decide.mpr hedges

/-- The level answers with its kept statements. -/
theorem HoldsSets.edgeDelta (h : HoldsSets edgeCount c m sets) : m.edgeDeltaById c =
      if sets = [] then none else some (summary (keptSets sets)) := by
  rw [Memtable.edgeDeltaById, h.base, h.born]
  by_cases hne : sets = []
  · subst hne
    rw [h.slot]
    split <;> simp
  · obtain ⟨last, hlast⟩ := ne_none_iff_exists'.mp (mt getLast?_eq_none_iff.mp hne)
    have hmem : last ∈ sets := mem_of_getLast? hlast
    rw [if_neg hne, if_pos (h.below hne), h.slot, keptSets, hlast, map_some,
      bind_some, h.entry, if_pos ⟨last, hmem, rfl⟩]

/-- What a patch of a core edge stores. -/
theorem Memtable.patchLinked_eq (m : Memtable) (id : EdgeIdentity) (src dst cid : Nat)
    (replace : Bool) (patches : List (String × Value)) :
    let entry := (m.edges.lookup id).getD { srcDense := src, dstDense := dst, coreEdge := some cid }
    m.patchLinked id src dst cid replace patches =
      { m with
        byEdgeId := m.byEdgeId.insert cid id
        edges := m.edges.insert id
          { entry with
            coreEdge := some cid
            delta := { entry.delta with tombstoned := false }.applyPatches id.key replace patches } } := by
  intro entry
  cases h : m.edges.lookup id with
  | some e =>
    have he : entry = e := by simp only [entry, h, getD_some]
    simp only [patchLinked, modifyEdge, h, he]
  | none =>
    have he : entry = { srcDense := src, dstDense := dst, coreEdge := some cid } := by
      simp [entry, h]
    simp [patchLinked, modifyEdge, h, he]

/-- Storing one more statement. -/
theorem HoldsSets.patch (h : HoldsSets edgeCount c m sets) (hc : c < edgeCount) (s : EdgeSet) (src dst : Nat) :
    HoldsSets edgeCount c (m.patchCoreEdgeKeyed s.id (some src) (some dst) c s.replace s.patches) (sets ++ [s]) := by
  show HoldsSets edgeCount c (m.patchLinked s.id src dst c s.replace s.patches) (sets ++ [s])
  -- The entry of the identity, or the one made for it, holds the summary of its statements so far.
  have hdelta : ((m.edges.lookup s.id).getD
      { srcDense := src, dstDense := dst, coreEdge := some c }).delta =
      summary (sets.filter (·.id = s.id)) := by
    have hentry := h.entry s.id
    split at hentry
    next =>
      obtain ⟨e, he, hd⟩ := map_eq_some_iff.mp hentry
      rw [he, getD_some, hd]
    next hno =>
      have hnil : sets.filter (·.id = s.id) = [] :=
        filter_eq_nil_iff.mpr fun t ht he => hno ⟨t, ht, of_decide_eq_true he⟩
      rw [map_eq_none_iff.mp hentry, hnil]
      rfl
  have hlive : { summary (sets.filter (·.id = s.id)) with tombstoned := false } =
      summary (sets.filter (·.id = s.id)) :=
    EdgeDelta.ext rfl rfl (EdgeDelta.summary_live _).symm
  rw [Memtable.patchLinked_eq]
  refine ⟨h.nodes, h.born, h.base, fun _ => hc, ?_, fun id => ?_⟩
  · simp
  · rw [lookup_insert_ite]
    by_cases hid : id = s.id
    · subst hid
      have hself : [s].filter (·.id = s.id) = [s] := by simp
      rw [if_pos rfl, if_pos ⟨s, mem_concat_self, rfl⟩, filter_append, hself,
        summary_concat, map_some, hdelta, hlive]
    · have hskip : [s].filter (·.id = id) = [] := by simp [Ne.symm hid]
      have hmem : (∃ t ∈ sets ++ [s], t.id = id) ↔ ∃ t ∈ sets, t.id = id := by
        simp [Ne.symm hid]
      rw [if_neg hid, filter_append, hskip, append_nil, h.entry id]
      simp only [hmem]

end Level

/-! ## Runs -/

namespace GraphStep

variable {ε : Type} (gen : Generation) (debug : Value → String)

/-- The `SET` a relationship statement comes down to, if it is accepted and assigns anything. -/
def edgeSet : GraphStep ε → Option EdgeSet
  | .node _ => none
  | .edge ev stmt =>
    (edgeTarget gen debug ev stmt).toOption.bind fun t =>
      (gen.resolveEndpoint t.id.src).toOption.bind fun _ =>
        (gen.resolveEndpoint t.id.dst).toOption.bind fun _ =>
          if t.fold.patches = [] ∧ t.fold.replace = false then none
          else some ⟨t.id, t.fold.replace, t.fold.patches⟩

/-- The step is a flush, or a `MERGE` that the plan resolves to the core edge `c`. Deletes of
the edge and writes to other edges are not among the steps. -/
def SetsEdge (c : Nat) : GraphStep ε → Prop
  | .node step => step = .flush
  | .edge ev stmt => stmt.op = .create ∧ ∀ t s d, edgeTarget gen debug ev stmt = .ok t →
        gen.resolveEndpoint t.id.src = .ok s → gen.resolveEndpoint t.id.dst = .ok d →
        (coreEdgeOf gen t s d).map (·.1) = some c

/-- The statements of each level, newest level first, after one more step. -/
def stretch (levels : List (List EdgeSet)) (step : GraphStep ε) : List (List EdgeSet) :=
  match step with
  | .node .flush =>
    match levels with
    | [] :: _ => levels
    | _ => [] :: levels
  | .node (.write ..) => levels
  | .edge .. =>
    match step.edgeSet gen debug, levels with
    | some s, sets :: rest => (sets ++ [s]) :: rest
    | _, _ => levels

/-- The statements between the flushes of a run, newest first. -/
def stretches (steps : List (GraphStep ε)) : List (List EdgeSet) :=
  steps.foldl (stretch gen debug) [[]]

end GraphStep

namespace DeltaState

variable {ε : Type} {gen : Generation} {debug : Value → String} {c : Nat}

/-- The core edge of a statement lies between the two resolved nodes. -/
theorem coreEdgeOf_eq_some {t : EdgeTarget} {s d : Option Nat} {cid a b : Nat}
    (h : coreEdgeOf gen t s d = some (cid, a, b)) :
    s = some a ∧ d = some b ∧ gen.findCoreEdgeId a t.reltypeId b t.id.key = some cid := by
  cases s with
  | none => cases h
  | some s =>
    cases d with
    | none => cases h
    | some d =>
      obtain ⟨cid', hfind, heq⟩ := map_eq_some_iff.mp h
      cases heq
      exact ⟨rfl, rfl, hfind⟩

/-- A `MERGE` of a core edge writes nothing, or one patch of that edge. -/
theorem serveGraph_setsEdge (st : DeltaState) {ev : Evaluator ε} {stmt : EdgeWriteStmt ε}
    (h : (edge ev stmt).SetsEdge gen debug c) : ((edge ev stmt).edgeSet gen debug = none ∧
      st.serveGraph gen debug (.edge ev stmt) = st) ∨ ∃ s reltype a b, (edge ev stmt).edgeSet gen debug = some s ∧
      gen.findCoreEdgeId a reltype b s.id.key = some c ∧ st.serveGraph gen debug (.edge ev stmt) =
        st.commit [.upsertEdge s.id s.replace s.patches (some a) (some b) (some c)] := by
  obtain ⟨hop, hcore⟩ := h
  simp only [serveGraph, executeEdgeWrite, planEdgeWrite, edgeSet]
  cases ht : edgeTarget gen debug ev stmt with
  | error e => exact .inl ⟨rfl, rfl⟩
  | ok t =>
    simp only [Except.toOption, bind_some, bind, Except.bind]
    cases hs : gen.resolveEndpoint t.id.src with
    | error e => exact .inl ⟨rfl, rfl⟩
    | ok s =>
      cases hd : gen.resolveEndpoint t.id.dst with
      | error e => exact .inl ⟨rfl, rfl⟩
      | ok d =>
        obtain ⟨⟨cid, a, b⟩, hedge, hc⟩ := map_eq_some_iff.mp (hcore t s d ht hs hd)
        obtain rfl : cid = c := hc
        obtain ⟨rfl, rfl, hfind⟩ := coreEdgeOf_eq_some hedge
        rw [hop]
        by_cases hbare : t.fold.patches = [] ∧ t.fold.replace = false
        · refine .inl ⟨if_pos hbare, ?_⟩
          simp only [edgeOp, planEdgeMerge, hedge, if_pos hbare]
          rfl
        · refine .inr ⟨_, t.reltypeId, a, b, if_neg hbare, hfind, ?_⟩
          simp only [edgeOp, planEdgeMerge, hedge, if_neg hbare]
          rfl

end DeltaState

variable {key : Option (String × Value)}

/-- The edges the core answers with are its own. -/
theorem CoreGraph.findCoreEdgeId_lt {g : CoreGraph} {src reltype dst cid : Nat}
    (h : g.generation.findCoreEdgeId src reltype dst key = some cid) : cid < g.edges.length := by
  obtain ⟨a, ha, rfl⟩ := map_eq_some_iff.mp h
  have hmem := View.mem_adjOverlaid.mp (mem_of_find?_eq_some ha)
  have hcore : a ∈ g.view.coreEdges src true := by
    rcases hmem.2 with hborn | ⟨-, ⟨hcore, -⟩ | hseg⟩
    · cases hborn
    · exact hcore
    · cases hseg
  rw [g.coreEdges_view] at hcore
  obtain ⟨e, he, -⟩ := g.mem_adj.mp hcore
  exact (List.getElem?_eq_some_iff.mp he).1

namespace DeltaState

variable {ε : Type} {g : CoreGraph} {debug : Value → String} {c : Nat} {levels : List (List EdgeSet)} {st : DeltaState}

variable (h : List.Forall₂ (HoldsSets g.edges.length c) st.levels levels)
include h

/-- One step keeps the levels and their statements together. -/
theorem holdsSets_serveGraph {step : GraphStep ε} (hstep : step.SetsEdge g.generation debug c) :
    List.Forall₂ (HoldsSets g.edges.length c) (st.serveGraph g.generation debug step).levels
      (step.stretch g.generation debug levels) := by
  obtain ⟨mem, l0⟩ := st
  cases h with
  | @cons _ sets _ rest hmem hrest =>
    cases step with
    | node step =>
      obtain rfl : step = .flush := hstep
      show List.Forall₂ _ (flush ⟨mem, l0⟩).levels _
      rw [flush]
      simp only [hmem.isEmpty]
      cases sets with
      | nil => exact .cons hmem hrest
      | cons s sets =>
        have hbase : mem.edgeSyntheticBase + mem.bornEdges.length = g.edges.length := by
          rw [hmem.born, hmem.base]
          rfl
        refine .cons ?_ (.cons hmem hrest)
        rw [hbase]
        exact .fresh _ _ c
    | edge ev stmt =>
      rcases serveGraph_setsEdge ⟨mem, l0⟩ hstep with ⟨hset, hst⟩ | ⟨s, reltype, a, b, hset, hfind, hst⟩
      · rw [hst]
        simp only [stretch, hset]
        exact .cons hmem hrest
      · rw [hst]
        simp only [stretch, hset]
        exact .cons (hmem.patch (CoreGraph.findCoreEdgeId_lt hfind) s a b) hrest

/-- A run keeps them together. -/
theorem holdsSets_serveGraphAll {steps : List (GraphStep ε)}
    (hsteps : ∀ step ∈ steps, step.SetsEdge g.generation debug c) :
    List.Forall₂ (HoldsSets g.edges.length c) (st.serveGraphAll g.generation debug steps).levels
      (steps.foldl (stretch g.generation debug) levels) := by
  induction steps generalizing st levels with
  | nil => exact h
  | cons step steps ih =>
    exact ih (holdsSets_serveGraph h (hsteps step (.head _))) fun s hs => hsteps s (.tail _ hs)

end DeltaState

/-- The levels answer with their kept statements, one after another. -/
theorem overRow_levels {edgeCount c : Nat} {ms : List Memtable} {levels : List (List EdgeSet)}
    (h : List.Forall₂ (HoldsSets edgeCount c) ms levels) (row : Map String Value) :
    overRow row ((ms.reverse.filterMap (·.edgeDeltaById c)).foldl foldDeltaEdge (∅, false)) =
      (levels.reverse.flatMap keptSets).foldl EdgeSet.applyTo row := by
  induction h with
  | nil => exact Finmap.empty_union
  | @cons m sets ms levels hm _ ih =>
    rw [reverse_cons, filterMap_append, foldl_append, reverse_cons,
      flatMap_append, foldl_append, ← ih, flatMap_singleton]
    by_cases hne : sets = []
    · have hnone : [m].filterMap (·.edgeDeltaById c) = [] := by
        simp [hm.edgeDelta, hne]
      rw [hnone, hne]
      rfl
    · have hsome : [m].filterMap (·.edgeDeltaById c) = [summary (keptSets sets)] := by
        simp [hm.edgeDelta, hne]
      rw [hsome, foldl_cons, foldl_nil,
        overRow_foldDeltaEdge _ _ (summary_live _), overRow_summary]

/-- The stretches hold every accepted statement, in order. -/
theorem GraphStep.stretches_flatten {ε : Type} (gen : Generation) (debug : Value → String)
    (steps : List (GraphStep ε)) :
    (stretches gen debug steps).reverse.flatten = steps.filterMap (edgeSet gen debug) := by
  have hrun : ∀ levels : List (List EdgeSet), levels ≠ [] → (steps.foldl (stretch gen debug) levels).reverse.flatten =
        levels.reverse.flatten ++ steps.filterMap (edgeSet gen debug) := by
    induction steps with
    | nil => exact fun levels _ => (append_nil _).symm
    | cons step steps ih =>
      intro levels hne
      have hstep : step.stretch gen debug levels ≠ [] ∧ (step.stretch gen debug levels).reverse.flatten =
            levels.reverse.flatten ++ (step.edgeSet gen debug).toList := by
        obtain ⟨sets, rest, rfl⟩ := exists_cons_of_ne_nil hne
        cases step with
        | node step =>
          cases step with
          | write ev stmt => exact ⟨hne, (append_nil _).symm⟩
          | flush =>
            cases sets with
            | nil => exact ⟨hne, (append_nil _).symm⟩
            | cons s sets => exact ⟨cons_ne_nil _ _, by simp [stretch, edgeSet]⟩
        | edge ev stmt =>
          unfold stretch
          cases (edge ev stmt).edgeSet gen debug with
          | none => exact ⟨hne, (append_nil _).symm⟩
          | some s => exact ⟨cons_ne_nil _ _, by simp⟩
      rw [foldl_cons, ih _ hstep.1, hstep.2, filterMap_cons, append_assoc]
      cases step.edgeSet gen debug <;> rfl
  exact hrun [[]] (cons_ne_nil _ _)

namespace DeltaState

variable {ε : Type} (g : CoreGraph) (debug : Value → String) (c : Nat)

/-- **Patches of a core edge accumulate** exactly if the statements that the levels do not
answer with change nothing. The right side names the statements that are lost, so it can be read
off the log. -/
theorem edgeSets_read_iff (steps : List (GraphStep ε)) (hsteps : ∀ step ∈ steps, step.SetsEdge g.generation debug c) :
    let st := (start g.nodes.length g.edges.length).serveGraphAll g.generation debug steps
    let row := g.generation.edgeRow c
    st.snapshot.edgeRead c row = (steps.filterMap (edgeSet g.generation debug)).foldl EdgeSet.applyTo row ↔
      ((stretches g.generation debug steps).reverse.flatMap keptSets).foldl EdgeSet.applyTo row =
        (stretches g.generation debug steps).reverse.flatten.foldl EdgeSet.applyTo row := by
  intro st row
  have hstart : List.Forall₂ (HoldsSets g.edges.length c) (start g.nodes.length g.edges.length).levels [[]] :=
    .cons (.fresh _ _ c) .nil
  have hread : st.snapshot.edgeRead c row =
      overRow row ((st.levels.reverse.filterMap (·.edgeDeltaById c)).foldl foldDeltaEdge (∅, false)) := by
    show overRow row ((((st.levels.map Memtable.level).reverse).filterMap (·.edgeDelta c)).foldl
      foldDeltaEdge (∅, false)) = _
    rw [← map_reverse, filterMap_map]
    rfl
  rw [stretches_flatten, hread, overRow_levels (holdsSets_serveGraphAll hstart hsteps) row]
  rfl

end DeltaState

/-! ## Two people who know each other -/

/-- Two people and a relationship that carries a `uuid`. -/
def acquaintances : CoreGraph where
  labels := ["Person"]
  reltypes := ["KNOWS"]
  nodes := [{ labels := [0], props := [("id", .int 1)] }, { labels := [0], props := [("id", .int 2)] }]
  edges := [{ reltype := 0, src := 0, dst := 1, props := [("uuid", .str "x")] }]
  indexes := [("person_id", "Person", "id")]
  ends := by decide

/-- `MERGE (a:Person {id: 1})-[r:KNOWS {key}]->(b:Person {id: 2}) SET r.prop = value`. -/
def setKnows (key : Option (String × Value)) (prop : String) (value : Value) : GraphStep Value :=
  .edge literal { src := ⟨"Person", "id", .int 1⟩, reltype := "KNOWS", dst := ⟨"Person", "id", .int 2⟩
                  op := .create, key, sets := [.prop prop value] }

/-- Such a statement is about the one relationship there is. -/
theorem setsEdge_setKnows {prop : String} {value : Value}
    (hkey : acquaintances.generation.findCoreEdgeId 0 0 1 key = some 0) (debug : Value → String) :
    (setKnows key prop value).SetsEdge acquaintances.generation debug 0 := by
  refine ⟨rfl, fun t s d ht hs hd => ?_⟩
  obtain ⟨reltype, hreltype, ht⟩ := bind_eq_ok.mp ht
  obtain ⟨src, hsrc, ht⟩ := bind_eq_ok.mp ht
  obtain ⟨dst, hdst, ht⟩ := bind_eq_ok.mp ht
  obtain ⟨key', hkey', ht⟩ := bind_eq_ok.mp ht
  obtain ⟨fold, -, ht⟩ := bind_eq_ok.mp ht
  obtain ⟨⟨⟩, -, ht⟩ := bind_eq_ok.mp ht
  have hspelled : evalEdgeKey literal
      { src := ⟨"Person", "id", .int 1⟩, reltype := "KNOWS", dst := ⟨"Person", "id", .int 2⟩
        op := .create, key, sets := [.prop prop value] } = .ok key := by
    cases key <;> rfl
  cases hreltype
  cases hsrc
  cases hdst
  cases hkey'.symm.trans hspelled
  cases ht
  cases hs
  cases hd
  simp [coreEdgeOf, hkey]

namespace DeltaState

/-- Two keyless statements with a flush in between. -/
theorem edgeSets_read_keyless :
    let steps := [setKnows none "a" (.int 1), .node .flush, setKnows none "b" (.int 2)]
    ((start 2 1).serveGraphAll acquaintances.generation (fun _ => "") steps).snapshot.edgeRead 0
        (acquaintances.generation.edgeRow 0) =
      (steps.filterMap (edgeSet acquaintances.generation fun _ => "")).foldl
        EdgeSet.applyTo (acquaintances.generation.edgeRow 0) := by
  intro steps
  have hkey : acquaintances.generation.findCoreEdgeId 0 0 1 none = some 0 := by decide +kernel
  have hsteps : ∀ step ∈ steps, step.SetsEdge acquaintances.generation (fun _ => "") 0 := by
    simp only [steps, forall_mem_cons, not_mem_nil, false_imp_iff, implies_true, and_true]
    exact ⟨setsEdge_setKnows hkey _, rfl, setsEdge_setKnows hkey _⟩
  exact (edgeSets_read_iff acquaintances (fun _ => "") 0 steps hsteps).mpr (by decide +kernel)

/-- **A keyed `SET` hides a keyless one** in the same level. -/
theorem edgeSets_hidden : ¬ ∀ (g : CoreGraph) (debug : Value → String) (c : Nat) (steps : List (GraphStep Value)),
      (∀ step ∈ steps, step.SetsEdge g.generation debug c) →
      ((start g.nodes.length g.edges.length).serveGraphAll g.generation debug
          steps).snapshot.edgeRead c (g.generation.edgeRow c) =
        (steps.filterMap (edgeSet g.generation debug)).foldl EdgeSet.applyTo (g.generation.edgeRow c) := by
  intro h
  have hnone : acquaintances.generation.findCoreEdgeId 0 0 1 none = some 0 := by decide +kernel
  have huuid : acquaintances.generation.findCoreEdgeId 0 0 1 (some ("uuid", .str "x")) = some 0 := by
    decide +kernel
  have hread := h acquaintances (fun _ => "") 0
    [setKnows none "a" (.int 1), setKnows (some ("uuid", .str "x")) "b" (.int 2)] (by
      simp only [forall_mem_cons, not_mem_nil, false_imp_iff, implies_true, and_true]
      exact ⟨setsEdge_setKnows hnone _, setsEdge_setKnows huuid _⟩)
  revert hread
  decide +kernel

end DeltaState

end Slater
