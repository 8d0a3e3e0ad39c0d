import Slater.Exec.CoreGraph
import Slater.Exec.ShortestPaths

/-!
# The layered search

`ALL SHORTEST` and `SHORTEST k` extend loopless prefixes layer by layer. The prefixes of a layer are
all the loopless paths of one length that have not reached the destination, each once
(`Prefixes`), so the paths that arrive in a layer are all the loopless paths of the next length. The
loop returns what arrives in the first layer with an arrival, or the first `k` arrivals over all.

**What it does not establish.** The cap on explored nodes is left out, so a search is always finished here. Paths
with repeated nodes are never returned by the layered search, and whether a query should want them is not discussed.
-/

namespace Slater

open List View

namespace View

variable (v : View) (rel : RelPat Expr)

/-- The extensions of a layer: a prefix with a hop to a node it has not visited. -/
def extensions (F : List PathPrefix) : List (PathPrefix × Hop) :=
  F.flatMap fun e =>
    ((v.hops e.node rel.dir rel.typeExpr).filter fun h => h.neighbour ∉ e.visited).map (e, ·)

/-- The path of an extension. -/
def extended (x : PathPrefix × Hop) : List Hop := x.1.path ++ [x.2]

/-- The extensions that arrive, long enough. -/
def arrivals (dst min : Nat) (F : List PathPrefix) : List (List Hop) :=
  ((v.extensions rel F).filter fun x => x.2.neighbour = dst ∧ min ≤ x.1.path.length + 1).map extended

/-- The prefixes of the next layer. -/
def nextPrefixes (dst : Nat) (F : List PathPrefix) : List PathPrefix :=
  ((v.extensions rel F).filter fun x => x.2.neighbour ≠ dst).map fun x =>
    ⟨x.2.neighbour, extended x, x.2.neighbour :: x.1.visited⟩

/-! ## What a layer computes -/

/-- The first paths a selector wants. -/
def takeWanted {α : Type} (want : Option Nat) (paths : List α) : List α :=
  want.elim paths paths.take

section

variable {v rel} {dst min : Nat} {want : Option Nat}
variable {e : PathPrefix} {l : Layer} {h : Hop} {F : List PathPrefix} {src d : Nat}

theorem layerHop_full (hl : l.full = true) : layerHop dst min want e l h = l := by
  simp [layerHop, hl]

theorem layerHop_visited (hv : h.neighbour ∈ e.visited) : layerHop dst min want e l h = l := by
  simp [layerHop, hv]

theorem layerHop_fresh (hl : l.full = false) (hv : h.neighbour ∉ e.visited) : layerHop dst min want e l h =
      if h.neighbour = dst then
        if min ≤ e.path.length + 1 then
          { l with
            results := l.results ++ [extended (e, h)]
            found := true
            full := want.any (· ≤ l.results.length + 1) }
        else l
      else { l with next := l.next ++ [⟨h.neighbour, extended (e, h), h.neighbour :: e.visited⟩] } := by
  rw [layerHop, if_neg (by simp [hl, hv])]
  rfl

/-- The loop over the extensions only: the other hops do nothing. -/
theorem layer_eq (F : List PathPrefix) (results : List (List Hop)) (found : Bool) :
    v.layer rel dst min want F results found = (v.extensions rel F).foldl (fun l x => layerHop dst min want x.1 l x.2)
        ⟨[], results, found, false⟩ := by
  unfold layer extensions
  generalize (⟨[], results, found, false⟩ : Layer) = l
  induction F generalizing l with
  | nil => rfl
  | cons e F ih =>
    rw [foldl_cons, flatMap_cons, foldl_append, ih, foldl_map]
    generalize v.hops e.node rel.dir rel.typeExpr = hops
    induction hops generalizing l with
    | nil => rfl
    | cons h hops ihh =>
      by_cases hv : h.neighbour ∈ e.visited
      · rw [foldl_cons, layerHop_visited hv, filter_cons_of_neg (by simpa using hv), ihh]
      · rw [foldl_cons, filter_cons_of_pos (by simpa using hv), foldl_cons, ihh]

theorem foldl_layerHop_full (xs : List (PathPrefix × Hop)) (hl : l.full = true) :
    xs.foldl (fun l x => layerHop dst min want x.1 l x.2) l = l :=
  foldl_fixed' (f := fun l x => layerHop dst min want x.1 l x.2) (fun _ => layerHop_full hl) xs

/-- **A layer**: it collects the arrivals and the next prefixes, or as many arrivals as are
wanted. -/
theorem foldl_layerHop (xs : List (PathPrefix × Hop))
    (hfresh : ∀ x ∈ xs, x.2.neighbour ∉ x.1.visited) (next : List PathPrefix)
    (results : List (List Hop)) (found : Bool) (hroom : want.all (results.length < ·) = true) :
    let arrived := (xs.filter fun x => x.2.neighbour = dst ∧ min ≤ x.1.path.length + 1).map extended
    let onward := (xs.filter fun x => x.2.neighbour ≠ dst).map fun x =>
      (⟨x.2.neighbour, extended x, x.2.neighbour :: x.1.visited⟩ : PathPrefix)
    let l := xs.foldl (fun l x => layerHop dst min want x.1 l x.2) ⟨next, results, found, false⟩
    if want.all ((results ++ arrived).length < ·) then
      l = ⟨next ++ onward, results ++ arrived, found || !arrived.isEmpty, false⟩
    else l.full = true ∧ l.results = takeWanted want (results ++ arrived) := by
  induction xs generalizing next results found with
  | nil => simp [hroom]
  | cons x xs ih =>
    have hx : x.2.neighbour ∉ x.1.visited := hfresh x (.head _)
    have ih := ih fun y hy => hfresh y (.tail _ hy)
    by_cases hdst : x.2.neighbour = dst
    · by_cases hlong : min ≤ x.1.path.length + 1
      · by_cases hfull : want.all (results.length + 1 < ·) = true
        · -- the path is taken, and there is room for more
          have hroom' : want.any (· ≤ results.length + 1) = false := by
            cases want with
            | none => rfl
            | some k => simpa using hfull
          have hstep : layerHop dst min want x.1 ⟨next, results, found, false⟩ x.2 =
              ⟨next, results ++ [extended x], true, false⟩ := by
            rw [layerHop_fresh rfl hx, if_pos hdst, if_pos hlong, hroom']
          have := ih next (results ++ [extended x]) true (by simpa using hfull)
          simp only [foldl_cons, hstep]
          simpa [hdst, hlong] using this
        · -- the path is the last one wanted
          obtain ⟨k, rfl⟩ : ∃ k, want = some k := by
            cases want with
            | none => simp at hfull
            | some k => exact ⟨k, rfl⟩
          have hk : k = results.length + 1 := by
            simp only [Option.all_some, decide_eq_true_eq] at hfull hroom
            omega
          have hstep : layerHop dst min (some k) x.1 ⟨next, results, found, false⟩ x.2 =
              ⟨next, results ++ [extended x], true, true⟩ := by
            rw [layerHop_fresh rfl hx, if_pos hdst, if_pos hlong]
            simp [hk]
          simp only [foldl_cons, hstep]
          rw [if_neg (by simp [hdst, hlong, hk]), foldl_layerHop_full xs rfl]
          refine ⟨rfl, ?_⟩
          rw [filter_cons_of_pos (by simp [hdst, hlong]), map_cons, hk]
          simp [takeWanted, take_append, take_of_length_le]
      · have hstep : layerHop dst min want x.1 ⟨next, results, found, false⟩ x.2 = ⟨next, results, found, false⟩ := by
          rw [layerHop_fresh rfl hx, if_pos hdst, if_neg hlong]
        simp only [foldl_cons, hstep]
        simpa [hdst, hlong] using ih next results found hroom
    · have hstep : layerHop dst min want x.1 ⟨next, results, found, false⟩ x.2 =
          ⟨next ++ [⟨x.2.neighbour, extended x, x.2.neighbour :: x.1.visited⟩], results, found,
            false⟩ := by
        rw [layerHop_fresh rfl hx, if_neg hdst]
      have := ih (next ++ [⟨x.2.neighbour, extended x, x.2.neighbour :: x.1.visited⟩]) results found hroom
      simp only [foldl_cons, hstep]
      simpa [hdst] using this

theorem mem_extensions {x : PathPrefix × Hop} :
    x ∈ v.extensions rel F ↔ x.1 ∈ F ∧ x.2 ∈ v.hops x.1.node rel.dir rel.typeExpr ∧ x.2.neighbour ∉ x.1.visited := by
  simp only [extensions, mem_flatMap, mem_map, mem_filter, decide_eq_true_eq]
  constructor
  · rintro ⟨e, he, h, ⟨hh, hv⟩, rfl⟩
    exact ⟨he, hh, hv⟩
  · rintro ⟨he, hh, hv⟩
    exact ⟨x.1, he, x.2, ⟨hh, hv⟩, rfl⟩

theorem layer_spec (F : List PathPrefix) (results : List (List Hop)) (found : Bool)
    (hroom : want.all (results.length < ·) = true) :
    let l := v.layer rel dst min want F results found
    if want.all ((results ++ v.arrivals rel dst min F).length < ·) then
      l = ⟨v.nextPrefixes rel dst F, results ++ v.arrivals rel dst min F,
        found || !(v.arrivals rel dst min F).isEmpty, false⟩
    else l.full = true ∧ l.results = takeWanted want (results ++ v.arrivals rel dst min F) := by
  rw [layer_eq]
  exact foldl_layerHop (v.extensions rel F) (fun x hx => (mem_extensions.1 hx).2.2) [] results found hroom

/-- The arrivals of the layers from a frontier on. -/
def arrivalsFrom (v : View) (rel : RelPat Expr) (dst min : Nat) : Nat → List PathPrefix → List (List Hop)
  | 0, _ => []
  | n + 1, F => v.arrivals rel dst min F ++ arrivalsFrom v rel dst min n (v.nextPrefixes rel dst F)

/-- The arrivals of the first layer that has one. -/
def firstArrivals (v : View) (rel : RelPat Expr) (dst min : Nat) : Nat → List PathPrefix → List (List Hop)
  | 0, _ => []
  | n + 1, F =>
    if v.arrivals rel dst min F = [] then firstArrivals v rel dst min n (v.nextPrefixes rel dst F)
    else v.arrivals rel dst min F

@[simp] theorem extensions_nil : v.extensions rel [] = [] := rfl

theorem arrivalsFrom_nil (n : Nat) : arrivalsFrom v rel dst min n [] = [] := by
  induction n with
  | zero => rfl
  | succ n ih => simpa [arrivalsFrom, arrivals, nextPrefixes] using ih

theorem firstArrivals_nil (n : Nat) : firstArrivals v rel dst min n [] = [] := by
  induction n with
  | zero => rfl
  | succ n ih => simpa [firstArrivals, arrivals, nextPrefixes] using ih

/-- **`SHORTEST k`** takes the first arrivals over all layers. -/
theorem layerLoop_some (k n : Nat) (F : List PathPrefix) (results : List (List Hop)) (found : Bool)
    (hroom : results.length < k) :
    v.layerLoop rel dst min (some k) false n F results found = (results ++ v.arrivalsFrom rel dst min n F).take k := by
  induction n generalizing F results found with
  | zero => simp [layerLoop, arrivalsFrom, take_of_length_le (Nat.le_of_lt hroom)]
  | succ n ih =>
    cases F with
    | nil => simp [layerLoop, arrivalsFrom_nil, take_of_length_le (Nat.le_of_lt hroom)]
    | cons e F =>
      have hlayer := @layer_spec v rel dst min (some k) (e :: F) results found (by simpa using hroom)
      rw [layerLoop, if_neg (by simp), arrivalsFrom, ← append_assoc]
      by_cases hmore : (results ++ v.arrivals rel dst min (e :: F)).length < k
      · -- room is left after this layer
        rw [if_pos (by simpa using hmore)] at hlayer
        simpa [hlayer] using ih (v.nextPrefixes rel dst (e :: F)) _ _ hmore
      · rw [if_neg (by simpa using hmore)] at hlayer
        rw [if_pos (by simp [hlayer.1]), hlayer.2, take_append_of_le_length (by omega)]
        rfl

/-- **`ALL SHORTEST`** takes the arrivals of the first layer that has one. -/
theorem layerLoop_none (n : Nat) (F : List PathPrefix) (results : List (List Hop)) :
    v.layerLoop rel dst min none true n F results false = results ++ v.firstArrivals rel dst min n F := by
  induction n generalizing F results with
  | zero => simp [layerLoop, firstArrivals]
  | succ n ih =>
    cases F with
    | nil => simp [layerLoop, firstArrivals_nil]
    | cons e F =>
      have hlayer := @layer_spec v rel dst min none (e :: F) results false rfl
      rw [layerLoop, firstArrivals, hlayer]
      by_cases hnone : v.arrivals rel dst min (e :: F) = []
      · simpa [hnone] using ih (v.nextPrefixes rel dst (e :: F)) results
      · simp [hnone]

/-! ## What the prefixes of a layer are -/

/-- The frontier of depth `d`: the loopless paths of that length that have not met `dst`, each
once. The hop lists are distinct, the nodes they end at need not be: parallel edges give several
prefixes. -/
structure Prefixes (v : View) (rel : RelPat Expr) (src dst d : Nat) (F : List PathPrefix) : Prop where
  once : (F.map PathPrefix.path).Nodup
  node : ∀ e ∈ F, e.node = endOf src e.path
  visited : ∀ e ∈ F, ∀ x, x ∈ e.visited ↔ x ∈ pathNodes src e.path
  mem : ∀ p, p ∈ F.map PathPrefix.path ↔ v.Follows rel src p ∧ (pathNodes src p).Nodup ∧
    p.length = d ∧ dst ∉ p.map Hop.neighbour

theorem Prefixes.start (src : Nat) : v.Prefixes rel src dst 0 [⟨src, [], [src]⟩] where
  once := by simp
  node := by simp [endOf]
  visited := by simp [pathNodes]
  mem p := by
    simp only [map_cons, map_nil, mem_singleton, length_eq_zero_iff]
    constructor
    · rintro rfl
      simp [Follows, pathNodes]
    · exact fun h => h.2.2.1

theorem endOf_mem_pathNodes (src : Nat) (p : List Hop) : endOf src p ∈ pathNodes src p :=
  mem_of_getLast? (getLast?_pathNodes src p)

theorem nodup_pathNodes_concat {p : List Hop} :
    (pathNodes src (p ++ [h])).Nodup ↔ (pathNodes src p).Nodup ∧ h.neighbour ∉ pathNodes src p := by
  rw [pathNodes_concat, ← concat_eq_append, nodup_concat, and_comm]

/-- The paths of the extensions: one hop longer, still loopless, and `dst` met at most at the
end. -/
theorem Prefixes.mem_extended (hF : v.Prefixes rel src dst d F) {p : List Hop} :
    (∃ x ∈ v.extensions rel F, extended x = p ++ [h]) ↔
      v.Follows rel src (p ++ [h]) ∧ (pathNodes src (p ++ [h])).Nodup ∧ p.length = d ∧ dst ∉ p.map Hop.neighbour := by
  rw [follows_concat, nodup_pathNodes_concat]
  constructor
  · rintro ⟨⟨e, h'⟩, hx, heq⟩
    obtain ⟨he, hh, hfresh⟩ := mem_extensions.1 hx
    obtain ⟨rfl, rfl⟩ : e.path = p ∧ h' = h := by simpa [extended] using heq
    obtain ⟨hfollows, hsimple, hlen, hdst⟩ := (hF.mem e.path).1 (mem_map_of_mem he)
    rw [hF.node e he] at hh
    exact ⟨⟨hfollows, hh⟩, ⟨hsimple, fun h => hfresh ((hF.visited e he _).2 h)⟩, hlen, hdst⟩
  · rintro ⟨⟨hfollows, hh⟩, ⟨hsimple, hfresh⟩, hlen, hdst⟩
    obtain ⟨e, he, rfl⟩ := mem_map.1 ((hF.mem p).2 ⟨hfollows, hsimple, hlen, hdst⟩)
    rw [← hF.node e he] at hh
    exact ⟨(e, h), mem_extensions.2 ⟨he, hh, fun h => hfresh ((hF.visited e he _).1 h)⟩, rfl⟩

/-- **What arrives** in a layer. -/
theorem Prefixes.mem_arrivals (hF : v.Prefixes rel src dst d F) (p : List Hop) :
    p ∈ v.arrivals rel dst min F ↔ v.Loopless rel src dst p ∧ min ≤ p.length ∧ p.length = d + 1 := by
  simp only [arrivals, mem_map, mem_filter, decide_eq_true_eq]
  constructor
  · rintro ⟨x, ⟨hx, hdst, hmin⟩, rfl⟩
    obtain ⟨hfollows, hsimple, hlen, -⟩ := hF.mem_extended.1 ⟨x, hx, rfl⟩
    have hlen' : (extended x).length = x.1.path.length + 1 := by simp [extended]
    exact ⟨⟨hfollows, hsimple, (endOf_concat src _ _).trans hdst⟩, by omega, by omega⟩
  · rintro ⟨hp, hmin, hlen⟩
    rcases eq_nil_or_concat' p with rfl | ⟨q, h, rfl⟩
    · simp at hlen
    have hdst : h.neighbour = dst := (endOf_concat src q h).symm.trans hp.ends
    have hunmet : dst ∉ q.map Hop.neighbour := fun hmem =>
      (nodup_pathNodes_concat.1 hp.simple).2 (hdst ▸ .tail _ hmem)
    obtain ⟨x, hx, heq⟩ :=
      hF.mem_extended.2 ⟨hp.follows, hp.simple, by simpa using hlen, hunmet⟩
    obtain ⟨hpath, hhop⟩ : x.1.path = q ∧ x.2 = h := by simpa [extended] using heq
    exact ⟨x, ⟨hx, hhop ▸ hdst, by simpa [hpath] using hmin⟩, heq⟩

theorem mem_nextPrefixes : e ∈ v.nextPrefixes rel dst F ↔ ∃ x ∈ v.extensions rel F, x.2.neighbour ≠ dst ∧
      ⟨x.2.neighbour, extended x, x.2.neighbour :: x.1.visited⟩ = e := by
  simp [nextPrefixes, and_assoc]

theorem map_path_nextPrefixes (F : List PathPrefix) : (v.nextPrefixes rel dst F).map PathPrefix.path =
      ((v.extensions rel F).filter fun x => x.2.neighbour ≠ dst).map extended := by
  rw [nextPrefixes, map_map]
  rfl

/-- **One layer on**, the frontier is that of the next depth. -/
theorem Prefixes.next (hF : v.Prefixes rel src dst d F) (honce : ((v.extensions rel F).map extended).Nodup) :
    v.Prefixes rel src dst (d + 1) (v.nextPrefixes rel dst F) where
  once := by
    rw [map_path_nextPrefixes]
    exact honce.sublist (filter_sublist.map _)
  node := by
    intro e he
    obtain ⟨x, -, -, rfl⟩ := mem_nextPrefixes.1 he
    exact (endOf_concat src _ _).symm
  visited := by
    intro e he y
    obtain ⟨x, hx, -, rfl⟩ := mem_nextPrefixes.1 he
    have hvis := hF.visited x.1 (mem_extensions.1 hx).1 y
    rw [mem_cons, hvis, extended, pathNodes_concat, mem_append, mem_singleton]
    exact or_comm
  mem p := by
    rw [map_path_nextPrefixes, mem_map]
    simp only [mem_filter, decide_eq_true_eq]
    rcases eq_nil_or_concat' p with rfl | ⟨q, h, rfl⟩
    · simp [extended]
    rw [map_append, mem_append, not_or]
    constructor
    · rintro ⟨x, ⟨hx, hdst⟩, heq⟩
      obtain ⟨hfollows, hsimple, hlen, hunmet⟩ := hF.mem_extended.1 ⟨x, hx, heq⟩
      obtain ⟨-, rfl⟩ : x.1.path = q ∧ x.2 = h := by simpa [extended] using heq
      exact ⟨hfollows, hsimple, by simpa using hlen, hunmet, by simpa using Ne.symm hdst⟩
    · rintro ⟨hfollows, hsimple, hlen, hunmet, hdst⟩
      obtain ⟨x, hx, heq⟩ := hF.mem_extended.2 ⟨hfollows, hsimple, by simpa using hlen, hunmet⟩
      obtain ⟨-, rfl⟩ : x.1.path = q ∧ x.2 = h := by simpa [extended] using heq
      exact ⟨x, ⟨hx, fun h => hdst (by simp [h])⟩, heq⟩

end

end View

namespace GraphView

variable (g : GraphView) (rel : RelPat Expr) {src dst min d : Nat} {F : List View.PathPrefix}

/-- Two extensions are two paths: parallel edges count one by one, and no edge counts twice. -/
theorem extended_nodup (hF : g.Prefixes rel src dst d F) : ((g.extensions rel F).map extended).Nodup := by
  have hpaths : F.Pairwise fun e e' => e.path ≠ e'.path := pairwise_map.1 hF.once
  rw [extensions, map_flatMap, nodup_flatMap]
  refine ⟨fun e he => ?_, hpaths.imp fun {e e'} hne => ?_⟩
  · rw [map_map]
    have hinj : Function.Injective fun h => e.path ++ [h] := fun h h' heq => by simpa using heq
    refine List.Nodup.map hinj ((g.hops_nodup e.node rel.dir rel.typeExpr).sublist ?_)
    -- the prefix has visited the node it stands at
    refine monotone_filter_right _ fun h hfresh => ?_
    have hself : e.node ∈ e.visited :=
      (hF.visited e he _).2 (hF.node e he ▸ endOf_mem_pathNodes src e.path)
    simp only [decide_eq_true_eq] at hfresh ⊢
    exact fun heq => hfresh (heq ▸ hself)
  · intro p hp hp'
    simp only [map_map, mem_map] at hp hp'
    obtain ⟨h, -, rfl⟩ := hp
    obtain ⟨h', -, heq⟩ := hp'
    exact hne (append_inj_left' heq rfl).symm

theorem arrivals_nodup (hF : g.Prefixes rel src dst d F) : (g.arrivals rel dst min F).Nodup :=
  (g.extended_nodup rel hF).sublist (filter_sublist.map _)

/-- **All the arrivals** of `n` layers: the loopless paths of the lengths they cover, each once,
the shorter ones first. The induction is on the number of layers; one layer is
`Prefixes.next`. -/
theorem arrivalsFrom_spec (n : Nat) (hF : g.Prefixes rel src dst d F) : (g.arrivalsFrom rel dst min n F).Nodup ∧
      (g.arrivalsFrom rel dst min n F).Pairwise (fun p q => p.length ≤ q.length) ∧
      ∀ p, p ∈ g.arrivalsFrom rel dst min n F ↔ g.Within rel src dst min (d + n) p ∧ d < p.length := by
  induction n generalizing d F with
  | zero =>
    refine ⟨nodup_nil, List.Pairwise.nil, fun p => ?_⟩
    simp only [arrivalsFrom, not_mem_nil, false_iff, View.Within]
    omega
  | succ n ih =>
    obtain ⟨hnodup, hsorted, hmem⟩ := ih (hF.next (g.extended_nodup rel hF))
    have hhere : ∀ p ∈ g.arrivals rel dst min F, p.length = d + 1 :=
      fun p hp => ((hF.mem_arrivals p).1 hp).2.2
    have hlater : ∀ p ∈ g.arrivalsFrom rel dst min n (g.nextPrefixes rel dst F), d + 1 < p.length :=
      fun p hp => ((hmem p).1 hp).2
    rw [arrivalsFrom]
    refine ⟨(g.arrivals_nodup rel hF).append hnodup fun p hp hp' => ?_, ?_, fun p => ?_⟩
    · have := hhere p hp
      have := hlater p hp'
      omega
    · refine pairwise_append.2 ⟨?_, hsorted, fun p hp q hq => ?_⟩
      · exact pairwise_of_forall_mem_list fun p hp q hq =>
          ((hhere p hp).trans (hhere q hq).symm).le
      · have := hhere p hp
        have := hlater q hq
        omega
    · rw [mem_append, hF.mem_arrivals, hmem]
      constructor
      · rintro (⟨hp, hmin, hlen⟩ | ⟨⟨hp, hmin, hmax⟩, hlen⟩)
        · exact ⟨⟨hp, hmin, by omega⟩, by omega⟩
        · exact ⟨⟨hp, hmin, by omega⟩, by omega⟩
      · rintro ⟨⟨hp, hmin, hmax⟩, hlen⟩
        by_cases heq : p.length = d + 1
        · exact .inl ⟨hp, hmin, heq⟩
        · exact .inr ⟨⟨hp, hmin, by omega⟩, by omega⟩

/-- **The first arrivals** are the shortest of all. -/
theorem firstArrivals_spec (n : Nat) (hF : g.Prefixes rel src dst d F) :
    (g.firstArrivals rel dst min n F).Nodup ∧ ∀ p, p ∈ g.firstArrivals rel dst min n F ↔
      p ∈ g.arrivalsFrom rel dst min n F ∧ ∀ q ∈ g.arrivalsFrom rel dst min n F, p.length ≤ q.length := by
  induction n generalizing d F with
  | zero => simp [firstArrivals, arrivalsFrom]
  | succ n ih =>
    have hnext := hF.next (g.extended_nodup rel hF)
    rw [firstArrivals, arrivalsFrom]
    by_cases hnone : g.arrivals rel dst min F = []
    · rw [hnone]
      exact ih hnext
    · rw [if_neg hnone]
      have hhere : ∀ p ∈ g.arrivals rel dst min F, p.length = d + 1 :=
        fun p hp => ((hF.mem_arrivals p).1 hp).2.2
      have hlater : ∀ p ∈ g.arrivalsFrom rel dst min n (g.nextPrefixes rel dst F),
          d + 1 < p.length := fun p hp => (((g.arrivalsFrom_spec rel n hnext).2.2 p).1 hp).2
      refine ⟨g.arrivals_nodup rel hF, fun p => ⟨fun hp => ?_, fun ⟨hp, hleast⟩ => ?_⟩⟩
      · refine ⟨mem_append_left _ hp, fun q hq => ?_⟩
        have := hhere p hp
        rcases mem_append.1 hq with hq | hq
        · have := hhere q hq
          omega
        · have := hlater q hq
          omega
      · rcases mem_append.1 hp with hp | hp
        · exact hp
        · obtain ⟨q, hq⟩ := exists_mem_of_ne_nil _ hnone
          have := hleast q (mem_append_left _ hq)
          have := hhere q hq
          have := hlater p hp
          omega

/-! ## The selectors -/

/-- Every path within the bounds, the shorter ones first: the empty one, then the arrivals. -/
def allWithin (src dst min max : Nat) : List (List Hop) :=
  (if min = 0 ∧ src = dst then [[]] else []) ++
    g.arrivalsFrom rel dst min max [⟨src, [], [src]⟩]

theorem loopless_nil_iff : g.Loopless rel src dst [] ↔ src = dst :=
  ⟨fun h => h.ends, fun h => ⟨trivial, by simp [pathNodes], h⟩⟩

/-- A loopless path back to its start is empty. -/
theorem loopless_self {p : List Hop} (h : g.Loopless rel src src p) : p = [] := by
  cases p with
  | nil => rfl
  | cons hop p =>
    have hmem := endOf_mem_pathNodes hop.neighbour p
    have hend : endOf hop.neighbour p = src := h.ends
    exact absurd (hend ▸ hmem) (nodup_cons.1 h.simple).1

theorem allWithin_spec (src dst min max : Nat) : (g.allWithin rel src dst min max).Nodup ∧
      (g.allWithin rel src dst min max).Pairwise (fun p q => p.length ≤ q.length) ∧
      ∀ p, p ∈ g.allWithin rel src dst min max ↔ g.Within rel src dst min max p := by
  obtain ⟨hnodup, hsorted, hmem⟩ :=
    @arrivalsFrom_spec g rel src dst min 0 _ max (View.Prefixes.start src)
  rw [Nat.zero_add] at hmem
  have hempty : ∀ p ∈ (if min = 0 ∧ src = dst then [[]] else [] : List (List Hop)), p = [] := by
    intro p hp
    split at hp <;> simp_all
  refine ⟨List.Nodup.append ?_ hnodup fun p hp hp' => ?_,
    pairwise_append.2 ⟨?_, hsorted, fun p hp q _ => ?_⟩, fun p => ?_⟩
  · split <;> simp
  · have := ((hmem p).1 hp').2
    simp [hempty p hp] at this
  · split <;> simp
  · simp [hempty p hp]
  · rw [allWithin, mem_append, hmem, View.Within]
    cases p with
    | nil => simp [loopless_nil_iff, and_comm]
    | cons h p => simp

/-- **`ALL SHORTEST`** returns the shortest of them. -/
theorem severalPaths_all (src dst min max : Nat) :
    let paths := g.severalPaths rel src dst min max none true
    paths.Nodup ∧ ∀ p, p ∈ paths ↔
      g.Within rel src dst min max p ∧ ∀ q, g.Within rel src dst min max q → p.length ≤ q.length := by
  obtain ⟨hfirst, hleast⟩ :=
    @firstArrivals_spec g rel src dst min 0 _ max (View.Prefixes.start src)
  obtain ⟨-, -, hmem⟩ := g.allWithin_spec rel src dst min max
  have hpaths : g.severalPaths rel src dst min max none true = (if min = 0 ∧ src = dst then [[]] else []) ++
        g.firstArrivals rel dst min max [⟨src, [], [src]⟩] := by
    rw [severalPaths, if_neg (by simp), layerLoop_none]
  simp only [hpaths, ← hmem]
  by_cases hself : min = 0 ∧ src = dst
  · -- the empty path is the only one
    have hnone : g.arrivalsFrom rel dst min max [⟨src, [], [src]⟩] = [] := by
      refine eq_nil_iff_forall_not_mem.2 fun p hp => ?_
      have hp := ((@arrivalsFrom_spec g rel src dst min 0 _ max (View.Prefixes.start src)).2.2 p).1 hp
      obtain ⟨-, rfl⟩ := hself
      have hnil := g.loopless_self rel hp.1.1
      simp [hnil] at hp
    have hnone' : g.firstArrivals rel dst min max [⟨src, [], [src]⟩] = [] :=
      eq_nil_iff_forall_not_mem.2 fun p hp => by simpa [hnone] using ((hleast p).1 hp).1
    rw [allWithin, hnone, hnone', if_pos hself]
    simp
  · simpa [allWithin, hself] using ⟨hfirst, hleast⟩

/-- **`SHORTEST k`** returns the first `k` of them. -/
theorem severalPaths_k (src dst min max : Nat) {k : Nat} (hk : 0 < k) :
    g.severalPaths rel src dst min max (some k) false = (g.allWithin rel src dst min max).take k := by
  rw [severalPaths, allWithin]
  by_cases hself : min = 0 ∧ src = dst
  · by_cases hone : k ≤ 1
    · obtain rfl : k = 1 := by omega
      simp [hself]
    · simp only [hself]
      rw [if_neg (by simpa using hone), layerLoop_some k _ _ _ _ (by simpa using hone)]
  · simp only [hself]
    rw [if_neg (by simp), layerLoop_some k _ _ _ _ (by simpa using hk)]

/-- A diamond with a doubled side: two ways from `0` to `3`, one of them over parallel edges. -/
def diamond : CoreGraph where
  reltypes := ["R"]
  nodes := [{}, {}, {}, {}]
  edges := [⟨0, 0, 1, []⟩, ⟨0, 0, 1, []⟩, ⟨0, 1, 3, []⟩, ⟨0, 0, 2, []⟩, ⟨0, 2, 3, []⟩]
  ends := by decide

def anyOutgoing : RelPat Expr := { dir := .outgoing }

end GraphView

end Slater
