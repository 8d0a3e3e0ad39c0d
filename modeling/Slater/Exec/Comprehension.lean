import Slater.Exec.PlanChoice

/-!
# Pattern comprehensions

`eval_pattern_comprehension` (`slater/src/exec/eval.rs`) hands the predicate of `[p WHERE w | e]` to
`match_single_pattern`, which plans with it and filters nothing. The `WHERE` is applied at the end of
`match_patterns`, which `MATCH` and `EXISTS` call and the comprehension does not.

The nested match runs on the engine of the clause around it, and so under the mode of that clause. Three
modes are possible: the clause builds its rows, it builds them and prunes by endpoint
(`RETURN DISTINCT`), or it counts them. The value is compared with a `MATCH` of the same pattern that
neither prunes nor counts (`Engine.unpruned`).

- In a clause that builds rows and prunes no endpoint of the pattern, the comprehension is that `MATCH`
  exactly when its predicate is true on every chain that starts at an anchor the planner picks. With a
  safe plan it is enough that the predicate is true on every chain of the pattern as written, and that
  is also needed when the planner does not use the predicate.
- In a clause that counts, the comprehension is empty, whatever there is to match.

**What it does not establish.** Where an endpoint of the pattern is pruned, which takes a last
relationship of variable length without a name, nothing is said. The expressions inside the pattern, the
predicate and the projection are evaluated in the mode of the clause on both sides of the comparison, so
the statement is about one comprehension, not about those nested in it.
-/

namespace Slater

open List Fallible

/-! ## The mode of the clause -/

/-- The end of no chain over these relationships is pruned: the last of them is a single hop, or
it or the path has a name. -/
def Pattern.keepsEnds (p : Pattern Expr) (rels : List (RelPat Expr × NodePat Expr)) : Bool :=
  rels.getLast?.all fun rn => rn.1.varLength.isNone || p.pathVar.isSome || rn.1.var.isSome

namespace Pattern

variable {p : Pattern Expr} {rel : RelPat Expr} {next : NodePat Expr} {rn : RelPat Expr × NodePat Expr}
  {rest rels : List (RelPat Expr × NodePat Expr)}

theorem keepsEnds_tail (h : p.keepsEnds (rn :: rest) = true) : p.keepsEnds rest = true := by
  cases rest with
  | nil => rfl
  | cons rn' rest => rwa [keepsEnds, getLast?_cons_cons] at h

theorem keepsEnds_of_fixed (h : ∀ rn ∈ rels, rn.1.varLength = none) : p.keepsEnds rels = true := by
  unfold keepsEnds
  cases hlast : rels.getLast? with
  | none => rfl
  | some rn => simp [h rn (mem_of_getLast? hlast)]

end Pattern

namespace Engine

section Pruning

variable {m : Type → Type} [Monad m] (eng : Engine m) {p : Pattern Expr} {rel : RelPat Expr}
  {next : NodePat Expr} {rels : List (RelPat Expr × NodePat Expr)} {degree : Bool} {cap : Option Nat}

/-- The engine of a clause that prunes nothing. -/
def unpruned : Engine m := { eng with distinctEndpoint := false }

theorem varlen_unpruned (w : VarLenWalk) (steps node : Nat) (path : List Hop) (used visited : List Nat)
    (out : List (List Hop × Nat)) : eng.unpruned.varlen w steps node path used visited out =
      eng.varlen w steps node path used visited out := by
  induction steps generalizing node path used visited out with
  | zero => rfl
  | succ steps ih =>
    unfold varlen
    simp only [ih]
    rfl

theorem varlenWalk_unpruned {vl : VarLength} {last : Bool} (hvar : rel.varLength = some vl)
    (hkept : last = true → p.keepsEnds [(rel, next)] = true) (cur : Nat) (binding : Binding) (walk : List Hop) :
    eng.unpruned.varlenWalk p rel next vl last cur binding walk = eng.varlenWalk p rel next vl last cur binding walk := by
  have hdedup : (eng.distinctEndpoint && p.pathVar.isNone && rel.var.isNone && last) = false := by
    cases last with
    | false => simp
    | true =>
      have h := hkept rfl
      simp only [Pattern.keepsEnds, getLast?_singleton, Option.all_some, hvar, Option.isNone_some, Bool.false_or,
        Bool.or_eq_true] at h
      rcases h with h | h
      · simp [Option.isSome_iff_ne_none.mp h]
      · simp [Option.isNone_eq_false_iff.mpr h]
  unfold varlenWalk
  rw [hdedup]
  exact varlen_unpruned eng _ _ _ _ _ _ _

variable [MonadExceptOf Failure m]

theorem expandChain_unpruned (hkept : p.keepsEnds rels = true) (start cur : Nat) (binding : Binding)
    (walk : List Hop) (out : List Binding) : eng.unpruned.expandChain p degree cap start rels cur binding walk out =
      eng.expandChain p degree cap start rels cur binding walk out := by
  induction rels generalizing cur binding walk out with
  | nil => rfl
  | cons rn rest ih =>
    obtain ⟨rel, next⟩ := rn
    have hrest := ih (Pattern.keepsEnds_tail hkept)
    unfold expandChain
    cases hvar : rel.varLength with
    | none =>
      simp only [hvar, hrest]
      rfl
    | some vl =>
      have hlast : rest.isEmpty = true → p.keepsEnds [(rel, next)] = true := by
        intro hempty
        rwa [isEmpty_iff.mp hempty] at hkept
      simp only [hvar, hrest, varlenWalk_unpruned eng hvar hlast]
      rfl

theorem parWalk_unpruned (start : Nat) (frontier : List ChainBranch) (out : List Binding) :
    eng.unpruned.parWalk p degree start rels frontier out = eng.parWalk p degree start rels frontier out := by
  induction rels generalizing frontier out with
  | nil => rfl
  | cons rn rest ih =>
    unfold parWalk
    simp only [ih]
    rfl

theorem walkAnchors_unpruned (hkept : p.keepsEnds p.rels = true) (binding : Binding) (w : Option Expr) (ids : List Nat)
    (upperBound : Nat) (guaranteed : List Nat) (out : List Binding) :
    eng.unpruned.walkAnchors p binding w ids upperBound guaranteed out cap =
      eng.walkAnchors p binding w ids upperBound guaranteed out cap := by
  have hanchor : ∀ par degree c out, eng.unpruned.walkAnchor p binding par degree cap c out =
      eng.walkAnchor p binding par degree cap c out := by
    intro par degree c out
    cases par with
    | false => exact expandChain_unpruned eng hkept c c _ [] out
    | true => exact parWalk_unpruned eng c _ out
  unfold walkAnchors walkAnchorsBy
  simp only [hanchor]
  rfl

/-- **A match does not see the pruning** where no end of the pattern is pruned. -/
theorem matchSinglePattern_unpruned (hkept : p.keepsEnds p.rels = true) (binding : Binding) (w : Option Expr)
    (out : List Binding) : eng.unpruned.matchSinglePattern p binding w out cap =
      eng.matchSinglePattern p binding w out cap := by
  have hrooted : ((eng.maybeReroot p binding w).getD p).keepsEnds ((eng.maybeReroot p binding w).getD p).rels = true := by
    cases hroot : eng.maybeReroot p binding w with
    | none => exact hkept
    | some q =>
      obtain ⟨rfl, -, hfixed⟩ := maybeReroot_some hroot
      refine Pattern.keepsEnds_of_fixed fun rn hrn => ?_
      obtain ⟨⟨rel, node⟩, hmem, rfl⟩ := mem_map.mp hrn
      obtain ⟨step, hstep, rfl⟩ := mem_map.mp (of_mem_zip (mem_reverse.mp hmem)).1
      exact hfixed step hstep
  have hsame : ∀ q : Pattern Expr, q.keepsEnds q.rels = true → ∀ ids upperBound guaranteed,
      eng.unpruned.walkAnchors q binding w ids upperBound guaranteed out cap =
        eng.walkAnchors q binding w ids upperBound guaranteed out cap :=
    fun q hq ids upperBound guaranteed => walkAnchors_unpruned eng hq binding w ids upperBound guaranteed out
  unfold matchSinglePattern
  rw [show eng.unpruned.maybeReroot p binding w = eng.maybeReroot p binding w from rfl]
  simp only [hsame _ hrooted]
  rfl

end Pruning

/-! ## A clause that counts -/

section Counting

variable {σ : Type} {eng : Engine (StateT σ (Except Failure))} (hcount : eng.counting = true) {p : Pattern Expr}
  {out : List Binding}
include hcount

/-- A completed walk is tallied and not emitted. -/
theorem returns_complete (row : Binding) : Returns (· = out) (eng.complete row out) := by
  have htally : Returns (· = true) eng.countTally := by
    rw [countTally, if_pos hcount]
    exact .after fun _ => .pure rfl
  refine .bind htally fun tallied htallied => .pure ?_
  rw [htallied, if_pos rfl]

omit hcount in
theorem returns_addDegree (node : Nat) (dir : Direction) : Returns (· = out) (eng.addDegree node dir out) :=
  .after fun _ => .after fun _ => .pure rfl

theorem returns_expandChain (degree : Bool) (cap : Option Nat) (start : Nat)
    (rels : List (RelPat Expr × NodePat Expr)) (cur : Nat) (binding : Binding) (walk : List Hop) :
    Returns (· = out) (eng.expandChain p degree cap start rels cur binding walk out) := by
  induction rels generalizing cur binding walk out with
  | nil =>
    unfold expandChain
    exact .ite (.pure rfl) (returns_complete hcount _)
  | cons rn rest ih =>
    obtain ⟨rel, next⟩ := rn
    have hhop : ∀ hop out, Returns (· = out) (eng.mergeHop rel next binding walk
        (fun nb b w out => eng.expandChain p degree cap start rest nb b w out) hop out) :=
      fun hop out => .after fun ok => .ite (ih _ _ _) (.pure rfl)
    unfold expandChain
    refine .ite (.pure rfl) (.ite (returns_addDegree _ _) ?_)
    cases rel.varLength with
    | none =>
      refine .ite (.foldlM (fun out' hop hout => ?_) _ _ rfl) (.after fun hops => .foldlM (fun out' hop hout => ?_) _ _ rfl)
      · exact .after fun ok => .ite (hout ▸ hhop hop out') (.pure hout)
      · exact .ite (.pure hout) (hout ▸ hhop hop out')
    | some vl =>
      refine .after fun paths => .foldlM (fun out' path hout => ?_) _ _ rfl
      exact .ite (.pure hout) (hout ▸ ih _ _ _)

theorem returns_parWalk (degree : Bool) (start : Nat) (rels : List (RelPat Expr × NodePat Expr))
    (frontier : List ChainBranch) : Returns (· = out) (eng.parWalk p degree start rels frontier out) := by
  induction rels generalizing frontier out with
  | nil => exact .foldlM (fun out' b hout => hout ▸ returns_complete hcount _) _ _ rfl
  | cons rn rest ih =>
    obtain ⟨rel, next⟩ := rn
    unfold parWalk
    refine .ite (.foldlM (fun out' b hout => hout ▸ returns_addDegree _ _) _ _ rfl) ?_
    -- the branches that wait may change, the rows do not
    have hadd : ∀ (track : Bool) (b : ChainBranch) (acc : List ChainBranch × List Binding) (hop : Hop), acc.2 = out →
        Returns (fun acc' => acc'.2 = out) (eng.addHop rel next track
          (fun pending out => eng.parWalk p degree start rest pending out) b acc hop) := by
      intro track b acc hop hacc
      refine .after fun branch => ?_
      cases branch with
      | none => exact .pure hacc
      | some branch => exact .ite (.bind (ih _) fun rows hrows => .pure (hrows.trans hacc)) (.pure hacc)
    refine .bind (P := fun acc => acc.2 = out) (.foldlM (fun acc b hacc => ?_) _ _ rfl) fun acc hacc => ?_
    · exact .foldlM (fun acc hop hacc => hadd _ b acc hop hacc) _ _ hacc
    · exact .ite (.pure hacc) (hacc ▸ ih _)

/-- **A nested match in a clause that counts adds no rows**: they go to the tally of the
clause. -/
theorem returns_matchSinglePattern (binding : Binding) (w : Option Expr) (cap : Option Nat) :
    Returns (· = out) (eng.matchSinglePattern p binding w out cap) := by
  have hanchors : ∀ (ok : Nat → StateT σ (Except Failure) Bool) (q : Pattern Expr) (par degree : Bool) (ids : List Nat),
      Returns (· = out) (eng.walkAnchorsBy ok q binding par degree cap ids out) := by
    intro ok q par degree ids
    refine .foldlM (fun out' c hout => .ite (.pure hout) (.after fun _ => .ite ?_ (.pure hout))) _ _ rfl
    exact hout ▸ .ite (returns_parWalk hcount _ _ _ _) (returns_expandChain hcount _ _ _ _ _ _ _)
  have hwalk : ∀ (q : Pattern Expr) (ids : List Nat) (upperBound : Nat) (guaranteed : List Nat),
      Returns (· = out) (eng.walkAnchors q binding w ids upperBound guaranteed out cap) :=
    fun q ids upperBound guaranteed => .ite (.after fun _ => hanchors _ _ _ _ _) (hanchors _ _ _ _ _)
  unfold matchSinglePattern
  simp only
  split
  · exact hwalk _ _ _ _
  · exact .pure rfl
  · exact hwalk _ _ _ _

end Counting

/-! ## The chains of a plan -/

section Planned

variable {eng : Engine Option} {p : Pattern Expr} {b : Binding} {w : Option Expr} {found : List Binding} {row : Binding}

/-- A chain of the pattern from one of the anchors the planner picks: the node its start is
bound to, or a candidate of the scan it chooses. -/
inductive Chained (eng : Engine Option) (p : Pattern Expr) (b : Binding) (w : Option Expr) (row : Binding) : Prop where
  | bound {id : Nat} (start : p.start.var.bind b = some (.node id))
    (check : eng.nodeOk id p.start (.map b) [] = some true)
    (walked : Walked eng p id p.rels id (b.insert? p.start.var (.node id)) [] row)
  | scanned {c : Nat} (start : p.start.var.bind b = none)
    (candidate : c ∈ eng.view.candidates (eng.anchorScan p b w))
    (check : eng.nodeOk c p.start (.map b) (eng.view.scanGuaranteedLabels (eng.anchorScan p b w)) = some true)
    (walked : Walked eng p c p.rels c (b.insert? p.start.var (.node c)) [] row)

/-- A chain of the pattern, walked from the end the planner chooses. -/
def Planned (eng : Engine Option) (p : Pattern Expr) (b : Binding) (w : Option Expr) (row : Binding) : Prop :=
  eng.Chained ((eng.maybeReroot p b w).getD p) b w row

/-- The planner does the same for the pattern with the predicate as without it. Then the
predicate has neither moved the start nor narrowed the anchors. -/
structure PlansAlike (eng : Engine Option) (p : Pattern Expr) (b : Binding) (w : Option Expr) : Prop where
  root : eng.maybeReroot p b w = eng.maybeReroot p b none
  scan : eng.anchorScan ((eng.maybeReroot p b w).getD p) b w = eng.anchorScan ((eng.maybeReroot p b w).getD p) b none

/-- The rows of the anchor loop. -/
theorem mem_walkAnchors (hrows : eng.counting = false) {ids guaranteed : List Nat} {upperBound : Nat}
    (h : eng.walkAnchors p b w ids upperBound guaranteed [] none = some found) :
    row ∈ found ↔ ∃ c ∈ ids, eng.nodeOk c p.start (.map b) guaranteed = some true ∧
      Walked eng p c p.rels c (b.insert? p.start.var (.node c)) [] row := by
  have hwants : eng.prefilters p upperBound guaranteed = true → ∃ wants, eng.anchorWants p b = some wants := by
    intro hpre
    rw [walkAnchors, if_pos (by simpa [prefilters] using hpre)] at h
    obtain ⟨wants, hwants, -⟩ := Option.bind_eq_some_iff.mp h
    exact ⟨wants, hwants⟩
  rw [walkAnchors_seq hrows hwants, walkAnchorsBy_rows hrows] at h
  obtain ⟨rss, hrss, rfl⟩ := Option.map_eq_some_iff.mp h
  rw [mem_flatten]
  constructor
  · rintro ⟨rs, hrs, hrow⟩
    obtain ⟨c, hc, hrs⟩ := (mem_mapM_some hrss).mp hrs
    obtain ⟨ok, hok, hrs⟩ := Option.bind_eq_some_iff.mp hrs
    cases ok with
    | false =>
      cases hrs
      cases hrow
    | true => exact ⟨c, hc, hok, (mem_expandChain hrows p.rels hrs).mp hrow⟩
  · rintro ⟨c, hc, hok, hwalked⟩
    obtain ⟨rs, hrs, hanchor⟩ := mapM_some_of_mem hrss hc
    refine ⟨rs, hrs, ?_⟩
    simp only [anchorRows, hok] at hanchor
    exact (mem_expandChain hrows p.rels hanchor).mpr hwalked

/-- **The rows of `match_single_pattern` are the chains of its plan.** Rows only, not how often:
the comprehension and the `MATCH` share the plan, so that multiplicities need no argument of
their own. -/
theorem mem_matchSinglePattern (hrows : eng.counting = false) (h : eng.matchSinglePattern p b w [] none = some found) :
    row ∈ found ↔ eng.Planned p b w row := by
  unfold matchSinglePattern at h
  unfold Planned
  generalize (eng.maybeReroot p b w).getD p = q at h ⊢
  simp only at h
  split at h
  next id hstart =>
    rw [mem_walkAnchors hrows h]
    constructor
    · rintro ⟨c, hc, hok, hwalked⟩
      cases mem_singleton.mp hc
      exact .bound hstart hok hwalked
    · rintro (⟨hstart', hok, hwalked⟩ | ⟨hstart', -, -, -⟩)
      · cases hstart.symm.trans hstart'
        exact ⟨id, .head _, hok, hwalked⟩
      · cases hstart.symm.trans hstart'
  next v hother hstart =>
    cases h
    constructor
    · intro hrow
      cases hrow
    · rintro (⟨hstart', -, -⟩ | ⟨hstart', -, -, -⟩)
      · exact absurd (Option.some.inj (hstart.symm.trans hstart')) (hother _)
      · cases hstart.symm.trans hstart'
  next hstart =>
    rw [mem_walkAnchors hrows h]
    constructor
    · rintro ⟨c, hc, hok, hwalked⟩
      exact .scanned hstart hc hok hwalked
    · rintro (⟨hstart', -, -⟩ | ⟨-, hc, hok, hwalked⟩)
      · cases hstart.symm.trans hstart'
      · exact ⟨_, hc, hok, hwalked⟩

end Planned

/-! ## One pattern and its predicate -/

variable {eng : Engine (Except Failure)} {w : Option Expr} {p : Pattern Expr} {b : Binding} {found rows : List Binding}

/-- What the end of a clause adds to its rows. -/
theorem matchPatterns_end (h : eng.matchPatterns w none [] b rows = .ok found) :
    found = rows ++ [b].filter (eng.holds w) := by
  cases w with
  | none => exact (Except.ok.inj h).symm
  | some e =>
    obtain ⟨v, hv, h⟩ := bind_eq_ok.mp h
    cases h
    cases htrue : v.truthy <;> simp [holds, hv, htrue]

theorem matchPatterns_end_of_holds (h : eng.holds w b = true) : eng.matchPatterns w none [] b rows = .ok (rows ++ [b]) := by
  unfold matchPatterns
  cases w with
  | none => rfl
  | some e =>
    rw [holds, Option.all_some] at h
    cases hv : eng.eval e (.map b) with
    | error err => simp [hv] at h
    | ok v =>
      rw [hv] at h
      simp only [hv]
      exact congrArg Except.ok (if_pos h)

/-- The rows of one pattern that pass the `WHERE`. -/
theorem matchPatterns_single (hfound : eng.matchSinglePattern p b w [] none = .ok found)
    (h : eng.matchPatterns w none [p] b [] = .ok rows) : rows = found.filter (eng.holds w) := by
  unfold matchPatterns at h
  simp only [Option.map_none, ite_self, hfound] at h
  have hgen : ∀ (l out : List Binding), l.foldlM (fun out b => eng.matchPatterns w none [] b out) out = .ok rows →
      rows = out ++ l.filter (eng.holds w) := by
    intro l
    induction l with
    | nil =>
      intro out h
      simpa using (Except.ok.inj h).symm
    | cons row l ih =>
      intro out h
      obtain ⟨next, hnext, h⟩ := bind_eq_ok.mp h
      rw [ih next h, matchPatterns_end hnext, append_assoc, ← filter_append]
      rfl
  exact hgen found [] h

theorem matchPatterns_single_of_holds (hfound : eng.matchSinglePattern p b w [] none = .ok found)
    (h : ∀ row ∈ found, eng.holds w row = true) : eng.matchPatterns w none [p] b [] = .ok found := by
  unfold matchPatterns
  simp only [Option.map_none, ite_self, hfound]
  have hgen : ∀ (l out : List Binding), (∀ row ∈ l, eng.holds w row = true) →
      l.foldlM (fun out b => eng.matchPatterns w none [] b out) out = .ok (out ++ l) := by
    intro l
    induction l with
    | nil => intro out _; exact congrArg Except.ok (append_nil out).symm
    | cons row l ih =>
      intro out h
      rw [foldlM_cons, matchPatterns_end_of_holds (h row (.head _))]
      have hrest := ih (out ++ [row]) fun row hrow => h row (.tail _ hrow)
      rwa [append_assoc] at hrest
  exact hgen found [] h

end Engine

namespace Session

variable {s : Session} {d : Bool} {depth : Nat} {p : Pattern Expr} {w : Option Expr} {e : Expr} {scope : Scope}
  {st st' : Option (List Val)} {v : Val} {found : List Binding}

/-- The engine of the matches nested in an expression of a clause that builds rows. -/
def nested (s : Session) (d : Bool) (depth : Nat) : Engine (Except Failure) :=
  s.engine (rowMode d) (s.evalAt (rowMode d) depth)

/-- The value of the projection for each binding. -/
def projected (s : Session) (d : Bool) (depth : Nat) (e : Expr) (bindings : List Binding) :
    EvalM (Except Failure) (List Val) :=
  bindings.mapM fun b => s.evalAt (rowMode d) depth e (.map b)

/-- **The comprehension is what `MATCH` finds** without pruning, projected in its order, and it
is empty exactly when `EXISTS` is false. The list is compared entry by entry, which includes the
order and repetitions. -/
def AgreesWithMatch (s : Session) (d : Bool) (depth : Nat) (p : Pattern Expr) (w : Option Expr) (e : Expr)
    (scope : Scope) (st : Option (List Val)) (v : Val) : Prop :=
  ∃ bindings vals st', (s.nested d depth).unpruned.matchPatterns w none [p] scope.toBinding [] = .ok bindings ∧
    (s.projected d depth e bindings).run st = .ok (vals, st') ∧ v = .list vals ∧
    (vals = [] ↔ (s.evalAt (rowMode d) (depth + 1) (.existsPatterns [p] w) scope).run st = .ok (.bool false, st))

theorem projected_length {bindings : List Binding} {vals : List Val}
    (h : (s.projected d depth e bindings).run st = .ok (vals, st')) : vals.length = bindings.length := by
  induction bindings generalizing vals st with
  | nil => cases h; rfl
  | cons b bindings ih =>
    rw [projected, mapM_cons] at h
    obtain ⟨v, st₁, -, h⟩ := run_bind_eq_ok.mp h
    obtain ⟨rest, st₂, hrest, h⟩ := run_bind_eq_ok.mp h
    cases h
    exact congrArg (· + 1) (ih hrest)

/-- What a comprehension is made of. -/
theorem comprehension_eq_ok
    (h : (s.evalAt (rowMode d) (depth + 1) (.patternComprehension p w e) scope).run st = .ok (v, st')) :
    ∃ found vals, (s.nested d depth).matchSinglePattern p scope.toBinding w [] none = .ok found ∧
      (s.projected d depth e found).run st = .ok (vals, st') ∧ v = .list vals := by
  change (StateT.lift (comprehensionBindings (s.nested d depth) p w scope) >>= fun found =>
    s.projected d depth e found >>= fun vals => pure (Val.list vals)).run st = _ at h
  simp only [run_bind_eq_ok, run_lift_eq_ok] at h
  obtain ⟨found, _, ⟨hfound, rfl⟩, vals, _, hvals, h⟩ := h
  cases h
  exact ⟨found, vals, hfound, hvals, rfl⟩

/-- The clause around does not prune the ends of the pattern. -/
theorem nested_unpruned (hkept : d = false ∨ p.keepsEnds p.rels = true) (b : Binding) :
    (s.nested d depth).unpruned.matchPatterns w none [p] b [] = (s.nested d depth).matchPatterns w none [p] b [] := by
  rcases hkept with rfl | hkept
  · rfl
  · unfold Engine.matchPatterns
    simp only [Option.map_none, ite_self, Engine.matchSinglePattern_unpruned _ hkept]
    rfl

/-- A comprehension agrees exactly when it has found no binding its predicate refuses. -/
theorem agrees_iff_found (hkept : d = false ∨ p.keepsEnds p.rels = true)
    (h : (s.evalAt (rowMode d) (depth + 1) (.patternComprehension p w e) scope).run st = .ok (v, st')) :
    ∃ found, (s.nested d depth).matchSinglePattern p scope.toBinding w [] none = .ok found ∧
      (s.AgreesWithMatch d depth p w e scope st v ↔ ∀ row ∈ found, (s.nested d depth).holds w row = true) := by
  obtain ⟨found, vals, hfound, hvals, rfl⟩ := comprehension_eq_ok h
  refine ⟨found, hfound, fun hagrees => ?_, fun hholds => ?_⟩
  · obtain ⟨bindings, vals', st', hmatch, hvals', hv, -⟩ := hagrees
    cases hv
    rw [nested_unpruned hkept] at hmatch
    have hrows := Engine.matchPatterns_single hfound hmatch
    have hsame := (projected_length hvals').symm.trans (projected_length hvals)
    rw [hrows] at hsame
    exact length_filter_eq_length_iff.mp hsame
  · have hmatch := Engine.matchPatterns_single_of_holds hfound hholds
    refine ⟨found, vals, st', (nested_unpruned hkept _).trans hmatch, hvals, rfl, ?_⟩
    have hexists : (s.evalAt (rowMode d) (depth + 1) (.existsPatterns [p] w) scope).run st =
        .ok (.bool !found.isEmpty, st) := run_bind_eq_ok.mpr ⟨found, st, run_lift_eq_ok.mpr ⟨hmatch, rfl⟩, rfl⟩
    rw [hexists, ← length_eq_zero_iff, projected_length hvals]
    cases found <;> simp

/-- What a nested match finds, among the chains of its plan. -/
theorem mem_found {b row : Binding} (hfound : (s.nested d depth).matchSinglePattern p b w [] none = .ok found) :
    row ∈ found ↔ (s.nested d depth).success.Planned p b w row := by
  have hrel := (Engine.related_success (s.nested d depth)).matchSinglePattern p.over_true b w [] none
  exact Engine.mem_matchSinglePattern rfl (hrel.symm.trans (congrArg Except.toOption hfound))

/-- A plan that does not use the predicate finds what it finds without it. -/
theorem found_of_plansAlike {b : Binding} (hplan : (s.nested d depth).success.PlansAlike p b w) :
    (s.nested d depth).matchSinglePattern p b w [] none = (s.nested d depth).matchSinglePattern p b none [] none := by
  have hroot : (s.nested d depth).maybeReroot p b w = (s.nested d depth).maybeReroot p b none := hplan.root
  have hscan : (s.nested d depth).anchorScan (((s.nested d depth).maybeReroot p b w).getD p) b w =
      (s.nested d depth).anchorScan (((s.nested d depth).maybeReroot p b w).getD p) b none := hplan.scan
  have hwalk : ∀ q ids upperBound guaranteed, (s.nested d depth).walkAnchors q b w ids upperBound guaranteed [] none =
      (s.nested d depth).walkAnchors q b none ids upperBound guaranteed [] none := fun _ _ _ _ => rfl
  unfold Engine.matchSinglePattern
  simp only [hwalk]
  rw [hscan, hroot]

/-- A clause that counts gives the empty list. -/
theorem counted_comprehension {n n' : Nat} (h : ((s.evalAt (countMode d) (depth + 1) (.patternComprehension p w e)
    scope).run st).run n = .ok ((v, st'), n')) : v = .list [] := by
  have hcount : (s.engine (countMode d) (s.evalAt (countMode d) depth)).counting = true := rfl
  have hfound : Returns (· = []) (comprehensionBindings (s.engine (countMode d) (s.evalAt (countMode d) depth)) p w
      scope) := Engine.returns_matchSinglePattern hcount scope.toBinding w none
  have hvalue : Returns (fun r => r.1 = .list []) ((s.evalAt (countMode d) (depth + 1) (.patternComprehension p w e)
      scope).run st) := by
    rw [evalAt, evalStep, StateT.run_bind]
    refine .bind (P := fun r => r.1 = []) (.bind hfound fun found hfound => .pure hfound) fun r hr => ?_
    obtain ⟨found, st₁⟩ := r
    cases hr
    exact .pure rfl
  exact hvalue n (v, st') n' h

/-- `(a)`. -/
def anyNode : Pattern Expr where
  start := { var := some "a" }
  rels := []

/-- The value of `[(a) WHERE w | 1]` on two nodes, in a clause that builds its rows. -/
def ones (d : Bool) (w : Option Expr) : Except Failure (Val × Option (List Val)) :=
  (linked.session.evalAt (rowMode d) 2 (.patternComprehension anyNode w (.literal (.int 1))) (.map Binding.empty)).run none

/-- The value of `[(a) | 1]` on two nodes, in a clause that counts its rows. -/
def onesCounted : Except Failure ((Val × Option (List Val)) × Nat) :=
  ((linked.session.evalAt (countMode false) 2 (.patternComprehension anyNode none (.literal (.int 1)))
    (.map Binding.empty)).run none).run 0

end Session

end Slater
