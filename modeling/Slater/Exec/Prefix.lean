import Slater.Exec.Walks

/-!
# A limit only cuts

A `LIMIT` pushed into a `MATCH` changes how the clause is matched: the walk is depth first, lists the
hops of hubs, filters no anchor ahead, and every loop stops once enough rows are there. It does not
change what is matched. If the clause answers without the limit, then with it the clause answers the
first rows of that answer.

The statement is about success, so the matcher is run in the monad of success, where the walks of
`Slater.Exec.Walks` are equal.

**What it does not establish.** A clause that fails without the limit may answer with it, when it stops before the
row that fails; nothing is said of that case. Nor does the limit say how much work is saved.
-/

namespace Slater

open List Option

namespace Engine

variable {p : Pattern Expr} {table t : Table} {mc : MatchClause}

/-! ## Walks -/

section

variable {m : Type → Type} [Monad m] [LawfulMonad m]

theorem complete_rows {eng : Engine m} (hrows : eng.counting = false) (row : Binding)
    (out : List Binding) : eng.complete row out = pure (out ++ [row]) := by
  simp [complete, countTally, hrows]

end

variable {eng : Engine Option}

theorem limited_mergeHop (rel : RelPat Expr) (next : NodePat Expr) (binding : Binding)
    (walk : List Hop) {onward : Option Nat → Nat → Binding → List Hop → List Binding → Option (List Binding)}
    (h : ∀ nb b w, Limited fun cap out => onward cap nb b w out) (hop : Hop) :
    Limited fun cap out => eng.mergeHop rel next binding walk (onward cap) hop out :=
  .bind fun _ => .ite _ (h _ _ _) .skip

theorem limited_expandChain (hrows : eng.counting = false) (p : Pattern Expr) (start : Nat)
    (rels : List (RelPat Expr × NodePat Expr)) (cur : Nat) (binding : Binding) (walk : List Hop) :
    Limited fun cap out => eng.expandChain p false cap start rels cur binding walk out := by
  induction rels generalizing cur binding walk with
  | nil =>
    unfold expandChain
    simp only [complete_rows hrows]
    exact .guard (.push _)
  | cons rn rest ih =>
    obtain ⟨rel, next⟩ := rn
    cases hrel : rel.varLength with
    | none =>
      simp only [expandChain_hop eng hrel (Bool.false_and _)]
      exact .guard (.bind fun hops => .foldlM (fun hop =>
        limited_mergeHop rel next binding walk ih hop) hops)
    | some vl =>
      unfold expandChain
      simp only [hrel]
      simp only [Bool.or_eq_true, ite_or]
      exact .guard (.bind fun paths => .foldlM (fun path => .ite _ .skip (ih path.2 _ _)) paths)

/-! ## Anchors -/

/-- The prefilter tests what `node_ok` tests, once the properties it asks for are read. -/
theorem propsOk_of_wants {ε : Type} {ev : ε → Option Val} {read : String → Val}
    {props : List (String × ε)} {wants : List (String × Val)}
    (h : (props.mapM fun ke => ev ke.2 >>= fun want => pure (ke.1, want)) = some wants) :
    propsOk ev (fun k => pure (read k)) props = some (wants.all fun w => (read w.1).looseEq w.2 == some true) := by
  induction props generalizing wants with
  | nil =>
    cases h
    rfl
  | cons ke props ih =>
    rw [List.mapM_cons] at h
    simp only [Option.bind_eq_bind, Option.pure_def, Option.bind_eq_some_iff, Option.some.injEq] at h
    obtain ⟨_, ⟨want, hwant, rfl⟩, rest, hrest, rfl⟩ := h
    have hprops := ih hrest
    simp only [Option.pure_def] at hprops
    simp only [propsOk, hwant, hprops, Option.bind_eq_bind, Option.pure_def,
      bind_some]
    split
    · rename_i heq
      simp [heq]
    · rename_i hne
      simp [hne]

theorem nodeOk_of_wants {binding : Binding} {wants : List (String × Val)}
    (h : eng.anchorWants p binding = some wants) (c : Nat) (guaranteed : List Nat) :
    eng.nodeOk c p.start (.map binding) guaranteed = some (eng.nodeOkPar c p.start.labelExpr wants guaranteed) := by
  unfold nodeOk nodeOkPar
  split
  · rename_i hlabels
    rw [hlabels]
    exact propsOk_of_wants h
  · rename_i hlabels
    simp [hlabels]

theorem walkAnchorsBy_par {par : Bool} (hpar : par = true → eng.chainParallelizable p = true)
    (ok : Nat → Option Bool) (binding : Binding) (degree : Bool) (ids : List Nat) (out : List Binding) :
    eng.walkAnchorsBy ok p binding par degree none ids out =
      eng.walkAnchorsBy ok p binding false degree none ids out := by
  unfold walkAnchorsBy
  simp only [walkAnchor_par eng hpar]

section

variable (hrows : eng.counting = false) (p : Pattern Expr) (binding : Binding) (w : Option Expr)
include hrows

theorem limited_walkAnchors (ids : List Nat) (upperBound : Nat) (guaranteed : List Nat) :
    Limited fun cap out => eng.walkAnchors p binding w ids upperBound guaranteed out cap := by
  have hpar : ∀ ok out, eng.walkAnchorsBy ok p binding
      ((none : Option Nat).isNone && eng.chainParallelizable p) false none ids out =
      eng.walkAnchorsBy ok p binding false false none ids out := fun ok out =>
    walkAnchorsBy_par (by simp) ok binding false ids out
  have hlimited : ∀ ok, Limited fun cap out => eng.walkAnchorsBy ok p binding false false cap ids out := fun _ =>
    .foldlM (fun c => .bind fun _ => .ite _ (limited_expandChain hrows p c p.rels c _ []) .skip) ids
  constructor
  · intro out
    unfold walkAnchors
    simp only [hrows, Bool.false_and, hpar]
    split
    · cases eng.anchorWants p binding with
      | none => rfl
      | some wants => exact (hlimited _).append out
    · exact (hlimited _).append out
  · intro new hnew c out hlt
    -- with a limit the anchors are checked one by one; the prefilter agrees with that
    have hseq : eng.walkAnchorsBy (fun c => eng.nodeOk c p.start (.map binding) guaranteed) p binding
        false false none ids [] = some new := by
      unfold walkAnchors at hnew
      simp only [hrows, Bool.false_and, hpar] at hnew
      split at hnew
      · obtain ⟨wants, hwants, hnew⟩ := bind_eq_some_iff.1 hnew
        simp only [nodeOk_of_wants hwants]
        exact hnew
      · exact hnew
    unfold walkAnchors
    simp only [hrows]
    exact (hlimited _).cut hseq hlt

theorem limited_matchSinglePattern : Limited fun cap out => eng.matchSinglePattern p binding w out cap := by
  unfold matchSinglePattern
  dsimp only
  split
  · exact limited_walkAnchors hrows _ _ _ _ _ _
  · exact .skip
  · exact limited_walkAnchors hrows _ _ _ _ _ _

end

/-! ## Patterns -/

theorem limited_matchPatterns (hrows : eng.counting = false) (w : Option Expr)
    (ps : List (Pattern Expr)) (binding : Binding) :
    Limited fun cap out => eng.matchPatterns w cap ps binding out := by
  induction ps generalizing binding with
  | nil =>
    cases w with
    | none => exact .guard (.push binding)
    | some w =>
      refine .guard (.bind fun ok => ?_)
      simp only [apply_ite pure]
      exact .ite _ (.push binding) .skip
  | cons p rest ih =>
    have hsingle := limited_matchSinglePattern hrows p binding w
    have hrest : ∀ found : List Binding, Limited fun cap out => found.foldlM (fun out b =>
        if capped cap out then pure out else eng.matchPatterns w cap rest b out) out :=
      (.foldlM (fun b => ih b))
    refine .guard ?_
    by_cases hlast : (rest.isEmpty && w.isNone) = true
    · -- the limit reaches the pattern itself
      simp only [Bool.and_eq_true, List.isEmpty_iff, Option.isNone_iff_eq_none] at hlast
      obtain ⟨rfl, rfl⟩ := hlast
      have hpush : ∀ cap b (out : List Binding),
          (if capped cap out then pure out else eng.matchPatterns none cap [] b out) =
            if capped cap out then some out else some (out ++ [b]) := fun cap b out => by
        unfold matchPatterns
        split <;> rfl
      simp only [hpush]
      exact hsingle.collect
    · simp only [hlast, Bool.false_eq_true, if_false]
      exact .bind hrest

/-! ## Rows -/

variable («optional» : Bool) (vars : List String)

theorem matchRows_take (row : List Val) (found : List Binding) {r : Nat} (hr : 0 < r) :
    matchRows «optional» vars row (found.take r) = (matchRows «optional» vars row found).take r := by
  cases found with
  | nil =>
    cases «optional» <;> simp [matchRows]
    omega
  | cons b found =>
    obtain ⟨r, rfl⟩ := Nat.exists_eq_succ_of_ne_zero hr.ne'
    simp [matchRows]

/-- The rows of one input row: as many bindings as are still wanted give as many rows. -/
theorem limited_matchRows (row : List Val) {f : Option Nat → List Binding → Option (List Binding)} (h : Limited f) :
    Limited fun cap out => f (cap.map (· - out.length)) [] >>= fun bs =>
      some (out ++ matchRows «optional» vars row bs) where
  append out := by
    simp only [map_none]
    cases f none [] <;> rfl
  cut hnew c out hlt := by
    obtain ⟨bs, hbs, hnew⟩ := bind_eq_some_iff.1 hnew
    cases hnew
    have hcut : f (some (c - out.length)) [] = some (bs.take (c - out.length)) :=
      h.cut hbs (Nat.sub_pos_of_lt hlt)
    simp only [map_some, hcut, bind_eq_bind, bind_some, nil_append]
    rw [matchRows_take _ _ _ _ (Nat.sub_pos_of_lt hlt)]

/-- The same where the rows are cut as they are pushed; the bindings need not be cut then. -/
theorem limited_pushCapped (row : List Val) {found : Option Nat → Option (List Binding)}
    (h : ∀ bs, found none = some bs → ∀ r, 0 < r → ∃ bs', found (some r) = some bs' ∧ bs'.take r = bs.take r) :
    Limited fun cap out => found (cap.map (· - out.length)) >>= fun bs =>
      some (pushCapped cap out (matchRows «optional» vars row bs)) where
  append out := by
    simp only [map_none]
    cases found none <;> rfl
  cut hnew c out hlt := by
    obtain ⟨bs, hbs, hnew⟩ := bind_eq_some_iff.1 hnew
    cases hnew
    have hr := Nat.sub_pos_of_lt hlt
    obtain ⟨bs', hbs', htake⟩ := h bs hbs _ hr
    simp only [map_some, hbs', bind_eq_bind, bind_some, pushCapped,
      nil_append]
    rw [← matchRows_take _ _ _ _ hr, htake, matchRows_take _ _ _ _ hr]

/-- **Tables**: what is shown of one row of the input is carried over all of them, where the
room that is left shrinks from row to row. -/
theorem matchTable_take {vars : List String} (push : Option Nat → List (List Val) → List (List Val) → List (List Val))
    {found : List Val → Option Nat → Option (List Binding)}
    (h : ∀ row, Limited fun cap out => found row (cap.map (· - out.length)) >>= fun bs => some (push cap out (matchRows mc.optional vars row bs)))
    (ht : matchTable table mc vars none (push none) found = some t) (c : Nat) :
    matchTable table mc vars (some c) (push (some c)) found = some ⟨t.cols, t.rows.take c⟩ := by
  obtain ⟨rows, hrows, ht⟩ := bind_eq_some_iff.1 ht
  cases ht
  have hcut := Limited.foldlM_cut h c table.rows rows [] (by simpa using hrows)
  exact bind_eq_some_iff.2 ⟨_, hcut, rfl⟩

/-! ## The clause -/

theorem limited_streamCandidate (cols : List String) (start : NodePat Expr) (w : Option Expr)
    (row : List Val) (guaranteed : List Nat) (c : Nat) :
    Limited fun _ out => eng.streamCandidate cols start w row guaranteed c out := by
  refine .bind fun ok => .ite _ ?_ .skip
  cases w with
  | none => exact .push _
  | some w =>
    refine .bind fun v => ?_
    simp only [apply_ite pure]
    exact .ite _ (.push _) .skip

theorem streamMatch_take {start : NodePat Expr} (ht : eng.streamMatch table mc start none = some t) (c : Nat) :
    eng.streamMatch table mc start (some c) = some ⟨t.cols, t.rows.take c⟩ := by
  obtain ⟨rows, hrows, ht⟩ := bind_eq_some_iff.1 ht
  cases ht
  have hrow : ∀ row, Limited fun cap out => eng.streamRow table.cols start mc.where row cap out :=
    fun row => .foldlM (limited_streamCandidate table.cols start mc.where row _) _
  have hcut := Limited.foldlM_cut hrow c table.rows rows [] hrows
  -- the loop over the input rows leaves the check of the limit to the scan
  have hstop : ∀ row cap out, capped cap out = true →
      eng.streamRow table.cols start mc.where row cap out = some out := fun _ _ _ hc => Limited.foldlM_capped hc _
  rw [← Limited.foldlM_stopped hstop] at hcut
  exact bind_eq_some_iff.2 ⟨_, hcut, rfl⟩

theorem generalMatch_take (hrows : eng.counting = false) (ht : eng.generalMatch table mc none = some t)
    (c : Nat) : eng.generalMatch table mc (some c) = some ⟨t.cols, t.rows.take c⟩ := by
  unfold generalMatch at ht ⊢
  exact matchTable_take (fun _ out rows => out ++ rows) (fun row =>
    limited_matchRows mc.optional _ row (limited_matchPatterns hrows mc.where mc.patterns _)) ht c

theorem applyMatchQuantified_take (hrows : eng.counting = false)
    (ht : eng.applyMatchQuantified table mc none = some t) (c : Nat) :
    eng.applyMatchQuantified table mc (some c) = some ⟨t.cols, t.rows.take c⟩ := by
  obtain ⟨alts, halts, ht⟩ := bind_eq_some_iff.1 ht
  refine bind_eq_some_iff.2 ⟨alts, halts, ?_⟩
  refine matchTable_take pushCapped (fun row => limited_pushCapped mc.optional _ row ?_) ht c
  intro bs hbs r hr
  have hcombos := Limited.foldlM (fun combo : List (Pattern Expr) =>
    limited_matchPatterns hrows mc.where combo (Binding.ofRow table.cols row Binding.empty))
    (combinations alts)
  exact ⟨bs.take r, hcombos.cut hbs hr, by rw [take_take, Nat.min_self]⟩

theorem applyMatchSelected_take {selector : PathSelector}
    (ht : eng.applyMatchSelected table mc p selector none = some t) (c : Nat) :
    eng.applyMatchSelected table mc p selector (some c) = some ⟨t.cols, t.rows.take c⟩ := by
  unfold applyMatchSelected at ht ⊢
  split at ht
  · cases ht
  rw [if_neg ‹_›]
  split at ht
  · split at ht
    · cases ht
    simp only [if_neg ‹_›]
    refine matchTable_take pushCapped (fun row => limited_pushCapped mc.optional _ row ?_) ht c
    exact fun bs hbs r _ => ⟨bs, hbs, rfl⟩
  · cases ht

/-- **A limit only cuts what a clause answers.** The cap is any number, `0` included. Counting
runs, which build no rows, are excluded. -/
theorem applyMatch_take (hrows : eng.counting = false) (ht : eng.applyMatch table mc none = some t) (c : Nat) :
    eng.applyMatch table mc (some c) = some ⟨t.cols, t.rows.take c⟩ := by
  unfold applyMatch at ht ⊢
  split at ht
  · exact applyMatchSelected_take ht c
  · cases ht
  · split at ht
    · cases ht
    rw [if_neg ‹_›]
    split at ht
    · exact streamMatch_take ht c
    · split at ht
      · rw [if_pos ‹_›]
        exact applyMatchQuantified_take hrows ht c
      · rw [if_neg ‹_›]
        exact generalMatch_take hrows ht c

/-- The same of a run that may fail. -/
theorem applyMatch_prefix {eng : Engine (Except Failure)} (hrows : eng.counting = false)
    (ht : eng.applyMatch table mc none = .ok t) (c : Nat) :
    eng.applyMatch table mc (some c) = .ok ⟨t.cols, t.rows.take c⟩ := by
  have hrel := ((related_success eng).applyMatch table (MatchClause.over_true mc))
  have hsuccess : eng.success.applyMatch table mc none = some t := by
    rw [← show _ = _ from hrel none, ht]
    rfl
  exact toOption_eq_some.1 ((hrel (some c)).trans (applyMatch_take hrows hsuccess c))

end Engine

end Slater
