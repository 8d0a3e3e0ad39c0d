import Slater.Lib.StableSort
import Slater.Exec.CoreGraph
import Slater.Exec.Eval

/-!
# The order of a `WITH`

`project` filters by the `WHERE` of a `WITH` before it sorts, skips and limits. The clause reads the
other way round: its `WHERE` stands last and filters what the limit left. `withClause` is that
reading. The two agree when the clause has no `WHERE`, or when no row fails it. Otherwise `project` sorts without the
input columns in scope, since its rows no longer correspond to the input rows, and everything turns on the rows that
fail: those before the window let the window slide, and those inside let later rows in (`WindowKept`).

The comparison is made where the clause as written evaluates; which of several errors is raised first is not
compared.
-/

namespace Slater

open Val Fallible

/-! ## Sort keys -/

/-- The comparison of the sort keys of two rows, given the directions. -/
def cmpBy : List SortDir → List Val → List Val → Ordering
  | [], _, _ => .eq
  | d :: ds, as, bs =>
    (d.orient ((as.headD .null).cmpTotal (bs.headD .null))).then (cmpBy ds as.tail bs.tail)

theorem swap_cmpBy : ∀ (ds : List SortDir) (as bs : List Val), cmpBy ds bs as = (cmpBy ds as bs).swap
  | [], _, _ => rfl
  | d :: ds, as, bs => by
    rw [cmpBy, cmpBy, Ordering.swap_then, swap_cmpBy ds as.tail bs.tail, swap_cmpTotal]
    cases d <;> rfl

theorem chain_cmpBy : ∀ (ds : List SortDir) (as bs cs : List Val),
    Chain (cmpBy ds as bs) (cmpBy ds bs cs) (cmpBy ds as cs)
  | [], _, _, _ => by simp [cmpBy, Chain]
  | d :: ds, as, bs, cs => by
    refine Chain.then ?_ (chain_cmpBy ds as.tail bs.tail cs.tail)
    cases d with
    | asc => exact chain_cmpTotal _ _ _
    | desc =>
      -- a descending key chains through the reversed triple
      intro hab hbc
      simp only [SortDir.orient, ← swap_cmpTotal] at hab hbc ⊢
      obtain ⟨hle, heq⟩ := chain_cmpTotal (cs.headD .null) (bs.headD .null) (as.headD .null) hbc hab
      exact ⟨hle, heq.trans and_comm⟩

instance (ds : List SortDir) : Std.TransCmp (cmpBy ds) :=
  transCmp_of_chain (swap_cmpBy ds) (chain_cmpBy ds)

theorem cmpSortKeys_eq_cmpBy : ∀ (ds : List SortDir) {as bs : List (Val × SortDir)},
    as.map (·.2) = ds → bs.map (·.2) = ds → cmpSortKeys as bs = cmpBy ds (as.map (·.1)) (bs.map (·.1))
  | [], as, bs, ha, hb => by
    rw [List.map_eq_nil_iff.mp ha]
    rfl
  | d :: ds, (a, da) :: as, (b, db) :: bs, ha, hb => by
    obtain ⟨hd, has⟩ := List.cons.inj ha
    obtain ⟨-, hbs⟩ := List.cons.inj hb
    rw [cmpSortKeys, cmpSortKeys_eq_cmpBy ds has hbs, ← hd]
    rfl

/-- One row may stand before another. -/
abbrev KeyLE (ds : List SortDir) (key : List Val → List Val) (a b : List Val) : Prop :=
  cmpBy ds (key a) (key b) ≠ .gt

instance (ds : List SortDir) (key : List Val → List Val) : IsTrans (List Val) (KeyLE ds key) where
  trans a b c hab hbc := (chain_cmpBy ds (key a) (key b) (key c) hab hbc).1

instance (ds : List SortDir) (key : List Val → List Val) : Std.Total (KeyLE ds key) where
  total a b := by
    rw [KeyLE, KeyLE, swap_cmpBy ds (key a) (key b)]
    cases cmpBy ds (key a) (key b) <;> simp

/-! ## The passes on rows that evaluate -/

/-- `SKIP` and `LIMIT` on a list. -/
def skipTake {α : Type} (m : Nat) (n : Option Nat) (rows : List α) : List α :=
  match n with
  | some n => (rows.drop m).take n
  | none => rows.drop m

theorem mem_of_mem_skipTake {α : Type} {m : Nat} {n : Option Nat} {rows : List α} {r : α}
    (hr : r ∈ skipTake m n rows) : r ∈ rows := by
  cases n with
  | none => exact List.mem_of_mem_drop hr
  | some n => exact List.mem_of_mem_drop (List.mem_of_mem_take hr)

/-- The rows sorted by a key. -/
def sortRows (key : List Val → List (Val × SortDir)) (rows : List (List Val)) : List (List Val) :=
  rows.insertionSort fun a b => cmpSortKeys (key a) (key b) ≠ .gt

section

variable {ε : Type} (L : ExprLang ε)
variable {key : List Val → List (Val × SortDir)} {rows : List (List Val)} {body : ProjectionBody ε}
  {cols : List String} {ds : List SortDir}

theorem sortKey_dirs {r : List Val} {input : Option (List String × List Val)} :
    ∀ {orderBy : List (ε × SortDir)} {keys : List (Val × SortDir)},
    sortKey L orderBy cols r input = .ok keys → keys.map (·.2) = orderBy.map (·.2)
  | [], keys, h => by
    cases h
    rfl
  | (e, d) :: orderBy, keys, h => by
    rw [sortKey, List.mapM_cons] at h
    cases hv : L.evalPlain e (sortScope cols r input) with
    | error f =>
      rw [hv] at h
      cases h
    | ok v =>
      rw [hv] at h
      cases hks : sortKey L orderBy cols r input with
      | error f =>
        rw [sortKey] at hks
        simp only [hks] at h
        cases h
      | ok ks =>
        have ih := sortKey_dirs hks
        rw [sortKey] at hks
        simp only [hks] at h
        cases h
        rw [List.map_cons, List.map_cons, ih]

/-- The directions are the same for every row, so the key order is a total preorder. -/
theorem sortRows_eq (h : ∀ r ∈ rows, (key r).map (·.2) = ds) :
    sortRows key rows = rows.insertionSort (KeyLE ds fun r => (key r).map (·.1)) := by
  have hmap := List.map_insertionSort (fun a b => cmpSortKeys (key a) (key b) ≠ .gt)
    (KeyLE ds fun r => (key r).map (·.1)) id rows fun a ha b hb => by
      rw [cmpSortKeys_eq_cmpBy ds (h a ha) (h b hb)]
      rfl
  rwa [List.map_id, List.map_id] at hmap

/-- A filter before the sort is a filter after it. -/
theorem sortRows_filter (h : ∀ r ∈ rows, (key r).map (·.2) = ds) (f : List Val → Bool) :
    sortRows key (rows.filter f) = (sortRows key rows).filter f := by
  rw [sortRows_eq h, sortRows_eq fun r hr => h r (List.mem_filter.mp hr).1,
    StableSort.filter_insertionSort]

/-- The rows sorted by a key that may read the place of a row as well. -/
def sortPlaced (key : List Val × Nat → List (Val × SortDir)) (rows : List (List Val)) : List (List Val) :=
  (rows.zipIdx.insertionSort fun a b => cmpSortKeys (key a) (key b) ≠ .gt).map (·.1)

theorem mem_of_mem_sortPlaced {key : List Val × Nat → List (Val × SortDir)} {r : List Val}
    (hr : r ∈ sortPlaced key rows) : r ∈ rows := by
  obtain ⟨p, hp, rfl⟩ := List.mem_map.mp hr
  exact List.fst_mem_of_mem_zipIdx ((List.mem_insertionSort _).mp hp)

theorem sortPlaced_fst : sortPlaced (fun p => key p.1) rows = sortRows key rows := by
  have hmap := List.map_insertionSort (fun a b : List Val × Nat => cmpSortKeys (key a.1) (key b.1) ≠ .gt)
    (fun a b => cmpSortKeys (key a) (key b) ≠ .gt) Prod.fst rows.zipIdx fun _ _ _ _ => Iff.rfl
  rw [sortPlaced, hmap, List.zipIdx_map_fst, sortRows]

theorem orderRows_ok {t : Table} {withInput : Bool} {key : List Val × Nat → List (Val × SortDir)}
    (h : ∀ p ∈ rows.zipIdx, sortKey L body.orderBy cols p.1 (bif withInput then some (t.cols, t.rowAt p.2) else none) = .ok (key p)) :
    orderRows L t body cols withInput rows = .ok (sortPlaced key rows) := by
  rw [orderRows]
  split
  next hempty =>
    -- without keys every order is sorted already
    have hnil : ∀ p ∈ rows.zipIdx, key p = [] := by
      intro p hp
      have hdirs := sortKey_dirs L (h p hp)
      rw [List.isEmpty_iff.mp hempty] at hdirs
      exact List.map_eq_nil_iff.mp hdirs
    have hsorted : rows.zipIdx.Pairwise fun a b => cmpSortKeys (key a) (key b) ≠ .gt := by
      refine List.Pairwise.imp_of_mem (R := fun _ _ => True) (fun {a b} ha hb _ => ?_)
        (List.pairwise_of_forall fun _ _ => trivial)
      rw [hnil a ha, hnil b hb]
      decide
    rw [sortPlaced, hsorted.insertionSort_eq, List.zipIdx_map_fst]
  next =>
    have hkeyed := mapM_ok (l := rows.zipIdx) (g := fun p => (key p, p.1))
      (f := fun p => do
        let keys ← sortKey L body.orderBy cols p.1
          (bif withInput then some (t.cols, t.rowAt p.2) else none)
        pure (keys, p.1)) fun p hp => by rw [h p hp]; rfl
    rw [hkeyed]
    refine congrArg Except.ok ?_
    rw [sortKeyed, ← List.map_insertionSort (fun a b : List Val × Nat => cmpSortKeys (key a) (key b) ≠ .gt) _
      (fun p => (key p, p.1)) rows.zipIdx fun a _ b _ => Iff.rfl, List.map_map]
    rfl

/-- A sort that succeeds has evaluated the keys of every row. -/
theorem sortKey_of_orderRows {t : Table} {sorted : List (List Val)}
    (h : orderRows L t body cols false rows = .ok sorted) {r : List Val} (hr : r ∈ rows) :
    ∃ keys, sortKey L body.orderBy cols r none = .ok keys := by
  rw [orderRows] at h
  split at h
  next hempty =>
    rw [List.isEmpty_iff.mp hempty]
    exact ⟨[], rfl⟩
  next =>
    obtain ⟨keyed, hkeyed, -⟩ := bind_eq_ok.mp h
    obtain ⟨i, hi, hir⟩ := List.mem_iff_getElem.mp hr
    have hmem : (r, i) ∈ rows.zipIdx :=
      List.mk_mem_zipIdx_iff_getElem?.mpr (List.getElem?_eq_some_iff.mpr ⟨hi, hir⟩)
    obtain ⟨keyedRow, hrow⟩ := mapM_ok_of_mem hkeyed hmem
    obtain ⟨keys, hkeys, -⟩ := bind_eq_ok.mp hrow
    exact ⟨keys, hkeys⟩

theorem sliceRows_ok {m : Nat} {n : Option Nat} (hskip : body.skip.elim (.ok 0) (evalCount L) = .ok m)
    (hlimit : body.limit.elim (.ok none) (fun e => (evalCount L e).map some) = .ok n)
    (rows : List (List Val)) : sliceRows L body rows = .ok (skipTake m n rows) := by
  have hdrop : skipRows L body.skip rows = .ok (rows.drop m) := by
    cases hs : body.skip with
    | none =>
      rw [hs] at hskip
      cases hskip
      rfl
    | some e =>
      rw [hs, Option.elim_some] at hskip
      rw [skipRows, hskip]
      rfl
  rw [sliceRows, hdrop]
  change limitRows L body.limit (rows.drop m) = _
  cases hl : body.limit with
  | none =>
    rw [hl] at hlimit
    cases hlimit
    rfl
  | some e =>
    rw [hl, Option.elim_some] at hlimit
    cases hc : evalCount L e with
    | error f =>
      rw [hc] at hlimit
      cases hlimit
    | ok k =>
      rw [hc] at hlimit
      cases hlimit
      rw [limitRows, hc]
      rfl

end

/-! ## The window -/

section

variable {α : Type} (f : α → Bool) (m : Nat) (n : Option Nat) (rows : List α)

/-- The rows past the window. -/
def laterRows : List α :=
  match n with
  | some n => rows.drop (m + n)
  | none => []

/-- How many rows before the window pass: the place, among those that pass, of the first from
there on. -/
def rank : Nat := (rows.take m).countP f

theorem skipTake_append_laterRows : skipTake m n rows ++ laterRows m n rows = rows.drop m := by
  cases n with
  | none => exact List.append_nil _
  | some n =>
    rw [laterRows, ← List.drop_drop]
    exact List.take_append_drop n _

theorem drop_rank : (rows.filter f).drop (rank f m rows) = (skipTake m n rows).filter f ++ (laterRows m n rows).filter f := by
  have hsplit : rows.filter f = (rows.take m).filter f ++ (rows.drop m).filter f := by
    rw [← List.filter_append, List.take_append_drop]
  rw [← List.filter_append, skipTake_append_laterRows, hsplit, rank, List.countP_eq_length_filter, List.drop_left]

theorem getElem?_filter_skipTake {i : Nat} (hi : i < (skipTake m n rows).countP f) :
    ((skipTake m n rows).filter f)[i]? = (rows.filter f)[rank f m rows + i]? := by
  rw [← List.getElem?_drop, drop_rank f m n, List.getElem?_append_left]
  rwa [← List.countP_eq_length_filter]

theorem getElem?_skipTake {i : Nat} (hi : i < (skipTake m n rows).length) : (skipTake m n rows)[i]? = rows[m + i]? := by
  cases n with
  | none => exact List.getElem?_drop
  | some n =>
    rw [skipTake, List.length_take, Nat.lt_min] at hi
    rw [skipTake, List.getElem?_take_of_lt hi.1, List.getElem?_drop]

/-- **The window survives a filter that runs first**: as many rows of the window pass as the
window over `sorted` holds, and they are those from `m` on there, place by place. Here `rows`
are the rows in the order of the clause, and `sorted` are those that pass, as they are sorted
alone. It is a condition on two lists and a window, and says nothing of expressions. -/
def WindowKept (sorted : List α) : Prop :=
  (skipTake m n rows).countP f = (skipTake m n sorted).length ∧
    ∀ i < (skipTake m n rows).countP f, sorted[m + i]? = (rows.filter f)[rank f m rows + i]?

theorem skipTake_eq_iff (sorted : List α) :
    skipTake m n sorted = (skipTake m n rows).filter f ↔ WindowKept f m n rows sorted := by
  constructor
  · intro h
    have hlen : (skipTake m n rows).countP f = (skipTake m n sorted).length := by
      rw [h, List.countP_eq_length_filter]
    refine ⟨hlen, fun i hi => ?_⟩
    rw [← getElem?_filter_skipTake f m n rows hi, ← h, getElem?_skipTake m n sorted (hlen ▸ hi)]
  · rintro ⟨hlen, hplaces⟩
    refine List.ext_getElem? fun i => ?_
    by_cases hi : i < (skipTake m n rows).countP f
    · rw [getElem?_filter_skipTake f m n rows hi, getElem?_skipTake m n sorted (hlen ▸ hi), hplaces i hi]
    · rw [List.getElem?_eq_none (by omega), List.getElem?_eq_none]
      rw [← List.countP_eq_length_filter]
      omega

theorem take_filter_append_iff (k : Nat) (window later : List α) (hk : window.length ≤ k)
    (hfull : window.length < k → later = []) : (window.filter f ++ later.filter f).take k = window.filter f ↔
      (∀ r ∈ window, f r = true) ∨ ∀ r ∈ later, f r = false := by
  have hlater : later.filter f = [] ↔ ∀ r ∈ later, f r = false := by
    simp
  have hle := List.length_filter_le f window
  rw [← hlater]
  constructor
  · intro h
    have hlen := congrArg List.length h
    rw [List.length_take, List.length_append] at hlen
    by_cases hnil : later.filter f = []
    · exact .inr hnil
    · have hpos := List.length_pos_iff.mpr hnil
      exact .inl (List.length_filter_eq_length_iff.mp (by omega))
  · intro h
    rcases h with hall | hnil
    · rw [List.filter_eq_self.mpr hall]
      by_cases hlt : window.length < k
      · rw [hfull hlt, List.filter_nil, List.append_nil, List.take_of_length_le hk]
      · rw [List.take_append_of_le_length (by omega), List.take_of_length_le hk]
    · rw [hnil, List.append_nil, List.take_of_length_le (by omega)]

/-- Where no skipped row fails and the rows that pass keep their order, a window survives
exactly if every row of it passes or no later one does. -/
theorem windowKept_iff (hskipped : ∀ r ∈ rows.take m, f r = true) : WindowKept f m n rows (rows.filter f) ↔
    (∀ r ∈ skipTake m n rows, f r = true) ∨ ∀ r ∈ laterRows m n rows, f r = false := by
  have hdrop : (rows.filter f).drop m = (skipTake m n rows).filter f ++ (laterRows m n rows).filter f := by
    rw [← drop_rank, rank, List.countP_eq_length.mpr hskipped, List.length_take]
    by_cases hm : m ≤ rows.length
    · rw [Nat.min_eq_left hm]
    · have hle := List.length_filter_le f rows
      rw [List.drop_eq_nil_of_le (by omega), List.drop_eq_nil_of_le (by omega)]
  rw [← skipTake_eq_iff]
  cases n with
  | none =>
    refine iff_of_true ?_ (.inr nofun)
    rw [skipTake, hdrop, laterRows, List.filter_nil, List.append_nil]
  | some k =>
    rw [skipTake, hdrop]
    refine take_filter_append_iff f k _ _ (List.length_take_le k _) fun hlt => ?_
    rw [skipTake, List.length_take, List.length_drop] at hlt
    exact List.drop_eq_nil_of_le (by omega)

end

/-! ## The clause -/

section

variable {ε : Type} (L : ExprLang ε)

/-- **What the clause says**: project, deduplicate, sort, skip, limit, and only then filter. It
uses the passes of `project` themselves, in the order in which the clause is written. -/
def withClause (pool : Bool) (t : Table) (body : ProjectionBody ε) (distinct : Bool)
    (postWhere : Option ε) : Except Failure Table := do
  let items := projectionItems L t.cols body
  let outCols := items.map (·.2)
  let aggregating := items.any fun it => L.containsAggregate it.1
  let rows ← projectedRows L pool t body distinct
  let rows ← orderRows L t body outCols (!aggregating && rows.length == t.rows.length) rows
  let rows ← sliceRows L body rows
  let rows ← filterRows L postWhere outCols rows
  pure ⟨outCols, rows⟩

/-- The rows still correspond to the input rows, so that the input columns are visible to the
sort keys. -/
def readsInput (t : Table) (body : ProjectionBody ε) (rows : List (List Val)) : Bool :=
  !(projectionItems L t.cols body).any (fun it => L.containsAggregate it.1) && rows.length == t.rows.length

/-- The clause as written evaluates: `rows` is the projection, `pass` the verdict on each of its
rows, `key` the sort keys of each row at its place, with the input row in scope where the clause
has it, `m` and `n` the counts. -/
structure Evaluates (pool : Bool) (t : Table) (body : ProjectionBody ε) (distinct : Bool) (w : ε)
    (rows : List (List Val)) (pass : List Val → Bool) (key : List Val × Nat → List (Val × SortDir))
    (m : Nat) (n : Option Nat) : Prop where
  projected : projectedRows L pool t body distinct = .ok rows
  passed : ∀ r ∈ rows, passes L w ((projectionItems L t.cols body).map (·.2)) r = .ok (pass r)
  keyed : ∀ p ∈ rows.zipIdx, sortKey L body.orderBy ((projectionItems L t.cols body).map (·.2)) p.1
    (bif readsInput L t body rows then some (t.cols, t.rowAt p.2) else none) = .ok (key p)
  skip : body.skip.elim (.ok 0) (evalCount L) = .ok m
  limit : body.limit.elim (.ok none) (fun e => (evalCount L e).map some) = .ok n

variable {L} {pool : Bool} {t : Table} {body : ProjectionBody ε} {distinct : Bool} {w : ε}
  {rows sorted : List (List Val)} {pass : List Val → Bool} {key : List Val × Nat → List (Val × SortDir)}
  {m : Nat} {n : Option Nat}

theorem length_retainNew {α : Type} (key : α → List Val) (seen : List (List Val × Unit)) (rs : List α) :
    (retainNew key seen rs).length ≤ rs.length := by
  fun_induction retainNew with
  | case1 => exact Nat.le_refl _
  | case2 seen r rs hfound ih => exact Nat.le_succ_of_le ih
  | case3 seen r rs hfound ih => exact Nat.succ_le_succ ih

/-- A projection without aggregates has no more rows than the input. -/
theorem length_projectedRows (h : projectedRows L pool t body distinct = .ok rows)
    (hplain : ¬ (projectionItems L t.cols body).any (fun it => L.containsAggregate it.1)) :
    rows.length ≤ t.rows.length := by
  simp only [projectedRows, if_neg hplain] at h
  obtain ⟨all, hall, hrows⟩ := bind_eq_ok.mp h
  rw [← length_mapM_ok hall, ← Except.ok.inj hrows]
  cases distinct with
  | false => exact Nat.le_refl _
  | true =>
    exact length_retainNew id [] all

section

variable (h : Evaluates L pool t body distinct w rows pass key m n)
include h

/-- Once a row has failed, the input columns are out of scope. -/
theorem Evaluates.not_readsInput (hfails : ¬ ∀ r ∈ rows, pass r = true) :
    readsInput L t body (rows.filter pass) = false := by
  have hshort : (rows.filter pass).length < rows.length := by
    refine Nat.lt_of_le_of_ne (List.length_filter_le ..) fun hlen => hfails ?_
    exact List.length_filter_eq_length_iff.mp hlen
  unfold readsInput
  cases hagg : (projectionItems L t.cols body).any (fun it => L.containsAggregate it.1) with
  | true => rfl
  | false =>
    have hle := length_projectedRows h.projected (by simp [hagg])
    have hne : (rows.filter pass).length ≠ t.rows.length := by omega
    simpa using hne

theorem Evaluates.filter_eq : filterRows L (some w) ((projectionItems L t.cols body).map (·.2)) rows =
    .ok (rows.filter pass) :=
  filterM_ok h.passed

/-- What `project` makes of rows it has sorted. -/
theorem Evaluates.project_eq (hsorted : orderRows L t body ((projectionItems L t.cols body).map (·.2))
      (readsInput L t body (rows.filter pass)) (rows.filter pass) = .ok sorted) :
    project L pool t body distinct (some w) =
      .ok ⟨(projectionItems L t.cols body).map (·.2), skipTake m n sorted⟩ := by
  rw [project, h.projected]
  simp only [h.filter_eq, bind, Except.bind]
  rw [readsInput] at hsorted
  simp only [hsorted, sliceRows_ok L h.skip h.limit]
  rfl

theorem Evaluates.withClause_eq :
    withClause L pool t body distinct (some w) = .ok ⟨(projectionItems L t.cols body).map (·.2),
      (skipTake m n (sortPlaced key rows)).filter pass⟩ := by
  have hsorted := orderRows_ok L h.keyed
  rw [readsInput] at hsorted
  rw [withClause, h.projected]
  simp only [hsorted, sliceRows_ok L h.skip h.limit, bind, Except.bind]
  have hsub : ∀ r ∈ skipTake m n (sortPlaced key rows), r ∈ rows := fun r hr =>
    mem_of_mem_sortPlaced (mem_of_mem_skipTake hr)
  rw [show filterRows L (some w) ((projectionItems L t.cols body).map (·.2))
      (skipTake m n (sortPlaced key rows)) = .ok ((skipTake m n (sortPlaced key rows)).filter pass) from
    filterM_ok fun r hr => h.passed r (hsub r hr)]
  rfl

end

/-- The rows that pass, sorted alone. -/
theorem orderRows_alone {cols : List String} {alone : List Val → List (Val × SortDir)}
    (h : ∀ r ∈ rows, sortKey L body.orderBy cols r none = .ok (alone r)) :
    orderRows L t body cols false rows = .ok (sortRows alone rows) := by
  rw [← sortPlaced_fst]
  exact orderRows_ok L fun p hp => h p.1 (List.fst_mem_of_mem_zipIdx hp)

section

variable (h : Evaluates L pool t body distinct w rows pass key m n)
include h

theorem Evaluates.project_eq_of_pass (hall : ∀ r ∈ rows, pass r = true) :
    project L pool t body distinct (some w) = withClause L pool t body distinct (some w) := by
  have hsorted := orderRows_ok L h.keyed
  have hrows : rows.filter pass = rows := List.filter_eq_self.mpr hall
  have hwindow : (skipTake m n (sortPlaced key rows)).filter pass = skipTake m n (sortPlaced key rows) :=
    List.filter_eq_self.mpr fun r hr => hall r (mem_of_mem_sortPlaced (mem_of_mem_skipTake hr))
  rw [h.withClause_eq, hwindow]
  exact h.project_eq (by rwa [hrows])

variable (hfails : ¬ ∀ r ∈ rows, pass r = true)
include hfails

/-- Where some row fails and the keys of the others evaluate without the input columns, all is
up to the window. -/
theorem Evaluates.project_eq_of_alone {alone : List Val → List (Val × SortDir)}
    (halone : ∀ r ∈ rows, pass r = true →
      sortKey L body.orderBy ((projectionItems L t.cols body).map (·.2)) r none = .ok (alone r)) :
    project L pool t body distinct (some w) = withClause L pool t body distinct (some w) ↔
      WindowKept pass m n (sortPlaced key rows) (sortRows alone (rows.filter pass)) := by
  have hsorted : orderRows L t body ((projectionItems L t.cols body).map (·.2)) false (rows.filter pass) = _ :=
    orderRows_alone fun r hr => halone r (List.mem_filter.mp hr).1 (List.mem_filter.mp hr).2
  rw [← h.not_readsInput hfails] at hsorted
  rw [h.project_eq hsorted, h.withClause_eq, ← skipTake_eq_iff]
  simp

/-- If the two agree, `project` has sorted, and with it evaluated every key. -/
theorem Evaluates.sortKey_alone
    (heq : project L pool t body distinct (some w) = withClause L pool t body distinct (some w)) {r : List Val}
    (hr : r ∈ rows) (hpass : pass r = true) :
    ∃ keys, sortKey L body.orderBy ((projectionItems L t.cols body).map (·.2)) r none = .ok keys := by
  have hscope := h.not_readsInput hfails
  rw [readsInput] at hscope
  rw [h.withClause_eq, project, h.projected] at heq
  simp only [h.filter_eq, Except.bind, bind] at heq
  obtain ⟨sorted, hsorted, -⟩ := bind_eq_ok.mp heq
  rw [hscope] at hsorted
  exact sortKey_of_orderRows L hsorted (List.mem_filter.mpr ⟨hr, hpass⟩)

end

end

/-! ## A window that does not survive -/

/-- The expressions of a query over the empty graph. -/
def emptyLang : ExprLang Expr := (Session.plain (CoreGraph.view ⟨[], [], [], [], [], true, by simp⟩)).lang false

/-- `WITH x ORDER BY x LIMIT 1 WHERE x > 1`. -/
def lowestBody : ProjectionBody Expr where
  items := [⟨.var "x", none⟩]
  orderBy := [(.var "x", .asc)]
  limit := some (.literal (.int 1))

def aboveOne : Expr := .compare .gt (.var "x") (.literal (.int 1))

/-- The rows `1` and `2` of a column `x`. -/
def oneTwo : Table := ⟨["x"], [[.int 1], [.int 2]]⟩

/-- `WITH x AS y ORDER BY x LIMIT 1`. -/
def renamedBody : ProjectionBody Expr := { lowestBody with items := [⟨.var "x", some "y"⟩] }

/-- With `WHERE y < 2` the row `2` fails, so `project` has no `x` to sort the row `1` by. -/
example : (withClause emptyLang false oneTwo renamedBody false (some (.compare .lt (.var "y") (.literal (.int 2))))).isOk =
      true ∧
    (project emptyLang false oneTwo renamedBody false (some (.compare .lt (.var "y") (.literal (.int 2))))).isOk = false := by
  decide +kernel

end Slater
