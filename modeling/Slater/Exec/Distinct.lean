import Slater.Lib.Classes
import Slater.Lib.Fallible
import Slater.Exec.Project

/-!
# What `DISTINCT` and grouping tell apart

`DISTINCT` and grouping compare rows with `cmp_total`, so their classes are the fibres of `images`.
Equality of values is finer: it is the fibre of `bares`, where a relationship is its id and nothing
else is forgotten. The passes are right for equality exactly on the tables whose values the rounding
of integers to doubles keeps apart.

`distinct_grouping_equality_iff` states this for every pass in turn. Where a pass evaluates expressions,
it is stated for the tables on which the evaluation succeeds: what an expression computes is left to the
expression language.

**What it does not establish.** Equality here is identity of values, not Cypher's `=`, under which a null equals
nothing; the two are compared for integers only. In which order groups come out is not said.
-/

namespace Slater

open Classes List OrdMap Binary64

namespace Val

mutual

/-- A value up to equality: a relationship is its id. -/
def bare : Val → Val
  | .rel id .. => .rel id 0 0 0
  | .list items => .list (bares items)
  | .map entries => .map (bareEntries entries)
  | .path nodes rels => .path nodes (bares rels)
  | v => v

def bares : List Val → List Val
  | [] => []
  | v :: vs => bare v :: bares vs

def bareEntries : List (String × Val) → List (String × Val)
  | [] => []
  | (k, v) :: es => (k, bare v) :: bareEntries es

end

mutual

theorem image_bare (v : Val) : image (bare v) = image v := by
  cases v <;> simp only [bare, image, images_bares, imageEntries_bareEntries]

theorem images_bares : ∀ vs : List Val, images (bares vs) = images vs
  | [] => rfl
  | v :: vs => by rw [bares, images, images, image_bare v, images_bares vs]

theorem imageEntries_bareEntries : ∀ es : List (String × Val), imageEntries (bareEntries es) = imageEntries es
  | [] => rfl
  | (k, v) :: es => by
    rw [bareEntries, imageEntries, imageEntries, image_bare v, imageEntries_bareEntries es]

end

/-- Equal rows have one image. -/
theorem images_eq_of_bares_eq (vs ws : List Val) (h : bares vs = bares ws) : images vs = images ws := by
  rw [← images_bares vs, h, images_bares]

end Val

open Val

/-- No two of the rows differ only in integers that round to the same double. It is a property
of the rows at hand; a table of small integers has it. -/
abbrev Separated (rows : List (List Val)) : Prop := SeparatedBy images bares rows

/-! ## `DISTINCT` -/

/-- The set of seen rows decides by the image. -/
theorem retainNew_eq {α : Type} (key : α → List Val) : ∀ (rs : List α)
    {seen : List (List Val × Unit)}, OrdMap.Ascending cmpItems seen →
    retainNew key seen rs = (firsts (fun r => images (key r)) rs).filter fun r => find cmpItems (key r) seen = none
  | [], _, _ => rfl
  | r :: rs, seen, hseen => by
    have hsame : ∀ s, images (key s) = images (key r) → find cmpItems (key s) seen =
        find cmpItems (key r) seen := by
      intro s hs
      have heq : cmpItems (key s) (key r) = .eq := (cmpItems_eq_iff _ _).mpr hs
      refine Option.ext fun u => ?_
      rw [find_eq_some_iff hseen, find_eq_some_iff hseen]
      simp only [Std.TransCmp.congr_left heq]
    rw [retainNew, firsts, filter_cons, filter_filter]
    split
    next hfound =>
      rw [if_neg (by rw [hfound]; decide), retainNew_eq key rs hseen]
      refine filter_congr fun s _ => ?_
      by_cases hs : images (key s) = images (key r)
      · simp [hsame s hs, hfound]
      · simp [hs]
    next hfound =>
      rw [if_pos (by rw [hfound]; decide), retainNew_eq key rs (hseen.upsert _ _)]
      refine congrArg (r :: ·) (filter_congr fun s _ => ?_)
      rw [find_upsert hseen]
      by_cases hs : images (key s) = images (key r)
      · simp [hs, (cmpItems_eq_iff _ _).mpr hs]
      · simp [hs, mt (cmpItems_eq_iff _ _).mp hs]

theorem retainNew_nil {α : Type} (key : α → List Val) (rs : List α) :
    retainNew key [] rs = firsts (fun r => images (key r)) rs := by
  rw [retainNew_eq key rs .nil]
  exact filter_eq_self.mpr fun r _ => rfl

/-! ## Grouping -/

variable (keys : List (List Val))

theorem groupRows_append (k : List Val) :
    groupRows (keys ++ [k]) = upsert cmpItems k (fun old => old.getD [] ++ [keys.length]) (groupRows keys) := by
  rw [groupRows, zipIdx_append, foldl_append]
  simp only [Nat.zero_add]
  rfl

/-- The group of a key holds the indices of the rows of its image. -/
theorem groupRows_spec : OrdMap.Ascending cmpItems (groupRows keys) ∧ ∀ k, find cmpItems k (groupRows keys) =
      if indicesOf images keys (images k) = [] then none
      else some (indicesOf images keys (images k)) := by
  induction keys using reverseRecOn with
  | nil => exact ⟨.nil, fun k => rfl⟩
  | append_singleton keys k ih =>
    obtain ⟨hasc, hfind⟩ := ih
    rw [groupRows_append]
    refine ⟨hasc.upsert _ _, fun j => ?_⟩
    rw [find_upsert hasc, hfind, hfind, indicesOf_append]
    by_cases hj : images k = images j
    · rw [if_pos ((cmpItems_eq_iff _ _).mpr hj.symm), hj]
      by_cases hnil : indicesOf images keys (images j) = [] <;> simp [hnil]
    · rw [if_neg (mt (cmpItems_eq_iff _ _).mp (Ne.symm hj)), if_neg hj, append_nil]

/-- A group of the map holds a class of its key, and is not empty. -/
theorem groupRows_mem {keys : List (List Val)} {p : List Val × List Nat} (hp : p ∈ groupRows keys) :
    p.2 = indicesOf images keys (images p.1) ∧ p.2 ≠ [] := by
  obtain ⟨hasc, hfind⟩ := groupRows_spec keys
  have hp' := (find_eq_some_iff hasc p.1 p.2).mpr ⟨p, hp, Std.ReflCmp.compare_self, rfl⟩
  rw [hfind] at hp'
  split at hp'
  next => cases hp'
  next hne =>
    rw [← Option.some.inj hp']
    exact ⟨rfl, hne⟩

theorem groupRows_eq_nil_iff : groupRows keys = [] ↔ keys = [] := by
  constructor
  · intro h
    cases keys with
    | nil => rfl
    | cons k keys =>
      have hfind := (groupRows_spec (k :: keys)).2 k
      rw [h] at hfind
      split at hfind
      next hnil =>
        have hmem : 0 ∈ indicesOf images (k :: keys) (images k) := mem_indicesOf.mpr ⟨k, rfl, rfl⟩
        rw [hnil] at hmem
        cases hmem
      next => cases hfind
  · intro h
    rw [h]
    rfl

theorem groupRows_grouped : Grouped images keys ((groupRows keys).map (·.2)) := by
  obtain ⟨hasc, hfind⟩ := groupRows_spec keys
  refine ⟨fun i hi => ?_, ?_, fun g hg i hi => ?_, fun h => ?_⟩
  · have hmem : i ∈ indicesOf images keys (images keys[i]) :=
      mem_indicesOf.mpr ⟨keys[i], getElem?_eq_getElem hi, rfl⟩
    have hf := hfind keys[i]
    rw [if_neg (ne_nil_of_mem hmem), find_eq_some_iff hasc] at hf
    obtain ⟨p, hp, -, hpg⟩ := hf
    exact ⟨p.2, mem_map_of_mem hp, hpg ▸ hmem⟩
  · refine pairwise_map.mpr (hasc.imp_of_mem fun {p q} hp hq hlt => ?_)
    intro i hip hiq
    rw [(groupRows_mem hp).1] at hip
    rw [(groupRows_mem hq).1] at hiq
    obtain ⟨k, hk, hkp⟩ := mem_indicesOf.mp hip
    obtain ⟨k', hk', hkq⟩ := mem_indicesOf.mp hiq
    cases hk.symm.trans hk'
    rw [(cmpItems_eq_iff _ _).mpr (hkp.symm.trans hkq)] at hlt
    cases hlt
  · obtain ⟨p, hp, rfl⟩ := mem_map.mp hg
    have hgroup := (groupRows_mem hp).1
    rw [hgroup] at hi
    obtain ⟨k, hk, hkp⟩ := mem_indicesOf.mp hi
    exact ⟨k, hk, by rw [hgroup, hkp]⟩
  · obtain ⟨p, hp, hnil⟩ := mem_map.mp h
    exact absurd hnil (groupRows_mem hp).2

/-- The groups of both aggregation paths are the classes of the image. -/
theorem groupsOf_grouped (keyed : Bool) (keys : List (List Val)) : Grouped images keys (groupsOf keyed keys) := by
  rw [groupsOf]
  split
  next h =>
    cases (groupRows_eq_nil_iff keys).mp h
    cases keyed with
    | true => exact ⟨fun i hi => absurd hi (Nat.not_lt_zero i), .nil, by simp, by simp⟩
    | false =>
      exact ⟨fun i hi => absurd hi (Nat.not_lt_zero i), pairwise_singleton _ _, by simp,
        fun _ => rfl⟩
  next => exact groupRows_grouped keys

/-! ## What the passes get right -/

section

variable {ε : Type} (L : ExprLang ε) (t : Table)

theorem groupsOf_grouped_iff (keyed : Bool) (keys : List (List Val)) :
    Grouped bares keys (groupsOf keyed keys) ↔ Separated keys :=
  (groupsOf_grouped keyed keys).iff_separated images_eq_of_bares_eq

/-- The values of `DISTINCT x` are the first of each class of values that are not null. -/
theorem aggInput_eq_firsts_iff (vals : List Val) : aggInput true vals = firsts bare (vals.filter (· ≠ .null)) ↔
      Separated ((vals.filter (· ≠ .null)).map ([·])) := by
  rw [aggInput, dedupVals, retainNew_nil]
  refine (firsts_eq_iff (fun a b h => ?_) _).trans ?_
  · exact images_eq_of_bares_eq [a] [b] (by simp only [bares, h])
  · simp only [SeparatedBy, forall_mem_map, bares, cons.injEq, and_true]

theorem looseEq_int_iff (a b : Int64) : looseEq (.int a) (.int b) = some true ↔ ofInt64 a = ofInt64 b := by
  rw [← eq_ofInt64_iff]
  simp [looseEq, num]

/-- The value `project_aggregated_par` reads for a row and a slot. -/
def parCell (cells : List (List Val)) (slot i : Nat) : Val := (cells.getD i []).getD slot .null

/-- A `count(DISTINCT x)` of the parallel path counts the values of its slot. -/
theorem parGroupRow_countDistinct {plan : List AggItem} {cells : List (List Val)} {indices : List Nat}
    {row : List Val} {k slot : Nat} (hitem : plan[k]? = some (.agg "count" true slot))
    (h : parGroupRow L plan cells indices = .ok row) :
    row[k]? = some (.int (Int64.ofNat (aggInput true (indices.map (parCell cells slot))).length)) := by
  have hrow := congrArg (·[k]?) (Fallible.mapM_eq_ok_iff.mp h)
  simp only [getElem?_map, hitem, Option.map_some] at hrow
  cases hk : row[k]? with
  | none =>
    rw [hk] at hrow
    cases hrow
  | some v =>
    rw [hk] at hrow
    exact congrArg some (Except.ok.inj (Option.some.inj hrow)).symm

/-- **`DISTINCT`, grouping and equality are right exactly where rounding separates.** In turn:
`dedup_rows` against the first row of each class of equal rows; the groups of
`project_aggregated` and of `project_aggregated_par` against the classes of equal keys; the
values that `count(DISTINCT x)` counts, on either path, against the classes of equal values; the
comparison of two integers; and an inline property match of an integer against a stored one. -/
theorem distinct_grouping_equality_iff (items : List (ε × String)) :
    (∀ rows, dedupRows rows = firsts bares rows ↔ Separated rows) ∧
    (∀ keys, t.rows.mapM (groupKey L t items) = .ok keys →
      let groups := groupsOf (items.any fun it => !L.containsAggregate it.1) keys
      projectAggregatedSeq L t items = groups.mapM (groupRow L t items) ∧
        (Grouped bares keys groups ↔ Separated keys)) ∧
    (∀ slots plan cells, t.rows.mapM (fun row => slots.mapM fun e => L.evalSimple e t.cols row) = .ok cells →
      let keys := cells.map fun row => (groupSlots plan).map fun s => row.getD s .null
      let groups := groupsOf (groupSlots plan ≠ []) keys
      projectAggregatedPar L t slots plan = groups.mapM (parGroupRow L plan cells) ∧
        (Grouped bares keys groups ↔ Separated keys)) ∧
    (∀ (c : Call ε) (x : ε) (indices : List Nat) (vals : List Val), c.name.toLower = "count" →
      c.distinct = true → c.args = .args [x] →
      indices.mapM (fun i => L.evalPlain x (.row t.cols (t.rowAt i))) = .ok vals →
      computeAggregate L c t indices = .ok (.int (Int64.ofNat (aggInput true vals).length)) ∧
        (aggInput true vals = firsts bare (vals.filter (· ≠ .null)) ↔
          Separated ((vals.filter (· ≠ .null)).map ([·])))) ∧
    (∀ (plan : List AggItem) (cells : List (List Val)) (indices : List Nat) (row : List Val) (k slot : Nat),
      plan[k]? = some (.agg "count" true slot) → parGroupRow L plan cells indices = .ok row →
      let vals := indices.map (parCell cells slot)
      row[k]? = some (.int (Int64.ofNat (aggInput true vals).length)) ∧
        (aggInput true vals = firsts bare (vals.filter (· ≠ .null)) ↔
          Separated ((vals.filter (· ≠ .null)).map ([·])))) ∧
    (∀ a b : Int64, (looseEq (.int a) (.int b) = some true → a = b) ↔
      (ofInt64 a = ofInt64 b → a = b)) ∧
    ∀ (eval : ε → Except Failure Val) (read : String → Except Failure Val) (p : String) (e : ε)
      (a b : Int64), eval e = .ok (.int a) → read p = .ok (.int b) →
      ((propsOk eval read [(p, e)] = .ok true → a = b) ↔
        (ofInt64 a = ofInt64 b → a = b)) := by
  refine ⟨fun rows => ?_, fun keys hkeys => ?_, fun slots plan cells hcells => ?_,
    fun c x indices vals hname hdistinct hargs hvals => ?_,
    fun plan cells indices row k slot hitem hrow => ⟨parGroupRow_countDistinct L hitem hrow, aggInput_eq_firsts_iff _⟩,
    fun a b => ?_, fun eval read p e a b he hr => ?_⟩
  · rw [dedupRows, retainNew_nil]
    exact firsts_eq_iff images_eq_of_bares_eq rows
  · refine ⟨?_, groupsOf_grouped_iff (items.any fun it => !L.containsAggregate it.1) keys⟩
    rw [projectAggregatedSeq, hkeys]
    rfl
  · refine ⟨?_, groupsOf_grouped_iff (groupSlots plan ≠ []) _⟩
    rw [projectAggregatedPar, hcells]
    rfl
  · refine ⟨?_, aggInput_eq_firsts_iff vals⟩
    simp only [computeAggregate, hargs, hname, hdistinct, hvals]
    rfl
  · rw [looseEq_int_iff]
  · have hone : propsOk eval read [(p, e)] = .ok true ↔ looseEq (.int b) (.int a) = some true := by
      simp only [propsOk, he, hr]
      by_cases h : looseEq (.int b) (.int a) = some true <;> simp [h, bind, Except.bind, pure, Except.pure]
    rw [hone, looseEq_int_iff]
    exact imp_congr_left eq_comm

/-- Expressions that are names of columns. -/
def columnLang : ExprLang String where
  eval e scope _ := (scope.get e).elim (.error "no such column") .ok
  containsAggregate _ := false
  aggregates _ := []
  asCall _ := none
  simpleReadable _ := true
  evalSimple e cols row := ((Scope.row cols row).get e).elim (.error "no such column") .ok
  exprName e := e
  debug _ := ""
  var name := name
  numericAgg _ _ := .error "no such aggregate"
  percentile _ _ _ := .error "no such aggregate"

/-- A column with the values 1, 2 and 1. -/
def repeatedColumn : Table := ⟨["x"], [[.int 1], [.int 2], [.int 1]]⟩

/-- Small integers are told apart: the column has two groups on either path and two distinct
values, and a property 1 does not match a stored 2. -/
theorem distinct_grouping_equality_small :
    Grouped bares [[.int 1], [.int 2], [.int 1]] (groupsOf true [[.int 1], [.int 2], [.int 1]]) ∧
    projectAggregatedPar columnLang repeatedColumn ["x"] [.group 0, .agg "count" true 0] =
      [[0, 2], [1]].mapM (parGroupRow columnLang [.group 0, .agg "count" true 0] [[.int 1], [.int 2], [.int 1]]) ∧
    computeAggregate columnLang ⟨"count", true, .args ["x"]⟩ repeatedColumn [0, 1, 2] = .ok (.int 2) ∧
    (∃ row, parGroupRow columnLang [.group 0, .agg "count" true 0] [[.int 1], [.int 2], [.int 1]] [0, 1, 2] = .ok row ∧
      row[1]? = some (.int 2)) ∧
    (propsOk (fun _ => (.ok (.int 1) : Except Failure Val)) (fun _ => .ok (.int 2)) [("p", "x")] = .ok true →
      (1 : Int64) = 2) := by
  obtain ⟨-, hseq, hpar, hcount, hparCount, -, hprop⟩ :=
    distinct_grouping_equality_iff columnLang repeatedColumn [("x", "x")]
  refine ⟨(hseq _ rfl).2.mpr (by decide), (hpar ["x"] [.group 0, .agg "count" true 0] _ rfl).1,
    (hcount ⟨"count", true, .args ["x"]⟩ "x" [0, 1, 2] _ (by decide +kernel) rfl rfl rfl).1,
    ⟨_, rfl, (hparCount [.group 0, .agg "count" true 0] _ _ _ 1 0 rfl rfl).1⟩,
    (hprop _ _ "p" "x" 1 2 rfl rfl).mpr (by decide)⟩

/-- 2^53 and 2^53 + 1 are one row, one group and one distinct value, and they compare equal. -/
theorem distinct_grouping_confuse_integers : dedupRows [[.int 9007199254740992], [.int 9007199254740993]] ≠
      firsts bares [[.int 9007199254740992], [.int 9007199254740993]] ∧
    groupsOf true [[.int 9007199254740992], [.int 9007199254740993]] = [[0, 1]] ∧
    dedupVals [.int 9007199254740992, .int 9007199254740993] = [.int 9007199254740992] ∧
    looseEq (.int 9007199254740992) (.int 9007199254740993) = some true ∧
    (9007199254740992 : Int64) ≠ 9007199254740993 := by
  decide

end

end Slater
