import Mathlib

/-!
# Loops that may fail

A loop over a list whose steps all succeed is the pure loop. The steps are given as an equation on
the elements of the list, so the rules apply to a computation that may fail elsewhere.

Nothing is said about a loop some step of which fails, but for the rules that turn the success of a loop into the
success of its steps.
-/

namespace Slater

open List

variable {ε α β : Type} {x : Except ε α} {b : β}

/-- A fallible computation succeeds when both its steps do. -/
theorem bind_eq_ok {f : α → Except ε β} : x >>= f = .ok b ↔ ∃ a, x = .ok a ∧ f a = .ok b := by
  cases x with
  | error e => exact ⟨nofun, fun ⟨_, h, _⟩ => nomatch h⟩
  | ok a => exact ⟨fun h => ⟨a, rfl, h⟩, fun ⟨_, h, hf⟩ => by cases h; exact hf⟩

theorem map_eq_ok {f : α → β} : x.map f = .ok b ↔ ∃ a, x = .ok a ∧ f a = b := by
  cases x with
  | error e => exact ⟨nofun, nofun⟩
  | ok a => exact ⟨fun h => ⟨a, rfl, Except.ok.inj h⟩, fun ⟨_, ha, hb⟩ => by cases ha; exact congrArg _ hb⟩

/-- Two steps and a pure end. -/
theorem bind_bind_eq_ok {γ : Type} {y : α → Except ε β} {g : α → β → γ} {c : γ} :
    (do let a ← x; let b ← y a; pure (g a b)) = .ok c ↔ ∃ a, x = .ok a ∧ ∃ b, y a = .ok b ∧ g a b = c := by
  simp [bind_eq_ok, pure, Except.pure]

theorem bind_bind_eq_some {γ : Type} {x : Option α} {y : α → Option β} {g : α → β → γ} {c : γ} :
    (do let a ← x; let b ← y a; pure (g a b)) = some c ↔ ∃ a, x = some a ∧ ∃ b, y a = some b ∧ g a b = c := by
  simp only [Option.bind_eq_bind, Option.bind_eq_some_iff, Option.pure_def, Option.some.injEq]

theorem toOption_eq_some {a : α} : x.toOption = some a ↔ x = .ok a := by
  cases x <;> simp [Except.toOption]

namespace Fallible

universe v

section

variable {m : Type → Type v} [Monad m] [LawfulMonad m] {α : Type}

theorem filterAuxM_eq (p : α → m Bool) : ∀ (l acc : List α),
    l.filterAuxM p acc = l.filterAuxM p [] >>= fun r => pure (r ++ acc)
  | [], acc => by simp [filterAuxM]
  | a :: l, acc => by
    simp only [filterAuxM, bind_assoc]
    refine bind_congr fun b => ?_
    rw [filterAuxM_eq p l (cond b (a :: acc) acc), filterAuxM_eq p l (cond b [a] [])]
    cases b <;> simp

theorem filterM_cons (p : α → m Bool) (a : α) (l : List α) : (a :: l).filterM p =
      p a >>= fun b => l.filterM p >>= fun r => pure (if b then a :: r else r) := by
  simp only [filterM, filterAuxM, bind_assoc]
  refine bind_congr fun b => ?_
  rw [filterAuxM_eq]
  cases b <;> simp

theorem filterM_true (l : List α) : l.filterM (fun _ => (pure true : m Bool)) = pure l := by
  induction l with
  | nil => simp [filterM, filterAuxM]
  | cons a l ih =>
    rw [filterM_cons, ih]
    simp

end

variable {ε α β σ : Type} {f : α → Except ε β} {l : List α} {bs : List β} {rss : List (List β)} {b : β}

/-- A run with a state succeeds when both its steps do. -/
theorem run_bind_eq_ok {x : StateT σ (Except ε) α} {f : α → StateT σ (Except ε) β} {s s' : σ} :
    (x >>= f).run s = .ok (b, s') ↔ ∃ a t, x.run s = .ok (a, t) ∧ (f a).run t = .ok (b, s') := by
  rw [StateT.run_bind, bind_eq_ok]
  constructor
  · rintro ⟨⟨a, t⟩, hx, hf⟩
    exact ⟨a, t, hx, hf⟩
  · rintro ⟨a, t, hx, hf⟩
    exact ⟨(a, t), hx, hf⟩

/-- A computation that does not use the state. -/
theorem run_lift_eq_ok {x : Except ε α} {s s' : σ} {a : α} :
    (StateT.lift x : StateT σ (Except ε) α).run s = .ok (a, s') ↔ x = .ok a ∧ s' = s := by
  rw [show (StateT.lift x : StateT σ (Except ε) α).run s = x >>= fun a => pure (a, s) from rfl,
    bind_eq_ok]
  constructor
  · rintro ⟨a', ha, h⟩
    cases h
    exact ⟨ha, rfl⟩
  · rintro ⟨ha, rfl⟩
    exact ⟨a, ha, rfl⟩

/-- What every turn of a loop keeps, the loop keeps. -/
theorem foldlM_keeps {f : β → α → Except ε β} {p : β → Prop}
    (hstep : ∀ b, p b → ∀ a ∈ l, ∀ b', f b a = .ok b' → p b') {b' : β} (hb : p b)
    (h : l.foldlM f b = .ok b') : p b' := by
  induction l generalizing b with
  | nil =>
    cases h
    exact hb
  | cons a l ih =>
    obtain ⟨next, hnext, hrest⟩ := bind_eq_ok.1 h
    exact ih (fun b hb a' ha' => hstep b hb a' (mem_cons_of_mem a ha'))
      (hstep b hb a (.head _) next hnext) hrest

/-- A loop succeeds exactly when each of its steps does. -/
theorem mapM_eq_ok_iff : l.mapM f = .ok bs ↔ l.map f = bs.map .ok := by
  induction l generalizing bs with
  | nil => cases bs <;> simp [pure, Except.pure]
  | cons a l ih =>
    rw [mapM_cons, bind_bind_eq_ok]
    cases bs with
    | nil => simp
    | cons b bs =>
      simp only [map_cons, cons.injEq, ← ih]
      constructor
      · rintro ⟨_, hb, _, hbs, rfl, rfl⟩
        exact ⟨hb, hbs⟩
      · rintro ⟨hb, hbs⟩
        exact ⟨b, hb, bs, hbs, rfl, rfl⟩

/-- What a loop answers, it answered for some element. -/
theorem mem_mapM_ok (h : l.mapM f = .ok bs) (hb : b ∈ bs) : ∃ a ∈ l, f a = .ok b := by
  have hmem : Except.ok b ∈ l.map f := mapM_eq_ok_iff.mp h ▸ mem_map_of_mem hb
  exact mem_map.1 hmem

theorem mapM_ok_of_mem (h : l.mapM f = .ok bs) {a : α} (ha : a ∈ l) : ∃ b, f a = .ok b := by
  have hmem : f a ∈ bs.map Except.ok := mapM_eq_ok_iff.mp h ▸ mem_map_of_mem ha
  obtain ⟨b, -, heq⟩ := mem_map.1 hmem
  exact ⟨b, heq.symm⟩

theorem length_mapM_ok (h : l.mapM f = .ok bs) : bs.length = l.length := by
  simpa using (congrArg length (mapM_eq_ok_iff.mp h)).symm

/-- A loop over a prefix answers a prefix. -/
theorem mapM_take (h : l.mapM f = .ok bs) (c : Nat) : (l.take c).mapM f = .ok (bs.take c) := by
  rw [mapM_eq_ok_iff, map_take, mapM_eq_ok_iff.mp h, map_take]

theorem mapM_ok {g : α → β} : ∀ {l : List α}, (∀ a ∈ l, f a = .ok (g a)) → l.mapM f = .ok (l.map g)
  | [], _ => rfl
  | a :: l, h => by
    rw [mapM_cons, h a (.head _), mapM_ok fun b hb => h b (.tail _ hb)]
    rfl

/-- A loop whose steps all fail with one error, if they fail. -/
theorem mapM_refused {c : α → Bool} {e : ε} {g : α → β} : ∀ {l : List α},
    (∀ a ∈ l, f a = if c a then .error e else .ok (g a)) → l.mapM f = if l.any c then .error e else .ok (l.map g)
  | [], _ => rfl
  | a :: l, h => by
    have hrest := mapM_refused fun b hb => h b (.tail _ hb)
    rw [mapM_cons, h a (.head _), hrest, any_cons]
    cases c a with
    | true => rfl
    | false => cases l.any c <;> rfl

theorem filterM_ok {p : α → Except ε Bool} {f : α → Bool} : ∀ {l : List α},
    (∀ a ∈ l, p a = .ok (f a)) → l.filterM p = .ok (l.filter f)
  | [], _ => rfl
  | a :: l, h => by
    rw [filterM_cons, h a (.head _), filterM_ok fun b hb => h b (.tail _ hb),
      filter_cons]
    rfl

/-! ### Loops of success -/

section

variable {f : α → Option β} {l : List α} {bs : List β} {val : α → β}

/-- A loop answers exactly when each of its steps does. -/
theorem mapM_eq_some_iff : l.mapM f = some bs ↔ l.map f = bs.map some := by
  induction l generalizing bs with
  | nil => cases bs <;> simp
  | cons a l ih =>
    rw [mapM_cons, bind_bind_eq_some]
    cases bs with
    | nil => simp
    | cons b bs =>
      simp only [map_cons, cons.injEq, ← ih]
      constructor
      · rintro ⟨_, hb, _, hbs, rfl, rfl⟩
        exact ⟨hb, hbs⟩
      · rintro ⟨hb, hbs⟩
        exact ⟨b, hb, bs, hbs, rfl, rfl⟩

theorem mapM_some (h : ∀ a ∈ l, f a = some (val a)) : l.mapM f = some (l.map val) := by
  rw [mapM_eq_some_iff, map_map]
  exact map_congr_left h

theorem mem_mapM_some (h : l.mapM f = some bs) {b : β} : b ∈ bs ↔ ∃ a ∈ l, f a = some b := by
  rw [mapM_eq_some_iff] at h
  have hmem : some b ∈ l.map f ↔ some b ∈ bs.map some := by rw [h]
  simpa using hmem.symm

theorem mapM_some_of_mem (h : l.mapM f = some bs) {a : α} (ha : a ∈ l) : ∃ b ∈ bs, f a = some b := by
  rw [mapM_eq_some_iff] at h
  have hmem : f a ∈ bs.map some := h ▸ mem_map_of_mem ha
  obtain ⟨b, hb, heq⟩ := mem_map.1 hmem
  exact ⟨b, hb, heq.symm⟩

/-- What a loop answers, from what its steps answer when they do. -/
theorem mapM_eq_map (h : l.mapM f = some bs) (hval : ∀ a ∈ l, ∀ b, f a = some b → b = val a) : bs = l.map val := by
  refine Option.some.inj (h.symm.trans (mapM_some fun a ha => ?_))
  obtain ⟨b, -, hb⟩ := mapM_some_of_mem h ha
  rw [hb, hval a ha b hb]

theorem filterM_eq_some_iff {p : α → Option Bool} {kept : List α} : l.filterM p = some kept ↔
      (∀ a ∈ l, ∃ b, p a = some b) ∧ kept = l.filter fun a => p a == some true := by
  induction l generalizing kept with
  | nil =>
    simp only [filterM]
    simp
  | cons a l ih =>
    rw [filterM_cons]
    cases hp : p a with
    | none => simp [hp]
    | some b =>
      simp only [Option.bind_eq_bind, Option.bind_some, Option.bind_eq_some_iff, Option.pure_def,
        Option.some.injEq, mem_cons, forall_eq_or_imp, hp, exists_eq', true_and]
      constructor
      · rintro ⟨rest, hrest, rfl⟩
        obtain ⟨hall, rfl⟩ := ih.1 hrest
        exact ⟨hall, by cases b <;> simp [hp]⟩
      · rintro ⟨hall, rfl⟩
        exact ⟨_, ih.2 ⟨hall, rfl⟩, by cases b <;> simp [hp]⟩

end

/-- A loop whose steps answer the same in another order. -/
theorem mapM_flatten_perm {f g : α → Option (List β)} (h : l.mapM f = some rss)
    (hstep : ∀ a ∈ l, ∀ rs, f a = some rs → ∃ rs', g a = some rs' ∧ rs.Perm rs') :
    ∃ rss', l.mapM g = some rss' ∧ rss.flatten.Perm rss'.flatten := by
  induction l generalizing rss with
  | nil =>
    cases h
    exact ⟨[], rfl, List.Perm.refl _⟩
  | cons a l ih =>
    rw [mapM_cons] at h
    obtain ⟨rs, hrs, rest, hrest, rfl⟩ := bind_bind_eq_some.mp h
    obtain ⟨rs', hrs', hperm⟩ := hstep a (.head _) rs hrs
    obtain ⟨rest', hrest', hperms⟩ := ih hrest fun b hb => hstep b (.tail _ hb)
    refine ⟨rs' :: rest', ?_, ?_⟩
    · rw [mapM_cons, hrs', hrest']
      rfl
    · exact hperm.append hperms

/-- A loop that only adds to its list answers what its steps add, one after the other. -/
theorem foldlM_adds {f : List β → α → Option (List β)}
    (h : ∀ a out, f out a = (f [] a).map (out ++ ·)) (l : List α) (out : List β) :
    l.foldlM f out = (l.mapM (f [])).map fun rss => out ++ rss.flatten := by
  induction l generalizing out with
  | nil => simp
  | cons a l ih =>
    rw [foldlM_cons, mapM_cons, h a out]
    cases f [] a with
    | none => rfl
    | some first =>
      rw [Option.map_some, Option.bind_eq_bind, Option.bind_some, ih]
      cases l.mapM (f []) <;> simp

/-- **A loop over fewer elements** answers what the whole loop answers, less what the elements
left out do. The two lists have no repeats, so that what is dropped is counted as often as it
occurs. -/
theorem mapM_flatten_narrow [DecidableEq α] {f g : α → Option (List β)} {l' : List α}
    (hl : l.Nodup) (hl' : l'.Nodup) (hsub : ∀ a ∈ l', a ∈ l ∧ g a = f a)
    (h : l.mapM f = some rss) : ∃ rss' dropped, l'.mapM g = some rss' ∧ rss.flatten.Perm (rss'.flatten ++ dropped) ∧
      ∀ b ∈ dropped, ∃ a ∈ l, a ∉ l' ∧ ∃ rs, f a = some rs ∧ b ∈ rs := by
  let answer (a : α) := (f a).getD []
  have hanswer : ∀ a ∈ l, f a = some (answer a) := fun a ha => by
    obtain ⟨rs, -, hrs⟩ := mapM_some_of_mem h ha
    simp [answer, hrs]
  have hrss : rss = l.map answer := Option.some.inj (h.symm.trans (mapM_some hanswer))
  have hsplit : l.Perm (l' ++ l.filter (· ∉ l')) := by
    have hkept : (l.filter (· ∈ l')).Perm l' := (perm_ext_iff_of_nodup (hl.filter _) hl').mpr fun a => by
      simpa using fun ha => (hsub a ha).1
    have hparts := filter_append_perm (· ∈ l') l
    simp only [← decide_not] at hparts
    exact hparts.symm.trans (hkept.append_right _)
  refine ⟨l'.map answer, (l.filter (· ∉ l')).flatMap answer, ?_, ?_, ?_⟩
  · exact mapM_some fun a ha => (hsub a ha).2.trans (hanswer a (hsub a ha).1)
  · rw [hrss, ← flatMap_def, ← flatMap_def, ← flatMap_append]
    exact hsplit.flatMap_right answer
  · intro b hb
    obtain ⟨a, ha, hb⟩ := mem_flatMap.1 hb
    simp only [mem_filter, decide_eq_true_eq] at ha
    exact ⟨a, ha.1, ha.2, answer a, hanswer a ha.1, hb⟩

end Fallible

end Slater
