import Slater.Lib.Machine

/-!
# A disk that can crash

A disk has names, which lead to files, and contents of files. Both live in memory first. A name is on the disk
once its directory is synced, the contents of a file once the file is. A rename is one step on the names.
After a crash the names are those on the disk, and a file whose contents were not on the disk has none.

The kernel may write anything back at any time (`flushFile`, `flushName`), so a crash may keep more than what
was synced.

What an operation leaves alone is said by the paths it touches: what is said of one path rests on that path
(`RestsOn`), `Ok` is kept by every operation, and `read_crash` says what can be read after a crash.

A file that is written keeps nothing of what it held, also on the disk. There are no links, and no directory is
renamed or removed.
-/

namespace Slater

open Function

/-- The components of a path; the root is the empty one. -/
abbrev Path := List String

inductive Entry where
  | dir
  | file (ino : Nat)
  deriving DecidableEq

/-- A file in memory, and whether its contents are on the disk. -/
structure File (α : Type) where
  content : Option α
  synced : Bool

structure Disk (α : Type) where
  names : Path → Option Entry
  durable : Path → Option Entry
  files : Nat → Option (File α)
  next : Nat

inductive DiskOp (α : Type) where
  | mkdir (p : Path)
  | write (p : Path) (content : α)
  | rename (src dst : Path)
  | remove (p : Path)
  | syncFile (p : Path)
  | syncDir (p : Path)
  | flushFile (ino : Nat)
  | flushName (p : Path)

/-- The names an operation may change. -/
def DiskOp.touched {α : Type} : DiskOp α → List Path
  | .mkdir p | .write p _ | .remove p => [p]
  | .rename src dst => [src, dst]
  | .syncFile _ | .syncDir _ | .flushFile _ | .flushName _ => []

namespace Disk

variable {α : Type} (d : Disk α) {names : Path → Option Entry}

def isDir (p : Path) : Bool := p.isEmpty || d.names p == some .dir

/-- The contents of a file reach the disk. -/
def flush (ino : Nat) : Disk α :=
  { d with files := update d.files ino ((d.files ino).map fun f => { f with synced := true }) }

/-- One operation; `none` is an error. -/
def step : DiskOp α → Option (Disk α)
  | .mkdir p =>
    match d.names p with
    | none =>
      if d.isDir p.dropLast then some { d with names := update d.names p (some .dir) } else none
    | some .dir => some d
    | some (.file _) => none
  | .write p content =>
    match d.names p with
    | none =>
      if d.isDir p.dropLast then
        some
          { d with
            names := update d.names p (some (.file d.next))
            files := update d.files d.next (some { content := some content, synced := false })
            next := d.next + 1 }
      else none
    | some (.file ino) =>
      some { d with files := update d.files ino (some { content := some content, synced := false }) }
    | some .dir => none
  | .rename src dst =>
    match d.names src with
    | some (.file ino) =>
      if d.names dst ≠ some .dir ∧ d.isDir dst.dropLast then
        some
          { d with
            names := update (update d.names src none) dst (some (.file ino)) }
      else none
    | _ => none
  | .remove p =>
    match d.names p with
    | some (.file _) => some { d with names := update d.names p none }
    | _ => none
  | .syncFile p =>
    match d.names p with
    | some (.file ino) => some (d.flush ino)
    | _ => none
  | .syncDir p =>
    if d.isDir p then
      some { d with durable := fun q => if q ≠ [] ∧ q.dropLast = p then d.names q else d.durable q }
    else none
  | .flushFile ino => some (d.flush ino)
  | .flushName p => some { d with durable := update d.durable p (d.names p) }

/-- What is left after a crash. What was in memory only is gone; a name on the disk may lead to
a file without contents. -/
def crash : Disk α :=
  { d with
    names := d.durable
    files := fun ino => (d.files ino).map fun f =>
      if f.synced then f else { content := none, synced := true } }

/-- Read a file; the directories on the way must be there. -/
def read (p : Path) : Option α :=
  if p.inits.dropLast.all d.isDir then
    match d.names p with
    | some (.file ino) => (d.files ino).bind File.content
    | _ => none
  else none

/-- The file at a path has these contents, in memory. -/
def Holds (p : Path) (content : α) : Prop :=
  ∃ ino f, d.names p = some (.file ino) ∧ d.files ino = some f ∧ f.content = some content

/-- The contents of the file at a path are on the disk. -/
def Flushed (p : Path) : Prop :=
  ∃ ino f, d.names p = some (.file ino) ∧ d.files ino = some f ∧ f.synced = true

/-- The name is on the disk. -/
def Settled (p : Path) : Prop := d.durable p = d.names p

/-- Nothing is on the disk under the name but what it has in memory. -/
def NoOlder (p : Path) : Prop := d.durable p = none ∨ d.durable p = d.names p

/-- A directory that is there and on the disk. -/
def Standing (p : Path) : Prop := p = [] ∨ d.names p = some .dir ∧ d.Settled p

/-- No file has two names, and the next file has none. It is what makes a write to one name
leave the contents under every other name alone. -/
structure Ok : Prop where
  fresh : ∀ p ino, d.names p = some (.file ino) → ino < d.next
  distinct : ∀ p q ino, d.names p = some (.file ino) → d.names q = some (.file ino) → p = q

instance (p : Path) : Decidable (d.Flushed p) :=
  decidable_of_iff
    ((match d.names p with
      | some (.file ino) => (d.files ino).any File.synced
      | _ => false : Bool) = true) <| by
    unfold Flushed
    split
    next ino hname =>
      rw [Option.any_eq_true]
      constructor
      · rintro ⟨f, hf, hsynced⟩
        exact ⟨ino, f, hname, hf, hsynced⟩
      · rintro ⟨ino', f, hname', hf, hsynced⟩
        obtain rfl : ino = ino' := by
          rw [hname] at hname'
          cases hname'
          rfl
        exact ⟨f, hf, hsynced⟩
    next hnone =>
      constructor
      · nofun
      · rintro ⟨ino, f, hname, -⟩
        exact absurd hname (hnone ino)

variable {d} {d' : Disk α} {op : DiskOp α} {p q : Path} {content : α}

/-! ## What an operation leaves alone -/

theorem update_of_notMem {e : Option Entry} (h : p ∉ [q]) : update names q e p = names p :=
  update_of_ne (fun heq => h (List.mem_singleton.mpr heq)) _ _

theorem update_eq_some {e : Option Entry} {x : Entry} (h : update names p e q = some x) :
    q = p ∧ e = some x ∨ q ≠ p ∧ names q = some x := by
  rw [update_apply] at h
  split at h
  next heq => exact .inl ⟨heq, h⟩
  next hne => exact .inr ⟨hne, h⟩

/-- What an operation may do: change the names it touches, put names on the disk as they are,
and change the contents of a file whose name it touches. Every operation meets it
(`step_frame`), so a fact about a path is carried over an operation without looking at which one
it is. -/
structure Frame (op : DiskOp α) (d d' : Disk α) : Prop where
  names : ∀ p, p ∉ op.touched → d'.names p = d.names p
  durable : ∀ p, d'.durable p = d.durable p ∨ d'.durable p = d.names p
  files : ∀ ino f, d.files ino = some f → ino ≠ d.next → (∀ p ∈ op.touched, d.names p ≠ some (.file ino)) →
    ∃ f', d'.files ino = some f' ∧ f'.content = f.content ∧ (f.synced = true → f'.synced = true)

theorem Frame.of_names (h : ∀ p, p ∉ op.touched → names p = d.names p) : Frame op d { d with names } :=
  ⟨h, fun _ => .inl rfl, fun _ f hf _ _ => ⟨f, hf, rfl, id⟩⟩

theorem Frame.flush (ino : Nat) : Frame op d (d.flush ino) where
  names _ _ := rfl
  durable _ := .inl rfl
  files other f hf _ _ := by
    show ∃ f', update d.files ino _ other = some f' ∧ _
    by_cases heq : other = ino
    · subst heq
      rw [update_self, hf]
      exact ⟨_, rfl, rfl, fun _ => rfl⟩
    · rw [update_of_ne heq]
      exact ⟨f, hf, rfl, id⟩

theorem step_frame (h : d.step op = some d') : Frame op d d' := by
  cases op with
  | mkdir q =>
    simp only [step] at h
    split at h
    · split at h <;> cases h
      exact .of_names fun p hp => update_of_notMem hp
    · cases h
      exact .of_names fun _ _ => rfl
    · cases h
  | write q content =>
    simp only [step] at h
    split at h
    · split at h <;> cases h
      refine ⟨fun p hp => update_of_notMem hp, fun _ => .inl rfl, fun ino f hf hfresh _ => ⟨f, ?_, rfl, id⟩⟩
      exact (update_of_ne hfresh _ _).trans hf
    next ino hname =>
      cases h
      refine ⟨fun _ _ => rfl, fun _ => .inl rfl, fun other f hf _ hother => ⟨f, ?_, rfl, id⟩⟩
      have hne : other ≠ ino := by
        rintro rfl
        exact hother q (List.mem_singleton_self _) hname
      exact (update_of_ne hne _ _).trans hf
    · cases h
  | rename src dst =>
    simp only [step] at h
    split at h
    · split at h <;> cases h
      refine .of_names fun p hp => ?_
      have hsrc : p ≠ src := fun heq => hp (heq ▸ List.mem_cons_self)
      have hdst : p ≠ dst := fun heq => hp (heq ▸ .tail _ (List.mem_singleton_self _))
      exact (update_of_ne hdst _ _).trans (update_of_ne hsrc _ _)
    · cases h
  | remove q =>
    simp only [step] at h
    split at h <;> cases h
    exact .of_names fun p hp => update_of_notMem hp
  | syncFile q =>
    simp only [step] at h
    split at h <;> cases h
    exact .flush _
  | syncDir q =>
    simp only [step] at h
    split at h <;> cases h
    refine ⟨fun _ _ => rfl, fun p => ?_, fun _ f hf _ _ => ⟨f, hf, rfl, id⟩⟩
    dsimp only
    split
    · exact .inr rfl
    · exact .inl rfl
  | flushFile ino =>
    cases h
    exact .flush _
  | flushName q =>
    cases h
    refine ⟨fun _ _ => rfl, fun p => ?_, fun _ f hf _ _ => ⟨f, hf, rfl, id⟩⟩
    by_cases heq : p = q
    · subst heq
      exact .inr (update_self _ _ _)
    · exact .inl (update_of_ne heq _ _)

/-- A file that an operation does not touch stays where it is, with what it holds. -/
theorem file_step {ino : Nat} {f : File α} (hok : d.Ok) (h : d.step op = some d') (hp : p ∉ op.touched)
    (hname : d.names p = some (.file ino)) (hf : d.files ino = some f) :
    ∃ f', d'.names p = some (.file ino) ∧ d'.files ino = some f' ∧ f'.content = f.content ∧
      (f.synced = true → f'.synced = true) := by
  have hframe := step_frame h
  have hother : ∀ q ∈ op.touched, d.names q ≠ some (.file ino) := by
    intro q hq hqname
    exact hp (hok.distinct p q ino hname hqname ▸ hq)
  obtain ⟨f', hf', hcontent, hsynced⟩ := hframe.files ino f hf (Nat.ne_of_lt (hok.fresh p ino hname)) hother
  exact ⟨f', (hframe.names p hp).trans hname, hf', hcontent, hsynced⟩

/-- A condition that rests on these paths: no operation that leaves them alone ends it. -/
def RestsOn (P : Disk α → Prop) (ps : List Path) : Prop :=
  ∀ ⦃d op d'⦄, d.Ok → P d → d.step op = some d' → (∀ p ∈ ps, p ∉ op.touched) → P d'

theorem restsOn_names (p : Path) (e : Option Entry) : RestsOn (fun d : Disk α => d.names p = e) [p] :=
  fun _ _ _ _ hname h hp => ((step_frame h).names p (hp p (.head _))).trans hname

theorem restsOn_holds (p : Path) (content : α) : RestsOn (fun d => d.Holds p content) [p] := by
  rintro d op d' hok ⟨ino, f, hname, hf, hcontent⟩ h hp
  obtain ⟨f', hname', hf', hsame, -⟩ := file_step hok h (hp p (.head _)) hname hf
  exact ⟨ino, f', hname', hf', hsame.trans hcontent⟩

theorem restsOn_flushed (p : Path) : RestsOn (fun d : Disk α => d.Flushed p) [p] := by
  rintro d op d' hok ⟨ino, f, hname, hf, hsynced⟩ h hp
  obtain ⟨f', hname', hf', -, hkept⟩ := file_step hok h (hp p (.head _)) hname hf
  exact ⟨ino, f', hname', hf', hkept hsynced⟩

theorem restsOn_settled (p : Path) : RestsOn (fun d : Disk α => d.Settled p) [p] := by
  intro d op d' _ hsettled h hp
  have hframe := step_frame h
  refine Eq.trans ?_ (hframe.names p (hp p (.head _))).symm
  exact (hframe.durable p).elim (·.trans hsettled) id

theorem restsOn_noOlder (p : Path) : RestsOn (fun d : Disk α => d.NoOlder p) [p] := by
  intro d op d' _ hclean h hp
  have hframe := step_frame h
  unfold NoOlder
  rw [hframe.names p (hp p (.head _))]
  exact (hframe.durable p).elim (fun hsame => hsame ▸ hclean) .inr

section RestsOn

variable {P Q : Disk α → Prop} {ps qs : List Path}

theorem RestsOn.and (hP : RestsOn P ps) (hQ : RestsOn Q qs) : RestsOn (fun d => P d ∧ Q d) (ps ++ qs) :=
  fun _ _ _ hok hboth h hp =>
    ⟨hP hok hboth.1 h fun p hmem => hp p (List.mem_append_left _ hmem),
      hQ hok hboth.2 h fun p hmem => hp p (List.mem_append_right _ hmem)⟩

/-- Others that leave the paths alone keep it. -/
theorem RestsOn.stable (hP : RestsOn P ps) {foreign : DiskOp α → Prop}
    (hforeign : ∀ op, foreign op → ∀ p ∈ ps, p ∉ op.touched) : Stable step foreign Ok P :=
  fun _ _ _ hop hok hPd h => hP hok hPd h (hforeign _ hop)

end RestsOn

/-- Taking names away keeps a disk well formed. -/
theorem Ok.of_names (hok : d.Ok) (hnext : d.next ≤ d'.next)
    (hnames : ∀ p ino, d'.names p = some (.file ino) → d.names p = some (.file ino)) : d'.Ok where
  fresh p ino h := Nat.lt_of_lt_of_le (hok.fresh p ino (hnames p ino h)) hnext
  distinct p q ino hp hq := hok.distinct p q ino (hnames p ino hp) (hnames q ino hq)

/-- So does giving one name to a file that has no other. -/
theorem Ok.of_update (hok : d.Ok) {ino : Nat} (hnames : ∀ q i, names q = some (.file i) → d.names q = some (.file i))
    (hfree : ∀ q, names q ≠ some (.file ino)) {files : Nat → Option (File α)} {next : Nat}
    (hnext : d.next ≤ next) (hino : ino < next) :
    ({ d with names := update names p (some (.file ino)), files, next } : Disk α).Ok where
  fresh q i h := by
    obtain ⟨-, hi⟩ | ⟨-, hq⟩ := update_eq_some h
    · cases hi
      exact hino
    · exact Nat.lt_of_lt_of_le (hok.fresh q i (hnames q i hq)) hnext
  distinct q r i hq hr := by
    obtain ⟨hqp, hi⟩ | ⟨-, hq⟩ := update_eq_some hq
    · cases hi
      obtain ⟨hrp, -⟩ | ⟨-, hr⟩ := update_eq_some hr
      · rw [hqp, hrp]
      · exact absurd hr (hfree r)
    · obtain ⟨-, hi⟩ | ⟨-, hr⟩ := update_eq_some hr
      · cases hi
        exact absurd hq (hfree q)
      · exact hok.distinct q r i (hnames q i hq) (hnames r i hr)

theorem Ok.step (hok : d.Ok) (h : d.step op = some d') : d'.Ok := by
  cases op with
  | mkdir q =>
    simp only [Disk.step] at h
    split at h
    · split at h <;> cases h
      refine hok.of_names (Nat.le_refl _) fun p ino hp => ?_
      obtain ⟨-, hdir⟩ | ⟨-, hp⟩ := update_eq_some hp
      · cases hdir
      · exact hp
    · cases h
      exact hok
    · cases h
  | write q content =>
    simp only [Disk.step] at h
    split at h
    · split at h <;> cases h
      refine hok.of_update (fun _ _ h => h) (fun p hp => ?_) (Nat.le_succ _) (Nat.lt_succ_self _)
      exact Nat.lt_irrefl _ (hok.fresh p d.next hp)
    · cases h
      exact ⟨hok.fresh, hok.distinct⟩
    · cases h
  | rename src dst =>
    simp only [Disk.step] at h
    split at h
    next ino hsrc =>
      split at h <;> cases h
      have herased : ∀ q i, update d.names src none q = some (.file i) →
          q ≠ src ∧ d.names q = some (.file i) := by
        intro q i hq
        obtain ⟨-, hnone⟩ | hkept := update_eq_some hq
        · cases hnone
        · exact hkept
      refine hok.of_update (fun q i hq => (herased q i hq).2) (fun q hq => ?_) (Nat.le_refl _) (hok.fresh src ino hsrc)
      obtain ⟨hne, hname⟩ := herased q ino hq
      exact hne (hok.distinct q src ino hname hsrc)
    next => cases h
  | remove q =>
    simp only [Disk.step] at h
    split at h <;> cases h
    refine hok.of_names (Nat.le_refl _) fun p ino hp => ?_
    obtain ⟨-, hnone⟩ | ⟨-, hp⟩ := update_eq_some hp
    · cases hnone
    · exact hp
  | syncFile q | syncDir q =>
    simp only [Disk.step] at h
    split at h <;> cases h
    exact ⟨hok.fresh, hok.distinct⟩
  | flushFile ino =>
    cases h
    exact ⟨hok.fresh, hok.distinct⟩
  | flushName q =>
    cases h
    exact ⟨hok.fresh, hok.distinct⟩

/-! ## What an operation does -/

theorem names_mkdir (h : d.step (.mkdir p) = some d') : d'.names p = some .dir := by
  simp only [step] at h
  split at h
  · split at h <;> cases h
    exact update_self _ _ _
  next hname =>
    cases h
    exact hname
  · cases h

theorem holds_write (h : d.step (.write p content) = some d') : d'.Holds p content := by
  simp only [step] at h
  split at h
  · split at h <;> cases h
    exact ⟨d.next, _, update_self _ _ _, update_self _ _ _, rfl⟩
  next ino hname =>
    cases h
    exact ⟨ino, _, hname, update_self _ _ _, rfl⟩
  · cases h

theorem holds_rename (h : d.step (.rename p q) = some d') (hp : d.Holds p content) : d'.Holds q content := by
  obtain ⟨ino, f, hname, hf, hcontent⟩ := hp
  simp only [step, hname] at h
  split at h <;> cases h
  exact ⟨ino, f, update_self _ _ _, hf, hcontent⟩

theorem settled_syncDir (h : d.step (.syncDir p) = some d') (hq : q ≠ []) (hdir : q.dropLast = p) : d'.Settled q := by
  simp only [step] at h
  split at h <;> cases h
  exact if_pos ⟨hq, hdir⟩

/-- A file that is written hides no older one if there was none. -/
theorem noOlder_write (h : d.step (.write p content) = some d') (hclean : d.NoOlder p) : d'.NoOlder p := by
  simp only [step] at h
  split at h
  next hfree =>
    split at h <;> cases h
    exact .inl (hclean.elim id (·.trans hfree))
  · cases h
    exact hclean
  · cases h

theorem flushed_syncFile (h : d.step (.syncFile p) = some d') (hholds : d.Holds p content) : d'.Flushed p := by
  obtain ⟨ino, f, hname, hf, -⟩ := hholds
  simp only [step, hname] at h
  cases h
  refine ⟨ino, { f with synced := true }, hname, ?_, rfl⟩
  show update d.files ino _ ino = _
  rw [update_self, hf]
  rfl

/-! ## After a crash -/

theorem Standing.isDir_crash (h : d.Standing p) : d.crash.isDir p = true := by
  obtain rfl | ⟨hname, hsettled⟩ := h
  · rfl
  · have hdurable : d.durable p = some .dir := hsettled.trans hname
    show (p.isEmpty || d.durable p == some .dir) = true
    rw [hdurable, beq_self_eq_true, Bool.or_true]

/-- **A file can be read after a crash exactly if its name and its contents were on the disk.**
The directories on the way have to stand, and no older file may be on the disk under the name.
The equivalence is what a publisher owes: nothing less than the two makes the file readable, and
nothing more is needed. -/
theorem read_crash (hdirs : ∀ q ∈ p.inits.dropLast, d.Standing q) (hclean : d.NoOlder p)
    (hholds : d.Holds p content) : d.crash.read p = some content ↔ d.Settled p ∧ d.Flushed p := by
  obtain ⟨ino, f, hname, hf, hcontent⟩ := hholds
  have hall : p.inits.dropLast.all d.crash.isDir = true :=
    List.all_eq_true.mpr fun q hq => (hdirs q hq).isDir_crash
  have hread : d.crash.read p =
      if d.durable p = some (.file ino) ∧ f.synced = true then some content else none := by
    unfold read
    rw [if_pos hall]
    unfold crash
    obtain hnone | hentry := hclean
    · simp only [hnone]
      rfl
    · simp only [hentry, hname, hf]
      by_cases hsynced : f.synced = true <;> simp [hsynced, hcontent]
  rw [hread]
  constructor
  · intro hsome
    split at hsome
    next hboth => exact ⟨hboth.1.trans hname.symm, ino, f, hname, hf, hboth.2⟩
    next => cases hsome
  · rintro ⟨hsettled, ino', f', hname', hf', hsynced⟩
    rw [hname] at hname'
    cases hname'
    rw [hf] at hf'
    cases hf'
    exact if_pos ⟨hsettled.trans hname, hsynced⟩

end Disk

end Slater
