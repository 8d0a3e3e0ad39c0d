import Slater.Server.Registry

/-!
# What a consolidation retires, and what a failed one leaves

Two properties of `consolidate_graph` over the machine of `Slater.Server.Registry`.

**Only what was folded is retired.** After the build the call adopts whatever the pointer names, and retires
if that is not the core it started from. Somebody else's generation passes that test: `foreign_publish_retires`
is an interleaving in which the delta is retired although its writes are in a generation that nobody serves.
`retires_own_product` is the law for the runs in which nobody moves the pointer between the builder's own move
and the adoption; the builder's return lies in between and does not end the danger. That a call which has not
retired leaves the delta in place needs no condition (`LeftInPlace`). The law does not say that a call retires.

**A failed call changes nothing.** With nobody else about but the guard, which defers to the claim of the call,
`failed_changes_nothing_iff` says exactly when: the exits after the build and before the adoption leave the pointer
where the builder put it, and only a refused adoption takes it back.
-/

namespace Slater

open Map List Option RegistryState

/-! ## The delta stays in place -/

/-- The delta is where it was: the same sealed levels, the same memtable under what was written
since, and every log segment with what it held. Statements go on writing during a consolidation,
so the memtable may have grown and the log with it. -/
structure LeftInPlace (w w' : DeltaWriter) : Prop where
  l0 : w'.l0 = w.l0
  files : w'.dir.l0 = w.dir.l0
  mem : ∃ ops, w'.mem = w.mem.applyAll ops
  wal : ∀ n segment, w.dir.wal.lookup n = some segment → ∃ tail, w'.dir.wal.lookup n = some (segment ++ tail)

namespace LeftInPlace

variable {w w' w'' : DeltaWriter}

theorem of_eq (hl0 : w'.l0 = w.l0) (hdir : w'.dir = w.dir) (hmem : w'.mem = w.mem) : LeftInPlace w w' where
  l0 := hl0
  files := by rw [hdir]
  mem := ⟨[], hmem⟩
  wal n segment h := ⟨[], by rw [hdir, append_nil]; exact h⟩

theorem refl (w : DeltaWriter) : LeftInPlace w w := of_eq rfl rfl rfl

theorem of_writer (h : w' = w) : LeftInPlace w w' := h ▸ refl w

theorem trans (h : LeftInPlace w w') (h' : LeftInPlace w' w'') : LeftInPlace w w'' where
  l0 := h'.l0.trans h.l0
  files := h'.files.trans h.files
  mem := by
    obtain ⟨ops, hops⟩ := h.mem
    obtain ⟨ops', hops'⟩ := h'.mem
    exact ⟨ops ++ ops', by rw [hops', hops, Memtable.applyAll_append]⟩
  wal n segment hn := by
    obtain ⟨tail, htail⟩ := h.wal n segment hn
    obtain ⟨tail', htail'⟩ := h'.wal n _ htail
    exact ⟨tail ++ tail', by rw [htail', append_assoc]⟩

theorem writeBatch (w : DeltaWriter) (ops : List ResolvedOp) : LeftInPlace w (w.writeBatch ops) := by
  cases ops with
  | nil => exact refl w
  | cons op ops =>
    refine ⟨rfl, rfl, ⟨op :: ops, rfl⟩, fun n segment hn => ?_⟩
    show ∃ tail, (w.dir.wal.insert w.sink _).lookup n = some (segment ++ tail)
    rw [lookup_insert_ite]
    split
    next heq =>
      rw [← heq, hn, WalSegment.appendBatch, append_assoc]
      exact ⟨_, rfl⟩
    next => exact ⟨[], by rw [hn, append_nil]⟩

theorem freeze (w : DeltaWriter) (choices : Choices) : LeftInPlace w (w.freeze choices).1 := by
  refine ⟨rfl, rfl, ⟨[], rfl⟩, fun n segment hn => ⟨[], ?_⟩⟩
  have hne : n ≠ nextNumber w.dir.wal := by
    rintro rfl
    rw [lookup_nextNumber] at hn
    cases hn
  show (w.dir.wal.insert (nextNumber w.dir.wal) []).lookup n = _
  rw [Finmap.lookup_insert_of_ne _ hne, hn, append_nil]

theorem endConsolidation (w : DeltaWriter) : LeftInPlace w w.endConsolidation := of_eq rfl rfl rfl

theorem beginConsolidation (h : w.beginConsolidation = some w') : LeftInPlace w w' := by
  unfold DeltaWriter.beginConsolidation at h
  split at h
  · cases h
  · cases h
    exact of_eq rfl rfl rfl

end LeftInPlace

namespace GuardState

variable {opens : GenId → Bool} {st st' : GuardState} {act : GuardAction}

/-- Nobody here takes anything out of the delta. -/
theorem step_leftInPlace (h : st.step opens act = some st') : LeftInPlace st.writer st'.writer := by
  obtain ⟨gen, -, rfl⟩ | ⟨-, rfl⟩ | ⟨writer, statements, rfl, hwriter⟩ := step_cases h
  · exact .refl _
  · rw [(guardStep_frame opens st).2]
    exact .refl _
  · obtain rfl | hclaim | rfl | ⟨ops, rfl⟩ := hwriter
    · exact .refl _
    · exact .beginConsolidation hclaim
    · exact .endConsolidation _
    · exact .writeBatch _ ops

end GuardState

/-! ## Only what was folded is retired -/

namespace RegistryState

variable {c : ConsolidateCall} {st st' : RegistryState} {act : RegistryAction} {core : Image}

/-- Nobody moves the pointer between the builder's own move and the adoption. -/
def Undisturbed (st : RegistryState) : RegistryAction → Prop
  | .slot (.publish _) => st.call.awaitsAdoption = false
  | _ => True

/-- What the call will adopt, has adopted or has retired for is its builder's product. -/
def Own (c : ConsolidateCall) (st : RegistryState) : Prop :=
  match st.call with
  | .building _ _ product => c.outcome.Succeeds → product = some st.slot.current
  | .built _ _ product | .stamped _ _ product | .opening _ _ product => product = some st.slot.current
  | .adopted _ _ product new => product = some new.uuid
  | .retired product new => product = some new
  | _ => True

/-- The delta was retired. -/
def Retired (st : RegistryState) : Prop := ∃ product new, st.call = .retired product new

/-- The delta was retired for the generation that the call's builder made of its dump. A call
that has not retired meets it vacuously. -/
def RetiredOwn (st : RegistryState) : Prop :=
  ∀ product new, st.call = .retired product new → product = some new

theorem Own.retiredOwn (h : st.Own c) : st.RetiredOwn := by
  intro product new hcall
  rw [Own, hcall] at h
  exact h

/-- A step that leaves the call where it is, and the pointer too if a product is awaited. -/
theorem Own.frame (h : st.Own c) (hcall : st'.call = st.call)
    (hcurrent : st.call.awaitsAdoption = true → st'.slot.current = st.slot.current) : st'.Own c := by
  unfold Own at *
  rw [hcall]
  cases hphase : st.call <;> rw [hphase] at h hcurrent <;>
    first | exact h | exact (hcurrent rfl).symm ▸ h

/-- A step of the guard, of a statement or of a publisher changes the slot only. -/
theorem slot_step {act : GuardAction} (h : st.step c (.slot act) = some st') :
    ∃ slot, st.slot.step st.installs act = some slot ∧ st' = { st with slot } := by
  cases act with
  | release | guard =>
    simp only [step] at h
    split at h
    · cases h
    · obtain ⟨slot, hslot, rfl⟩ := map_eq_some_iff.mp h
      exact ⟨slot, hslot, rfl⟩
  | _ =>
    simp only [step] at h
    obtain ⟨slot, hslot, rfl⟩ := map_eq_some_iff.mp h
    exact ⟨slot, hslot, rfl⟩

theorem place_frame (st : RegistryState) (gen : GenId) (body : Option ImageBody) :
    (st.place gen body).call = st.call ∧ (st.place gen body).slot = st.slot := by
  unfold place
  split
  · split <;> exact ⟨rfl, rfl⟩
  · exact ⟨rfl, rfl⟩

/-! ### What a step keeps -/

/-- The claim is marked in the writer as long as the call holds it. -/
def Claims (st : RegistryState) : Prop := st.call.holdsClaim = true → st.slot.writer.consolidating = true

/-- A step of the call keeps `Own` if the builder publishes something, takes nothing out of the
delta unless it retires it, leaves the guard where it is and keeps the claim marked. -/
structure Keeps (c : ConsolidateCall) (st st' : RegistryState) : Prop where
  own : c.outcome ≠ .unpublished → st.Own c → st'.Own c
  left : ¬ st'.Retired → LeftInPlace st.slot.writer st'.slot.writer
  guard : st'.slot.guard = st.slot.guard
  claims : st.Claims → st'.Claims

namespace Keeps

theorem fail (st : RegistryState) (message : String) : Keeps c st (st.fail message) :=
  ⟨fun _ _ => trivial, fun _ => .endConsolidation _, rfl, fun _ h => absurd h Bool.false_ne_true⟩

/-- The step moves on and leaves the delta alone. -/
theorem goto {call : CallPhase} (hclaim : call.holdsClaim = true → st.call.holdsClaim = true)
    (hown : st.Own c → (st.goto call).Own c) : Keeps c st (st.goto call) :=
  ⟨fun _ => hown, fun _ => .refl _, rfl, fun hclaims h => hclaims (hclaim h)⟩

/-- The builder publishes something and moves on. -/
theorem publishOwn {call : CallPhase} (gen : GenId) (body : Option ImageBody)
    (hclaim : call.holdsClaim = true → st.call.holdsClaim = true)
    (hown : c.outcome ≠ .unpublished → ((st.publishOwn gen body).goto call).Own c) :
    Keeps c st ((st.publishOwn gen body).goto call) := by
  have hslot := (place_frame st gen body).2
  refine ⟨fun h _ => hown h, fun _ => .of_writer ?_, ?_, fun hclaims h => ?_⟩
  · show (st.place gen body).slot.writer = _
    rw [hslot]
  · show (st.place gen body).slot.guard = _
    rw [hslot]
  · show (st.place gen body).slot.writer.consolidating = true
    rw [hslot]
    exact hclaims (hclaim h)

theorem callStep (hstep : st.callStep c = some st') : Keeps c st st' := by
  obtain ⟨config, images, aclFile, slot, call⟩ := st
  cases call with
  | idle =>
    cases hstep
    unfold claimStep
    split
    · exact .goto (absurd · Bool.false_ne_true) fun _ => trivial
    next writer hwriter =>
      refine ⟨fun _ _ => trivial, fun _ => .beginConsolidation hwriter, rfl, fun _ _ => ?_⟩
      unfold DeltaWriter.beginConsolidation at hwriter
      split at hwriter
      · cases hwriter
      · cases hwriter
        rfl
  | claimed =>
    obtain ⟨core, -, rfl⟩ := map_eq_some_iff.mp hstep
    exact .goto (fun _ => rfl) fun _ => trivial
  | cored core =>
    cases hstep
    unfold boundStep
    split
    · exact .fail _ _
    · exact .goto (fun _ => rfl) fun _ => trivial
  | bound core =>
    cases hstep
    exact ⟨fun _ _ => trivial, fun _ => .freeze _ c.choices, rfl, fun hclaims _ => hclaims rfl⟩
  | frozen core frozen =>
    cases hstep
    unfold dumpStep
    split
    · exact .fail _ _
    · split
      · exact .fail _ _
      · exact .goto (fun _ => rfl) fun _ => trivial
  | dumped core frozen =>
    cases hstep
    unfold preCheckStep
    split
    · split
      · exact .fail _ _
      · split
        · exact .fail _ _
        · exact .goto (fun _ => rfl) fun _ => trivial
    · exact .goto (fun _ => rfl) fun _ => trivial
  | cleared core frozen =>
    cases hstep
    cases houtcome : c.outcome with
    | published gen body => exact .publishOwn gen body (fun _ => rfl) fun _ _ => rfl
    | unpublished => exact ⟨absurd houtcome, fun _ => .refl _, rfl, fun hclaims _ => hclaims rfl⟩
    | failed flipped =>
      have hfails : ¬ c.outcome.Succeeds := by
        rw [houtcome]
        exact id
      cases flipped with
      | none => exact .goto (fun _ => rfl) fun _ h => absurd h hfails
      | some out => exact .publishOwn out.1 out.2 (fun _ => rfl) fun _ h => absurd h hfails
  | building core frozen product =>
    cases hstep
    cases houtcome : c.outcome with
    | published | unpublished => exact .goto (fun _ => rfl) fun h => h (houtcome ▸ trivial)
    | failed flipped => exact .fail _ _
  | built core frozen product =>
    cases hstep
    unfold stampStep
    split
    · split
      · exact .fail _ _
      · split
        · exact .fail _ _
        · exact .goto (fun _ => rfl) id
    · exact .goto (fun _ => rfl) id
  | stamped core frozen product =>
    simp only [callStep, adoptStep] at hstep
    split at hstep
    · cases hstep
    · split at hstep
      next hsame =>
        obtain ⟨new, hnew, rfl⟩ := map_eq_some_iff.mp hstep
        obtain ⟨body, -, rfl⟩ := map_eq_some_iff.mp hnew
        exact .goto (fun _ => rfl) fun h => Eq.trans h (congrArg some hsame)
      next =>
        cases hstep
        exact .goto (fun _ => rfl) id
  | opening core frozen product =>
    cases hstep
    unfold openStep
    split
    · exact ⟨fun _ _ => trivial, fun _ => .endConsolidation _, rfl, fun _ h => absurd h Bool.false_ne_true⟩
    next new hnew =>
      split
      · exact ⟨fun _ _ => trivial, fun _ => .endConsolidation _, rfl, fun _ h => absurd h Bool.false_ne_true⟩
      · obtain ⟨body, -, rfl⟩ := map_eq_some_iff.mp hnew
        exact ⟨fun _ h => h, fun _ => .refl _, rfl, fun hclaims _ => hclaims rfl⟩
  | adopted core frozen product new =>
    cases hstep
    unfold retireStep
    split
    · exact .fail _ _
    · exact ⟨fun _ h => h, fun hretired => absurd ⟨product, new.uuid, rfl⟩ hretired, rfl,
        fun _ h => absurd h Bool.false_ne_true⟩
  | retired product new => cases hstep
  | failed message => cases hstep

end Keeps

/-- A step of anybody else takes nothing out of the delta either. -/
theorem leftInPlace_step (hstep : st.step c act = some st') (hretired : ¬ st'.Retired) :
    LeftInPlace st.slot.writer st'.slot.writer := by
  cases act with
  | slot act =>
    obtain ⟨slot, hslot, rfl⟩ := slot_step hstep
    exact GuardState.step_leftInPlace hslot
  | place gen body =>
    cases hstep
    exact .of_writer (by rw [(place_frame st gen (some body)).2])
  | editAcl hash =>
    cases hstep
    exact .refl _
  | call => exact (Keeps.callStep hstep).left hretired

theorem Own.step (h : st.Own c) (hbuilder : c.outcome ≠ .unpublished) (hfree : st.Undisturbed act)
    (hstep : st.step c act = some st') : st'.Own c := by
  cases act with
  | slot act =>
    obtain ⟨slot, hslot, rfl⟩ := slot_step hstep
    refine h.frame rfl fun hawaits => GuardState.step_current hslot fun gen hpublish => ?_
    subst hpublish
    exact absurd (hfree.symm.trans hawaits) Bool.false_ne_true
  | place gen body =>
    cases hstep
    obtain ⟨hcall, hslot⟩ := place_frame st gen (some body)
    exact h.frame hcall fun _ => by rw [hslot]
  | editAcl hash =>
    cases hstep
    exact h.frame rfl fun _ => rfl
  | call => exact (Keeps.callStep hstep).own hbuilder h

/-- A retired call stays one. -/
theorem Retired.step (h : st.Retired) (hstep : st.step c act = some st') : st'.Retired := by
  obtain ⟨product, new, hcall⟩ := h
  cases act with
  | slot act =>
    obtain ⟨slot, -, rfl⟩ := slot_step hstep
    exact ⟨product, new, hcall⟩
  | place gen body =>
    cases hstep
    exact ⟨product, new, (place_frame st gen (some body)).1.trans hcall⟩
  | editAcl hash =>
    cases hstep
    exact ⟨product, new, hcall⟩
  | call =>
    simp only [step, callStep, hcall] at hstep
    cases hstep

/-- **The delta is in place in every run unless the call has retired it, and in an undisturbed
run it is retired only for the generation that the call's builder made of its dump.** The guard,
the statements and edits of the ACL file are not restricted in either part. -/
theorem retires_own_product {acts : List RegistryAction} (hidle : st.call = .idle)
    (hrun : runFrom (step c) st acts = some st') :
    (¬ st'.Retired → LeftInPlace st.slot.writer st'.slot.writer) ∧
      (c.outcome ≠ .unpublished → Along (step c) Undisturbed st acts → st'.RetiredOwn) := by
  constructor
  · have hleft : ∀ (s : RegistryState) (act : RegistryAction) (s' : RegistryState),
        (¬ s.Retired → LeftInPlace st.slot.writer s.slot.writer) → True → s.step c act = some s' →
        ¬ s'.Retired → LeftInPlace st.slot.writer s'.slot.writer := by
      intro s act s' hleft _ hstep hretired
      have hbefore : ¬ s.Retired := fun h => hretired (h.step hstep)
      exact (hleft hbefore).trans (leftInPlace_step hstep hretired)
    exact runFrom_invariant hleft (fun _ => .refl _) (along_of_forall fun _ _ _ => trivial) hrun
  · intro hbuilder hfree
    have hstart : st.Own c := by
      rw [Own, hidle]
      trivial
    have hown : ∀ (s : RegistryState) (act : RegistryAction) (s' : RegistryState), s.Own c →
        s.Undisturbed act → s.step c act = some s' → s'.Own c := fun s act s' h hact hstep =>
      h.step hbuilder hact hstep
    exact (runFrom_invariant hown hstart hfree hrun).retiredOwn

/-! ### Interleavings -/

/-- A plaintext generation of an empty core. -/
def emptyImage : ImageBody :=
  { manifest := {}, generation := CoreGraph.generation { nodes := [], edges := [], ends := CoreGraph.ends_nil } }

/-- A graph served from generation 0, to which the delta is bound, with one write pending. -/
def pendingWrite : RegistryState where
  config := { name := "g" }
  images := Finmap.insert 0 emptyImage ∅
  slot :=
    { served := 0, current := 0
      writer := DeltaWriter.writeBatch
        { dir := {}, sink := 0, mem := .withBases 0 0, l0 := [], seq := 0, offHeap := false
          cache := false, coreUuid := 0 }
        [.node { label := "Person", key := "id", value := .int 1 } (.upsert []) none] }

/-- A call whose builder publishes generation 1. -/
def rebuildAs (manifest : Manifest) (pin : Option String) : ConsolidateCall :=
  { pin, outcome := .published 1 (some { emptyImage with manifest }), choices := { listing := [0] } }

/-- Somebody else publishes generation 2 when the call has made `calls` steps; then the call
goes on. -/
def publishedOver (calls : Nat) : List RegistryAction :=
  [.place 2 emptyImage] ++ replicate calls .call ++ [.slot (.publish 2)] ++ replicate (12 - calls) .call

/-- The call with nobody else about. -/
def leftAlone : List RegistryAction := replicate 12 .call

instance : (act : RegistryAction) → Decidable (st.Undisturbed act)
  | .slot (.publish _) => inferInstanceAs (Decidable (st.call.awaitsAdoption = false))
  | .slot .claim | .slot .release | .slot .guard | .slot (.take _ _) | .slot (.check _)
  | .slot (.append _ _) | .place _ _ | .editAcl _ | .call => .isTrue trivial

/-- The delta was retired for another generation than the builder's. -/
def retiredForeign (st : RegistryState) : Bool :=
  match st.call with
  | .retired product new => product != some new
  | _ => false

theorem not_retiredOwn (h : st.retiredForeign = true) : ¬ st.RetiredOwn := by
  intro hown
  unfold retiredForeign at h
  split at h
  next product new hcall => exact bne_iff_ne.mp h (hown product new hcall)
  next => cases h

theorem retires_own_product_leftAlone :
    ∃ st', runFrom (step (rebuildAs {} none)) pendingWrite leftAlone = some st' ∧
      (¬ st'.Retired → LeftInPlace pendingWrite.slot.writer st'.slot.writer) ∧ st'.RetiredOwn := by
  have hsome : (runFrom (step (rebuildAs {} none)) pendingWrite leftAlone).isSome := by
    decide +kernel
  obtain ⟨st', hrun⟩ := isSome_iff_exists.mp hsome
  obtain ⟨hleft, hown⟩ := retires_own_product rfl hrun
  exact ⟨st', hrun, hleft, hown (by simp [rebuildAs]) (by decide +kernel)⟩

/-- **A generation that somebody else publishes during the build is adopted, and the delta
retired for it.** -/
theorem foreign_publish_retires : ¬ ∀ (c : ConsolidateCall) (st st' : RegistryState) (acts : List RegistryAction),
      st.call = .idle → runFrom (step c) st acts = some st' →
      st'.RetiredOwn ∧ (¬ st'.Retired → LeftInPlace st.slot.writer st'.slot.writer) := by
  intro h
  have hforeign : (runFrom (step (rebuildAs {} none)) pendingWrite (publishedOver 8)).any
      retiredForeign = true := by decide +kernel
  obtain ⟨st', hrun, hst'⟩ := (any_eq_true _ _).mp hforeign
  exact not_retiredOwn hst' (h _ _ st' _ rfl hrun).1

-- the same if it is published after the builder's move of the pointer and before its return
example : (runFrom (step (rebuildAs {} none)) pendingWrite (publishedOver 7)).any retiredForeign = true := by
  decide +kernel

/-! ## A failed call changes nothing -/

/-- Everything the call checks before it runs the builder passes. -/
structure Ready (c : ConsolidateCall) (st : RegistryState) : Prop where
  free : st.slot.writer.consolidating = false
  bound : st.slot.writer.coreUuid = st.slot.served
  parity : ∀ body, st.images.lookup st.slot.served = some body → st.config.masterKey = body.manifest.encryption
  dumps : c.dumpFails = false
  acl : ∀ pin path, c.pin = some pin → st.config.aclPath = some path → st.aclFile = some pin

/-- The store as the builder leaves it. -/
def afterBuild (c : ConsolidateCall) (st : RegistryState) : RegistryState :=
  match c.outcome with
  | .published gen body => st.publishOwn gen body
  | .unpublished => st
  | .failed flipped => flipped.elim st fun out => st.publishOwn out.1 out.2

/-- What the pointer names carries the pinned stamp, where one is asked for. -/
def Stamped (c : ConsolidateCall) (st : RegistryState) : Prop :=
  ∀ pin path, c.pin = some pin → st.config.aclPath = some path →
    ∃ candidate, st.image st.slot.current = some candidate ∧ candidate.manifest.aclBlake3 = some pin

/-- **The condition**, on the state before the call and its inputs: the only checks left to
refuse come with the adoption, or the pointer names the served generation once the builder, if
it runs, is through. It can be evaluated before the call starts, since the inputs tell how the
builder will end. -/
def PointerSafe (c : ConsolidateCall) (st : RegistryState) : Prop :=
  (Ready c st ∧ c.outcome.Succeeds ∧ Stamped c (afterBuild c st)) ∨
    ((Ready c st → (afterBuild c st).slot.current = st.slot.served) ∧
      (¬ Ready c st → st.slot.current = st.slot.served))

/-- The served generation, the binding of the delta and what readers see are as before the call,
and the pointer names the served generation. -/
structure Unchanged (st st' : RegistryState) : Prop where
  served : st'.slot.served = st.slot.served
  bound : st'.slot.writer.coreUuid = st.slot.writer.coreUuid
  view : st'.readView = st.readView
  pointer : st'.slot.current = st'.slot.served

/-- What a call that has adopted nothing keeps. -/
structure Same (st st' : RegistryState) : Prop where
  config : st'.config = st.config
  aclFile : st'.aclFile = st.aclFile
  served : st'.slot.served = st.slot.served
  bound : st'.slot.writer.coreUuid = st.slot.writer.coreUuid
  mem : st'.slot.writer.mem = st.slot.writer.mem
  l0 : st'.slot.writer.l0 = st.slot.writer.l0
  image : st'.images.lookup st.slot.served = st.images.lookup st.slot.served

theorem Same.refl (st : RegistryState) : Same st st := ⟨rfl, rfl, rfl, rfl, rfl, rfl, rfl⟩

section

variable (h : Same st st')
include h

theorem Same.published : st'.slot.writer.published = st.slot.writer.published := by
  simp only [DeltaWriter.published, DeltaWriter.levels, h.mem, h.l0]

theorem Same.readView : st'.readView = st.readView := by
  have himage : st'.image st'.slot.served = st.image st.slot.served := by
    rw [h.served]
    exact congrArg (Option.map _) h.image
  rw [RegistryState.readView, himage, h.served, h.bound, h.published]
  rfl

/-- With nothing adopted, all that is left to ask is where the pointer stands. -/
theorem Same.unchanged_iff : Unchanged st st' ↔ st'.slot.current = st.slot.served :=
  ⟨fun hsame => hsame.pointer.trans hsame.served,
    fun hpointer => ⟨h.served, h.bound, h.readView, hpointer.trans h.served.symm⟩⟩

theorem Same.fail (message : String) : Same st (st'.fail message) :=
  { h with }

/-- Publishing under a fresh uuid leaves the served generation alone. -/
theorem Same.publishOwn (hserved : st'.slot.served ∈ st'.images) (gen : GenId) (body : Option ImageBody) :
    Same st (st'.publishOwn gen body) := by
  have hplace : Same st (st'.place gen body) := by
    unfold place
    split
    next body =>
      split
      · exact h
      next hfresh =>
        have hne : st.slot.served ≠ gen := by
          rintro rfl
          exact hfresh (h.served ▸ hserved)
        exact { h with image := (Finmap.lookup_insert_of_ne _ hne).trans h.image }
    next => exact h
  exact { hplace with }

end

/-- The call has not touched the store yet. -/
structure Prepared (st st' : RegistryState) : Prop extends Same st st' where
  images : st'.images = st.images
  current : st'.slot.current = st.slot.current

theorem Prepared.fail (h : Prepared st st') (message : String) : Prepared st (st'.fail message) :=
  { h with }

/-- Leaving before the builder runs leaves the pointer as it was. -/
theorem Prepared.unchanged_iff_safe (h : Prepared st st')
    (hnot : ¬ Ready c st) : Unchanged st st' ↔ PointerSafe c st := by
  rw [h.toSame.unchanged_iff, h.current]
  constructor
  · intro hpointer
    exact .inr ⟨fun hready => absurd hready hnot, fun _ => hpointer⟩
  · rintro (⟨hready, -⟩ | ⟨-, hpointer⟩)
    · exact absurd hready hnot
    · exact hpointer hnot

/-- The builder has returned; the call has done nothing since. -/
structure Built (c : ConsolidateCall) (st st' : RegistryState) : Prop extends Same st st' where
  ready : Ready c st
  images : st'.images = (afterBuild c st).images
  current : st'.slot.current = (afterBuild c st).slot.current

theorem Built.fail (h : Built c st st') (message : String) : Built c st (st'.fail message) :=
  { h with }

/-- Leaving between the build and the adoption leaves the pointer where the builder put it. -/
theorem Built.unchanged_iff_safe (h : Built c st st') (hnot : ¬ (c.outcome.Succeeds ∧ Stamped c (afterBuild c st))) :
    Unchanged st st' ↔ PointerSafe c st := by
  rw [h.toSame.unchanged_iff, h.current]
  constructor
  · intro hpointer
    exact .inr ⟨fun _ => hpointer, absurd h.ready⟩
  · rintro (⟨-, hpasses⟩ | ⟨hpointer, -⟩)
    · exact absurd hpasses hnot
    · exact hpointer h.ready

/-- Nothing but the adoption is left to refuse. -/
structure Passed (c : ConsolidateCall) (st : RegistryState) : Prop where
  ready : Ready c st
  succeeds : c.outcome.Succeeds
  stamped : Stamped c (afterBuild c st)

theorem Passed.pointerSafe (h : Passed c st) : PointerSafe c st :=
  .inl ⟨h.ready, h.succeeds, h.stamped⟩

/-- A refused adoption points back to the served generation. -/
theorem Passed.unchanged_iff_safe (h : Passed c st) (hsame : Same st st')
    (hpointer : st'.slot.current = st.slot.served) : Unchanged st st' ↔ PointerSafe c st :=
  iff_of_true (hsame.unchanged_iff.mpr hpointer) h.pointerSafe

/-- What is established when a call with nobody else about has come to a phase. -/
def Reached (c : ConsolidateCall) (st st' : RegistryState) : Prop :=
  match st'.call with
  | .idle => Prepared st st' ∧ st'.slot.writer.consolidating = st.slot.writer.consolidating
  | .claimed => Prepared st st' ∧ st.slot.writer.consolidating = false
  | .cored core =>
    Prepared st st' ∧ st.slot.writer.consolidating = false ∧ st.image st.slot.served = some core
  | .bound core | .frozen core _ =>
    Prepared st st' ∧ st.slot.writer.consolidating = false ∧ st.image st.slot.served = some core ∧
      st.slot.writer.coreUuid = st.slot.served
  | .dumped core _ =>
    Prepared st st' ∧ st.slot.writer.consolidating = false ∧ st.image st.slot.served = some core ∧
      st.slot.writer.coreUuid = st.slot.served ∧ st.config.masterKey = core.manifest.encryption ∧
      c.dumpFails = false
  | .cleared core _ => Prepared st st' ∧ Ready c st ∧ st.image st.slot.served = some core
  | .building core _ _ => Built c st st' ∧ st.image st.slot.served = some core
  | .built core _ _ => Built c st st' ∧ c.outcome.Succeeds ∧ st.image st.slot.served = some core
  | .stamped core _ _ => Built c st st' ∧ Passed c st ∧ st.image st.slot.served = some core
  | .opening core _ _ =>
    Same st st' ∧ Passed c st ∧ st'.slot.current ≠ st.slot.served ∧ core.uuid = st.slot.served
  | .adopted core _ _ new =>
    Passed c st ∧ (Same st st' ∧ st'.slot.current = st.slot.served ∨ new.uuid ≠ core.uuid)
  | .retired _ _ => True
  | .failed _ => Unchanged st st' ↔ PointerSafe c st

theorem Prepared.goto (h : Prepared st st') (call : CallPhase) : Prepared st (st'.goto call) :=
  { h with }

theorem Built.goto (h : Built c st st') (call : CallPhase) : Built c st (st'.goto call) :=
  { h with }

theorem image_uuid {gen : GenId} {im : Image} (h : st.image gen = some im) :
    im.uuid = gen ∧ st.images.lookup gen = some im.toImageBody := by
  obtain ⟨body, hbody, rfl⟩ := map_eq_some_iff.mp h
  exact ⟨rfl, hbody⟩

theorem Prepared.image_eq (h : Prepared st st') (gen : GenId) : st'.image gen = st.image gen := by
  rw [image, image, h.images]

/-- The pointer and the images that the builder leaves. -/
theorem Built.image_eq (h : Built c st st') :
    st'.image st'.slot.current = (afterBuild c st).image (afterBuild c st).slot.current := by
  rw [image, image, h.images, h.current]

theorem Reached.ofClaim (h : Prepared st st') (hflag : st'.slot.writer.consolidating = st.slot.writer.consolidating) :
    Reached c st st'.claimStep := by
  unfold claimStep DeltaWriter.beginConsolidation
  cases hheld : st'.slot.writer.consolidating with
  | true =>
    refine (h.goto _).unchanged_iff_safe fun hready => ?_
    rw [hheld, hready.free] at hflag
    cases hflag
  | false =>
    exact ⟨{ h with }, hflag.symm.trans hheld⟩

section

variable (h : Prepared st st') (hfree : st.slot.writer.consolidating = false)
include h hfree

variable (hcore : st.image st.slot.served = some core)
include hcore

theorem Reached.ofBound : Reached c st (st'.boundStep core) := by
  have huuid := (image_uuid hcore).1
  unfold boundStep
  split
  next horphan =>
    refine (h.fail _).unchanged_iff_safe fun hready => horphan ?_
    rw [h.bound, huuid, hready.bound]
  next hbound =>
    refine ⟨h.goto _, hfree, hcore, ?_⟩
    rw [← h.bound, not_not.mp hbound, huuid]

variable (hbound : st.slot.writer.coreUuid = st.slot.served)
include hbound

theorem Reached.ofDump (frozen : DeltaWriter.Frozen) : Reached c st (st'.dumpStep c.dumpFails core frozen) := by
  unfold dumpStep
  split
  next hparity =>
    refine (h.fail _).unchanged_iff_safe fun hready => bne_iff_ne.mp hparity ?_
    rw [h.config]
    exact hready.parity _ (image_uuid hcore).2
  next hparity =>
    split
    next hfails =>
      refine (h.fail _).unchanged_iff_safe fun hready => ?_
      rw [hready.dumps] at hfails
      cases hfails
    next hdumps =>
      refine ⟨h.goto _, hfree, hcore, hbound, ?_, Bool.not_eq_true _ ▸ hdumps⟩
      rw [← h.config]
      simpa using hparity

theorem Reached.ofPreCheck (hparity : st.config.masterKey = core.manifest.encryption) (hdumps : c.dumpFails = false)
    (frozen : DeltaWriter.Frozen) : Reached c st (st'.preCheckStep c.pin core frozen) := by
  have hready : (∀ pin path, c.pin = some pin → st.config.aclPath = some path →
      st.aclFile = some pin) → Ready c st := fun hacl =>
    ⟨hfree, hbound, fun body hbody => by
      rw [(image_uuid hcore).2] at hbody
      exact some.inj hbody ▸ hparity, hdumps, hacl⟩
  unfold preCheckStep
  split
  next pin path hpin hpath =>
    rw [h.config] at hpath
    split
    next hnone =>
      refine (h.fail _).unchanged_iff_safe fun hr => ?_
      rw [h.aclFile, hr.acl pin path hpin hpath] at hnone
      cases hnone
    next onDisk hfile =>
      rw [h.aclFile] at hfile
      split
      next hother =>
        refine (h.fail _).unchanged_iff_safe fun hr => hother ?_
        rw [hr.acl pin path hpin hpath] at hfile
        exact (some.inj hfile).symm
      next hsame =>
        refine ⟨h.goto _, hready fun pin' path' hpin' _ => ?_, hcore⟩
        rw [hpin] at hpin'
        rw [hfile, not_not.mp hsame, hpin']
  next hnot =>
    refine ⟨h.goto _, hready fun pin path hpin hpath => ?_, hcore⟩
    rw [← h.config] at hpath
    exact (hnot pin path hpin hpath).elim

end

/-- The builder does to a store that the call has not touched what it does to the store of the
start. -/
theorem Prepared.afterBuild_eq (h : Prepared st st') : (afterBuild c st').images = (afterBuild c st).images ∧
      (afterBuild c st').slot.current = (afterBuild c st).slot.current := by
  have hpublish : ∀ gen body, (st'.publishOwn gen body).images = (st.publishOwn gen body).images := by
    intro gen body
    cases body with
    | none => exact h.images
    | some body =>
      show (st'.place gen (some body)).images = (st.place gen (some body)).images
      rw [place, place, h.images]
      split <;> simp only [h.images]
  unfold afterBuild
  cases c.outcome with
  | published gen body => exact ⟨hpublish gen body, rfl⟩
  | unpublished => exact ⟨h.images, h.current⟩
  | failed flipped =>
    cases flipped with
    | none => exact ⟨h.images, h.current⟩
    | some out => exact ⟨hpublish out.1 out.2, rfl⟩

theorem Same.builder (h : Same st st') (hserved : st'.slot.served ∈ st'.images) : Same st (afterBuild c st') := by
  unfold afterBuild
  cases c.outcome with
  | published gen body => exact h.publishOwn hserved gen body
  | unpublished => exact h
  | failed flipped =>
    cases flipped with
    | none => exact h
    | some out => exact h.publishOwn hserved out.1 out.2

section

variable (h : Prepared st st') (hready : Ready c st) (hcore : st.image st.slot.served = some core)
include h hready hcore

theorem Prepared.built : Built c st (afterBuild c st') :=
  { toSame := h.toSame.builder (h.served ▸ Finmap.mem_of_lookup_eq_some (h.image.trans (image_uuid hcore).2))
    ready := hready
    images := h.afterBuild_eq.1
    current := h.afterBuild_eq.2 }

theorem Reached.ofBuild (frozen : DeltaWriter.Frozen) : Reached c st (st'.buildStep c.outcome core frozen) := by
  have hbuilt := h.built hready hcore
  unfold afterBuild at hbuilt
  cases houtcome : c.outcome with
  | published | unpublished | failed =>
    rw [houtcome] at hbuilt
    exact ⟨hbuilt.goto _, hcore⟩

end

theorem Reached.ofReturn (h : Built c st st') (hcore : st.image st.slot.served = some core)
    (frozen : DeltaWriter.Frozen) (product : Option GenId) :
    Reached c st (st'.returnStep c.outcome core frozen product) := by
  cases houtcome : c.outcome with
  | published | unpublished => exact ⟨h.goto _, by rw [houtcome]; trivial, hcore⟩
  | failed flipped =>
    refine (h.fail _).unchanged_iff_safe fun hpasses => ?_
    rw [houtcome] at hpasses
    exact hpasses.1

theorem Reached.ofStamp (h : Built c st st') (hsucceeds : c.outcome.Succeeds)
    (hcore : st.image st.slot.served = some core) (frozen : DeltaWriter.Frozen) (product : Option GenId) :
    Reached c st (st'.stampStep c.pin core frozen product) := by
  have hconfig : (afterBuild c st).config = st'.config :=
    ((Same.refl st).builder (Finmap.mem_of_lookup_eq_some (image_uuid hcore).2)).config.trans h.config.symm
  unfold stampStep
  split
  next pin path hpin hpath =>
    have hasked : Stamped c (afterBuild c st) → ∃ candidate, st'.image st'.slot.current = some candidate ∧
          candidate.manifest.aclBlake3 = some pin := by
      intro hstamped
      rw [h.image_eq]
      exact hstamped pin path hpin (hconfig ▸ hpath)
    split
    next hnone =>
      refine (h.fail _).unchanged_iff_safe fun hpasses => ?_
      obtain ⟨candidate, hcandidate, -⟩ := hasked hpasses.2
      rw [hnone] at hcandidate
      cases hcandidate
    next candidate hcandidate =>
      split
      next hother =>
        refine (h.fail _).unchanged_iff_safe fun hpasses => hother ?_
        obtain ⟨named, hnamed, hstamp⟩ := hasked hpasses.2
        rw [hcandidate] at hnamed
        rw [some.inj hnamed, hstamp]
      next hstamp =>
        refine ⟨h.goto _, ⟨h.ready, hsucceeds, fun pin' path' hpin' _ => ?_⟩, hcore⟩
        rw [← h.image_eq]
        rw [hpin] at hpin'
        exact ⟨candidate, hcandidate, (not_not.mp hstamp).trans hpin'⟩
  next hnot =>
    refine ⟨h.goto _, ⟨h.ready, hsucceeds, fun pin path hpin hpath => ?_⟩, hcore⟩
    exact (hnot pin path hpin (hconfig ▸ hpath)).elim

theorem Reached.ofAdopt (h : Built c st st') (hpassed : Passed c st)
    (hcore : st.image st.slot.served = some core) {frozen : DeltaWriter.Frozen} {product : Option GenId}
    {next : RegistryState} (hstep : st'.adoptStep core frozen product = some next) : Reached c st next := by
  unfold adoptStep at hstep
  split at hstep
  · cases hstep
  split at hstep
  next hserved =>
    obtain ⟨new, -, rfl⟩ := map_eq_some_iff.mp hstep
    exact ⟨hpassed, .inl ⟨(h.goto _).toSame, hserved.trans h.served⟩⟩
  next hother =>
    cases hstep
    exact ⟨(h.goto _).toSame, hpassed, fun heq => hother (heq.trans h.served.symm),
      (image_uuid hcore).1⟩

theorem Reached.ofOpen (h : Same st st') (hpassed : Passed c st) (hother : st'.slot.current ≠ st.slot.served)
    (hcore : core.uuid = st.slot.served) (frozen : DeltaWriter.Frozen) (product : Option GenId) :
    Reached c st (st'.openStep core frozen product) := by
  have hpoint : Same st (st'.point st'.slot.served) := { h with }
  have hrefused : ∀ message, Unchanged st ((st'.point st'.slot.served).fail message) ↔ PointerSafe c st :=
    fun message => hpassed.unchanged_iff_safe (hpoint.fail message) h.served
  unfold openStep
  split
  next => exact hrefused _
  next new hnew =>
    split
    next => exact hrefused _
    next =>
      refine ⟨hpassed, .inr ?_⟩
      rw [(image_uuid hnew).1, hcore]
      exact hother

theorem Reached.ofRetire (hpassed : Passed c st) {new : Image}
    (h : Same st st' ∧ st'.slot.current = st.slot.served ∨ new.uuid ≠ core.uuid) (frozen : DeltaWriter.Frozen)
    (product : Option GenId) : Reached c st (st'.retireStep core frozen product new) := by
  unfold retireStep
  split
  next hsame =>
    obtain ⟨hkept, hpointer⟩ := h.resolve_right (not_not.mpr hsame)
    exact hpassed.unchanged_iff_safe (hkept.fail _) hpointer
  next => trivial

/-- What one step of the call establishes. -/
theorem Reached.callStep {start : RegistryState} (h : Reached c start st)
    (hstep : st.callStep c = some st') : Reached c start st' := by
  unfold Reached at h
  unfold RegistryState.callStep at hstep
  split at hstep <;> rename_i hcall <;> rw [hcall] at h
  next =>
    cases hstep
    exact .ofClaim h.1 h.2
  next =>
    obtain ⟨core, hcore, rfl⟩ := map_eq_some_iff.mp hstep
    refine ⟨h.1.goto _, h.2, ?_⟩
    rwa [h.1.served, h.1.image_eq] at hcore
  next =>
    cases hstep
    exact .ofBound h.1 h.2.1 h.2.2
  next =>
    cases hstep
    obtain ⟨hprepared, hrest⟩ := h
    exact ⟨{ hprepared with }, hrest⟩
  next =>
    cases hstep
    obtain ⟨hprepared, hfree, hcore, hbound⟩ := h
    exact .ofDump hprepared hfree hcore hbound _
  next =>
    cases hstep
    obtain ⟨hprepared, hfree, hcore, hbound, hparity, hdumps⟩ := h
    exact .ofPreCheck hprepared hfree hcore hbound hparity hdumps _
  next =>
    cases hstep
    exact .ofBuild h.1 h.2.1 h.2.2 _
  next =>
    cases hstep
    exact .ofReturn h.1 h.2 _ _
  next =>
    cases hstep
    exact .ofStamp h.1 h.2.1 h.2.2 _ _
  next => exact .ofAdopt h.1 h.2.1 h.2.2 hstep
  next =>
    cases hstep
    obtain ⟨hsame, hpassed, hother, hcore⟩ := h
    exact .ofOpen hsame hpassed hother hcore _ _
  next =>
    cases hstep
    exact .ofRetire h.1 h.2 _ _
  next => cases hstep
  next => cases hstep

/-- The call makes its steps, and the guard, idle when it began, polls while the call holds its
claim. Publishers, statements and the ACL file are at rest. -/
def CallAndGuard (start st : RegistryState) (act : RegistryAction) : Prop :=
  act = .call ∨ act = .slot .guard ∧ st.call.holdsClaim = true ∧ start.slot.guard = .idle

/-- What is known of the guard meanwhile. -/
structure Deferred (start st : RegistryState) : Prop where
  claims : st.Claims
  guard : start.slot.guard = .idle → st.slot.guard = .idle ∨ st.slot.guard = .moved

/-- A guard that finds the graph claimed goes back to where it started. -/
theorem guardStep_deferred {slot : GuardState} {opens : GenId → Bool} (hclaimed : slot.writer.consolidating = true)
    (hguard : slot.guard = .idle ∨ slot.guard = .moved) :
    ∃ guard, (guard = .idle ∨ guard = .moved) ∧ slot.guardStep opens = { slot with guard } := by
  obtain ⟨served, current, writer, guard, statements⟩ := slot
  rcases hguard with rfl | rfl
  · by_cases hsame : current = served
    · exact ⟨.idle, .inl rfl, if_pos hsame⟩
    · exact ⟨.moved, .inr rfl, if_neg hsame⟩
  · refine ⟨.idle, .inl rfl, ?_⟩
    replace hclaimed : writer.consolidating = true := hclaimed
    simp only [GuardState.guardStep, hclaimed, if_true]

/-- What a call has established does not depend on the guard. -/
theorem Reached.guard {start : RegistryState} (h : Reached c start st) (hclaim : st.call.holdsClaim = true)
    (guard : GuardPhase) : Reached c start { st with slot := { st.slot with guard } } := by
  obtain ⟨config, images, aclFile, slot, call⟩ := st
  cases call with
  | idle | retired | failed => cases hclaim
  | opening =>
    obtain ⟨hsame, hrest⟩ := h
    exact ⟨{ hsame with }, hrest⟩
  | adopted =>
    obtain ⟨hpassed, hkept⟩ := h
    exact ⟨hpassed, hkept.imp_left fun hsame => ⟨{ hsame.1 with }, hsame.2⟩⟩
  | _ =>
    obtain ⟨hstore, hrest⟩ := h
    exact ⟨{ hstore with }, hrest⟩

/-- **A call that fails, with nobody about but the guard, has changed nothing exactly when
`PointerSafe` held before it.** Every failing exit of the call is covered, from the claim to the
retirement; what the call left on scratch storage is not compared. -/
theorem failed_changes_nothing_iff {acts : List RegistryAction} {message : String} (hidle : st.call = .idle)
    (hacts : Along (step c) (CallAndGuard st) st acts) (hrun : runFrom (step c) st acts = some st')
    (hfailed : st'.call = .failed message) : Unchanged st st' ↔ PointerSafe c st := by
  have hstart : Reached c st st := by
    rw [Reached, hidle]
    exact ⟨⟨.refl st, rfl, rfl⟩, rfl⟩
  have hdeferred : Deferred st st := by
    refine ⟨fun h => ?_, .inl⟩
    rw [hidle] at h
    cases h
  have hstep : ∀ s act s', Reached c st s ∧ Deferred st s → CallAndGuard st s act → s.step c act = some s' →
      Reached c st s' ∧ Deferred st s' := by
    rintro s act s' ⟨hreached, hquiet⟩ (rfl | ⟨rfl, hclaim, hguard⟩) hs'
    · have hkeeps := Keeps.callStep hs'
      exact ⟨hreached.callStep hs', hkeeps.claims hquiet.claims, fun h => hkeeps.guard ▸ hquiet.guard h⟩
    · obtain ⟨slot, hslot, rfl⟩ := slot_step hs'
      obtain ⟨guard, hplace, hpoll⟩ := guardStep_deferred (hquiet.claims hclaim) (hquiet.guard hguard)
      obtain rfl : { s.slot with guard } = slot := by
        rw [← hpoll]
        exact some.inj hslot
      exact ⟨hreached.guard hclaim guard, hquiet.claims, fun _ => hplace⟩
  have hreached := (runFrom_invariant hstep ⟨hstart, hdeferred⟩ hacts hrun).1
  rw [Reached, hfailed] at hreached
  exact hreached

/-- `pendingWrite` under an ACL with digest `p`, which the served generation is stamped with. -/
def underAcl : RegistryState :=
  { pendingWrite with
    config := { name := "g", aclPath := some "acl.json", aclHandle := some "p" }
    images := Finmap.insert 0 { emptyImage with manifest := { aclBlake3 := some "p" } } ∅
    aclFile := some "p" }

/-- A call whose builder fails before it publishes. -/
def brokenBuilder : ConsolidateCall :=
  { pin := some "p", outcome := .failed none, choices := { listing := [0] } }

/-- The call to its end, polled once by the guard. -/
def polledBuild : List RegistryAction := replicate 6 .call ++ [.slot .guard] ++ replicate 2 .call

instance (start : RegistryState) : (act : RegistryAction) → Decidable (CallAndGuard start st act)
  | .call => .isTrue (.inl rfl)
  | .slot .guard => decidable_of_iff (st.call.holdsClaim = true ∧ start.slot.guard = .idle) (by simp [CallAndGuard])
  | .slot (.publish _) | .slot .claim | .slot .release | .slot (.take _ _) | .slot (.check _)
  | .slot (.append _ _) | .place _ _ | .editAcl _ => .isFalse (by simp [CallAndGuard])

/-- The call ended with an error. -/
def hasFailed (st : RegistryState) : Bool :=
  match st.call with
  | .failed _ => true
  | _ => false

theorem hasFailed_iff : st.hasFailed = true ↔ ∃ message, st.call = .failed message := by
  unfold hasFailed
  split
  next message hcall => exact iff_of_true rfl ⟨message, hcall⟩
  next hnot => exact iff_of_false Bool.false_ne_true (not_exists.mpr hnot)

theorem failed_changes_nothing_brokenBuilder : ∃ st' message,
      runFrom (step brokenBuilder) underAcl polledBuild = some st' ∧
      st'.call = .failed message ∧ Unchanged underAcl st' := by
  have hfails : (runFrom (step brokenBuilder) underAcl polledBuild).any
      hasFailed = true := by decide +kernel
  obtain ⟨st', hrun, hst'⟩ := (any_eq_true _ _).mp hfails
  obtain ⟨message, hcall⟩ := hasFailed_iff.mp hst'
  exact ⟨st', message, hrun, hcall, (failed_changes_nothing_iff rfl (by decide +kernel) hrun hcall).mpr
    (.inr ⟨fun _ => rfl, fun _ => rfl⟩)⟩

/-- **A rebuild that is refused for its stamp stays published**: the call fails and the pointer
names a generation that is not served. -/
theorem refused_stamp_keeps_pointer : ¬ ∀ (c : ConsolidateCall) (st st' : RegistryState) (n : Nat) (message : String),
      st.call = .idle → st.slot.current = st.slot.served → runFrom (step c) st (replicate n .call) = some st' →
      st'.call = .failed message → Unchanged st st' := by
  intro h
  have hmoved : (runFrom (step (rebuildAs { aclBlake3 := some "q" } (some "p"))) underAcl
      (replicate 9 .call)).any
      (fun st => st.hasFailed && decide (st.slot.current ≠ st.slot.served)) = true := by
    decide +kernel
  obtain ⟨st', hrun, hst'⟩ := (any_eq_true _ _).mp hmoved
  obtain ⟨hst', hpointer⟩ := Bool.and_eq_true_iff.mp hst'
  obtain ⟨message, hcall⟩ := hasFailed_iff.mp hst'
  exact of_decide_eq_true hpointer (h _ underAcl st' 9 message rfl rfl hrun hcall).pointer

end RegistryState

end Slater
