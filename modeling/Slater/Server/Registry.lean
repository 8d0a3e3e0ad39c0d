import Slater.Server.SwapGuard

/-!
# Consolidating a served graph

`Graphs` of `slater/src/server/registry.rs` serves one generation per graph from a store in which anybody may
publish. `consolidate_graph` folds the delta of a graph into a new generation: it claims the graph, freezes
the delta, dumps the merged view, has a builder make a generation of the dump and move the `current` pointer
to it, adopts what the pointer names, and retires the delta that the new generation now holds.

The machine of this module is one such call beside everything that can happen in between: the guard and the
statements of `Slater.Server.SwapGuard`, publishers who put generations in place and move the pointer, edits
of the ACL file. Every access of the call to what it shares with others is a step of its own (`CallPhase`).
The builder is another process; what it did is an input of the call (`BuildOutcome`). It moves the pointer and
returns later, after it has synced and perhaps uploaded what it wrote, so its move and its return are two steps
and anybody may come between them.

The swap mutex is held by the guard for its sweep and by the call while it adopts. Only the outermost context
of an error is kept. The resident vector codes that a swap pins, and the removal of the scratch dump, are left
out.

**What it does not establish.** What a built generation holds is not compared with the dump. There is no fairness: a
call may stay where it is for ever.
-/

namespace Slater

open Map

/-! ## Generations in the store -/

/-- The parts of a manifest that the registry looks at. -/
structure Manifest where
  encryption : Bool := false
  aclBlake3 : Option String := none
  deriving DecidableEq

/-- A complete generation in the store: one that opens. -/
structure ImageBody where
  manifest : Manifest
  generation : Generation

/-- An opened generation. -/
structure Image extends ImageBody where
  uuid : GenId

/-- How the registry was configured. -/
structure RegistryConfig where
  name : String
  masterKey : Bool := false
  aclPath : Option String := none
  /-- The digest of the ACL in force, once a handle is bound. -/
  aclHandle : Option String := none
  requireAclStamp : Bool := false

/-- `live_acl_digest`; `aclFile` is the hash of the file, if it can be read. -/
def RegistryConfig.liveAclDigest (config : RegistryConfig) (aclFile : Option String) : Except String (Option String) :=
  match config.aclHandle with
  | some digest => .ok (some digest)
  | none =>
    match config.aclPath, aclFile with
    | none, _ => .ok none
    | some _, some hash => .ok (some hash)
    | some path, none => .error ("hash live acl " ++ path)

/-- `check_manifest_policy`. Authentication is part of opening and is not asserted again. -/
def RegistryConfig.checkManifestPolicy (config : RegistryConfig) (m : Manifest)
    (liveAcl : Option String) : Except String Unit :=
  match m.aclBlake3, liveAcl with
  | some stamp, some live =>
    if stamp ≠ live then .error
      ("graph '" ++ config.name ++ "' was built against an acl.json with digest " ++ stamp ++
        " but the live acl hashes to " ++ live ++ " — refusing to serve; rebuild the graph against " ++
        "the current acl.json")
    else .ok ()
  | some _, none => .ok ()
  | none, _ =>
    if config.requireAclStamp then .error
      ("graph '" ++ config.name ++ "' manifest has no ACL stamp but requireAclStamp is set")
    else .ok ()

/-! ## The call -/

/-- What a builder did: exit 0 with a generation published under a fresh uuid (complete or not),
exit 0 without, or a failure before or after it moved the pointer. The builder is not modelled
further, so a law holds for every builder with the outcome it names. -/
inductive BuildOutcome where
  | published (gen : GenId) (body : Option ImageBody)
  | unpublished
  | failed (flipped : Option (GenId × Option ImageBody))

/-- The builder reports success. -/
def BuildOutcome.Succeeds : BuildOutcome → Prop
  | .published _ _ | .unpublished => True
  | .failed _ => False

/-- The inputs of a call. -/
structure ConsolidateCall where
  pin : Option String := none
  dumpFails : Bool := false
  outcome : BuildOutcome
  choices : Choices := {}

/-- Where a call is, with the locals it has set. `product` is what the builder of this call
published. The phases follow the text of `consolidate_graph`; a phase holds just the locals that
later phases read. -/
inductive CallPhase where
  | idle
  | claimed
  | cored (core : Image)
  | bound (core : Image)
  | frozen (core : Image) (frozen : DeltaWriter.Frozen)
  | dumped (core : Image) (frozen : DeltaWriter.Frozen)
  | cleared (core : Image) (frozen : DeltaWriter.Frozen)
  /-- The builder has moved the pointer, if it does, and has not returned. -/
  | building (core : Image) (frozen : DeltaWriter.Frozen) (product : Option GenId)
  | built (core : Image) (frozen : DeltaWriter.Frozen) (product : Option GenId)
  | stamped (core : Image) (frozen : DeltaWriter.Frozen) (product : Option GenId)
  /-- Inside `swap_locked`, the pointer seen to name another generation than the served one. -/
  | opening (core : Image) (frozen : DeltaWriter.Frozen) (product : Option GenId)
  | adopted (core : Image) (frozen : DeltaWriter.Frozen) (product : Option GenId) (new : Image)
  | retired (product : Option GenId) (new : GenId)
  | failed (message : String)

/-- The call holds the claim of the graph. -/
def CallPhase.holdsClaim : CallPhase → Bool
  | .idle | .retired _ _ | .failed _ => false
  | _ => true

/-- The builder has made its move of the pointer and nothing is adopted yet. -/
def CallPhase.awaitsAdoption : CallPhase → Bool
  | .building _ _ _ | .built _ _ _ | .stamped _ _ _ | .opening _ _ _ => true
  | _ => false

/-- One graph of the registry. Whatever `consolidate_graph` shares with others is in it; scratch
files are not. -/
structure RegistryState where
  config : RegistryConfig
  images : Map GenId ImageBody
  aclFile : Option String := none
  slot : GuardState
  call : CallPhase := .idle

namespace RegistryState

variable (st : RegistryState) (gen : GenId)

/-- Open the generation with a uuid. -/
def image : Option Image :=
  (st.images.lookup gen).map fun body => { toImageBody := body, uuid := gen }

/-- The policy of a swap, on an image. -/
def admits (body : ImageBody) : Except String Unit := do
  let live ← st.config.liveAclDigest st.aclFile
  st.config.checkManifestPolicy body.manifest live

/-- Which generations `swap_locked` would install. -/
def installs : Bool :=
  (st.images.lookup gen).any fun body => (st.admits body).isOk

/-- The pointer moves. -/
def point : RegistryState := { st with slot := { st.slot with current := gen } }

/-- A generation is put in place under a uuid nobody used. -/
def place (body : Option ImageBody) : RegistryState :=
  match body with
  | some body =>
    if gen ∈ st.images then st else { st with images := st.images.insert gen body }
  | none => st

/-- The builder's effect on the store. -/
def publishOwn (body : Option ImageBody) : RegistryState := (st.place gen body).point gen

def withWriter (writer : DeltaWriter) : RegistryState := { st with slot := { st.slot with writer } }

def goto (call : CallPhase) : RegistryState := { st with call }

/-- Return with an error; the claim is released. -/
def fail (message : String) : RegistryState :=
  (st.withWriter st.slot.writer.endConsolidation).goto (.failed message)

/-- What a reader of the served generation sees (`delta_for_read`). -/
def readView : Option View :=
  (st.image st.slot.served).map fun served => served.generation.merged
    (if st.slot.writer.coreUuid = st.slot.served then st.slot.writer.published
      else .fromMemtable (.withBases 0 0))

/-! ### The steps of a call -/

/-- `begin_consolidation`. -/
def claimStep : RegistryState :=
  match st.slot.writer.beginConsolidation with
  | none => st.goto (.failed ("a consolidation for '" ++ st.config.name ++ "' is already in progress"))
  | some writer => (st.withWriter writer).goto .claimed

variable (core : Image)

/-- The delta must be bound to the served core. -/
def boundStep : RegistryState :=
  if st.slot.writer.coreUuid ≠ core.uuid then st.fail
    ("cannot consolidate '" ++ st.config.name ++ "': the writable delta was resolved against " ++
      "generation " ++ toString st.slot.writer.coreUuid ++ " but the served core is " ++
      toString core.uuid ++ " — the delta is orphaned")
  else st.goto (.bound core)

def freezeStep (choices : Choices) (core : Image) : RegistryState :=
  let (writer, frozen) := st.slot.writer.freeze choices
  (st.withWriter writer).goto (.frozen core frozen)

/-- Key parity, then the dump. -/
def dumpStep (dumpFails : Bool) (core : Image) (frozen : DeltaWriter.Frozen) : RegistryState :=
  if st.config.masterKey != core.manifest.encryption then st.fail
    ("cannot consolidate '" ++ st.config.name ++ "': the server " ++
      (if st.config.masterKey then "has" else "has no") ++ " a master key but the served generation is " ++
      (if core.manifest.encryption then "encrypted" else "plaintext") ++
      " — refusing to rebuild, since the result would be sealed the wrong way")
  else if dumpFails then st.fail ("serialise consolidation dump for '" ++ st.config.name ++ "'")
  else st.goto (.dumped core frozen)

/-- The ACL file must be the one in force, if one is configured and pinned. -/
def preCheckStep (pin : Option String) (core : Image) (frozen : DeltaWriter.Frozen) : RegistryState :=
  match pin, st.config.aclPath with
  | some pin, some path =>
    match st.aclFile with
    | none => st.fail ("hash acl " ++ path ++ " before consolidating")
    | some onDisk =>
      if onDisk ≠ pin then st.fail
        ("refusing to consolidate '" ++ st.config.name ++ "': " ++ path ++ " hashes to " ++ onDisk ++
          " but the ACL in force is " ++ pin ++ ". The rebuild would be stamped against an acl.json " ++
          "this server never accepted, which would make it the one it enforces. Restore the file, or " ++
          "restart so the new ACL is adopted through the stamp gate.")
      else st.goto (.cleared core frozen)
  | _, _ => st.goto (.cleared core frozen)

/-- The builder's move of the pointer. -/
def buildStep (outcome : BuildOutcome) (core : Image) (frozen : DeltaWriter.Frozen) : RegistryState :=
  match outcome with
  | .published gen body => (st.publishOwn gen body).goto (.building core frozen (some gen))
  | .unpublished => st.goto (.building core frozen none)
  | .failed flipped =>
    (flipped.elim st fun out => st.publishOwn out.1 out.2).goto (.building core frozen (flipped.map Prod.fst))

/-- The builder's return. -/
def returnStep (outcome : BuildOutcome) (core : Image) (frozen : DeltaWriter.Frozen)
    (product : Option GenId) : RegistryState :=
  match outcome with
  | .published _ _ | .unpublished => st.goto (.built core frozen product)
  | .failed _ => st.fail ("rebuild consolidated generation for '" ++ st.config.name ++ "'")

/-- What the pointer names must carry the stamp of the ACL in force. The pointer stays where it
is. -/
def stampStep (pin : Option String) (core : Image) (frozen : DeltaWriter.Frozen)
    (product : Option GenId) : RegistryState :=
  match pin, st.config.aclPath with
  | some pin, some _ =>
    match st.image st.slot.current with
    | none => st.fail ("open consolidated generation " ++ toString st.slot.current ++ " of '" ++ st.config.name ++ "'")
    | some candidate =>
      if candidate.manifest.aclBlake3 ≠ some pin then st.fail
        ("refusing the consolidated generation of '" ++ st.config.name ++ "': it is stamped " ++
          (candidate.manifest.aclBlake3.getD "<none>").quote ++ " but the ACL in force is " ++ pin ++
          ". The rebuild read an acl.json this server never accepted; serving it would make that " ++
          "file the one enforced.")
      else st.goto (.stamped core frozen product)
  | _, _ => st.goto (.stamped core frozen product)

variable (frozen : DeltaWriter.Frozen)

/-- `adopt_published_generation`, up to the comparison of the pointer with the served slot. -/
def adoptStep (product : Option GenId) : Option RegistryState :=
  if st.slot.guard ≠ .idle then none
  else if st.slot.current = st.slot.served then
    (st.image st.slot.served).map fun new => st.goto (.adopted core frozen product new)
  else some (st.goto (.opening core frozen product))

/-- The rest of it: open and check what the pointer names now. A refusal points back to the
served generation. -/
def openStep (product : Option GenId) : RegistryState :=
  let refused := (st.point st.slot.served).fail ("swap in consolidated generation for '" ++ st.config.name ++ "'")
  match st.image st.slot.current with
  | none => refused
  | some new =>
    match st.admits new.toImageBody with
    | .error _ => refused
    | .ok () =>
      { st with slot := { st.slot with served := new.uuid }, call := .adopted core frozen product new }

/-- Retire the frozen delta, unless nothing new was adopted. -/
def retireStep (product : Option GenId) (new : Image) : RegistryState :=
  if new.uuid = core.uuid then st.fail
    ("builder for '" ++ st.config.name ++ "' did not publish a new generation (current unchanged)")
  else
    let w := st.slot.writer
    let writer := match w.retire frozen new.uuid new.generation.core.coreNodeCount
        new.generation.coreEdgeCount new.generation.resolveOp with
      | .ok retired => retired
      -- the consumed files are gone, the rest of the writer is as it was
      | .error _ => { w with dir := w.dir.performAll (DeltaWriter.retireSteps frozen) }
    (st.withWriter writer.endConsolidation).goto (.retired product new.uuid)

/-- The next step of the call; it waits where the mutex is taken, and is over once it has
returned. -/
def callStep (c : ConsolidateCall) : Option RegistryState :=
  match st.call with
  | .idle => some st.claimStep
  | .claimed => (st.image st.slot.served).map fun core => st.goto (.cored core)
  | .cored core => some (st.boundStep core)
  | .bound core => some (st.freezeStep c.choices core)
  | .frozen core frozen => some (st.dumpStep c.dumpFails core frozen)
  | .dumped core frozen => some (st.preCheckStep c.pin core frozen)
  | .cleared core frozen => some (st.buildStep c.outcome core frozen)
  | .building core frozen product => some (st.returnStep c.outcome core frozen product)
  | .built core frozen product => some (st.stampStep c.pin core frozen product)
  | .stamped core frozen product => st.adoptStep core frozen product
  | .opening core frozen product => some (st.openStep core frozen product)
  | .adopted core frozen product new => some (st.retireStep core frozen product new)
  | .retired _ _ | .failed _ => none

end RegistryState

/-- A step of somebody. -/
inductive RegistryAction where
  | slot (act : GuardAction)
  /-- Somebody puts a generation in place. -/
  | place (gen : GenId) (body : ImageBody)
  | editAcl (hash : Option String)
  | call

/-- One step of the machine of a call. -/
def RegistryState.step (c : ConsolidateCall) (st : RegistryState) : RegistryAction → Option RegistryState
  | .slot .release =>
    -- only who holds the claim releases it
    if st.call.holdsClaim then none
    else (st.slot.step st.installs .release).map fun slot => { st with slot }
  | .slot .guard =>
    match st.call with
    -- the call holds the swap mutex
    | .opening _ _ _ => none
    | _ => (st.slot.step st.installs .guard).map fun slot => { st with slot }
  | .slot act => (st.slot.step st.installs act).map fun slot => { st with slot }
  | .place gen body => some (st.place gen (some body))
  | .editAcl hash => some { st with aclFile := hash }
  | .call => st.callStep c

end Slater
