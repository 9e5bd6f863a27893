import Haneul.Authority.VersionManager
import Haneul.Lib.Map

/-!
# Versions of shared objects from effects

Mirror of `SharedObjVerManager::assign_versions_from_effects`, by which a node that does not
follow consensus finds the versions of shared objects, and of the parts of the effects that
it reads: `TransactionEffectsV2::accessed_consensus_objects` and
`compute_unchanged_consensus_objects`.

Executing a transaction is the environment.  `Outcome` is what it may do to the objects, and
`execute` are the effects that record it when the shared inputs are read at the versions
that were assigned to them.
-/

namespace Haneul.Authority

open List

variable {keys : List ConsensusObjectSequenceKey} {key : ConsensusObjectSequenceKey}

open Haneul.Map

/-! ### Effects -/

/-- The input state of a changed object: that it exists at a version, with an owner who has
    it sequenced by consensus or not. -/
inductive ObjectIn where
  | notExist
  | exist (version : SequenceNumber) (isConsensus : Bool)
deriving DecidableEq, Repr

inductive UnchangedConsensusKind where
  | readOnlyRoot (version : SequenceNumber)
  | mutateConsensusStreamEnded (version : SequenceNumber)
  | readConsensusStreamEnded (version : SequenceNumber)
  | cancelled (version : SequenceNumber)
  | perEpochConfig
deriving DecidableEq, Repr

structure TransactionEffects where
  changedObjects : List (ObjectID × ObjectIn)
  unchangedConsensusObjects : List (ObjectID × UnchangedConsensusKind)
deriving DecidableEq, Repr

inductive InputConsensusObject where
  | mutate (id : ObjectID) (version : SequenceNumber)
  | readOnly (id : ObjectID) (version : SequenceNumber)
  | readConsensusStreamEnded (id : ObjectID) (version : SequenceNumber)
  | mutateConsensusStreamEnded (id : ObjectID) (version : SequenceNumber)
  | cancelled (id : ObjectID) (version : SequenceNumber)
deriving DecidableEq, Repr

def InputConsensusObject.idAndVersion : InputConsensusObject → ObjectID × SequenceNumber
  | .mutate id version => (id, version)
  | .readOnly id version => (id, version)
  | .readConsensusStreamEnded id version => (id, version)
  | .mutateConsensusStreamEnded id version => (id, version)
  | .cancelled id version => (id, version)

def accessedByChange (change : ObjectID × ObjectIn) : Option InputConsensusObject :=
  match change.2 with
  | .exist version true => some (.mutate change.1 version)
  | _ => none

def accessedUnchanged (entry : ObjectID × UnchangedConsensusKind) : Option InputConsensusObject :=
  match entry.2 with
  | .readOnlyRoot version => some (.readOnly entry.1 version)
  | .mutateConsensusStreamEnded version => some (.mutateConsensusStreamEnded entry.1 version)
  | .readConsensusStreamEnded version => some (.readConsensusStreamEnded entry.1 version)
  | .cancelled version => some (.cancelled entry.1 version)
  -- the configuration of the epoch needs no sequencing
  | .perEpochConfig => none

def TransactionEffects.accessedConsensusObjects (effects : TransactionEffects) :
    List InputConsensusObject :=
  effects.changedObjects.filterMap accessedByChange ++
    effects.unchangedConsensusObjects.filterMap accessedUnchanged

inductive SharedInput where
  | existing (id : ObjectID) (version : SequenceNumber)
  | consensusStreamEnded (id : ObjectID) (version : SequenceNumber)
      (mutability : SharedObjectMutability)
  | cancelled (id : ObjectID) (version : SequenceNumber)
deriving DecidableEq, Repr

def unchangedSharedInput (changedObjects : List (ObjectID × ObjectIn)) :
    SharedInput → Option (ObjectID × UnchangedConsensusKind)
  | .existing id version =>
    if changedObjects.any fun change => change.1 = id then none
    else some (id, .readOnlyRoot version)
  | .consensusStreamEnded id version mutability =>
    match mutability with
    | .mutable => some (id, .mutateConsensusStreamEnded version)
    | .immutable => some (id, .readConsensusStreamEnded version)
    | .nonExclusiveWrite => some (id, .mutateConsensusStreamEnded version)
  | .cancelled id version => some (id, .cancelled version)

def computeUnchangedConsensusObjects (sharedObjects : List SharedInput)
    (loadedPerEpochConfigObjects : List ObjectID) (changedObjects : List (ObjectID × ObjectIn))
    (loadedSystemObjects : List (ObjectID × SequenceNumber)) :
    List (ObjectID × UnchangedConsensusKind) :=
  let unchanged := sharedObjects.filterMap (unchangedSharedInput changedObjects) ++
    loadedPerEpochConfigObjects.map fun id => (id, .perEpochConfig)
  let alreadyRecorded := changedObjects.map Prod.fst ++ unchanged.map Prod.fst
  unchanged ++ (loadedSystemObjects.filter fun entry => entry.1 ∉ alreadyRecorded).map
    fun entry => (entry.1, .readOnlyRoot entry.2)

/-! ### Assignment from effects -/

/-- `accessed_versions`: the versions of the accessed objects, by identifier. -/
def accessedVersions (effects : TransactionEffects) : ObjectID → Option SequenceNumber :=
  collect (effects.accessedConsensusObjects.map InputConsensusObject.idAndVersion)

/-- `cert_assigned_versions`.  The map of the accessed versions is iterated in the order of
    the identifiers. -/
def certAssignedVersions (cert : Transaction) (effects : TransactionEffects) :
    List (ConsensusObjectSequenceKey × SequenceNumber) :=
  let initialVersionMap := collect (cert.sharedInputObjects.map SharedInputObject.idAndVersion)
  let ids := ((effects.accessedConsensusObjects.map fun obj => obj.idAndVersion.1).dedup).insertionSort
    (· ≤ ·)
  ids.filterMap fun id =>
    (accessedVersions effects id).bind fun version =>
      (initialVersionMap id).map fun initialVersion => ((id, initialVersion), version)

/-- The system objects that the effects record, unless as inputs of a cancelled transaction. -/
def systemVersionsFromEffects (systemObjects : List ConsensusObjectSequenceKey)
    (effects : TransactionEffects) : SystemObjectVersions :=
  collect (systemObjects.filterMap fun key =>
    (accessedVersions effects key.1).bind fun version =>
      if version.isCancelled then none
      else some (key.1, ConsensusObjectVersion.mk key.2 version))

def versionsFromEffects (cfg : EpochStartConfig) (cert : Transaction)
    (effects : TransactionEffects) (accumulatorVersion : Option SequenceNumber) :
    Except VersionFault (TransactionKey × AssignedVersions) := do
  let systemObjects ← implicitlyReadSystemObjects cfg
  let systemObjectVersions := systemVersionsFromEffects systemObjects effects
  match accumulatorVersion with
  | some version =>
    let initialSharedVersion ← expectVersion cfg.accumulatorRootObjInitialSharedVersion
    .ok (.digest cert.digest, ⟨certAssignedVersions cert effects,
      Function.update systemObjectVersions accumulatorRootObjectId
        (some ⟨initialSharedVersion, version⟩)⟩)
  | none => .ok (.digest cert.digest, ⟨certAssignedVersions cert effects, systemObjectVersions⟩)

def assignVersionsFromEffects (cfg : EpochStartConfig)
    (certsAndEffects : List (Transaction × TransactionEffects × Option SequenceNumber)) :
    Except VersionFault (List (TransactionKey × AssignedVersions)) :=
  certsAndEffects.mapM fun entry => versionsFromEffects cfg entry.1 entry.2.1 entry.2.2

/-! ### Execution -/

structure Outcome (cert : Transaction) where
  /-- The object has left consensus when it is read. -/
  streamEnded : ObjectID → Bool
  /-- The object is a shared input that exists and is changed. -/
  modified : ObjectID → Bool
  /-- The other objects that are changed. -/
  otherChanges : List (ObjectID × ObjectIn)
  loadedPerEpochConfigObjects : List ObjectID
  /-- The system objects that are read without being declared. -/
  loadedSystemObjects : List ObjectID
  /-- A transaction changes no consensus object that it does not declare. -/
  undeclared : ∀ change ∈ otherChanges,
    change.1 ∉ cert.sharedInputObjects.map SharedInputObject.id ∧ accessedByChange change = none

/-- A shared input as `read_objects_for_execution` finds it at the assigned version. -/
def readSharedInput (streamEnded : ObjectID → Bool)
    (assigned : List (ConsensusObjectSequenceKey × SequenceNumber)) (obj : SharedInputObject) :
    SharedInput :=
  let version := (collect assigned obj.idAndVersion).getD 0
  if version.isCancelled then .cancelled obj.id version
  else if streamEnded obj.id then .consensusStreamEnded obj.id version obj.mutability
  else .existing obj.id version

def changedSharedInput (modified : ObjectID → Bool) : SharedInput → Option (ObjectID × ObjectIn)
  | .existing id version => if modified id then some (id, .exist version true) else none
  | _ => none

def execute (cert : Transaction) (assigned : AssignedVersions) (outcome : Outcome cert) :
    TransactionEffects :=
  let sharedObjects := cert.sharedInputObjects.map
    (readSharedInput outcome.streamEnded assigned.sharedObjectVersions)
  let changedObjects := sharedObjects.filterMap (changedSharedInput outcome.modified) ++
    outcome.otherChanges
  let loadedSystemObjects := outcome.loadedSystemObjects.filterMap fun id =>
    (assigned.systemObjectVersions id).map fun v => (id, v.version)
  ⟨changedObjects, computeUnchangedConsensusObjects sharedObjects
    outcome.loadedPerEpochConfigObjects changedObjects loadedSystemObjects⟩

/-! ### What the effects record -/

def SharedInput.idAndVersion : SharedInput → ObjectID × SequenceNumber
  | .existing id version => (id, version)
  | .consensusStreamEnded id version _ => (id, version)
  | .cancelled id version => (id, version)

theorem accessed_of_unchangedSharedInput {changedObjects : List (ObjectID × ObjectIn)}
    {input : SharedInput} {entry : ObjectID × UnchangedConsensusKind}
    (h : unchangedSharedInput changedObjects input = some entry) :
    (accessedUnchanged entry).map InputConsensusObject.idAndVersion = some input.idAndVersion := by
  cases input with
  | existing id version =>
    rw [unchangedSharedInput] at h
    split_ifs at h
    cases h
    rfl
  | consensusStreamEnded id version mutability => cases mutability <;> (cases h; rfl)
  | cancelled id version =>
    cases h
    rfl

theorem accessed_of_changedSharedInput {modified : ObjectID → Bool} {input : SharedInput}
    {change : ObjectID × ObjectIn} (h : changedSharedInput modified input = some change) :
    change.1 = input.idAndVersion.1 ∧
      (accessedByChange change).map InputConsensusObject.idAndVersion = some input.idAndVersion := by
  cases input with
  | existing id version =>
    rw [changedSharedInput] at h
    split_ifs at h
    cases h
    exact ⟨rfl, rfl⟩
  | consensusStreamEnded id version mutability => cases h
  | cancelled id version => cases h

theorem mem_accessed_iff {effects : TransactionEffects} {pair : ObjectID × SequenceNumber} :
    pair ∈ effects.accessedConsensusObjects.map InputConsensusObject.idAndVersion ↔
      (∃ change ∈ effects.changedObjects,
        (accessedByChange change).map InputConsensusObject.idAndVersion = some pair) ∨
      ∃ entry ∈ effects.unchangedConsensusObjects,
        (accessedUnchanged entry).map InputConsensusObject.idAndVersion = some pair := by
  simp only [TransactionEffects.accessedConsensusObjects, map_append, mem_append,
    map_filterMap, mem_filterMap]

section Unchanged

variable {sharedObjects : List SharedInput} {config : List ObjectID}
  {changed : List (ObjectID × ObjectIn)} {loaded : List (ObjectID × SequenceNumber)}
  {entry : ObjectID × UnchangedConsensusKind}

theorem mem_unchanged_of_input {input : SharedInput} (hinput : input ∈ sharedObjects)
    (hentry : unchangedSharedInput changed input = some entry) :
    entry ∈ computeUnchangedConsensusObjects sharedObjects config changed loaded :=
  mem_append_left _ (mem_append_left _ (mem_filterMap.mpr ⟨input, hinput, hentry⟩))

/-- An unchanged object is a shared input, the configuration of the epoch, or a system object
    that is recorded as nothing else. -/
theorem mem_unchanged_cases
    (h : entry ∈ computeUnchangedConsensusObjects sharedObjects config changed loaded) :
    (∃ input ∈ sharedObjects, unchangedSharedInput changed input = some entry) ∨
      accessedUnchanged entry = none ∨
      ∃ pair ∈ loaded, entry = (pair.1, .readOnlyRoot pair.2) ∧
        (∀ change ∈ changed, change.1 ≠ pair.1) ∧
        ∀ input ∈ sharedObjects, ∀ other, unchangedSharedInput changed input = some other →
          other.1 ≠ pair.1 := by
  rcases mem_append.mp h with h | h
  · rcases mem_append.mp h with h | h
    · exact .inl (mem_filterMap.mp h)
    · obtain ⟨id, _, rfl⟩ := mem_map.mp h
      exact .inr (.inl rfl)
  · obtain ⟨pair, hpair, rfl⟩ := mem_map.mp h
    obtain ⟨hloaded, hfresh⟩ := mem_filter.mp hpair
    have hfresh := of_decide_eq_true hfresh
    refine .inr (.inr ⟨pair, hloaded, rfl, fun change hchange heq => hfresh ?_,
      fun input hinput other hother heq => hfresh ?_⟩)
    · exact mem_append_left _ (mem_map.mpr ⟨change, hchange, heq⟩)
    · refine mem_append_right _ (mem_map.mpr ⟨other, ?_, heq⟩)
      exact mem_append_left _ (mem_filterMap.mpr ⟨input, hinput, hother⟩)

end Unchanged

/-- The versions that are assigned depend on the object alone. -/
def AssignedBy (objs : List SharedInputObject) (assigned : AssignedVersions)
    (f : ConsensusObjectSequenceKey → SequenceNumber) : Prop :=
  assigned.sharedObjectVersions = objs.map fun obj => (obj.idAndVersion, f obj.idAndVersion)

/-- What the checks of the inputs of a transaction ensure: an object is not declared with
    two initial versions. -/
def InputsChecked (objs : List SharedInputObject) : Prop :=
  ∀ obj ∈ objs, ∀ obj' ∈ objs, obj.id = obj'.id → obj.idAndVersion = obj'.idAndVersion

section Execute

variable {cfg : EpochStartConfig} {cert : Transaction} {assigned : AssignedVersions}
  {f : ConsensusObjectSequenceKey → SequenceNumber} (outcome : Outcome cert)
  {obj : SharedInputObject}

theorem readSharedInput_idAndVersion (streamEnded : ObjectID → Bool) {objs : List SharedInputObject}
    (hassigned : AssignedBy objs assigned f) (hobj : obj ∈ objs) :
    (readSharedInput streamEnded assigned.sharedObjectVersions obj).idAndVersion
      = (obj.id, f obj.idAndVersion) := by
  have hget : collect assigned.sharedObjectVersions obj.idAndVersion = some (f obj.idAndVersion) := by
    rw [hassigned]
    refine collect_eq_some (mem_map.mpr ⟨obj, hobj, rfl⟩) fun w hw => ?_
    obtain ⟨obj', _, heq⟩ := mem_map.mp hw
    rw [← (Prod.mk.inj heq).2, (Prod.mk.inj heq).1]
  rw [readSharedInput, hget, Option.getD_some]
  split_ifs <;> rfl

theorem recorded_of_input (changed : List (ObjectID × ObjectIn)) (input : SharedInput) :
    (∃ change ∈ changed, change.1 = input.idAndVersion.1) ∨
      ∃ entry, unchangedSharedInput changed input = some entry ∧
        entry.1 = input.idAndVersion.1 := by
  cases input with
  | existing id version =>
    by_cases hchanged : changed.any fun change => change.1 = id
    · obtain ⟨change, hchange, heq⟩ := any_eq_true.mp hchanged
      exact .inl ⟨change, hchange, of_decide_eq_true heq⟩
    · exact .inr ⟨(id, .readOnlyRoot version), by rw [unchangedSharedInput, if_neg hchanged], rfl⟩
  | consensusStreamEnded id version mutability =>
    cases mutability <;> exact .inr ⟨_, rfl, rfl⟩
  | cancelled id version => exact .inr ⟨_, rfl, rfl⟩

section

variable (hassigned : AssignedBy cert.sharedInputObjects assigned f)
include hassigned

/-- What the effects record as accessed: the shared inputs at their assigned versions, and
    system objects that are no shared inputs. -/
theorem accessed_cases {pair : ObjectID × SequenceNumber}
    (h : pair ∈ (execute cert assigned outcome).accessedConsensusObjects.map
      InputConsensusObject.idAndVersion) :
    (∃ obj ∈ cert.sharedInputObjects, pair = (obj.id, f obj.idAndVersion)) ∨
      (∀ obj ∈ cert.sharedInputObjects, obj.id ≠ pair.1) ∧
        ∃ v, assigned.systemObjectVersions pair.1 = some v ∧ pair.2 = v.version := by
  have hread : ∀ obj ∈ cert.sharedInputObjects, ∀ p,
      (readSharedInput outcome.streamEnded assigned.sharedObjectVersions obj).idAndVersion = p →
      p = (obj.id, f obj.idAndVersion) := fun obj hobj p hp =>
    hp.symm.trans (readSharedInput_idAndVersion outcome.streamEnded hassigned hobj)
  rcases mem_accessed_iff.mp h with ⟨change, hchange, haccessed⟩ | ⟨entry, hentry, haccessed⟩
  · rcases mem_append.mp hchange with hchange | hchange
    · obtain ⟨input, hinput, hchanged⟩ := mem_filterMap.mp hchange
      obtain ⟨obj, hobj, rfl⟩ := mem_map.mp hinput
      rw [(accessed_of_changedSharedInput hchanged).2, Option.some.injEq] at haccessed
      exact .inl ⟨obj, hobj, hread obj hobj pair haccessed⟩
    · rw [(outcome.undeclared change hchange).2] at haccessed
      cases haccessed
  · rcases mem_unchanged_cases hentry with ⟨input, hinput, hunchanged⟩ | hnone | hsystem
    · obtain ⟨obj, hobj, rfl⟩ := mem_map.mp hinput
      rw [accessed_of_unchangedSharedInput hunchanged, Option.some.injEq] at haccessed
      exact .inl ⟨obj, hobj, hread obj hobj pair haccessed⟩
    · rw [hnone] at haccessed
      cases haccessed
    · obtain ⟨loaded, hloaded, rfl, hchanges, hinputs⟩ := hsystem
      cases haccessed
      obtain ⟨id, _, hid⟩ := mem_filterMap.mp hloaded
      obtain ⟨v, hv, rfl⟩ := Option.map_eq_some_iff.mp hid
      refine .inr ⟨fun obj hobj heq => ?_, v, hv, rfl⟩
      -- a shared input would be recorded already
      have hinput := mem_map_of_mem (f := readSharedInput outcome.streamEnded
        assigned.sharedObjectVersions) hobj
      have hid := readSharedInput_idAndVersion outcome.streamEnded hassigned hobj
      rcases recorded_of_input _ (readSharedInput outcome.streamEnded
          assigned.sharedObjectVersions obj) with ⟨change, hchange, hsame⟩ | ⟨entry, hentry, hsame⟩
      · exact hchanges change hchange (by rw [hsame, hid]; exact heq)
      · exact hinputs _ hinput entry hentry (by rw [hsame, hid]; exact heq)

section

variable (hchecked : InputsChecked cert.sharedInputObjects) (hobj : obj ∈ cert.sharedInputObjects)
include hchecked hobj

theorem accessed_of_input :
    (obj.id, f obj.idAndVersion) ∈ (execute cert assigned outcome).accessedConsensusObjects.map
      InputConsensusObject.idAndVersion := by
  have hid := readSharedInput_idAndVersion outcome.streamEnded hassigned hobj
  have hinput : readSharedInput outcome.streamEnded assigned.sharedObjectVersions obj ∈
      cert.sharedInputObjects.map (readSharedInput outcome.streamEnded
        assigned.sharedObjectVersions) := mem_map_of_mem hobj
  refine mem_accessed_iff.mpr ?_
  rcases recorded_of_input (execute cert assigned outcome).changedObjects
      (readSharedInput outcome.streamEnded assigned.sharedObjectVersions obj) with
    ⟨change, hchange, hsame⟩ | ⟨entry, hentry, _⟩
  · rw [hid] at hsame
    refine .inl ⟨change, hchange, ?_⟩
    rcases mem_append.mp hchange with hchange | hchange
    · -- the change of a shared input with this identifier, which is this object
      obtain ⟨input', hinput', hchanged⟩ := mem_filterMap.mp hchange
      obtain ⟨obj', hobj', rfl⟩ := mem_map.mp hinput'
      obtain ⟨hfirst, haccessed⟩ := accessed_of_changedSharedInput hchanged
      rw [readSharedInput_idAndVersion outcome.streamEnded hassigned hobj'] at hfirst haccessed
      have hid' : obj'.id = obj.id := hfirst.symm.trans hsame
      rw [haccessed, hid', hchecked obj' hobj' obj hobj hid']
    · exact absurd (mem_map.mpr ⟨obj, hobj, hsame.symm⟩) (outcome.undeclared change hchange).1
  · exact .inr ⟨entry, mem_unchanged_of_input hinput hentry,
      (accessed_of_unchangedSharedInput hentry).trans (congrArg some hid)⟩

theorem accessedVersions_of_input :
    accessedVersions (execute cert assigned outcome) obj.id = some (f obj.idAndVersion) := by
  refine collect_eq_some (accessed_of_input outcome hassigned hchecked hobj) fun w hw => ?_
  rcases accessed_cases outcome hassigned hw with ⟨obj', hobj', heq⟩ | ⟨hnone, _⟩
  · obtain ⟨hid, hw⟩ := Prod.mk.inj heq
    rw [hw, hchecked obj hobj obj' hobj' hid]
  · exact absurd rfl (hnone obj hobj)

end

end

theorem initialVersion_of_input (hchecked : InputsChecked cert.sharedInputObjects)
    (hobj : obj ∈ cert.sharedInputObjects) :
    collect (cert.sharedInputObjects.map SharedInputObject.idAndVersion) obj.id
      = some obj.initialSharedVersion := by
  refine collect_eq_some (mem_map.mpr ⟨obj, hobj, rfl⟩) fun w hw => ?_
  obtain ⟨obj', hobj', heq⟩ := mem_map.mp hw
  obtain ⟨hid, hw⟩ := Prod.mk.inj heq
  rw [← hw]
  exact (Prod.mk.inj (hchecked obj' hobj' obj hobj hid)).2

theorem mem_certAssignedVersions (hassigned : AssignedBy cert.sharedInputObjects assigned f)
    (hchecked : InputsChecked cert.sharedInputObjects)
    {entry : ConsensusObjectSequenceKey × SequenceNumber} :
    entry ∈ certAssignedVersions cert (execute cert assigned outcome) ↔
      entry ∈ assigned.sharedObjectVersions := by
  rw [hassigned, certAssignedVersions, mem_filterMap]
  constructor
  · rintro ⟨id, _, hentry⟩
    obtain ⟨version, hversion, hentry⟩ := Option.bind_eq_some_iff.mp hentry
    obtain ⟨initial, hinitial, rfl⟩ := Option.map_eq_some_iff.mp hentry
    obtain ⟨obj, hobj, heq⟩ := mem_map.mp (mem_of_collect_eq_some hinitial)
    obtain ⟨rfl, rfl⟩ := Prod.mk.inj heq
    rw [accessedVersions_of_input outcome hassigned hchecked hobj, Option.some.injEq] at hversion
    exact mem_map.mpr ⟨obj, hobj, by rw [hversion]; rfl⟩
  · intro hentry
    obtain ⟨obj, hobj, rfl⟩ := mem_map.mp hentry
    refine ⟨obj.id, ?_, ?_⟩
    · rw [mem_insertionSort, mem_dedup]
      obtain ⟨accessed, haccessed, heq⟩ :=
        mem_map.mp (accessed_of_input outcome hassigned hchecked hobj)
      exact mem_map.mpr ⟨accessed, haccessed, by rw [heq]⟩
    · rw [accessedVersions_of_input outcome hassigned hchecked hobj,
        initialVersion_of_input hchecked hobj]
      rfl

end Execute

/-! ### System objects -/

variable {cfg : EpochStartConfig}
  {cancelledTxns : TransactionDigest → Option CancelConsensusCertificateReason}

theorem accumulatorRootKeys_eq (h : accumulatorRootKeys cfg = .ok keys) (hkey : key ∈ keys) :
    key.1 = accumulatorRootObjectId ∧ cfg.accumulatorRootObjInitialSharedVersion = some key.2 := by
  rw [accumulatorRootKeys] at h
  split_ifs at h
  · obtain ⟨version, hversion, h⟩ := bind_eq_ok.mp h
    cases h
    rw [mem_singleton.mp hkey]
    unfold expectVersion at hversion
    split at hversion <;> cases hversion
    exact ⟨rfl, ‹_›⟩
  · cases h
    cases hkey

theorem forwardingAddressRegistryKeys_eq (hkey : key ∈ forwardingAddressRegistryKeys cfg) :
    key.1 = forwardingAddressRegistryObjectId ∧
      cfg.forwardingAddressRegistryObjInitialSharedVersion = some key.2 := by
  rw [forwardingAddressRegistryKeys] at hkey
  split_ifs at hkey
  · split at hkey
    · rw [mem_singleton.mp hkey]
      exact ⟨rfl, ‹_›⟩
    · cases hkey
  · cases hkey

theorem implicitlyReadSystemObjects_inj
    (h : implicitlyReadSystemObjects cfg = .ok keys) {key key' : ConsensusObjectSequenceKey}
    (hkey : key ∈ keys) (hkey' : key' ∈ keys) (hid : key.1 = key'.1) : key = key' := by
  obtain ⟨root, hroot, h⟩ := bind_eq_ok.mp h
  cases h
  have hne : accumulatorRootObjectId ≠ forwardingAddressRegistryObjectId := by decide
  have hversion : ∀ {version : Option SequenceNumber}, version = some key.2 →
      version = some key'.2 → key = key' := by
    intro version h₁ h₂
    rw [h₁, Option.some.injEq] at h₂
    exact Prod.ext hid h₂
  rcases mem_append.mp hkey with hkey | hkey <;>
    rcases mem_append.mp hkey' with hkey' | hkey'
  · exact hversion (accumulatorRootKeys_eq hroot hkey).2 (accumulatorRootKeys_eq hroot hkey').2
  · rw [(accumulatorRootKeys_eq hroot hkey).1, (forwardingAddressRegistryKeys_eq hkey').1] at hid
    exact absurd hid hne
  · rw [(accumulatorRootKeys_eq hroot hkey').1, (forwardingAddressRegistryKeys_eq hkey).1] at hid
    exact absurd hid.symm hne
  · exact hversion (forwardingAddressRegistryKeys_eq hkey).2
      (forwardingAddressRegistryKeys_eq hkey').2

def systemEntry (next : NextVersions) (key : ConsensusObjectSequenceKey) :
    ObjectID × ConsensusObjectVersion :=
  (key.1, ⟨key.2, (next key).getD 0⟩)

variable {next : NextVersions}

theorem readSystemObjects_eq {versions versions' : SystemObjectVersions}
    (h : keys.foldlM (readSystemObject next) versions = .ok versions') :
    Covers next keys ∧ versions' = (keys.map (systemEntry next)).foldl
      (fun (m : ObjectID → Option ConsensusObjectVersion) entry =>
        Function.update m entry.1 (some entry.2)) versions := by
  induction keys generalizing versions with
  | nil =>
    cases h
    exact ⟨fun key hkey => (by cases hkey), rfl⟩
  | cons key keys ih =>
    obtain ⟨versions₁, hfirst, hrest⟩ := foldlM_cons_eq_ok.mp h
    obtain ⟨version, hversion, hfirst⟩ := bind_eq_ok.mp hfirst
    rw [lookupNextVersion_eq_ok] at hversion
    cases hfirst
    obtain ⟨hcovers, heq⟩ := ih hrest
    refine ⟨forall_mem_cons.mpr ⟨⟨version, hversion⟩, hcovers⟩, ?_⟩
    rw [heq, map_cons, foldl_cons, systemEntry, hversion]
    rfl

variable {versions : SystemObjectVersions}

theorem SystemVersionsOf.of_key (h : SystemVersionsOf cfg next versions)
    (hkeys : implicitlyReadSystemObjects cfg = .ok keys)
    (hkey : key ∈ keys) : versions key.1 = some ⟨key.2, (next key).getD 0⟩ := by
  obtain ⟨keys', hkeys', hread⟩ := h
  cases hkeys.symm.trans hkeys'
  obtain ⟨_, rfl⟩ := readSystemObjects_eq hread
  refine collect_eq_some (mem_map.mpr ⟨key, hkey, rfl⟩) fun w hw => ?_
  obtain ⟨key', hkey', heq⟩ := mem_map.mp hw
  obtain ⟨hid, hw⟩ := Prod.mk.inj heq
  rw [← hw, implicitlyReadSystemObjects_inj hkeys hkey' hkey hid]

theorem SystemVersionsOf.exists_key (h : SystemVersionsOf cfg next versions) {id : ObjectID}
    {v : ConsensusObjectVersion} (hv : versions id = some v) :
    ∃ keys, implicitlyReadSystemObjects cfg = .ok keys ∧ (id, v.initialSharedVersion) ∈ keys := by
  obtain ⟨keys, hkeys, hread⟩ := h
  obtain ⟨_, rfl⟩ := readSystemObjects_eq hread
  obtain ⟨key, hkey, heq⟩ := mem_map.mp (mem_of_collect_eq_some hv)
  obtain ⟨rfl, rfl⟩ := Prod.mk.inj heq
  exact ⟨keys, hkeys, hkey⟩

/-- The declared inputs of a transaction that are system objects carry the initial version
    that the epoch knows. -/
def SystemInputsChecked (cfg : EpochStartConfig) (objs : List SharedInputObject) : Prop :=
  ∀ keys, implicitlyReadSystemObjects cfg = .ok keys →
    ∀ key ∈ keys, ∀ obj ∈ objs, obj.id = key.1 → obj.idAndVersion = key

theorem isCancelled_cancellationVersion (reason : CancelConsensusCertificateReason)
    (id : ObjectID) : (cancellationVersion reason id).isCancelled = true := by
  cases reason <;>
  · rw [cancellationVersion]
    split_ifs <;> rfl

section Rederive

variable {a : Schedulable} {next next' : NextVersions} {assigned : AssignedVersions}
  {cert : Transaction}

section

variable (h : Assigns cfg cancelledTxns a next cert.sharedInputObjects assigned next')
include h

/-- The versions that a schedulable gets depend on the object alone; those of a cancelled
    transaction are special. -/
theorem Assigns.assignedBy :
    ∃ f, AssignedBy cert.sharedInputObjects assigned f ∧
      ∀ key, (f key).isCancelled = true ∨ f key = (next key).getD 0 := by
  cases hreason : a.key.asDigest.bind cancelledTxns with
  | some reason =>
    exact ⟨fun key => cancellationVersion reason key.1, h.cancelled reason hreason,
      fun key => .inl (isCancelled_cancellationVersion reason key.1)⟩
  | none =>
    have hnot : ¬ Cancelled cancelledTxns a := by rw [Cancelled, hreason]; simp
    exact ⟨fun key => (next key).getD 0, (h.shared hnot).2, fun key => .inr rfl⟩

theorem systemVersionsFromEffects_eq_some
    (hsystemChecked : SystemInputsChecked cfg cert.sharedInputObjects)
    {keys : List ConsensusObjectSequenceKey} (hkeys : implicitlyReadSystemObjects cfg = .ok keys)
    (outcome : Outcome cert) {id : ObjectID} {v : ConsensusObjectVersion}
    (hv : systemVersionsFromEffects keys (execute cert assigned outcome) id = some v) :
    assigned.systemObjectVersions id = some v := by
  obtain ⟨f, hassigned, hf⟩ := h.assignedBy
  obtain ⟨key, hkey, hentry⟩ := mem_filterMap.mp (mem_of_collect_eq_some hv)
  obtain ⟨version, hversion, hentry⟩ := Option.bind_eq_some_iff.mp hentry
  split_ifs at hentry with hcancelled
  cases hentry
  have hread := h.system.of_key hkeys hkey
  rcases accessed_cases outcome hassigned (mem_of_collect_eq_some hversion) with
    ⟨obj, hobj, heq⟩ | ⟨_, w, hw, heq⟩
  · -- a declared input, which is the system object
    obtain ⟨hid, rfl⟩ := Prod.mk.inj heq
    have hobjKey := hsystemChecked keys hkeys key hkey obj hobj hid.symm
    rw [hobjKey] at hcancelled ⊢
    rcases hf key with hspecial | hnext
    · exact absurd hspecial hcancelled
    · rw [hread, hnext]
  · rw [hread] at hw
    cases hw
    rw [hread]
    exact congrArg (fun version => some (ConsensusObjectVersion.mk key.2 version)) heq.symm

end

/-- The same versions of the shared inputs, and no other version of a system object. -/
structure SameVersions (rederived assigned : AssignedVersions) : Prop where
  shared : ∀ entry, entry ∈ rederived.sharedObjectVersions ↔ entry ∈ assigned.sharedObjectVersions
  system : ∀ id v, rederived.systemObjectVersions id = some v →
    assigned.systemObjectVersions id = some v

/-- Executing a transaction at the versions assigned to it and assigning versions from the
    effects gives the assigned versions again. -/
theorem Assigns.rederive
    (h : Assigns cfg cancelledTxns a next cert.sharedInputObjects assigned next')
    (hchecked : InputsChecked cert.sharedInputObjects)
    (hsystemChecked : SystemInputsChecked cfg cert.sharedInputObjects) (outcome : Outcome cert)
    {accumulatorVersion : Option SequenceNumber}
    (haccumulator : accumulatorVersion = none ∨ accumulatorVersion =
      (assigned.systemObjectVersions accumulatorRootObjectId).map ConsensusObjectVersion.version) :
    ∃ rederived, versionsFromEffects cfg cert (execute cert assigned outcome) accumulatorVersion
        = .ok (.digest cert.digest, rederived) ∧ SameVersions rederived assigned := by
  obtain ⟨f, hassigned, _⟩ := h.assignedBy
  obtain ⟨keys, hkeys, _⟩ := h.system
  cases haccumulatorVersion : accumulatorVersion with
  | none =>
    exact ⟨_, by rw [versionsFromEffects, hkeys]; rfl,
      fun _ => mem_certAssignedVersions outcome hassigned hchecked,
      fun _ _ hv => systemVersionsFromEffects_eq_some h hsystemChecked hkeys outcome hv⟩
  | some version =>
    rw [haccumulatorVersion] at haccumulator
    obtain ⟨w, hw, rfl⟩ := Option.map_eq_some_iff.mp (haccumulator.resolve_left (by simp)).symm
    have hroot : cfg.accumulatorRootObjInitialSharedVersion = some w.initialSharedVersion := by
      obtain ⟨keys', hkeys', hkey⟩ := h.system.exists_key hw
      obtain ⟨root, hrootKeys, heq⟩ := bind_eq_ok.mp hkeys'
      cases heq
      rcases mem_append.mp hkey with hkey | hkey
      · exact (accumulatorRootKeys_eq hrootKeys hkey).2
      · have hid : accumulatorRootObjectId = forwardingAddressRegistryObjectId :=
          (forwardingAddressRegistryKeys_eq hkey).1
        exact absurd hid (by decide)
    have hresult : versionsFromEffects cfg cert (execute cert assigned outcome) (some w.version)
        = .ok (.digest cert.digest, ⟨certAssignedVersions cert (execute cert assigned outcome),
          Function.update (systemVersionsFromEffects keys (execute cert assigned outcome))
            accumulatorRootObjectId (some ⟨w.initialSharedVersion, w.version⟩)⟩) := by
      rw [versionsFromEffects, hkeys]
      simp only [bind, Except.bind, hroot, expectVersion]
    refine ⟨_, hresult, fun _ => mem_certAssignedVersions outcome hassigned hchecked,
      fun id v hv => ?_⟩
    dsimp only at hv
    by_cases hid : id = accumulatorRootObjectId
    · rw [hid, Function.update_self, Option.some.injEq] at hv
      rw [hid, hw, ← hv]
    · rw [Function.update_of_ne hid] at hv
      exact systemVersionsFromEffects_eq_some h hsystemChecked hkeys outcome hv

end Rederive

/-! ### The schedule of a commit -/

/-- How the schedulables of a commit are executed: the transaction that each stands for, what
    its execution does, and the accumulator version that the checkpoint executor passes on. -/
structure Execution (cfg : EpochStartConfig) (assignables : List Schedulable) where
  cert : Schedulable → Transaction
  outcome : ∀ a, Outcome (cert a)
  accumulatorVersion : Schedulable → AssignedVersions → Option SequenceNumber
  inputs : ∀ a ∈ assignables, a.sharedInputObjects cfg = .ok (cert a).sharedInputObjects
  checked : ∀ a ∈ assignables, InputsChecked (cert a).sharedInputObjects
  systemChecked : ∀ a ∈ assignables, SystemInputsChecked cfg (cert a).sharedInputObjects
  accumulator : ∀ a assigned, accumulatorVersion a assigned = none ∨
    accumulatorVersion a assigned = (assigned.systemObjectVersions accumulatorRootObjectId).map
      ConsensusObjectVersion.version

def Execution.effects {assignables : List Schedulable} (e : Execution cfg assignables)
    (history : History) : List (Transaction × TransactionEffects × Option SequenceNumber) :=
  history.map fun entry => (e.cert entry.1, execute (e.cert entry.1) entry.2 (e.outcome entry.1),
    e.accumulatorVersion entry.1 entry.2)

variable {next next' : NextVersions}

theorem Runs.rederive {assignables : List Schedulable} (e : Execution cfg assignables)
    {history : History} (h : Runs cfg cancelledTxns next history next')
    (hassignables : ∀ entry ∈ history, entry.1 ∈ assignables) :
    ∃ rederived, assignVersionsFromEffects cfg (e.effects history) = .ok rederived ∧
      List.Forall₂ (fun entry result => result.1 = .digest (e.cert entry.1).digest ∧
        SameVersions result.2 entry.2) history rederived := by
  induction h with
  | nil next => exact ⟨[], rfl, .nil⟩
  | @cons next next₁ next' a assigned rest hfirst _ ih =>
    obtain ⟨hmem, hrestMem⟩ := forall_mem_cons.mp hassignables
    obtain ⟨rederived, hrest, hsame⟩ := ih hrestMem
    obtain ⟨objs, hassigns⟩ := assigns_of_ok hfirst
    cases (e.inputs a hmem).symm.trans hassigns.inputs
    obtain ⟨first, hversions, hfirstSame⟩ := hassigns.rederive (e.checked a hmem)
      (e.systemChecked a hmem) (e.outcome a) (e.accumulator a assigned)
    refine ⟨(.digest (e.cert a).digest, first) :: rederived, ?_, .cons ⟨rfl, hfirstSame⟩ hsame⟩
    rw [assignVersionsFromEffects, Execution.effects, map_cons, mapM_cons]
    exact bind₂_eq_ok.mpr ⟨_, hversions, rederived, hrest, rfl⟩

/-- The assignment at one place of the schedule.  `next` are the next versions there. -/
structure PlaceInSchedule (cfg : EpochStartConfig)
    (cancelledTxns : TransactionDigest → Option CancelConsensusCertificateReason)
    (start : ConsensusObjectSequenceKey → SequenceNumber) (before : History) (a : Schedulable)
    (assigned : AssignedVersions) (next next' : NextVersions) : Prop where
  /-- The shared inputs of the schedulable get versions, in their order. -/
  inputs : ∃ objs, a.sharedInputObjects cfg = .ok objs ∧
    assigned.sharedObjectVersions.map Prod.fst = objs.map SharedInputObject.idAndVersion
  /-- The version of an input is the one produced last before. -/
  lastWritten : ¬ Cancelled cancelledTxns a → ∀ entry ∈ assigned.sharedObjectVersions,
    LastWritten cfg cancelledTxns (start entry.1) before entry.1 entry.2
  /-- What is produced is above all inputs. -/
  above : ∀ v ∈ inputVersions cancelledTxns a assigned, v < producedVersion cancelledTxns a assigned
  /-- The next version of an object strictly increases when it is taken exclusively. -/
  increases : ∀ key, Writes cfg cancelledTxns a key → ∃ version, next key = some version ∧
    next' key = some (producedVersion cancelledTxns a assigned) ∧
    version < producedVersion cancelledTxns a assigned
  /-- It stays otherwise. -/
  keeps : ∀ key, ¬ Writes cfg cancelledTxns a key → next' key = next key
  /-- A cancelled transaction gets special versions only and changes no next version. -/
  special : Cancelled cancelledTxns a →
    (∀ entry ∈ assigned.sharedObjectVersions, entry.2.isCancelled = true) ∧ next' = next

theorem Assigns.place {start : ConsensusObjectSequenceKey → SequenceNumber} {before : History}
    {a : Schedulable} {objs : List SharedInputObject} {assigned : AssignedVersions}
    (h : Assigns cfg cancelledTxns a next objs assigned next')
    (hruns : Runs cfg cancelledTxns (getOrInitNextObjectVersions start keys) before next) :
    PlaceInSchedule cfg cancelledTxns start before a assigned next next' := by
  have hlast : ∀ key version, next key = some version →
      LastWritten cfg cancelledTxns (start key) before key version := by
    intro key version hversion
    obtain ⟨first, hfirst⟩ := hruns.some_of_some hversion
    obtain ⟨version', hversion', hlast⟩ := hruns.lastWritten hfirst
    cases hversion.symm.trans hversion'
    rw [getOrInitNextObjectVersions] at hfirst
    split_ifs at hfirst
    cases hfirst
    exact hlast
  constructor
  · refine ⟨objs, h.inputs, ?_⟩
    cases hreason : a.key.asDigest.bind cancelledTxns with
    | some reason =>
      rw [h.cancelled reason hreason, map_map]
      rfl
    | none =>
      have hnot : ¬ Cancelled cancelledTxns a := by rw [Cancelled, hreason]; simp
      rw [(h.shared hnot).2, readVersions, map_map]
      rfl
  · intro hnot entry hentry
    obtain ⟨hcovers, hshared⟩ := h.shared hnot
    rw [hshared] at hentry
    obtain ⟨obj, hobj, rfl⟩ := mem_map.mp hentry
    obtain ⟨version, hversion⟩ := hcovers _ (mem_map_of_mem hobj)
    rw [hversion]
    exact hlast _ version hversion
  · exact fun v hv => lt_lamportVersion hv
  · intro key hwrites
    obtain ⟨hnot, hkey⟩ := h.writes_iff.mp hwrites
    obtain ⟨obj, hobj, rfl⟩ := mem_map.mp hkey
    obtain ⟨version, hversion⟩ := (h.shared hnot).1 _ (mem_map_of_mem (mem_filter.mp hobj).1)
    exact ⟨version, hversion, h.next_of_writes hwrites, h.lt_of_writes hwrites hversion⟩
  · exact fun key hwrites => h.next_of_not_writes hwrites
  · intro hcancelled
    refine ⟨fun entry hentry => ?_, funext fun key =>
      h.next_of_not_writes fun hwrites => hwrites.1 hcancelled⟩
    obtain ⟨reason, hreason⟩ := Option.isSome_iff_exists.mp hcancelled
    rw [h.cancelled reason hreason] at hentry
    obtain ⟨obj, _, rfl⟩ := mem_map.mp hentry
    exact isCancelled_cancellationVersion reason obj.id

/-- An epoch with accumulators. -/
def sampleEpoch : EpochStartConfig := ⟨true, some 1, some 1, false, none⟩

/-- The prologue, a transaction that takes object 100 exclusively, one that reads it, one that
    takes it exclusively and is cancelled, and the settlement. -/
def sampleSchedule : List Schedulable :=
  [.consensusCommitPrologue 0 7 0,
    .transaction ⟨1, [⟨100, 1, .mutable⟩], [(200, 9)], [], 0, false⟩,
    .transaction ⟨2, [⟨100, 1, .immutable⟩], [(201, 4)], [], 0, false⟩,
    .transaction ⟨3, [⟨100, 1, .mutable⟩], [(202, 30)], [], 0, false⟩,
    .accumulatorSettlement 0 5]

def sampleCancelled (digest : TransactionDigest) : Option CancelConsensusCertificateReason :=
  if digest = 3 then some (.congestionOnObjects [100]) else none

end Haneul.Authority
