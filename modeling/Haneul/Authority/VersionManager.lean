import Haneul.Authority.Transaction
import Haneul.Lib.Loop

/-!
# Versions of shared objects

Mirror of `authority/shared_object_version_manager.rs` as far as versions are assigned from
consensus.  One pass over the schedulables of a commit threads a map from consensus objects
to their next versions; a transaction reads the versions of its shared inputs from the map
and puts the version it will produce in the place of those it takes exclusively.

The map with which a commit starts comes from the epoch store; it is a parameter.  The
assertions and the `expect`s of the source are faults.
-/

namespace Haneul.Authority

open List

variable {next next' : NextVersions} {version : SequenceNumber} {next : NextVersions}
  {objs : List SharedInputObject}

/-! ### The code -/

namespace SequenceNumber

/-- `SequenceNumber::MAX`; the values above it are not versions of objects. -/
def maxVersion : SequenceNumber := 0x7fffffffffffffff

def cancelledRead : SequenceNumber := maxVersion + 1

def congested : SequenceNumber := maxVersion + 2

def randomnessUnavailable : SequenceNumber := maxVersion + 3

def isCancelled (v : SequenceNumber) : Bool :=
  v = cancelledRead || v = congested || v = randomnessUnavailable

def isValid (v : SequenceNumber) : Bool := v < maxVersion

end SequenceNumber

inductive VersionFault where
  | accumulatorsDisabled
  | systemObjectVersionUnset
  | missingNextVersion
  | versionOverflow
  | invalidVersion
deriving DecidableEq, Repr

variable (inputs : List SequenceNumber)

def lamportIncrement : Except VersionFault SequenceNumber :=
  let maxInput := inputs.foldl max 0
  if maxInput = u64Max then .error .versionOverflow else .ok (maxInput + 1)

/-- `ConsensusObjectSequenceKey`: a consensus object and the version at which it entered
    consensus. -/
abbrev ConsensusObjectSequenceKey := ObjectID × SequenceNumber

def SharedInputObject.idAndVersion (obj : SharedInputObject) : ConsensusObjectSequenceKey :=
  (obj.id, obj.initialSharedVersion)

def clockObjectId : ObjectID := 0x6

def clockObjectSharedVersion : SequenceNumber := 1

def accumulatorRootObjectId : ObjectID := 0xacc

def forwardingAddressRegistryObjectId : ObjectID := 0xfa

/-- What the assignment reads of the epoch: its configuration at the start, and the protocol
    switches. -/
structure EpochStartConfig where
  accumulatorsEnabled : Bool
  accumulatorRootObjInitialSharedVersion : Option SequenceNumber
  randomnessObjInitialSharedVersion : Option SequenceNumber
  enableForwardingAddresses : Bool
  forwardingAddressRegistryObjInitialSharedVersion : Option SequenceNumber
deriving DecidableEq, Repr

def expectVersion (version : Option SequenceNumber) : Except VersionFault SequenceNumber :=
  match version with
  | some version => .ok version
  | none => .error .systemObjectVersionUnset

inductive TransactionKey where
  | digest (digest : TransactionDigest)
  | randomnessRound (epoch round : Nat)
  | accumulatorSettlement (epoch checkpointHeight : Nat)
  | consensusCommitPrologue (epoch round subDagIndex : Nat)
deriving DecidableEq, Repr

def TransactionKey.asDigest : TransactionKey → Option TransactionDigest
  | .digest txDigest => some txDigest
  | _ => none

inductive Schedulable where
  | transaction (tx : Transaction)
  | randomnessStateUpdate (epoch round : Nat)
  | accumulatorSettlement (epoch checkpointHeight : Nat)
  | consensusCommitPrologue (epoch round subDagIndex : Nat)
deriving DecidableEq, Repr

namespace Schedulable

def sharedInputObjects (cfg : EpochStartConfig) :
    Schedulable → Except VersionFault (List SharedInputObject)
  | .transaction tx => .ok tx.sharedInputObjects
  | .randomnessStateUpdate _ _ => do
    let version ← expectVersion cfg.randomnessObjInitialSharedVersion
    .ok [⟨randomnessStateObjectId, version, .mutable⟩]
  | .accumulatorSettlement _ _ => do
    let version ← expectVersion cfg.accumulatorRootObjInitialSharedVersion
    .ok [⟨accumulatorRootObjectId, version, .mutable⟩]
  | .consensusCommitPrologue _ _ _ =>
    .ok [⟨clockObjectId, clockObjectSharedVersion, .mutable⟩]

def nonSharedInputObjectKeys : Schedulable → List ObjectKey
  | .transaction tx => tx.nonSharedInputObjectKeys
  | _ => []

def receivingObjectKeys : Schedulable → List ObjectKey
  | .transaction tx => tx.receivingObjectKeys
  | _ => []

def key : Schedulable → TransactionKey
  | .transaction tx => .digest tx.digest
  | .randomnessStateUpdate epoch round => .randomnessRound epoch round
  | .accumulatorSettlement epoch checkpointHeight => .accumulatorSettlement epoch checkpointHeight
  | .consensusCommitPrologue epoch round subDagIndex =>
    .consensusCommitPrologue epoch round subDagIndex

def isAccumulatorSettlement : Schedulable → Bool
  | .accumulatorSettlement _ _ => true
  | _ => false

end Schedulable

structure ConsensusObjectVersion where
  initialSharedVersion : SequenceNumber
  version : SequenceNumber
deriving DecidableEq, Repr

/-- Versions of the system objects that a transaction may read without declaring them. -/
abbrev SystemObjectVersions := ObjectID → Option ConsensusObjectVersion

structure AssignedVersions where
  sharedObjectVersions : List (ConsensusObjectSequenceKey × SequenceNumber)
  systemObjectVersions : SystemObjectVersions

inductive CancelConsensusCertificateReason where
  | congestionOnObjects (congested : List ObjectID)
  | dkgFailed
deriving DecidableEq, Repr

abbrev NextVersions := ConsensusObjectSequenceKey → Option SequenceNumber

def accumulatorRootKeys (cfg : EpochStartConfig) :
    Except VersionFault (List ConsensusObjectSequenceKey) :=
  if cfg.accumulatorsEnabled then do
    let version ← expectVersion cfg.accumulatorRootObjInitialSharedVersion
    .ok [(accumulatorRootObjectId, version)]
  else .ok []

def forwardingAddressRegistryKeys (cfg : EpochStartConfig) : List ConsensusObjectSequenceKey :=
  if cfg.enableForwardingAddresses then
    match cfg.forwardingAddressRegistryObjInitialSharedVersion with
    | some version => [(forwardingAddressRegistryObjectId, version)]
    | none => []
  else []

def implicitlyReadSystemObjects (cfg : EpochStartConfig) :
    Except VersionFault (List ConsensusObjectSequenceKey) := do
  let root ← accumulatorRootKeys cfg
  .ok (root ++ forwardingAddressRegistryKeys cfg)

def lookupNextVersion (next : NextVersions) (key : ConsensusObjectSequenceKey) :
    Except VersionFault SequenceNumber :=
  match next key with
  | some version => .ok version
  | none => .error .missingNextVersion

def readSystemObject (next : NextVersions) (versions : SystemObjectVersions)
    (key : ConsensusObjectSequenceKey) : Except VersionFault SystemObjectVersions := do
  let version ← lookupNextVersion next key
  .ok (Function.update versions key.1 (some ⟨key.2, version⟩))

/-- The special version of a shared input of a cancelled transaction. -/
def cancellationVersion (reason : CancelConsensusCertificateReason) (id : ObjectID) :
    SequenceNumber :=
  match reason with
  | .congestionOnObjects congested =>
    if id ∈ congested then SequenceNumber.congested else SequenceNumber.cancelledRead
  | .dkgFailed =>
    if id = randomnessStateObjectId then SequenceNumber.randomnessUnavailable
    else SequenceNumber.cancelledRead

/-- `lamport_increment` and the assertion that follows it. -/
def nextVersionFor : Except VersionFault SequenceNumber := do
  let version ← lamportIncrement inputs
  if version.isValid then .ok version else .error .invalidVersion

/-- `shared_input_next_versions.insert(id, version).expect(..)`. -/
def setNextVersion (version : SequenceNumber) (next : NextVersions)
    (key : ConsensusObjectSequenceKey) : Except VersionFault NextVersions :=
  if (next key).isSome then .ok (Function.update next key (some version))
  else .error .missingNextVersion

def Schedulable.ownVersions (assignable : Schedulable) : List SequenceNumber :=
  (assignable.nonSharedInputObjectKeys ++ assignable.receivingObjectKeys).map Prod.snd

def assignVersionsForCertificate (cfg : EpochStartConfig) (assignable : Schedulable)
    (next : NextVersions)
    (cancelledTxns : TransactionDigest → Option CancelConsensusCertificateReason) :
    Except VersionFault (AssignedVersions × NextVersions) := do
  let sharedInputObjects ← assignable.sharedInputObjects cfg
  let systemObjects ← implicitlyReadSystemObjects cfg
  let systemObjectVersions ← systemObjects.foldlM (readSystemObject next) fun _ => none
  if sharedInputObjects = [] then .ok (⟨[], systemObjectVersions⟩, next)
  else
    match assignable.key.asDigest.bind cancelledTxns with
    | some reason =>
      let assigned := sharedInputObjects.map fun obj =>
        (obj.idAndVersion, cancellationVersion reason obj.id)
      -- the version that is produced does not depend on any shared object
      let _ ← nextVersionFor assignable.ownVersions
      .ok (⟨assigned, systemObjectVersions⟩, next)
    | none =>
      let assigned ← sharedInputObjects.mapM fun obj => do
        let version ← lookupNextVersion next obj.idAndVersion
        .ok (obj.idAndVersion, version)
      let version ← nextVersionFor (assignable.ownVersions ++ assigned.map Prod.snd)
      let exclusive := (sharedInputObjects.filter SharedInputObject.isAccessedExclusively).map
        SharedInputObject.idAndVersion
      let next ← exclusive.foldlM (setNextVersion version) next
      .ok (⟨assigned, systemObjectVersions⟩, next)

structure ConsensusSharedObjVerAssignment where
  sharedInputNextVersions : NextVersions
  assignedVersions : List (TransactionKey × AssignedVersions)

/-- The objects whose next versions `get_or_init_versions` asks the epoch store for.  The
    source sorts them to find the duplicates. -/
def keysToInit (cfg : EpochStartConfig) (sharedInputObjects : List SharedInputObject) :
    Except VersionFault (List ConsensusObjectSequenceKey) := do
  let systemObjects ← implicitlyReadSystemObjects cfg
  .ok (sharedInputObjects.map SharedInputObject.idAndVersion ++ systemObjects).dedup

/-- The map that the epoch store returns for the keys. -/
def getOrInitNextObjectVersions (start : ConsensusObjectSequenceKey → SequenceNumber)
    (keys : List ConsensusObjectSequenceKey) : NextVersions := fun key =>
  if key ∈ keys then some (start key) else none

/-- One turn of the loop of `assign_versions_from_consensus`. -/
def assignNext (cfg : EpochStartConfig)
    (cancelledTxns : TransactionDigest → Option CancelConsensusCertificateReason)
    (state : ConsensusSharedObjVerAssignment) (assignable : Schedulable) :
    Except VersionFault ConsensusSharedObjVerAssignment :=
  if assignable.isAccumulatorSettlement && !cfg.accumulatorsEnabled then
    .error .accumulatorsDisabled
  else do
    let (assigned, next) ← assignVersionsForCertificate cfg assignable
      state.sharedInputNextVersions cancelledTxns
    .ok ⟨next, state.assignedVersions ++ [(assignable.key, assigned)]⟩

def assignVersionsFromConsensus (cfg : EpochStartConfig)
    (start : ConsensusObjectSequenceKey → SequenceNumber) (assignables : List Schedulable)
    (cancelledTxns : TransactionDigest → Option CancelConsensusCertificateReason) :
    Except VersionFault ConsensusSharedObjVerAssignment := do
  let inputs ← assignables.mapM (Schedulable.sharedInputObjects cfg)
  let keys ← keysToInit cfg inputs.flatten
  assignables.foldlM (assignNext cfg cancelledTxns) ⟨getOrInitNextObjectVersions start keys, []⟩

/-! ### Lamport versions -/

def lamportVersion : SequenceNumber := inputs.foldl max 0 + 1

theorem le_foldl_max (inputs : List Nat) (first : Nat) :
    first ≤ inputs.foldl max first ∧ ∀ v ∈ inputs, v ≤ inputs.foldl max first := by
  induction inputs generalizing first with
  | nil => exact ⟨le_refl first, fun v hv => by cases hv⟩
  | cons w rest ih =>
    obtain ⟨hfirst, hrest⟩ := ih (max first w)
    refine ⟨le_trans (le_max_left first w) hfirst, fun v hv => ?_⟩
    rcases mem_cons.mp hv with rfl | hv
    · exact le_trans (le_max_right first v) hfirst
    · exact hrest v hv

theorem foldl_max_le {inputs : List Nat} {first bound : Nat} (hfirst : first ≤ bound)
    (hinputs : ∀ v ∈ inputs, v ≤ bound) : inputs.foldl max first ≤ bound := by
  induction inputs generalizing first with
  | nil => exact hfirst
  | cons w rest ih =>
    exact ih (max_le hfirst (hinputs w (.head _)))
      fun v hv => hinputs v (.tail w hv)

variable {inputs : List SequenceNumber}

theorem lt_lamportVersion {v : SequenceNumber} (h : v ∈ inputs) :
    v < lamportVersion inputs :=
  Nat.lt_succ_of_le ((le_foldl_max inputs 0).2 v h)

theorem nextVersionFor_eq_ok :
    nextVersionFor inputs = .ok version ↔
      version = lamportVersion inputs ∧ lamportVersion inputs < SequenceNumber.maxVersion := by
  rw [nextVersionFor, lamportIncrement, ← lamportVersion]
  have hmax : SequenceNumber.maxVersion < u64Max + 1 := by decide
  split_ifs with hoverflow
  · -- the counter would wrap
    have hlarge : lamportVersion inputs = u64Max + 1 := by rw [lamportVersion, hoverflow]
    simp only [bind, Except.bind, reduceCtorEq, false_iff, not_and, not_lt]
    intro _
    rw [hlarge]
    exact le_of_lt hmax
  · simp only [bind, Except.bind, SequenceNumber.isValid, decide_eq_true_eq]
    split_ifs with hvalid
    · rw [Except.ok.injEq]
      exact ⟨fun h => ⟨h.symm, hvalid⟩, fun h => h.1.symm⟩
    · simp only [false_iff, not_and]
      exact fun _ => hvalid

/-! ### One schedulable -/

variable {cfg : EpochStartConfig}
  {cancelledTxns : TransactionDigest → Option CancelConsensusCertificateReason}

def Cancelled (cancelledTxns : TransactionDigest → Option CancelConsensusCertificateReason)
    (a : Schedulable) : Prop :=
  (a.key.asDigest.bind cancelledTxns).isSome = true

instance (a : Schedulable) : Decidable (Cancelled cancelledTxns a) :=
  inferInstanceAs (Decidable (_ = true))

def exclusiveKeys (objs : List SharedInputObject) : List ConsensusObjectSequenceKey :=
  (objs.filter SharedInputObject.isAccessedExclusively).map SharedInputObject.idAndVersion

def Writes (cfg : EpochStartConfig)
    (cancelledTxns : TransactionDigest → Option CancelConsensusCertificateReason)
    (a : Schedulable) (key : ConsensusObjectSequenceKey) : Prop :=
  ¬ Cancelled cancelledTxns a ∧
    ∃ objs, a.sharedInputObjects cfg = .ok objs ∧ key ∈ exclusiveKeys objs

/-- The versions of the inputs of a schedulable: those of its own and received objects, and
    those assigned to its shared objects.  The special versions of a cancelled transaction
    stand for no objects. -/
def inputVersions (cancelledTxns : TransactionDigest → Option CancelConsensusCertificateReason)
    (a : Schedulable) (assigned : AssignedVersions) : List SequenceNumber :=
  a.ownVersions ++
    if Cancelled cancelledTxns a then [] else assigned.sharedObjectVersions.map Prod.snd

/-- The version that the schedulable gives to the objects it writes. -/
def producedVersion (cancelledTxns : TransactionDigest → Option CancelConsensusCertificateReason)
    (a : Schedulable) (assigned : AssignedVersions) : SequenceNumber :=
  lamportVersion (inputVersions cancelledTxns a assigned)

def Covers (next : NextVersions) (keys : List ConsensusObjectSequenceKey) : Prop :=
  ∀ key ∈ keys, ∃ version, next key = some version

variable {key : ConsensusObjectSequenceKey}

theorem lookupNextVersion_eq_ok :
    lookupNextVersion next key = .ok version ↔ next key = some version := by
  rw [lookupNextVersion]
  cases next key with
  | none => simp
  | some v => simp

def readVersions (next : NextVersions) (objs : List SharedInputObject) :
    List (ConsensusObjectSequenceKey × SequenceNumber) :=
  objs.map fun obj => (obj.idAndVersion, (next obj.idAndVersion).getD 0)

theorem mapM_lookup_eq_ok {assigned : List (ConsensusObjectSequenceKey × SequenceNumber)} :
    (objs.mapM fun obj => do
        let version ← lookupNextVersion next obj.idAndVersion
        Except.ok (obj.idAndVersion, version)) = .ok assigned ↔
      Covers next (objs.map SharedInputObject.idAndVersion) ∧
        assigned = readVersions next objs := by
  induction objs generalizing assigned with
  | nil =>
    rw [mapM_nil]
    constructor
    · intro h
      cases h
      exact ⟨fun key hkey => (by cases hkey), rfl⟩
    · rintro ⟨_, rfl⟩
      rfl
  | cons obj objs ih =>
    rw [mapM_cons, map_cons]
    constructor
    · intro h
      obtain ⟨entry, hentry, rest, hrest, h⟩ := bind₂_eq_ok.mp h
      obtain ⟨version, hversion, hentry⟩ := bind_eq_ok.mp hentry
      cases hentry
      cases h
      rw [lookupNextVersion_eq_ok] at hversion
      obtain ⟨hcovers, rfl⟩ := ih.mp hrest
      refine ⟨forall_mem_cons.mpr ⟨⟨version, hversion⟩, hcovers⟩, ?_⟩
      rw [readVersions, readVersions, map_cons, hversion]
      rfl
    · rintro ⟨hcovers, rfl⟩
      obtain ⟨⟨version, hversion⟩, hrest⟩ := forall_mem_cons.mp hcovers
      refine bind₂_eq_ok.mpr ⟨(obj.idAndVersion, version), bind_eq_ok.mpr ⟨version, ?_, rfl⟩,
        readVersions next objs, ih.mpr ⟨hrest, rfl⟩, ?_⟩
      · exact lookupNextVersion_eq_ok.mpr hversion
      · rw [readVersions, readVersions, map_cons, hversion]
        rfl

section

variable (hcovers : Covers next (objs.map SharedInputObject.idAndVersion))
include hcovers

theorem covers_exclusiveKeys : Covers next (exclusiveKeys objs) := by
  intro key hkey
  obtain ⟨obj, hobj, rfl⟩ := mem_map.mp hkey
  exact hcovers _ (mem_map_of_mem (mem_filter.mp hobj).1)

theorem readVersions_le {bound : Nat}
    (hnext : ∀ key version, next key = some version → version ≤ bound) :
    ∀ v ∈ (readVersions next objs).map Prod.snd, v ≤ bound := by
  intro v hv
  obtain ⟨entry, hentry, rfl⟩ := mem_map.mp hv
  obtain ⟨obj, hobj, rfl⟩ := mem_map.mp hentry
  obtain ⟨version, hversion⟩ := hcovers _ (mem_map_of_mem hobj)
  rw [hversion]
  exact hnext _ _ hversion

end

variable {keys : List ConsensusObjectSequenceKey}

theorem setNextVersions_eq_ok
    (h : keys.foldlM (setNextVersion version) next = .ok next') (key : ConsensusObjectSequenceKey) :
    next' key = if key ∈ keys then some version else next key := by
  induction keys generalizing next with
  | nil =>
    cases h
    rfl
  | cons first rest ih =>
    obtain ⟨next₁, hfirst, hrest⟩ := foldlM_cons_eq_ok.mp h
    rw [setNextVersion] at hfirst
    split_ifs at hfirst
    cases hfirst
    rw [ih hrest]
    by_cases hkey : key = first
    · subst hkey
      simp
    · simp [hkey]

theorem setNextVersions_total (version : SequenceNumber) (h : Covers next keys) :
    ∃ next', keys.foldlM (setNextVersion version) next = .ok next' := by
  have hstep : ∀ key ∈ keys, ∀ m, Covers m keys →
      ∃ m', setNextVersion version m key = .ok m' ∧ Covers m' keys := by
    intro key hkey m hm
    obtain ⟨v, hv⟩ := hm key hkey
    refine ⟨Function.update m key (some version), by rw [setNextVersion, hv]; rfl, ?_⟩
    intro other hother
    by_cases heq : other = key
    · exact ⟨version, by rw [heq, Function.update_self]⟩
    · rw [Function.update_of_ne heq]
      exact hm other hother
  obtain ⟨next', hrun, _⟩ := foldlM_total (fun m => Covers m keys) hstep h
  exact ⟨next', hrun⟩

/-- The system objects of a map, as they are read for a schedulable. -/
def SystemVersionsOf (cfg : EpochStartConfig) (next : NextVersions)
    (versions : SystemObjectVersions) : Prop :=
  ∃ keys, implicitlyReadSystemObjects cfg = .ok keys ∧
    keys.foldlM (readSystemObject next) (fun _ => none) = .ok versions

structure Assigns (cfg : EpochStartConfig)
    (cancelledTxns : TransactionDigest → Option CancelConsensusCertificateReason)
    (a : Schedulable) (next : NextVersions) (objs : List SharedInputObject)
    (assigned : AssignedVersions) (next' : NextVersions) : Prop where
  inputs : a.sharedInputObjects cfg = .ok objs
  system : SystemVersionsOf cfg next assigned.systemObjectVersions
  cancelled : ∀ reason, a.key.asDigest.bind cancelledTxns = some reason →
    assigned.sharedObjectVersions =
      objs.map fun obj => (obj.idAndVersion, cancellationVersion reason obj.id)
  shared : ¬ Cancelled cancelledTxns a →
    Covers next (objs.map SharedInputObject.idAndVersion) ∧
      assigned.sharedObjectVersions = readVersions next objs
  next : ∀ key, next' key =
    if ¬ Cancelled cancelledTxns a ∧ key ∈ exclusiveKeys objs then
      some (producedVersion cancelledTxns a assigned)
    else next key
  valid : objs ≠ [] → producedVersion cancelledTxns a assigned < SequenceNumber.maxVersion

theorem assigns_of_ok {a : Schedulable} {assigned : AssignedVersions}
    (h : assignVersionsForCertificate cfg a next cancelledTxns = .ok (assigned, next')) :
    ∃ objs, Assigns cfg cancelledTxns a next objs assigned next' := by
  obtain ⟨objs, hobjs, keys, hkeys, versions, hversions, h⟩ := bind₃_eq_ok.mp h
  refine ⟨objs, ?_⟩
  have hsystem : SystemVersionsOf cfg next versions := ⟨keys, hkeys, hversions⟩
  split_ifs at h with hempty
  · cases h
    subst hempty
    exact ⟨hobjs, hsystem, fun _ _ => rfl, fun _ => ⟨fun key hkey => (by cases hkey), rfl⟩,
      fun key => by simp [exclusiveKeys], fun hne => absurd rfl hne⟩
  · cases hreason : a.key.asDigest.bind cancelledTxns with
    | some reason =>
      have hcancelled : Cancelled cancelledTxns a := by rw [Cancelled, hreason]; rfl
      rw [hreason] at h
      obtain ⟨version, hversion, h⟩ := bind_eq_ok.mp h
      cases h
      obtain ⟨_, hvalid⟩ := nextVersionFor_eq_ok.mp hversion
      refine ⟨hobjs, hsystem, fun r hr => ?_, fun hnot => absurd hcancelled hnot,
        fun key => by simp [hcancelled], fun _ => ?_⟩
      · cases hreason.symm.trans hr
        rfl
      · rw [producedVersion, inputVersions, if_pos hcancelled, append_nil]
        exact hvalid
    | none =>
      have hnot : ¬ Cancelled cancelledTxns a := by rw [Cancelled, hreason]; simp
      rw [hreason] at h
      obtain ⟨entries, hentries, version, hversion, next₁, hnext₁, h⟩ := bind₃_eq_ok.mp h
      cases h
      obtain ⟨rfl, hvalid⟩ := nextVersionFor_eq_ok.mp hversion
      have hproduced : producedVersion cancelledTxns a ⟨entries, versions⟩
          = lamportVersion (a.ownVersions ++ entries.map Prod.snd) := by
        rw [producedVersion, inputVersions, if_neg hnot]
      refine ⟨hobjs, hsystem, fun r hr => ?_, fun _ => mapM_lookup_eq_ok.mp hentries,
        fun key => ?_, fun _ => hproduced ▸ hvalid⟩
      · cases hreason.symm.trans hr
      · rw [setNextVersions_eq_ok hnext₁ key, hproduced, ← exclusiveKeys]
        simp [hnot]

variable (cancelledTxns) in
/-- The assignment for a schedulable whose objects are in the map succeeds as long as the
    version that it produces is valid. -/
theorem assignVersionsForCertificate_total {a : Schedulable}
    {systemKeys : List ConsensusObjectSequenceKey} (hobjs : a.sharedInputObjects cfg = .ok objs)
    (hsystem : implicitlyReadSystemObjects cfg = .ok systemKeys)
    (hcovers : Covers next (objs.map SharedInputObject.idAndVersion))
    (hcoversSystem : Covers next systemKeys) {bound : Nat}
    (hbound : bound + 1 < SequenceNumber.maxVersion) (hown : ∀ v ∈ a.ownVersions, v ≤ bound)
    (hnext : ∀ key version, next key = some version → version ≤ bound) :
    ∃ assigned next', assignVersionsForCertificate cfg a next cancelledTxns
      = .ok (assigned, next') := by
  have hvalid : ∀ inputs : List SequenceNumber, (∀ v ∈ inputs, v ≤ bound) →
      nextVersionFor inputs = .ok (lamportVersion inputs) := by
    intro inputs hinputs
    refine nextVersionFor_eq_ok.mpr ⟨rfl, ?_⟩
    have hle : inputs.foldl max 0 ≤ bound := foldl_max_le (Nat.zero_le bound) hinputs
    exact lt_of_le_of_lt (Nat.succ_le_succ hle) hbound
  obtain ⟨versions, hversions, _⟩ : ∃ versions,
      systemKeys.foldlM (readSystemObject next) (fun _ => none) = .ok versions ∧ True := by
    refine foldlM_total (fun _ => True) (fun key hkey versions _ => ?_) trivial
    obtain ⟨version, hversion⟩ := hcoversSystem key hkey
    exact ⟨_, bind_eq_ok.mpr ⟨version, lookupNextVersion_eq_ok.mpr hversion, rfl⟩, trivial⟩
  rw [assignVersionsForCertificate, hobjs, hsystem]
  simp only [bind, Except.bind, hversions]
  split_ifs with hempty
  · exact ⟨_, _, rfl⟩
  · cases a.key.asDigest.bind cancelledTxns with
    | some reason =>
      simp only [hvalid _ hown]
      exact ⟨_, _, rfl⟩
    | none =>
      have hmap := mapM_lookup_eq_ok.mpr ⟨hcovers, rfl⟩
      simp only [bind, Except.bind] at hmap
      have hinputs := forall_mem_append.mpr ⟨hown, readVersions_le hcovers hnext⟩
      obtain ⟨next', hnext'⟩ := setNextVersions_total (lamportVersion
        (a.ownVersions ++ (readVersions next objs).map Prod.snd)) (covers_exclusiveKeys hcovers)
      rw [exclusiveKeys] at hnext'
      simp only [hmap, hvalid _ hinputs, hnext']
      exact ⟨_, _, rfl⟩

/-! ### The schedulables of a commit -/

abbrev History := List (Schedulable × AssignedVersions)

/-- The assignments of a history lead from one map to another. -/
inductive Runs (cfg : EpochStartConfig)
    (cancelledTxns : TransactionDigest → Option CancelConsensusCertificateReason) :
    NextVersions → History → NextVersions → Prop
  | nil (next : NextVersions) : Runs cfg cancelledTxns next [] next
  | cons {next next₁ next' : NextVersions} {a : Schedulable} {assigned : AssignedVersions}
      {rest : History}
      (hfirst : assignVersionsForCertificate cfg a next cancelledTxns = .ok (assigned, next₁))
      (hrest : Runs cfg cancelledTxns next₁ rest next') :
      Runs cfg cancelledTxns next ((a, assigned) :: rest) next'

theorem Runs.split {before after : History}
    (h : Runs cfg cancelledTxns next (before ++ after) next') :
    ∃ middle, Runs cfg cancelledTxns next before middle ∧
      Runs cfg cancelledTxns middle after next' := by
  induction before generalizing next with
  | nil => exact ⟨next, .nil next, h⟩
  | cons entry before ih =>
    cases h with
    | cons hfirst hrest =>
      obtain ⟨middle, hbefore, hafter⟩ := ih hrest
      exact ⟨middle, .cons hfirst hbefore, hafter⟩

theorem runs_of_foldlM {assignables : List Schedulable}
    {state state' : ConsensusSharedObjVerAssignment}
    (h : assignables.foldlM (assignNext cfg cancelledTxns) state = .ok state') :
    ∃ history : History, history.map Prod.fst = assignables ∧
      state'.assignedVersions = state.assignedVersions
        ++ history.map (fun entry => (entry.1.key, entry.2)) ∧
      Runs cfg cancelledTxns state.sharedInputNextVersions history state'.sharedInputNextVersions := by
  induction assignables generalizing state with
  | nil =>
    cases h
    exact ⟨[], rfl, (append_nil _).symm, .nil _⟩
  | cons a assignables ih =>
    obtain ⟨state₁, hfirst, hrest⟩ := foldlM_cons_eq_ok.mp h
    rw [assignNext] at hfirst
    split_ifs at hfirst
    obtain ⟨⟨assigned, next₁⟩, hassign, hfirst⟩ := bind_eq_ok.mp hfirst
    cases hfirst
    obtain ⟨history, hmap, hassigned, hruns⟩ := ih hrest
    refine ⟨(a, assigned) :: history, by rw [map_cons, hmap], ?_, .cons hassign hruns⟩
    rw [hassigned, map_cons, append_assoc]
    rfl

/-- The version of an object after a history: that which the last schedulable to take the
    object exclusively has produced, or else the one it had before. -/
def LastWritten (cfg : EpochStartConfig)
    (cancelledTxns : TransactionDigest → Option CancelConsensusCertificateReason)
    (start : SequenceNumber) (history : History) (key : ConsensusObjectSequenceKey)
    (version : SequenceNumber) : Prop :=
  (∃ before writer assigned after, history = before ++ (writer, assigned) :: after ∧
      Writes cfg cancelledTxns writer key ∧
      version = producedVersion cancelledTxns writer assigned ∧
      ∀ entry ∈ after, ¬ Writes cfg cancelledTxns entry.1 key) ∨
    (∀ entry ∈ history, ¬ Writes cfg cancelledTxns entry.1 key) ∧ version = start

section Assigns

variable {a : Schedulable} {next next' : NextVersions} {objs : List SharedInputObject}
  {assigned : AssignedVersions} {key : ConsensusObjectSequenceKey}

section

variable (h : Assigns cfg cancelledTxns a next objs assigned next')
include h

theorem Assigns.writes_iff :
    Writes cfg cancelledTxns a key ↔ ¬ Cancelled cancelledTxns a ∧ key ∈ exclusiveKeys objs := by
  constructor
  · rintro ⟨hnot, objs', hobjs', hkey⟩
    cases h.inputs.symm.trans hobjs'
    exact ⟨hnot, hkey⟩
  · rintro ⟨hnot, hkey⟩
    exact ⟨hnot, objs, h.inputs, hkey⟩

theorem Assigns.next_of_writes (hwrites : Writes cfg cancelledTxns a key) :
    next' key = some (producedVersion cancelledTxns a assigned) := by
  rw [h.next key, if_pos (h.writes_iff.mp hwrites)]

theorem Assigns.next_of_not_writes (hwrites : ¬ Writes cfg cancelledTxns a key) :
    next' key = next key := by
  rw [h.next key, if_neg fun hboth => hwrites (h.writes_iff.mpr hboth)]

theorem Assigns.lt_of_writes (hwrites : Writes cfg cancelledTxns a key) {version : SequenceNumber}
    (hversion : next key = some version) :
    version < producedVersion cancelledTxns a assigned := by
  obtain ⟨hnot, hkey⟩ := h.writes_iff.mp hwrites
  obtain ⟨obj, hobj, rfl⟩ := mem_map.mp hkey
  obtain ⟨_, hshared⟩ := h.shared hnot
  apply lt_lamportVersion
  rw [inputVersions, if_neg hnot, hshared]
  refine mem_append_right _ (mem_map.mpr ⟨(obj.idAndVersion, version), ?_, rfl⟩)
  refine mem_map.mpr ⟨obj, (mem_filter.mp hobj).1, ?_⟩
  rw [hversion]
  rfl

theorem Assigns.producedVersion_le {bound : Nat} (hown : ∀ v ∈ a.ownVersions, v ≤ bound)
    (hnext : ∀ key version, next key = some version → version ≤ bound) :
    producedVersion cancelledTxns a assigned ≤ bound + 1 := by
  refine Nat.succ_le_succ (foldl_max_le (Nat.zero_le bound) (forall_mem_append.mpr ⟨hown, ?_⟩))
  split_ifs with hcancelled
  · exact forall_mem_nil _
  · obtain ⟨hcovers, hshared⟩ := h.shared hcancelled
    rw [hshared]
    exact readVersions_le hcovers hnext

end

end Assigns

theorem Runs.lastWritten {history : History} (h : Runs cfg cancelledTxns next history next')
    {start : SequenceNumber} (hstart : next key = some start) :
    ∃ version, next' key = some version ∧
      LastWritten cfg cancelledTxns start history key version := by
  induction h generalizing start with
  | nil next => exact ⟨start, hstart, .inr ⟨fun entry hentry => (by cases hentry), rfl⟩⟩
  | @cons next next₁ next' a assigned rest hfirst _ ih =>
    obtain ⟨objs, hassigns⟩ := assigns_of_ok hfirst
    by_cases hwrites : Writes cfg cancelledTxns a key
    · obtain ⟨version, hversion, hlast⟩ := ih (hassigns.next_of_writes hwrites)
      refine ⟨version, hversion, .inl ?_⟩
      rcases hlast with ⟨before, writer, assigned', after, rfl, hrest⟩ | ⟨hnone, rfl⟩
      · exact ⟨(a, assigned) :: before, writer, assigned', after, rfl, hrest⟩
      · exact ⟨[], a, assigned, rest, rfl, hwrites, rfl, hnone⟩
    · obtain ⟨version, hversion, hlast⟩ := ih ((hassigns.next_of_not_writes hwrites).trans hstart)
      refine ⟨version, hversion, ?_⟩
      rcases hlast with ⟨before, writer, assigned', after, rfl, hrest⟩ | ⟨hnone, rfl⟩
      · exact .inl ⟨(a, assigned) :: before, writer, assigned', after, rfl, hrest⟩
      · exact .inr ⟨forall_mem_cons.mpr ⟨hwrites, hnone⟩, rfl⟩

/-- The schedulables name objects that the epoch knows. -/
structure Configured (cfg : EpochStartConfig) (assignables : List Schedulable) : Prop where
  inputs : ∀ a ∈ assignables, ∃ objs, a.sharedInputObjects cfg = .ok objs
  system : ∃ keys, implicitlyReadSystemObjects cfg = .ok keys
  settlement : ∀ a ∈ assignables, a.isAccumulatorSettlement = true → cfg.accumulatorsEnabled = true

theorem mem_keysToInit {keys systemKeys : List ConsensusObjectSequenceKey}
    (hsystem : implicitlyReadSystemObjects cfg = .ok systemKeys)
    (hkeys : keysToInit cfg objs = .ok keys) :
    key ∈ keys ↔ key ∈ objs.map SharedInputObject.idAndVersion ∨ key ∈ systemKeys := by
  rw [keysToInit, hsystem] at hkeys
  cases hkeys
  rw [mem_dedup, mem_append]

theorem Runs.some_of_some {history : History} (h : Runs cfg cancelledTxns next history next')
    (hversion : next' key = some version) :
    ∃ start, next key = some start := by
  induction h with
  | nil next => exact ⟨version, hversion⟩
  | @cons next next₁ next' a assigned rest hfirst _ ih =>
    obtain ⟨objs, hassigns⟩ := assigns_of_ok hfirst
    obtain ⟨version₁, hversion₁⟩ := ih hversion
    by_cases hwrites : Writes cfg cancelledTxns a key
    · -- what is written has been read before
      obtain ⟨hnot, hkey⟩ := hassigns.writes_iff.mp hwrites
      exact covers_exclusiveKeys (hassigns.shared hnot).1 key hkey
    · exact ⟨version₁, (hassigns.next_of_not_writes hwrites).symm.trans hversion₁⟩

/-- A commit of schedulables with known objects succeeds, as long as the versions leave room
    for one more for each schedulable. -/
theorem assignables_total {systemKeys : List ConsensusObjectSequenceKey}
    (hsystem : implicitlyReadSystemObjects cfg = .ok systemKeys) {assignables : List Schedulable}
    (hcfg : Configured cfg assignables) {bound : Nat}
    (hroom : bound + assignables.length < SequenceNumber.maxVersion)
    (hown : ∀ a ∈ assignables, ∀ v ∈ a.ownVersions, v ≤ bound)
    {state : ConsensusSharedObjVerAssignment}
    (hnext : ∀ key version, state.sharedInputNextVersions key = some version → version ≤ bound)
    (hcovers : ∀ a ∈ assignables, ∀ objs, a.sharedInputObjects cfg = .ok objs →
      Covers state.sharedInputNextVersions (objs.map SharedInputObject.idAndVersion))
    (hcoversSystem : Covers state.sharedInputNextVersions systemKeys) :
    ∃ state', assignables.foldlM (assignNext cfg cancelledTxns) state = .ok state' := by
  induction assignables generalizing bound state with
  | nil => exact ⟨state, rfl⟩
  | cons a assignables ih =>
    rw [length_cons] at hroom
    obtain ⟨objs, hobjs⟩ := hcfg.inputs a (.head _)
    have hone : bound + 1 < SequenceNumber.maxVersion := lt_of_le_of_lt (by omega) hroom
    obtain ⟨assigned, next', hassign⟩ := assignVersionsForCertificate_total
      cancelledTxns hobjs hsystem (hcovers a mem_cons_self objs hobjs) hcoversSystem hone (hown a (.head _)) hnext
    obtain ⟨objs', hassigns⟩ := assigns_of_ok hassign
    have hstep : assignNext cfg cancelledTxns state a
        = .ok ⟨next', state.assignedVersions ++ [(a.key, assigned)]⟩ := by
      rw [assignNext, if_neg]
      · simp only [hassign, bind, Except.bind]
      · intro hsettles
        rw [Bool.and_eq_true] at hsettles
        simp [hcfg.settlement a mem_cons_self hsettles.1] at hsettles
    -- an object is kept in the map, at its version or at the one produced
    have hkept : ∀ keys, Covers state.sharedInputNextVersions keys → Covers next' keys := by
      intro keys hkeys key hkey
      by_cases hwrites : Writes cfg cancelledTxns a key
      · exact ⟨_, hassigns.next_of_writes hwrites⟩
      · rw [hassigns.next_of_not_writes hwrites]
        exact hkeys key hkey
    have hproduced := hassigns.producedVersion_le (hown a (.head _)) hnext
    have hnext' : ∀ key version, next' key = some version → version ≤ bound + 1 := by
      intro key version hversion
      by_cases hwrites : Writes cfg cancelledTxns a key
      · cases (hassigns.next_of_writes hwrites).symm.trans hversion
        exact hproduced
      · rw [hassigns.next_of_not_writes hwrites] at hversion
        exact Nat.le_succ_of_le (hnext key version hversion)
    have hcfg' : Configured cfg assignables :=
      ⟨fun a' ha' => hcfg.inputs a' (.tail a ha'), hcfg.system,
        fun a' ha' => hcfg.settlement a' (.tail a ha')⟩
    have hroom' : bound + 1 + assignables.length < SequenceNumber.maxVersion :=
      lt_of_le_of_lt (by omega) hroom
    have hrest := @ih hcfg' (bound + 1) hroom'
      (fun a' ha' v hv => Nat.le_succ_of_le (hown a' (.tail a ha') v hv))
      ⟨next', state.assignedVersions ++ [(a.key, assigned)]⟩ hnext'
      (fun a' ha' objs' hobjs' =>
        hkept _ (hcovers a' (.tail a ha') objs' hobjs'))
      (hkept _ hcoversSystem)
    obtain ⟨state', hstate'⟩ := hrest
    exact ⟨state', foldlM_cons_eq_ok.mpr ⟨_, hstep, hstate'⟩⟩

theorem assignVersionsFromConsensus_total
    (cancelledTxns : TransactionDigest → Option CancelConsensusCertificateReason)
    {assignables : List Schedulable} (hcfg : Configured cfg assignables)
    {start : ConsensusObjectSequenceKey → SequenceNumber} {bound : Nat}
    (hroom : bound + assignables.length < SequenceNumber.maxVersion)
    (hstart : ∀ key, start key ≤ bound) (hown : ∀ a ∈ assignables, ∀ v ∈ a.ownVersions, v ≤ bound) :
    ∃ result, assignVersionsFromConsensus cfg start assignables cancelledTxns = .ok result := by
  obtain ⟨systemKeys, hsystem⟩ := hcfg.system
  obtain ⟨inputs, hinputs⟩ := mapM_total hcfg.inputs
  obtain ⟨keys, hkeys⟩ : ∃ keys, keysToInit cfg inputs.flatten = .ok keys := by
    rw [keysToInit, hsystem]
    exact ⟨_, rfl⟩
  have hget : ∀ key, key ∈ inputs.flatten.map SharedInputObject.idAndVersion ∨ key ∈ systemKeys →
      getOrInitNextObjectVersions start keys key = some (start key) := by
    intro key hkey
    rw [getOrInitNextObjectVersions, if_pos ((mem_keysToInit hsystem hkeys).mpr hkey)]
  have hbound : ∀ key version, getOrInitNextObjectVersions start keys key = some version →
      version ≤ bound := by
    intro key version hversion
    rw [getOrInitNextObjectVersions] at hversion
    split_ifs at hversion
    cases hversion
    exact hstart key
  have hcovers : ∀ a ∈ assignables, ∀ objs, a.sharedInputObjects cfg = .ok objs →
      Covers (getOrInitNextObjectVersions start keys)
        (objs.map SharedInputObject.idAndVersion) := by
    intro a ha objs hobjs key hkey
    obtain ⟨obj, hobj, rfl⟩ := mem_map.mp hkey
    exact ⟨_, hget _ (.inl (mem_map_of_mem
      (mem_flatten.mpr ⟨objs, mem_of_mapM hinputs ha hobjs, hobj⟩)))⟩
  obtain ⟨result, hresult⟩ := @assignables_total _ cancelledTxns _ hsystem _ hcfg _ hroom hown
    ⟨_, []⟩ hbound hcovers fun key hkey => ⟨_, hget key (.inr hkey)⟩
  exact ⟨result, bind₂_eq_ok.mpr ⟨inputs, hinputs, _, hkeys, hresult⟩⟩

end Haneul.Authority
