import Haneul.Authority.ConsensusQuarantine

/-!
# Filtering the transactions of a consensus commit

Mirror of `filter_consensus_txns` in `consensus_handler.rs`, with
`try_acquire_owned_object_locks_post_consensus` and `get_owned_object_locks_map`.  The
transactions of a commit are gone through block by block; a user transaction that is not
dropped for another reason has to lock the owned objects that it uses, and is dropped if one
of them is locked for a different transaction.

What happens to a transaction is a `Verdict`; the loop keeps the verdicts beside its own
accumulators.  Metrics, submission counts and the traffic controller are left out.
-/

namespace Haneul.Authority

open Haneul.Map

/-! ### Messages -/

inductive InputObjectKind where
  | movePackage (id : ObjectID)
  | immOrOwnedMoveObject (ref : ObjectRef)
  | sharedMoveObject (id : ObjectID) (initialSharedVersion : SequenceNumber)
deriving DecidableEq, Repr

/-- The two kinds of claims that there are, the aliases without their contents. -/
inductive TransactionClaim where
  | immutableInputObjects (ids : List ObjectID)
  | addressAliases
deriving DecidableEq, Repr

structure PlainTransactionWithClaims where
  digest : TransactionDigest
  /-- `input_objects().ok()`. -/
  inputObjects : Option (List InputObjectKind)
  gas : List ObjectRef
  claims : List TransactionClaim
deriving DecidableEq, Repr

def PlainTransactionWithClaims.getImmutableObjects (tx : PlainTransactionWithClaims) :
    List ObjectID :=
  (tx.claims.findSome? fun
    | .immutableInputObjects ids => some ids
    | .addressAliases => none).getD []

def ownedObjectRefsToLock (tx : PlainTransactionWithClaims) : Option (List ObjectRef) :=
  tx.inputObjects.map fun objects => objects.filterMap fun
    | .immOrOwnedMoveObject ref => if ref.1 ∈ tx.getImmutableObjects then none else some ref
    | .movePackage _ => none
    | .sharedMoveObject _ _ => none

inductive ConsensusTransactionKind where
  | certifiedTransaction
  | checkpointSignature
  | endOfPublish
  | capabilityNotification
  | newJWKFetched
  | randomnessStateUpdate
  | randomnessDkgMessage
  | randomnessDkgConfirmation
  | capabilityNotificationV2
  | userTransaction
  | executionTimeObservation
  | checkpointSignatureV2
  | userTransactionV2 (tx : PlainTransactionWithClaims)
  | updateTransactionDenyConfig
deriving DecidableEq, Repr

namespace ConsensusTransactionKind

def isUserTransaction : ConsensusTransactionKind → Bool
  | .userTransactionV2 _ => true
  | _ => false

/-- The kinds that are ignored when consensus certificates are not accepted any more. -/
def ignoredAfterCertsClosed : ConsensusTransactionKind → Bool
  | .checkpointSignature | .checkpointSignatureV2 | .randomnessStateUpdate
  | .randomnessDkgMessage | .randomnessDkgConfirmation => false
  | .certifiedTransaction | .endOfPublish | .capabilityNotification | .newJWKFetched
  | .capabilityNotificationV2 | .userTransaction | .executionTimeObservation
  | .userTransactionV2 _ | .updateTransactionDenyConfig => true

def isRandomnessDkg : ConsensusTransactionKind → Bool
  | .randomnessDkgMessage | .randomnessDkgConfirmation => true
  | _ => false

def isDeprecated : ConsensusTransactionKind → Bool
  | .capabilityNotification | .randomnessStateUpdate | .checkpointSignature => true
  | _ => false

end ConsensusTransactionKind

structure ParsedTransaction where
  kind : ConsensusTransactionKind
  /-- The finalizer of consensus rejected this copy. -/
  rejected : Bool
deriving DecidableEq, Repr

structure BlockRef where
  round : Round
  author : Nat
  digest : Nat
deriving DecidableEq, Repr

abbrev ParsedConsensusTransactions := List (BlockRef × List ParsedTransaction)

structure ConsensusPosition where
  block : BlockRef
  index : Nat
deriving DecidableEq, Repr

def ConsensusPosition.ping (block : BlockRef) : ConsensusPosition := ⟨block, 2 ^ 16 - 1⟩

inductive ConsensusTxStatus where
  | rejected
  | finalized
  | dropped
deriving DecidableEq, Repr

inductive ReconfigCertStatus where
  | acceptAllCerts
  | rejectUserCerts
  | rejectAllCerts
  | rejectAllTx
deriving DecidableEq, Repr

def ReconfigCertStatus.shouldAcceptConsensusCerts : ReconfigCertStatus → Bool
  | .acceptAllCerts | .rejectUserCerts => true
  | .rejectAllCerts | .rejectAllTx => false

def ReconfigCertStatus.shouldAcceptTx : ReconfigCertStatus → Bool
  | .rejectAllTx => false
  | _ => true

/-- What the filter reads of the epoch, which stays the same while a commit is filtered. -/
structure FilterContext where
  initialReconfigState : ReconfigCertStatus
  /-- `has_received_end_of_publish_from`, of the author with the index. -/
  endOfPublish : Nat → Bool

/-! ### Locks -/

structure ObjectLockConflict where
  ref : ObjectRef
  pendingTransaction : TransactionDigest
deriving DecidableEq, Repr

/-- The conflict on one reference: with the commit first, then with earlier commits. -/
def conflictOn (digest : TransactionDigest)
    (currentCommitLocks existingLocks : ObjectRef → Option TransactionDigest) (ref : ObjectRef) :
    Option ObjectLockConflict :=
  ((currentCommitLocks ref).filter (· ≠ digest)).or ((existingLocks ref).filter (· ≠ digest)) |>.map
    fun holder => ⟨ref, holder⟩

def tryAcquireOwnedObjectLocksPostConsensus (refs : List ObjectRef) (digest : TransactionDigest)
    (currentCommitLocks existingLocks : ObjectRef → Option TransactionDigest) :
    Except ObjectLockConflict (List (ObjectRef × TransactionDigest)) :=
  match refs.findSome? (conflictOn digest currentCommitLocks existingLocks) with
  | some conflict => .error conflict
  | none => .ok (refs.map fun ref => (ref, digest))

def getOwnedObjectLocksMap (q : ConsensusOutputQuarantine) (tables : AuthorityEpochTables)
    (refs : List ObjectRef) : ObjectRef → Option TransactionDigest :=
  collect ((refs.zip (q.getOwnedObjectLocks tables refs)).filterMap fun entry =>
    entry.2.map fun lock => (entry.1, lock))

namespace Entries

variable {κ υ : Type} [DecidableEq κ] (m : Entries κ υ)

def get : κ → Option υ := collect m.list

def insert (k : κ) (v : υ) : Entries κ υ where
  list := m.list.filter (fun entry => entry.1 ≠ k) ++ [(k, v)]
  nodup := by
    rw [List.map_append, List.nodup_append]
    refine ⟨m.nodup.sublist (List.filter_sublist.map Prod.fst), List.nodup_singleton _, ?_⟩
    intro a ha b hb hab
    obtain ⟨entry, hentry, rfl⟩ := List.mem_map.mp ha
    have hne : entry.1 ≠ k := by simpa using (List.mem_filter.mp hentry).2
    exact hne (hab.trans (List.mem_singleton.mp hb))

def extend (entries : List (κ × υ)) : Entries κ υ :=
  entries.foldl (fun m entry => m.insert entry.1 entry.2) m

theorem get_eq_some_iff {m : Entries κ υ} {k : κ} {v : υ} : m.get k = some v ↔ (k, v) ∈ m.list := by
  refine ⟨mem_of_collect_eq_some, fun hmem => collect_eq_some hmem fun w hw => ?_⟩
  have heq := List.inj_on_of_nodup_map m.nodup hw hmem rfl
  exact congrArg Prod.snd heq

theorem get_insert (k : κ) (v : υ) (a : κ) :
    (m.insert k v).get a = if a = k then some v else m.get a := by
  have hlist : (m.insert k v).list = m.list.filter (fun entry => entry.1 ≠ k) ++ [(k, v)] := rfl
  by_cases hkey : a = k
  · rw [if_pos hkey, get_eq_some_iff, hlist, hkey]
    exact List.mem_append_right _ (List.mem_singleton_self _)
  · rw [if_neg hkey]
    refine Option.ext fun w => ?_
    show (m.insert k v).get a = some w ↔ m.get a = some w
    rw [get_eq_some_iff, get_eq_some_iff, hlist]
    simp [hkey]

theorem get_extend_map (keys : List κ) (v : υ) (a : κ) :
    (m.extend (keys.map fun k => (k, v))).get a = if a ∈ keys then some v else m.get a := by
  induction keys generalizing m with
  | nil => rfl
  | cons key keys ih =>
    rw [extend, List.map_cons, List.foldl_cons, ← extend, ih, get_insert]
    by_cases hkey : a = key
    · simp [hkey]
    · simp [hkey]

end Entries

/-! ### The filter -/

structure ConflictInfo where
  gasObjectConflicts : Nat
  nonGasObjectConflicts : Nat
  winnerAuthor : Nat
deriving DecidableEq, Repr

inductive Verdict where
  | rejected
  | certsClosed
  | txClosed
  | deprecated
  | endOfPublish
  | invalidInput
  | lockConflict (refs : List ObjectRef) (conflict : ObjectLockConflict)
  | locked (newLocks : List (ObjectRef × TransactionDigest))
  /-- A transaction of another kind than a user transaction. -/
  | passed
deriving DecidableEq, Repr

structure Sequenced where
  position : ConsensusPosition
  parsed : ParsedTransaction
deriving DecidableEq, Repr

def Sequenced.author (item : Sequenced) : Nat := item.position.block.author

structure FilterState where
  transactions : List (ConsensusTransactionKind × Nat)
  ownedObjectLocks : Entries ObjectRef TransactionDigest
  /-- The keys of dropped user transactions, which are their digests. -/
  droppedTransactionKeys : List TransactionDigest
  contestedTransactionDigests : TransactionDigest → Option ConflictInfo
  lockHolderAuthors : TransactionDigest → Option Nat
  statusUpdates : List (ConsensusPosition × ConsensusTxStatus)
  /-- `set_rejection_vote_reason`, with `none` for an input error. -/
  rejectReasons : List (ConsensusPosition × Option ObjectLockConflict)
  verdicts : List (Sequenced × Verdict)

def FilterState.new : FilterState where
  transactions := []
  ownedObjectLocks := .empty
  droppedTransactionKeys := []
  contestedTransactionDigests := fun _ => none
  lockHolderAuthors := fun _ => none
  statusUpdates := []
  rejectReasons := []
  verdicts := []

variable (ctx : FilterContext)

/-- The checks that come before the locks, in the order of the loop body. -/
def checkBeforeLocks (item : Sequenced) : Option Verdict :=
  if item.parsed.rejected then some .rejected
  else if !ctx.initialReconfigState.shouldAcceptConsensusCerts &&
      item.parsed.kind.ignoredAfterCertsClosed then some .certsClosed
  else if !ctx.initialReconfigState.shouldAcceptTx && item.parsed.kind.isRandomnessDkg then
    some .txClosed
  else if item.parsed.kind.isDeprecated then some .deprecated
  else if item.parsed.kind.isUserTransaction && ctx.endOfPublish item.author then some .endOfPublish
  else none

def judgeLocks (existingLocks : ObjectRef → Option TransactionDigest) (st : FilterState)
    (tx : PlainTransactionWithClaims) : Verdict :=
  match ownedObjectRefsToLock tx with
  | none => .invalidInput
  | some refs =>
    match tryAcquireOwnedObjectLocksPostConsensus refs tx.digest st.ownedObjectLocks.get
      existingLocks with
    | .ok newLocks => .locked newLocks
    | .error conflict => .lockConflict refs conflict

def judge (existingLocks : ObjectRef → Option TransactionDigest)
    (st : FilterState) (item : Sequenced) : Verdict :=
  match checkBeforeLocks ctx item with
  | some verdict => verdict
  | none =>
    match item.parsed.kind with
    | .userTransactionV2 tx => judgeLocks existingLocks st tx
    | _ => .passed

def Verdict.status : Verdict → ConsensusTxStatus
  | .rejected => .rejected
  | .locked _ | .passed => .finalized
  | _ => .dropped

/-- One conflict that a dropped transaction has with a transaction of the commit. -/
def contest (st : FilterState) (author : Nat) (gasObjectIds : List ObjectID)
    (contested : TransactionDigest → Option ConflictInfo) (ref : ObjectRef) :
    TransactionDigest → Option ConflictInfo :=
  match st.ownedObjectLocks.get ref with
  | none => contested
  | some holder =>
    let info := (contested holder).getD ⟨0, 0, 0⟩
    let info := { info with winnerAuthor := (st.lockHolderAuthors holder).getD author }
    Function.update contested holder (some
      (if ref.1 ∈ gasObjectIds then
        { info with gasObjectConflicts := info.gasObjectConflicts + 1 }
      else { info with nonGasObjectConflicts := info.nonGasObjectConflicts + 1 }))

def recordUser (st : FilterState) (item : Sequenced) (tx : PlainTransactionWithClaims)
    (verdict : Verdict) : FilterState :=
  let st := { st with statusUpdates := st.statusUpdates ++ [(item.position, verdict.status)] }
  match verdict with
  | .locked newLocks => { st with
      transactions := st.transactions ++ [(item.parsed.kind, item.author)]
      ownedObjectLocks := st.ownedObjectLocks.extend newLocks
      lockHolderAuthors := match st.lockHolderAuthors tx.digest with
        | some _ => st.lockHolderAuthors
        | none => Function.update st.lockHolderAuthors tx.digest (some item.author) }
  | .lockConflict refs conflict => { st with
      droppedTransactionKeys := st.droppedTransactionKeys ++ [tx.digest]
      rejectReasons := st.rejectReasons ++ [(item.position, some conflict)]
      contestedTransactionDigests := refs.foldl (contest st item.author (tx.gas.map (·.1)))
        st.contestedTransactionDigests }
  | .invalidInput => { st with
      droppedTransactionKeys := st.droppedTransactionKeys ++ [tx.digest]
      rejectReasons := st.rejectReasons ++ [(item.position, none)] }
  | _ => st

def record (st : FilterState) (item : Sequenced) (verdict : Verdict) : FilterState :=
  let st := match item.parsed.kind with
    | .userTransactionV2 tx => recordUser st item tx verdict
    | kind =>
      match verdict with
      | .passed => { st with transactions := st.transactions ++ [(kind, item.author)] }
      | _ => st
  { st with verdicts := st.verdicts ++ [(item, verdict)] }

/-- One turn of the inner loop. -/
def filterTransaction (existingLocks : ObjectRef → Option TransactionDigest)
    (st : FilterState) (item : Sequenced) : FilterState :=
  record st item (judge ctx existingLocks st item)

/-- The transactions of a block at their positions; the index is a `u16`. -/
def sequence (block : BlockRef) (parsed : List ParsedTransaction) : List Sequenced :=
  parsed.zipIdx.map fun entry => ⟨⟨block, entry.2 % 2 ^ 16⟩, entry.1⟩

/-- One turn of the outer loop. -/
def filterBlock (existingLocks : ObjectRef → Option TransactionDigest)
    (st : FilterState) (entry : BlockRef × List ParsedTransaction) : FilterState :=
  let st := { st with
    statusUpdates := st.statusUpdates ++ [(ConsensusPosition.ping entry.1, .finalized)] }
  (sequence entry.1 entry.2).foldl (filterTransaction ctx existingLocks) st

/-- The references that the user transactions of the commit would lock. -/
def prefetchRefs (blocks : ParsedConsensusTransactions) : List ObjectRef :=
  (blocks.flatMap fun entry => entry.2.flatMap fun parsed =>
    match parsed.kind with
    | .userTransactionV2 tx => (ownedObjectRefsToLock tx).getD []
    | _ => []).dedup

def filterConsensusTxns (q : ConsensusOutputQuarantine)
    (tables : AuthorityEpochTables) (blocks : ParsedConsensusTransactions) : FilterState :=
  let existingLocks := getOwnedObjectLocksMap q tables (prefetchRefs blocks)
  blocks.foldl (filterBlock ctx existingLocks) .new

end Haneul.Authority
