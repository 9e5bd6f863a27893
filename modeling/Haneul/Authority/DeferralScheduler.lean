import Haneul.Authority.ConsensusQuarantine
import Haneul.Lib.Buckets

/-!
# Scheduling and deferring the transactions of a commit

Mirror of `collect_transactions_to_schedule` in `consensus_handler.rs` with what it calls
(`merge_and_reorder_transactions`, `load_deferred_transactions`,
`handle_deferral_and_cancellation`, `should_defer`), and of what follows it in a commit for the
deferred transactions: `advance_end_of_epoch_state_machine`, `abandon_deferred_transactions` and
`record_deferral_deletion`.

The map of deferred transactions is kept in memory; a commit stages its deletions and
insertions in its output.  What the congestion tracker answers is an input here: for any
transactions that it was told to be scheduled, and the transaction that is asked for.
`CongestionTracker` has the tracker itself.
-/

namespace Haneul.Authority

open Haneul.Map

/-! ### Keys -/

def DeferralKey.lt : DeferralKey → DeferralKey → Bool
  | .randomness a, .randomness b => a < b
  | .randomness _, .consensusRound _ _ => true
  | .consensusRound _ _, .randomness _ => false
  | .consensusRound future a, .consensusRound future' b =>
    future < future' || (future = future' && a < b)

def DeferralKey.inRange (key min max : DeferralKey) : Bool := !key.lt min && key.lt max

def DeferralKey.inFullRangeForRandomness (key : DeferralKey) : Bool :=
  key.inRange (.randomness 0) (.randomness u64Max)

def DeferralKey.inRangeForUpToConsensusRound (round : Round) (key : DeferralKey) : Bool :=
  key.inRange (.consensusRound 0 0) (.consensusRound (round + 1) 0)

abbrev DeferredMap := List (DeferralKey × List Transaction)

/-! ### Inputs of a commit -/

structure SchedulerConfig where
  deferUnpaidAmplification : Bool
  deferOwnedObjectDoubleSpend : Bool
  randomnessStateEnabled : Bool
  mergeCollidingDeferrals : Bool
  maxDeferralRoundsForCongestionControl : Nat
  /-- `ConsensusTransactionOrdering::ByGasPrice`. -/
  orderByGasPrice : Bool
  referenceGasPrice : Nat

structure ScheduledCommit where
  round : Round
  userTransactions : List Transaction
  dkgFailed : Bool
  /-- The commit has a randomness round. -/
  generatingRandomness : Bool
  occurrenceCounts : TransactionDigest → Option Nat
  /-- The keys of `contested_transaction_digests`. -/
  contested : TransactionDigest → Bool
  /-- The congested objects, for the tracker (with or without randomness), the transactions
      that it was bumped for, and a transaction. -/
  congestedObjects : Bool → List Transaction → Transaction → Option (List ObjectID)
  /-- The timestamp or a quorum of `EndOfPublish` closes the epoch. -/
  closing : Bool
  deadlineReached : Bool

/-! ### One transaction -/

inductive Decision where
  | defer (key : DeferralKey)
  | cancel (reason : CancelConsensusCertificateReason)
  | schedule
deriving DecidableEq, Repr

section Commit

variable (cfg : SchedulerConfig) (commit : ScheduledCommit)
  (previouslyDeferred : TransactionDigest → Option DeferralKey) (tx : Transaction)

/-- The round from which the transaction is deferred, now or before. -/
def deferredFrom : Round :=
  ((previouslyDeferred tx.digest).map DeferralKey.deferredFromRound).getD commit.round

/-- `DeferralKey::new_for_consensus_round(commit_info.round + 1, deferred_from_round)`. -/
def nextRoundKey : DeferralKey :=
  .consensusRound (commit.round + 1) (deferredFrom commit previouslyDeferred tx)

def withinLimit : Bool :=
  transactionDeferralWithinLimit (nextRoundKey commit previouslyDeferred tx)
    cfg.maxDeferralRoundsForCongestionControl

def unpaidAmplification : Bool :=
  cfg.deferUnpaidAmplification && !tx.restrictsProposers &&
    decide ((commit.occurrenceCounts tx.digest).getD 0 >
      tx.gasPrice / max cfg.referenceGasPrice 1 + 1)

/-- The first check of `should_defer`. -/
def randomnessNotReady : Bool :=
  !commit.dkgFailed && !commit.generatingRandomness && cfg.randomnessStateEnabled &&
    tx.usesRandomness

/-- `handle_deferral_and_cancellation`, up to what it does with the transaction. -/
def handleDeferralAndCancellation (forRandomness : Bool) (bumped : List Transaction)
    (tx : Transaction) : Decision :=
  let key := nextRoundKey commit previouslyDeferred tx
  let within := withinLimit cfg commit previouslyDeferred tx
  if unpaidAmplification cfg commit tx && within then .defer key
  else if commit.contested tx.digest && cfg.deferOwnedObjectDoubleSpend && within then .defer key
  else if randomnessNotReady cfg commit tx then
    .defer (.randomness (deferredFrom commit previouslyDeferred tx))
  else
    match commit.congestedObjects forRandomness bumped tx with
    | some congested => if within then .defer key else .cancel (.congestionOnObjects congested)
    | none => .schedule

/-! ### The loops -/

/-- The accumulators of a loop. -/
structure Scheduling where
  cancelled : List (TransactionDigest × CancelConsensusCertificateReason)
  deferred : DeferredMap
  scheduled : List Transaction
  /-- The transactions for which the tracker was bumped. -/
  bumped : List Transaction

def Scheduling.place (st : Scheduling) (tx : Transaction) : Decision → Scheduling
  | .defer key => { st with deferred := Buckets.append DeferralKey.lt key [tx] st.deferred }
  | .cancel reason => { st with
      cancelled := st.cancelled ++ [(tx.digest, reason)]
      scheduled := st.scheduled ++ [tx] }
  | .schedule => { st with
      scheduled := st.scheduled ++ [tx]
      bumped := st.bumped ++ [tx] }

def handleTransaction (forRandomness : Bool) (st : Scheduling) (tx : Transaction) : Scheduling :=
  st.place tx (handleDeferralAndCancellation cfg commit previouslyDeferred forRandomness st.bumped tx)

/-- One turn of the loop over the transactions with randomness. -/
def handleRandomnessTransaction (st : Scheduling) (tx : Transaction) : Scheduling :=
  if commit.dkgFailed then st.place tx (.cancel .dkgFailed)
  else handleTransaction cfg commit previouslyDeferred true st tx

end Commit

/-! ### Loading -/

section Collect

variable (cfg : SchedulerConfig) (m : DeferredMap) (commit : ScheduledCommit)

/-- `load_deferred_transactions_for_up_to_consensus_round_v2`. -/
def loadForRound : DeferredMap := m.filter fun e => e.1.inRangeForUpToConsensusRound commit.round

/-- `load_deferred_transactions_for_randomness_v2`, when the commit calls it. -/
def loadForRandomness : DeferredMap :=
  if commit.dkgFailed || commit.generatingRandomness then
    m.filter fun e => e.1.inFullRangeForRandomness
  else []

def loadedKeys : List DeferralKey :=
  (loadForRound m commit).map Prod.fst ++ (loadForRandomness m commit).map Prod.fst

def previouslyDeferredTxDigests : TransactionDigest → Option DeferralKey :=
  collect ((loadForRound m commit ++ loadForRandomness m commit).flatMap fun e =>
    e.2.map fun tx => (tx.digest, e.1))

def reorder (txns : List Transaction) : List Transaction :=
  if cfg.orderByGasPrice then txns.mergeSort fun a b => b.gasPrice ≤ a.gasPrice else txns

def orderedTxns : List Transaction :=
  let txns := (Buckets.contents (loadForRound m commit)).filter fun tx => !tx.usesRandomness
  reorder cfg (txns ++ commit.userTransactions.filter fun tx => !tx.usesRandomness)

def orderedRandomnessTxns : List Transaction :=
  let txns := (Buckets.contents (loadForRound m commit)).filter Transaction.usesRandomness
  reorder cfg (Buckets.contents (loadForRandomness m commit) ++ txns ++
    commit.userTransactions.filter Transaction.usesRandomness)

/-! ### The commit -/

structure StagedDeferrals where
  deferredTxns : List (DeferralKey × List Transaction)
  deletedDeferredTxns : List DeferralKey

def enterDeferred (st : DeferredMap × List (DeferralKey × List Transaction))
    (e : DeferralKey × List Transaction) : DeferredMap × List (DeferralKey × List Transaction) :=
  let txns := if cfg.mergeCollidingDeferrals then (Buckets.get e.1 st.1).getD [] ++ e.2 else e.2
  (Buckets.insert DeferralKey.lt e.1 txns st.1, st.2 ++ [(e.1, txns)])

structure Collected where
  transactionsToSchedule : List Transaction
  randomnessTransactionsToSchedule : List Transaction
  cancelledTxns : List (TransactionDigest × CancelConsensusCertificateReason)
  deferred : DeferredMap
  staged : StagedDeferrals

def scheduleTxns : Scheduling :=
  (orderedTxns cfg m commit).foldl
    (handleTransaction cfg commit (previouslyDeferredTxDigests m commit) false) ⟨[], [], [], []⟩

def scheduleRandomnessTxns : Scheduling :=
  (orderedRandomnessTxns cfg m commit).foldl
    (handleRandomnessTransaction cfg commit (previouslyDeferredTxDigests m commit))
    { scheduleTxns cfg m commit with scheduled := [], bumped := [] }

def collectTransactionsToSchedule : Collected :=
  let st := scheduleRandomnessTxns cfg m commit
  let entered := st.deferred.foldl (enterDeferred cfg) (m, [])
  { transactionsToSchedule := (scheduleTxns cfg m commit).scheduled
    randomnessTransactionsToSchedule := st.scheduled
    cancelledTxns := st.cancelled
    deferred := entered.1
    staged := ⟨entered.2, loadedKeys m commit⟩ }

end Collect

def remaining (c : Collected) : DeferredMap :=
  c.deferred.filter fun e => e.1 ∉ c.staged.deletedDeferredTxns

/-- `abandon_deferred_transactions`: the staged output, and the transactions that are given up. -/
def abandonDeferredTransactions (c : Collected) : StagedDeferrals × List Transaction :=
  (⟨[], c.staged.deletedDeferredTxns ++ (remaining c).map Prod.fst⟩, Buckets.contents (remaining c))

structure HandlerState where
  deferred : DeferredMap
  /-- `RejectAllTx`. -/
  closed : Bool

structure CommitOutcome where
  collected : Collected
  staged : StagedDeferrals
  abandoned : List Transaction
  /-- The output is pushed. -/
  makeCheckpoint : Bool
  state : HandlerState

/-- `advance_end_of_epoch_state_machine`: whether this is the final round, and whether there
    are deferred transactions in it. -/
def finalRound (s : HandlerState) (commit : ScheduledCommit) (c : Collected) : Bool × Bool :=
  let hasDeferredTxns := !c.staged.deferredTxns.isEmpty || !c.deferred.isEmpty
  (commit.closing && (!hasDeferredTxns || commit.deadlineReached) && !s.closed, hasDeferredTxns)

/-- A commit, from `collect_transactions_to_schedule` to `record_deferral_deletion`. -/
def handleCommit (cfg : SchedulerConfig) (s : HandlerState) (commit : ScheduledCommit) :
    CommitOutcome :=
  let c := collectTransactionsToSchedule cfg s.deferred commit
  let (final, hasDeferredTxns) := finalRound s commit c
  let (staged, abandoned) :=
    if final && hasDeferredTxns then abandonDeferredTransactions c else (c.staged, [])
  let closed := s.closed || final
  let shouldAcceptTx := !commit.closing || !closed
  let makeCheckpoint := shouldAcceptTx || final
  { collected := c
    staged := staged
    abandoned := abandoned
    makeCheckpoint := makeCheckpoint
    state := {
      deferred :=
        if makeCheckpoint then c.deferred.filter fun e => e.1 ∉ staged.deletedDeferredTxns
        else c.deferred
      closed := closed } }

/-- The writes of the staged deletions and insertions, as `ConsensusCommitOutput.deferredWrites`
    has them. -/
def StagedDeferrals.writes (staged : StagedDeferrals) :
    DeferralKey → Option (Option (List Transaction)) :=
  collect (staged.deletedDeferredTxns.map (fun key => (key, none)) ++
    staged.deferredTxns.map fun entry => (entry.1, some entry.2))

end Haneul.Authority
