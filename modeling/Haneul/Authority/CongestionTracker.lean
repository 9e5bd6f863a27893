import Haneul.Authority.Transaction
import Haneul.Lib.Budget
import Haneul.Lib.Loop

/-!
# Congestion control of shared objects

Mirror of `authority/shared_object_congestion_tracker.rs` and of the loading of debts in
`authority/consensus_quarantine.rs`.  A tracker lives for one commit.  It starts with the
debts of the objects that the transactions of the commit name, admits a transaction while
the cost on its objects is within the budget of the commit and the burst, and leaves what
is above the budget as the debts of later commits.

The maps from objects are functions.  The stored debts are read through the quarantine,
which serves the newest entry that was pushed for an object.  There is one tracker for the
transactions that use randomness and one for the others, each with its own debts; a run
here is the run of either.
-/

namespace Haneul.Authority

open List

variable {debts : ObjectID → Option CongestionPerObjectDebt} {start : SharedObjectCongestionTracker}
  {o : ObjectID} {scheduled : List ScheduledCost} {s : CongestionState}

/-! ### The code -/

structure ExecutionTimeEstimateParams where
  targetUtilization : Nat
  allowedTxnCostOverageBurstLimitUs : Nat
  randomnessScalar : Nat
deriving DecidableEq, Repr

structure CongestionParams where
  params : ExecutionTimeEstimateParams
  forRandomness : Bool
deriving DecidableEq, Repr

namespace CongestionParams

def commitBudget (p : CongestionParams) (info : ConsensusCommitInfo) : Nat :=
  let commitPeriodMicros := info.estimatedCommitPeriodMicros % 2 ^ 64
  let budget := saturatingMul commitPeriodMicros p.params.targetUtilization / 100
  if p.forRandomness then saturatingMul budget p.params.randomnessScalar / 100 else budget

def maxBurst (p : CongestionParams) : Nat :=
  let burst := p.params.allowedTxnCostOverageBurstLimitUs
  if p.forRandomness then saturatingMul burst p.params.randomnessScalar / 100 else burst

end CongestionParams

inductive CongestionFault where
  | congestedObjectsEmpty
  | endCostDecreased
  | debtRoundNotBefore
deriving DecidableEq, Repr

structure SharedObjectCongestionTracker where
  objectExecutionCost : ObjectID → Option Nat
  params : CongestionParams

namespace SharedObjectCongestionTracker

def new (initialObjectDebts : ObjectID → Option Nat) (params : ExecutionTimeEstimateParams)
    (forRandomness : Bool) : SharedObjectCongestionTracker :=
  ⟨initialObjectDebts, ⟨params, forRandomness⟩⟩

variable (tracker : SharedObjectCongestionTracker)

def costOf (o : ObjectID) : Nat := (tracker.objectExecutionCost o).getD 0

def computeTxStartAtCost (sharedInputObjects : List SharedInputObject) : Nat :=
  (sharedInputObjects.map fun obj => tracker.costOf obj.id).foldr max 0

/-- The estimate of the execution time, which is made outside, as a `u64`. -/
def getTxCost (estimateUs : Nat) : Nat := min estimateUs u64Max

def shouldDeferDueToObjectCongestion
    (cert : Transaction) (previouslyDeferred : TransactionDigest → Option DeferralKey)
    (info : ConsensusCommitInfo) : Except CongestionFault (Option (DeferralKey × List ObjectID)) :=
  if cert.sharedInputObjects = [] then .ok none
  else
    let startCost := tracker.computeTxStartAtCost cert.sharedInputObjects
    let burstLimit := saturatingAdd (tracker.params.commitBudget info) tracker.params.maxBurst
    if startCost ≤ burstLimit then .ok none
    else
      let congested := (cert.sharedInputObjects.filter fun obj =>
        startCost = tracker.costOf obj.id).map SharedInputObject.id
      if congested = [] then .error .congestedObjectsEmpty
      else
        let deferredFromRound := match previouslyDeferred cert.digest with
          | some previousKey => previousKey.deferredFromRound
          | none => info.round
        .ok (some (.consensusRound (info.round + 1) deferredFromRound, congested))

def setCost (o : ObjectID) (cost : Nat) :
    SharedObjectCongestionTracker :=
  { tracker with objectExecutionCost := Function.update tracker.objectExecutionCost o (some cost) }

def bumpObject (endCost : Nat) (tracker : SharedObjectCongestionTracker) (obj : SharedInputObject) :
    Except CongestionFault SharedObjectCongestionTracker :=
  if obj.isAccessedExclusively then
    if (tracker.objectExecutionCost obj.id).all fun old => old ≤ endCost then
      .ok (tracker.setCost obj.id endCost)
    else .error .endCostDecreased
  else .ok tracker

def bumpObjectExecutionCost (txCost : Nat)
    (cert : Transaction) : Except CongestionFault SharedObjectCongestionTracker :=
  if cert.sharedInputObjects = [] then .ok tracker
  else
    let startCost := tracker.computeTxStartAtCost cert.sharedInputObjects
    cert.sharedInputObjects.foldlM (bumpObject (saturatingAdd startCost txCost)) tracker

/-- `accumulated_debts` of `finish_commit`. -/
def finishCommit (info : ConsensusCommitInfo) :
    ObjectID → Option Nat := fun o =>
  (tracker.objectExecutionCost o).bind fun cost =>
    let remainingCost := cost - tracker.params.commitBudget info
    if remainingCost > 0 then some remainingCost else none

end SharedObjectCongestionTracker

structure CongestionConfig where
  params : ExecutionTimeEstimateParams
  maxAccumulatedTxnCostPerObjectInMysticetiCommit : Option Nat
  maxAccumulatedRandomnessTxnCostPerObjectInMysticetiCommit : Option Nat
deriving DecidableEq, Repr

/-- `CongestionPerObjectDebt::V1`: the round of the commit that left the debt, and the debt. -/
structure CongestionPerObjectDebt where
  round : Round
  debt : Nat
deriving DecidableEq, Repr

def perCommitBudget (cfg : CongestionConfig) (forRandomness : Bool) : Nat :=
  let default := cfg.maxAccumulatedTxnCostPerObjectInMysticetiCommit.getD 0
  if forRandomness then
    cfg.maxAccumulatedRandomnessTxnCostPerObjectInMysticetiCommit.getD default
  else default

/-- A stored debt as it is loaded in a later round.  The product is a `u64`. -/
def CongestionPerObjectDebt.decayed (stored : CongestionPerObjectDebt) (budget : Nat)
    (currentRound : Round) : Nat :=
  let numRounds := currentRound - stored.round - 1
  stored.debt - (budget * numRounds) % 2 ^ 64

def sharedInputObjectIds (transactions : List Transaction) : List ObjectID :=
  ((transactions.flatMap fun tx => tx.sharedInputObjects.map SharedInputObject.id).insertionSort
    (· ≤ ·)).dedup

def loadDebt (budget : Nat) (debts : ObjectID → Option CongestionPerObjectDebt)
    (currentRound : Round) (loaded : ObjectID → Option Nat) (o : ObjectID) :
    Except CongestionFault (ObjectID → Option Nat) :=
  match debts o with
  | none => .ok loaded
  | some stored =>
    if currentRound > stored.round then
      .ok (Function.update loaded o (some (stored.decayed budget currentRound)))
    else .error .debtRoundNotBefore

def loadInitialObjectDebts (cfg : CongestionConfig) (forRandomness : Bool)
    (debts : ObjectID → Option CongestionPerObjectDebt) (currentRound : Round)
    (transactions : List Transaction) : Except CongestionFault (ObjectID → Option Nat) :=
  (sharedInputObjectIds transactions).foldlM
    (loadDebt (perCommitBudget cfg forRandomness) debts currentRound) fun _ => none

/-! ### The commits -/

/-- A transaction of a commit, with the estimate of its cost.  The checks that precede the
    congestion check in `handle_deferral_and_cancellation` may defer or cancel it. -/
structure Candidate where
  tx : Transaction
  estimateUs : Nat
  reachesCongestionCheck : Bool := true
deriving DecidableEq, Repr

structure CongestionCommit where
  info : ConsensusCommitInfo
  transactions : List Candidate
  previouslyDeferred : TransactionDigest → Option DeferralKey := fun _ => none

structure ScheduledCost where
  tx : Transaction
  txCost : Nat
  startCost : Nat
  endCost : Nat
deriving DecidableEq, Repr

variable (info : ConsensusCommitInfo)

/-- The congestion check of `handle_deferral_and_cancellation` and what follows it. -/
def handleCandidate (previouslyDeferred : TransactionDigest → Option DeferralKey)
    (st : SharedObjectCongestionTracker × List ScheduledCost) (c : Candidate) :
    Except CongestionFault (SharedObjectCongestionTracker × List ScheduledCost) :=
  if c.reachesCongestionCheck then do
    let txCost := SharedObjectCongestionTracker.getTxCost c.estimateUs
    match ← st.1.shouldDeferDueToObjectCongestion c.tx previouslyDeferred info with
    | some _ => .ok st
    | none =>
      let tracker ← st.1.bumpObjectExecutionCost txCost c.tx
      let startCost := st.1.computeTxStartAtCost c.tx.sharedInputObjects
      .ok (tracker, st.2 ++ [⟨c.tx, txCost, startCost, saturatingAdd startCost txCost⟩])
  else .ok st

structure CommitRecord where
  info : ConsensusCommitInfo
  commitBudget : Nat
  initialDebts : ObjectID → Option Nat
  scheduled : List ScheduledCost

structure CongestionState where
  debts : ObjectID → Option CongestionPerObjectDebt := fun _ => none
  log : List CommitRecord := []

/-- The debts that a commit leaves go over those that are stored; a debt that a commit has
    paid is not stored, and does not take the place of the one before. -/
def storeDebts (debts : ObjectID → Option CongestionPerObjectDebt) (round : Round)
    (accumulated : ObjectID → Option Nat) : ObjectID → Option CongestionPerObjectDebt := fun o =>
  match accumulated o with
  | some debt => some ⟨round, debt⟩
  | none => debts o

def processCommit (cfg : CongestionConfig) (forRandomness : Bool) (s : CongestionState)
    (c : CongestionCommit) : Except CongestionFault CongestionState := do
  let initial ← loadInitialObjectDebts cfg forRandomness s.debts c.info.round
    (c.transactions.map Candidate.tx)
  let tracker := SharedObjectCongestionTracker.new initial cfg.params forRandomness
  let (tracker, scheduled) ← c.transactions.foldlM
    (handleCandidate c.info c.previouslyDeferred) (tracker, [])
  .ok {
    debts := storeDebts s.debts c.info.round (tracker.finishCommit c.info)
    log := s.log ++ [⟨c.info, tracker.params.commitBudget c.info, initial, scheduled⟩] }

/-! ### The tracker within a commit -/

theorem le_foldr_max {l : List Nat} {a : Nat} (h : a ∈ l) : a ≤ l.foldr max 0 := by
  induction l with
  | nil => cases h
  | cons b l ih =>
    rcases mem_cons.mp h with rfl | hrest
    · exact le_max_left _ _
    · exact le_trans (ih hrest) (le_max_right _ _)

namespace SharedObjectCongestionTracker

variable {tracker : SharedObjectCongestionTracker} {o : ObjectID} {objs : List SharedInputObject}

theorem costOf_le_computeTxStartAtCost {obj : SharedInputObject}
    (h : obj ∈ objs) : tracker.costOf obj.id ≤ tracker.computeTxStartAtCost objs :=
  le_foldr_max (mem_map.mpr ⟨obj, h, rfl⟩)

theorem computeTxStartAtCost_attained (tracker : SharedObjectCongestionTracker) (h : objs ≠ []) :
    ∃ obj ∈ objs, tracker.computeTxStartAtCost objs = tracker.costOf obj.id := by
  induction objs with
  | nil => exact absurd rfl h
  | cons first rest ih =>
    have hstart : tracker.computeTxStartAtCost (first :: rest)
        = max (tracker.costOf first.id) (tracker.computeTxStartAtCost rest) := rfl
    by_cases hrest : rest = []
    · subst hrest
      refine ⟨first, .head _, ?_⟩
      rw [hstart]
      exact max_eq_left (Nat.zero_le _)
    · obtain ⟨obj, hobj, heq⟩ := ih hrest
      rcases le_total (tracker.costOf first.id) (tracker.computeTxStartAtCost rest) with hle | hle
      · exact ⟨obj, mem_cons_of_mem first hobj, by rw [hstart, max_eq_right hle, heq]⟩
      · exact ⟨first, .head _, by rw [hstart, max_eq_left hle]⟩

/-- The check returns, and lets a transaction on shared objects pass only while its start is
    within the budget and the burst. -/
theorem shouldDefer_spec (tracker : SharedObjectCongestionTracker) (cert : Transaction)
    (previouslyDeferred : TransactionDigest → Option DeferralKey) (info : ConsensusCommitInfo) :
    ∃ deferral, tracker.shouldDeferDueToObjectCongestion cert previouslyDeferred info = .ok deferral ∧
      (deferral = none → cert.sharedInputObjects ≠ [] →
        tracker.computeTxStartAtCost cert.sharedInputObjects
          ≤ tracker.params.commitBudget info + tracker.params.maxBurst) := by
  unfold shouldDeferDueToObjectCongestion
  dsimp only
  split_ifs with hempty hlimit hcongested
  · exact ⟨none, rfl, fun _ h => absurd hempty h⟩
  · exact ⟨none, rfl, fun _ _ => le_trans hlimit (min_le_left _ _)⟩
  · -- some object has the cost at which the transaction starts
    obtain ⟨obj, hobj, heq⟩ := tracker.computeTxStartAtCost_attained hempty
    rw [map_eq_nil_iff, filter_eq_nil_iff] at hcongested
    exact absurd (decide_eq_true heq) (hcongested obj hobj)
  · exact ⟨_, rfl, fun h => absurd h (by simp)⟩

/-- The costs are values of type `u64`. -/
def Bounded (tracker : SharedObjectCongestionTracker) : Prop := ∀ o, tracker.costOf o ≤ u64Max

theorem bumpObjects_spec (endCost : Nat) (objs : List SharedInputObject)
    (tracker : SharedObjectCongestionTracker)
    (hend : ∀ obj ∈ objs, tracker.costOf obj.id ≤ endCost) :
    ∃ tracker', objs.foldlM (bumpObject endCost) tracker = .ok tracker' ∧
      tracker'.params = tracker.params ∧
      ∀ o, tracker'.objectExecutionCost o =
        if objs.any fun obj => obj.id = o && obj.isAccessedExclusively then some endCost
        else tracker.objectExecutionCost o := by
  induction objs generalizing tracker with
  | nil => exact ⟨tracker, rfl, rfl, fun o => rfl⟩
  | cons first rest ih =>
    by_cases hexclusive : first.isAccessedExclusively
    · have hold : (tracker.objectExecutionCost first.id).all fun old => old ≤ endCost := by
        have hle := hend first (.head _)
        rw [costOf] at hle
        cases hcost : tracker.objectExecutionCost first.id with
        | none => rfl
        | some old =>
          rw [hcost] at hle
          exact decide_eq_true hle
      have hstep : bumpObject endCost tracker first = .ok (tracker.setCost first.id endCost) := by
        rw [bumpObject, if_pos hexclusive, if_pos hold]
      have hrest : ∀ obj ∈ rest, (tracker.setCost first.id endCost).costOf obj.id ≤ endCost := by
        intro obj hobj
        have hle := hend obj (.tail first hobj)
        by_cases hid : obj.id = first.id
        · simp [costOf, setCost, hid]
        · simpa [costOf, setCost, Function.update_of_ne hid] using hle
      obtain ⟨tracker', hrun, hparams, hcost⟩ := ih (tracker.setCost first.id endCost) hrest
      refine ⟨tracker', foldlM_cons_eq_ok.mpr ⟨_, hstep, hrun⟩, hparams, fun o => ?_⟩
      rw [hcost o, any_cons]
      by_cases hid : first.id = o
      · subst hid
        simp [hexclusive, setCost]
      · simp [hid, setCost, Function.update_of_ne (Ne.symm hid)]
    · have hstep : bumpObject endCost tracker first = .ok tracker := by
        rw [bumpObject, if_neg hexclusive]
      obtain ⟨tracker', hrun, hparams, hcost⟩ := ih tracker
        fun obj hobj => hend obj (.tail first hobj)
      refine ⟨tracker', foldlM_cons_eq_ok.mpr ⟨_, hstep, hrun⟩, hparams, fun o => ?_⟩
      rw [hcost o, any_cons]
      simp [hexclusive]

theorem bumpObjectExecutionCost_spec (hbounded : tracker.Bounded) (txCost : Nat)
    (cert : Transaction) :
    ∃ tracker', tracker.bumpObjectExecutionCost txCost cert = .ok tracker' ∧
      tracker'.params = tracker.params ∧
      ∀ o, tracker'.objectExecutionCost o =
        if cert.writes o then
          some (saturatingAdd (tracker.computeTxStartAtCost cert.sharedInputObjects) txCost)
        else tracker.objectExecutionCost o := by
  unfold bumpObjectExecutionCost
  split_ifs with hempty
  · refine ⟨tracker, rfl, rfl, fun o => ?_⟩
    rw [Transaction.writes, hempty]
    rfl
  · refine bumpObjects_spec _ _ _ fun obj hobj => le_min ?_ (hbounded obj.id)
    exact le_trans (costOf_le_computeTxStartAtCost hobj) (Nat.le_add_right _ _)

theorem finishCommit_eq (tracker : SharedObjectCongestionTracker) (info : ConsensusCommitInfo)
    (o : ObjectID) :
    tracker.finishCommit info o =
      if tracker.params.commitBudget info < tracker.costOf o then
        some (tracker.costOf o - tracker.params.commitBudget info)
      else none := by
  rw [finishCommit, costOf]
  cases tracker.objectExecutionCost o <;> simp

end SharedObjectCongestionTracker

open SharedObjectCongestionTracker

/-! ### The transactions of a commit -/

def spentOn (o : ObjectID) (scheduled : List ScheduledCost) : Nat :=
  ((scheduled.filter fun e => e.tx.writes o).map ScheduledCost.txCost).sum

theorem spentOn_append (o : ObjectID) (l l' : List ScheduledCost) :
    spentOn o (l ++ l') = spentOn o l + spentOn o l' := by
  simp [spentOn]

/-- No end cost of the entries was cut off at the largest `u64`. -/
def Exact (scheduled : List ScheduledCost) : Prop :=
  ∀ e ∈ scheduled, e.endCost = e.startCost + e.txCost

/-- What holds between the tracker that a commit starts with and the one it has got to, with
    the transactions scheduled in between. -/
structure Tracks (info : ConsensusCommitInfo) (start tracker : SharedObjectCongestionTracker)
    (scheduled : List ScheduledCost) : Prop where
  params : tracker.params = start.params
  bounded : tracker.Bounded
  unwritten : ∀ o, (∀ e ∈ scheduled, e.tx.writes o = false) →
    tracker.objectExecutionCost o = start.objectExecutionCost o
  spent : ∀ o, Exact scheduled → start.costOf o + spentOn o scheduled ≤ tracker.costOf o
  excess : ∀ o largest, (∀ e ∈ scheduled, e.tx.writes o → e.txCost ≤ largest) →
    (∃ e ∈ scheduled, e.tx.writes o) →
    tracker.costOf o ≤ start.params.commitBudget info + start.params.maxBurst + largest

theorem Tracks.refl (hbounded : start.Bounded) : Tracks info start start [] where
  params := rfl
  bounded := hbounded
  unwritten _ _ := rfl
  spent o _ := le_refl _
  excess o largest _ h := by
    obtain ⟨e, he, _⟩ := h
    cases he

theorem Tracks.schedule {info : ConsensusCommitInfo}
    {start tracker tracker' : SharedObjectCongestionTracker}
    (h : Tracks info start tracker scheduled) {tx : Transaction} {txCost startCost : Nat}
    (hstart : startCost = tracker.computeTxStartAtCost tx.sharedInputObjects)
    (hadmitted : tx.sharedInputObjects ≠ [] →
      startCost ≤ tracker.params.commitBudget info + tracker.params.maxBurst)
    (hparams : tracker'.params = tracker.params) (hcost : ∀ o, tracker'.objectExecutionCost o =
      if tx.writes o then some (saturatingAdd startCost txCost)
      else tracker.objectExecutionCost o) :
    Tracks info start tracker'
      (scheduled ++ [⟨tx, txCost, startCost, saturatingAdd startCost txCost⟩]) := by
  have hwritten : ∀ o, tx.writes o = true →
      tracker'.costOf o = saturatingAdd startCost txCost := by
    intro o ho
    rw [costOf, hcost, if_pos ho, Option.getD_some]
  have hkept : ∀ o, tx.writes o = false → tracker'.costOf o = tracker.costOf o := by
    intro o ho
    rw [costOf, hcost, if_neg (by simp [ho]), costOf]
  have hbefore : ∀ o, tx.writes o = true → tracker.costOf o ≤ startCost := by
    intro o ho
    obtain ⟨obj, hobj, hid⟩ := any_eq_true.mp ho
    simp only [Bool.and_eq_true, decide_eq_true_eq] at hid
    rw [hstart, ← hid.1]
    exact costOf_le_computeTxStartAtCost hobj
  constructor
  · exact hparams.trans h.params
  · intro o
    cases ho : tx.writes o with
    | true => exact le_of_eq_of_le (hwritten o ho) (min_le_right _ _)
    | false => exact le_of_eq_of_le (hkept o ho) (h.bounded o)
  · intro o hnone
    have hlast := hnone _ mem_concat_self
    rw [hcost, if_neg (by simp [hlast])]
    exact h.unwritten o fun e he => hnone e (mem_append_left _ he)
  · intro o hexact
    have hspent := h.spent o fun e he => hexact e (mem_append_left _ he)
    have hend := hexact _ mem_concat_self
    rw [spentOn_append]
    cases ho : tx.writes o with
    | true =>
      have hentry : spentOn o [⟨tx, txCost, startCost, saturatingAdd startCost txCost⟩]
          = txCost := by simp [spentOn, ho]
      have hcostOf := hwritten o ho
      have hle := hbefore o ho
      dsimp only at hend
      omega
    | false =>
      have hentry : spentOn o [⟨tx, txCost, startCost, saturatingAdd startCost txCost⟩]
          = 0 := by simp [spentOn, ho]
      have hcostOf := hkept o ho
      omega
  · intro o largest hlargest hsome
    cases ho : tx.writes o with
    | true =>
      have hcostle := hlargest _ mem_concat_self ho
      dsimp only at hcostle
      have hne : tx.sharedInputObjects ≠ [] := by
        intro hnil
        simp [Transaction.writes, hnil] at ho
      have hlimit := hadmitted hne
      rw [h.params] at hlimit
      have hend : saturatingAdd startCost txCost ≤ startCost + txCost := min_le_left _ _
      rw [hwritten o ho]
      omega
    | false =>
      rw [hkept o ho]
      refine h.excess o largest (fun e he => hlargest e (mem_append_left _ he)) ?_
      obtain ⟨e, he, hwrites⟩ := hsome
      rcases mem_append.mp he with he | he
      · exact ⟨e, he, hwrites⟩
      · rw [mem_singleton.mp he] at hwrites
        exact absurd hwrites (by simp [ho])

theorem handleCandidate_spec {info : ConsensusCommitInfo}
    {st : SharedObjectCongestionTracker × List ScheduledCost} (h : Tracks info start st.1 st.2)
    (previouslyDeferred : TransactionDigest → Option DeferralKey) (c : Candidate) :
    ∃ st', handleCandidate info previouslyDeferred st c = .ok st' ∧ Tracks info start st'.1 st'.2 ∧
      ∀ e ∈ st'.2, e ∈ st.2 ∨ e.tx = c.tx := by
  unfold handleCandidate
  split_ifs with hreaches
  · obtain ⟨deferral, hdeferral, hadmitted⟩ := st.1.shouldDefer_spec c.tx previouslyDeferred info
    simp only [hdeferral, bind, Except.bind]
    cases deferral with
    | some deferral => exact ⟨st, rfl, h, fun e he => .inl he⟩
    | none =>
      obtain ⟨tracker', hbump, hparams, hcost⟩ :=
        bumpObjectExecutionCost_spec h.bounded (getTxCost c.estimateUs) c.tx
      simp only [hbump]
      refine ⟨_, rfl, h.schedule rfl (hadmitted rfl) hparams hcost, fun e he => ?_⟩
      exact (mem_append.mp he).imp_right fun he => by rw [mem_singleton.mp he]
  · exact ⟨st, rfl, h, fun e he => .inl he⟩

theorem handleCandidates_spec (hbounded : start.Bounded)
    (previouslyDeferred : TransactionDigest → Option DeferralKey) (transactions : List Candidate) :
    ∃ st', transactions.foldlM (handleCandidate info previouslyDeferred) (start, []) = .ok st' ∧
      Tracks info start st'.1 st'.2 ∧ ∀ e ∈ st'.2, e.tx ∈ transactions.map Candidate.tx := by
  refine foldlM_total (fun st : SharedObjectCongestionTracker × List ScheduledCost =>
    Tracks info start st.1 st.2 ∧ ∀ e ∈ st.2, e.tx ∈ transactions.map Candidate.tx)
    ?_ ⟨.refl info hbounded, fun e he => by cases he⟩
  intro c hc st hinv
  obtain ⟨st', hst', htracks, hentries⟩ := handleCandidate_spec hinv.1 previouslyDeferred c
  refine ⟨st', hst', htracks, fun e he => ?_⟩
  rcases hentries e he with hold | heq
  · exact hinv.2 e hold
  · rw [heq]
    exact mem_map_of_mem hc

/-! ### The debts of a commit -/

variable {transactions : List Transaction}

theorem mem_sharedInputObjectIds :
    o ∈ sharedInputObjectIds transactions ↔
      ∃ tx ∈ transactions, ∃ obj ∈ tx.sharedInputObjects, obj.id = o := by
  simp [sharedInputObjectIds]

theorem mem_sharedInputObjectIds_of_writes {tx : Transaction}
    (htx : tx ∈ transactions) (hwrites : tx.writes o = true) :
    o ∈ sharedInputObjectIds transactions := by
  obtain ⟨obj, hobj, hid⟩ := any_eq_true.mp hwrites
  simp only [Bool.and_eq_true, decide_eq_true_eq] at hid
  exact mem_sharedInputObjectIds.mpr ⟨tx, htx, obj, hobj, hid.1⟩

variable {currentRound : Round}

section

variable (hrounds : ∀ o stored, debts o = some stored → stored.round < currentRound)
include hrounds

theorem loadDebt_spec (budget : Nat) (loaded : ObjectID → Option Nat) (o : ObjectID) :
    loadDebt budget debts currentRound loaded o = .ok (Function.update loaded o
      (((debts o).map fun d => d.decayed budget currentRound).or (loaded o))) := by
  rw [loadDebt]
  cases hdebt : debts o with
  | none => simp
  | some stored => simp [hrounds o stored hdebt]

theorem loadDebts_spec (budget : Nat) (ids : List ObjectID) (loaded : ObjectID → Option Nat) :
    ∃ loaded', ids.foldlM (loadDebt budget debts currentRound) loaded = .ok loaded' ∧
      ∀ o, loaded' o = if o ∈ ids then
          ((debts o).map fun d => d.decayed budget currentRound).or (loaded o)
        else loaded o := by
  induction ids generalizing loaded with
  | nil => exact ⟨loaded, rfl, fun o => rfl⟩
  | cons first rest ih =>
    obtain ⟨loaded', hrun, hget⟩ := ih _
    refine ⟨loaded', foldlM_cons_eq_ok.mpr ⟨_, loadDebt_spec hrounds budget loaded first, hrun⟩,
      fun o => ?_⟩
    rw [hget o]
    by_cases ho : o = first
    · subst ho
      cases debts o <;> simp
    · simp [ho]

theorem loadInitialObjectDebts_spec (cfg : CongestionConfig) (forRandomness : Bool)
    (transactions : List Transaction) :
    ∃ initial, loadInitialObjectDebts cfg forRandomness debts currentRound transactions
        = .ok initial ∧
      ∀ o, initial o = if o ∈ sharedInputObjectIds transactions then
          (debts o).map fun d => d.decayed (perCommitBudget cfg forRandomness) currentRound
        else none := by
  obtain ⟨initial, hrun, hget⟩ := loadDebts_spec hrounds (perCommitBudget cfg forRandomness)
    (sharedInputObjectIds transactions) fun _ => none
  refine ⟨initial, hrun, fun o => ?_⟩
  rw [hget o, Option.or_none]

end

/-! ### Runs -/

variable {cfg : CongestionConfig} {forRandomness : Bool}

def budgetsSince (log : List CommitRecord) (round : Round) : Nat :=
  ((log.filter fun r => round < r.info.round).map CommitRecord.commitBudget).sum

/-- What is left of the debt of an object when the commits since it was stored have paid
    their budgets for it. -/
def owed (s : CongestionState) (o : ObjectID) : Nat :=
  match s.debts o with
  | none => 0
  | some stored => stored.debt - budgetsSince s.log stored.round

/-- The debts that the commit loads are not lower than what the budgets of the commits since
    leave of them, and no cost of the commit is cut off at the largest `u64`. -/
structure Covered (cfg : CongestionConfig) (forRandomness : Bool) (s : CongestionState)
    (c : CongestionCommit) (s' : CongestionState) : Prop where
  decay : ∀ o ∈ sharedInputObjectIds (c.transactions.map Candidate.tx), ∀ stored,
    s.debts o = some stored →
      stored.debt ≤ stored.decayed (perCommitBudget cfg forRandomness) c.info.round
        + budgetsSince s.log stored.round
  exact : ∀ r ∈ s'.log, Exact r.scheduled

/-- The states after commits of increasing rounds that all meet the condition. -/
inductive CongestionReachable (cfg : CongestionConfig) (forRandomness : Bool)
    (Meets : CongestionState → CongestionCommit → CongestionState → Prop) :
    CongestionState → Prop
  | start : CongestionReachable cfg forRandomness Meets {}
  | commit {s s' : CongestionState} {c : CongestionCommit}
      (h : CongestionReachable cfg forRandomness Meets s)
      (hround : ∀ r ∈ s.log, r.info.round < c.info.round)
      (hstep : processCommit cfg forRandomness s c = .ok s') (hmeets : Meets s c s') :
      CongestionReachable cfg forRandomness Meets s'

/-- Stored debts are `u64` values that a commit of the run has left. -/
def StoredInv (s : CongestionState) : Prop :=
  ∀ o stored, s.debts o = some stored →
    stored.debt ≤ u64Max ∧ ∃ r ∈ s.log, r.info.round = stored.round

/-- Everything a commit does. -/
structure CommitEffect (cfg : CongestionConfig) (forRandomness : Bool) (s : CongestionState)
    (c : CongestionCommit) (s' : CongestionState) (r : CommitRecord)
    (tracker : SharedObjectCongestionTracker) : Prop where
  info : r.info = c.info
  budget : r.commitBudget = (CongestionParams.mk cfg.params forRandomness).commitBudget c.info
  initial : ∀ o, r.initialDebts o =
    if o ∈ sharedInputObjectIds (c.transactions.map Candidate.tx) then
      (s.debts o).map fun d => d.decayed (perCommitBudget cfg forRandomness) c.info.round
    else none
  tracks : Tracks c.info (.new r.initialDebts cfg.params forRandomness) tracker r.scheduled
  named : ∀ e ∈ r.scheduled, e.tx ∈ c.transactions.map Candidate.tx
  log : s'.log = s.log ++ [r]
  debts : ∀ o, s'.debts o = if r.commitBudget < tracker.costOf o then
      some ⟨c.info.round, tracker.costOf o - r.commitBudget⟩
    else s.debts o

theorem processCommit_spec (cfg : CongestionConfig) (forRandomness : Bool) {c : CongestionCommit}
    (hinv : StoredInv s) (hround : ∀ r ∈ s.log, r.info.round < c.info.round) :
    ∃ s', processCommit cfg forRandomness s c = .ok s' ∧
      ∃ r tracker, CommitEffect cfg forRandomness s c s' r tracker := by
  have hrounds : ∀ o stored, s.debts o = some stored → stored.round < c.info.round := by
    intro o stored hstored
    obtain ⟨_, r, hr, heq⟩ := hinv o stored hstored
    exact heq ▸ hround r hr
  obtain ⟨initial, hload, hinitial⟩ := loadInitialObjectDebts_spec hrounds cfg forRandomness
    (c.transactions.map Candidate.tx)
  have hbounded : (SharedObjectCongestionTracker.new initial cfg.params forRandomness).Bounded := by
    intro o
    show (initial o).getD 0 ≤ u64Max
    rw [hinitial o]
    split_ifs with hnamed
    · cases hdebt : s.debts o with
      | none => exact Nat.zero_le _
      | some stored => exact le_trans (Nat.sub_le _ _) (hinv o stored hdebt).1
    · exact Nat.zero_le _
  obtain ⟨⟨tracker, scheduled⟩, hrun, htracks, hnamed⟩ :=
    handleCandidates_spec c.info hbounded c.previouslyDeferred c.transactions
  have hparams : tracker.params = ⟨cfg.params, forRandomness⟩ := htracks.params
  refine ⟨⟨storeDebts s.debts c.info.round (tracker.finishCommit c.info),
      s.log ++ [⟨c.info, tracker.params.commitBudget c.info, initial, scheduled⟩]⟩, ?_,
    ⟨c.info, tracker.params.commitBudget c.info, initial, scheduled⟩, tracker,
    rfl, ?_, hinitial, htracks, hnamed, rfl, ?_⟩
  · simp only [processCommit, hload, hrun, bind, Except.bind]
  · dsimp only
    rw [hparams]
  · intro o
    dsimp only [storeDebts]
    rw [tracker.finishCommit_eq]
    split_ifs <;> rfl

theorem storedInv_of_reachable {Meets : CongestionState → CongestionCommit → CongestionState → Prop}
    (h : CongestionReachable cfg forRandomness Meets s) : StoredInv s := by
  induction h with
  | start => intro o stored hstored; cases hstored
  | @commit s s' c _ hround hstep _ ih =>
    obtain ⟨s₁, hs₁, r, tracker, heffect⟩ := processCommit_spec cfg forRandomness ih hround
    cases hs₁.symm.trans hstep
    intro o stored hstored
    rw [heffect.debts o] at hstored
    rw [heffect.log]
    split_ifs at hstored with hover
    · cases hstored
      refine ⟨le_trans (Nat.sub_le _ _) (heffect.tracks.bounded o), r, ?_, by rw [heffect.info]⟩
      exact mem_concat_self
    · obtain ⟨hle, r', hr', heq⟩ := ih o stored hstored
      exact ⟨hle, r', mem_append_left _ hr', heq⟩

/-! ### The bound -/

theorem budgetsSince_append (log : List CommitRecord) (r : CommitRecord) (round : Round) :
    budgetsSince (log ++ [r]) round =
      budgetsSince log round + if round < r.info.round then r.commitBudget else 0 := by
  rw [budgetsSince, filter_append, map_append, sum_append, ← budgetsSince]
  by_cases h : round < r.info.round <;> simp [h]

theorem budgetsSince_eq_zero {log : List CommitRecord} {round : Round}
    (h : ∀ r ∈ log, r.info.round < round) : budgetsSince log round = 0 := by
  have hnone : log.filter (fun r => round < r.info.round) = [] :=
    filter_eq_nil_iff.mpr fun r hr => by simpa using Nat.le_of_lt (h r hr)
  rw [budgetsSince, hnone]
  rfl

theorem spentOn_eq_zero (h : ∀ e ∈ scheduled, e.tx.writes o = false) : spentOn o scheduled = 0 := by
  have hnone : scheduled.filter (fun e => e.tx.writes o) = [] :=
    filter_eq_nil_iff.mpr fun e he => by rw [h e he]; simp
  rw [spentOn, hnone]
  rfl

theorem writes_of_spentOn_pos
    (h : 0 < spentOn o scheduled) : ∃ e ∈ scheduled, e.tx.writes o = true := by
  by_contra hnone
  push Not at hnone
  have hzero : spentOn o scheduled = 0 :=
    spentOn_eq_zero fun e he => Bool.eq_false_iff.mpr (hnone e he)
  omega

section Step

variable {s s' : CongestionState} {c : CongestionCommit} {r : CommitRecord}
  {tracker : SharedObjectCongestionTracker}

section

variable (heffect : CommitEffect cfg forRandomness s c s' r tracker)
include heffect

variable {o : ObjectID}

/-- What the object opens with and what the commit spends on it are part of what the object
    ends with. -/
theorem CommitEffect.owed_add_spent_le (hcovered : Covered cfg forRandomness s c s')
    (hnamed : o ∈ sharedInputObjectIds (c.transactions.map Candidate.tx)) :
    owed s o + spentOn o r.scheduled ≤ tracker.costOf o := by
  have hexact : Exact r.scheduled := hcovered.exact r (by
    rw [heffect.log]
    exact mem_concat_self)
  have hspent := heffect.tracks.spent o hexact
  have hopen : owed s o ≤ (r.initialDebts o).getD 0 := by
    rw [heffect.initial o, if_pos hnamed, owed]
    cases hdebt : s.debts o with
    | none => exact Nat.zero_le _
    | some stored =>
      have hdecay := hcovered.decay o hnamed stored hdebt
      simp only [Option.map_some, Option.getD_some]
      omega
  have hstart : (SharedObjectCongestionTracker.new r.initialDebts cfg.params
    forRandomness).costOf o = (r.initialDebts o).getD 0 := rfl
  omega

/-- An object that no transaction of the commit names is not touched. -/
theorem CommitEffect.unnamed (hnamed : o ∉ sharedInputObjectIds (c.transactions.map Candidate.tx)) :
    spentOn o r.scheduled = 0 ∧ tracker.costOf o = 0 := by
  have hunwritten : ∀ e ∈ r.scheduled, e.tx.writes o = false := by
    intro e he
    by_contra hwrites
    rw [Bool.not_eq_false] at hwrites
    exact hnamed (mem_sharedInputObjectIds_of_writes (heffect.named e he) hwrites)
  refine ⟨spentOn_eq_zero hunwritten, ?_⟩
  rw [costOf, heffect.tracks.unwritten o hunwritten]
  show (r.initialDebts o).getD 0 = 0
  rw [heffect.initial o, if_neg hnamed, Option.getD_none]

/-- A commit pays from its budget for what was owed on an object and for what it spends on
    it; the rest is owed. -/
theorem CommitEffect.paid (hinv : StoredInv s) (hround : ∀ r ∈ s.log, r.info.round < c.info.round)
    (hcovered : Covered cfg forRandomness s c s') (o : ObjectID) :
    owed s o + spentOn o r.scheduled ≤ r.commitBudget + owed s' o := by
  have hdebts := heffect.debts o
  by_cases hover : r.commitBudget < tracker.costOf o
  · -- the commit stores what is above its budget
    have hnamed : o ∈ sharedInputObjectIds (c.transactions.map Candidate.tx) := by
      by_contra hnamed
      have := (heffect.unnamed hnamed).2
      omega
    have hle := heffect.owed_add_spent_le hcovered hnamed
    have hnext : owed s' o = tracker.costOf o - r.commitBudget := by
      rw [if_pos hover] at hdebts
      rw [owed, hdebts, heffect.log]
      dsimp only
      rw [budgetsSince_append, heffect.info, if_neg (lt_irrefl _), budgetsSince_eq_zero hround]
      rfl
    omega
  · -- the debt that was stored before stays, and this commit has paid its budget too
    rw [if_neg hover] at hdebts
    have hnext : owed s o ≤ r.commitBudget + owed s' o := by
      rw [owed, owed, hdebts]
      cases hdebt : s.debts o with
      | none => exact Nat.zero_le _
      | some stored =>
        obtain ⟨_, r', hr', heq⟩ := hinv o stored hdebt
        have hlt : stored.round < r.info.round := by
          rw [heffect.info, ← heq]
          exact hround r' hr'
        dsimp only
        rw [heffect.log, budgetsSince_append, if_pos hlt]
        omega
    by_cases hnamed : o ∈ sharedInputObjectIds (c.transactions.map Candidate.tx)
    · have hle := heffect.owed_add_spent_le hcovered hnamed
      omega
    · have hspent := (heffect.unnamed hnamed).1
      omega

/-- A commit that spends on an object goes over its budget by the burst and one transaction
    at most. -/
theorem CommitEffect.excess (hcovered : Covered cfg forRandomness s c s') {largest : Nat}
    (hlargest : ∀ e ∈ r.scheduled, e.tx.writes o → e.txCost ≤ largest)
    (hspent : 0 < spentOn o r.scheduled) :
    owed s o + spentOn o r.scheduled ≤ r.commitBudget
      + ((CongestionParams.mk cfg.params forRandomness).maxBurst + largest) := by
  obtain ⟨e, he, hwrites⟩ := writes_of_spentOn_pos hspent
  have hle := heffect.owed_add_spent_le hcovered
    (mem_sharedInputObjectIds_of_writes (heffect.named e he) hwrites)
  have hover := heffect.tracks.excess o largest hlargest ⟨e, he, hwrites⟩
  have hbudget := heffect.budget
  have hstart : (SharedObjectCongestionTracker.new r.initialDebts cfg.params
    forRandomness).params = ⟨cfg.params, forRandomness⟩ := rfl
  rw [hstart] at hover
  omega

end

end Step

def periodOf (o : ObjectID) (r : CommitRecord) : Budget.Period :=
  ⟨r.commitBudget, spentOn o r.scheduled⟩

/-- The last commits of a run, from any commit on, pay what they spend on an object. -/
theorem pays_of_reachable
    (h : CongestionReachable cfg forRandomness (Covered cfg forRandomness) s) (o : ObjectID)
    (largest : Nat) {earlier range : List CommitRecord} (hlog : s.log = earlier ++ range)
    (hlargest : ∀ r ∈ range, ∀ e ∈ r.scheduled, e.tx.writes o → e.txCost ≤ largest) :
    ∃ before, Budget.Pays ((CongestionParams.mk cfg.params forRandomness).maxBurst + largest)
      before (range.map (periodOf o)) (owed s o) := by
  induction h generalizing range with
  | start =>
    obtain ⟨_, rfl⟩ := append_eq_nil_iff.mp hlog.symm
    exact ⟨_, .nil _⟩
  | @commit s s' c hreach hround hstep hmeets ih =>
    obtain ⟨s₁, hs₁, r, tracker, heffect⟩ :=
      processCommit_spec cfg forRandomness (storedInv_of_reachable hreach) hround
    cases hs₁.symm.trans hstep
    rcases eq_nil_or_concat' range with rfl | ⟨front, last, rfl⟩
    · exact ⟨_, .nil _⟩
    · rw [heffect.log, ← append_assoc] at hlog
      obtain ⟨hfront, hlast⟩ := append_inj' hlog rfl
      cases hlast
      obtain ⟨before, hpays⟩ := ih hfront fun r' hr' =>
        hlargest r' (mem_append_left _ hr')
      refine ⟨before, ?_⟩
      rw [map_append]
      refine hpays.snoc ?_ fun hspent => ?_
      · exact heffect.paid (storedInv_of_reachable hreach) hround hmeets o
      · exact heffect.excess hmeets (hlargest r mem_concat_self) hspent

def totalCost (o : ObjectID) (range : List CommitRecord) : Nat :=
  (range.map fun r => spentOn o r.scheduled).sum

def largestCost (o : ObjectID) (range : List CommitRecord) : Nat :=
  ((range.flatMap fun r => (r.scheduled.filter fun e => e.tx.writes o).map
    ScheduledCost.txCost)).foldr max 0

def carriedDebt (o : ObjectID) (range : List CommitRecord) : Nat :=
  (range.head?.bind fun r => r.initialDebts o).getD 0

/-- The bound on what consecutive commits may schedule on an object. -/
def WithinBound (cfg : CongestionConfig) (forRandomness : Bool) (o : ObjectID)
    (range : List CommitRecord) : Prop :=
  totalCost o range ≤ (range.map CommitRecord.commitBudget).sum
    + (CongestionParams.mk cfg.params forRandomness).maxBurst + carriedDebt o range
    + largestCost o range

variable {range : List CommitRecord}

theorem txCost_le_largestCost {r : CommitRecord}
    (hr : r ∈ range) {e : ScheduledCost} (he : e ∈ r.scheduled) (hwrites : e.tx.writes o = true) :
    e.txCost ≤ largestCost o range :=
  le_foldr_max (mem_flatMap.mpr ⟨r, hr, mem_map_of_mem (mem_filter.mpr ⟨he, hwrites⟩)⟩)

theorem withinBound_of_pays {before after : Nat}
    (h : Budget.Pays ((CongestionParams.mk cfg.params forRandomness).maxBurst + largestCost o range)
      before (range.map (periodOf o)) after) : WithinBound cfg forRandomness o range := by
  have hle := h.spent_le
  rw [map_map, map_map] at hle
  have htotal : totalCost o range = (range.map (Budget.Period.spent ∘ periodOf o)).sum := rfl
  have hbudget : (range.map CommitRecord.commitBudget).sum
      = (range.map (Budget.Period.budget ∘ periodOf o)).sum := rfl
  unfold WithinBound
  omega

/-- If the debts that are loaded are covered by the budgets of the commits in between and no
    cost saturates, then no commit fails and all consecutive commits stay within the bound. -/
theorem congestion_bound_of_covered {cfg : CongestionConfig} {forRandomness : Bool}
    (h : CongestionReachable cfg forRandomness (Covered cfg forRandomness) s) :
    (∀ c : CongestionCommit, (∀ r ∈ s.log, r.info.round < c.info.round) →
      ∃ s', processCommit cfg forRandomness s c = .ok s') ∧
    ∀ (o : ObjectID) (earlier range later : List CommitRecord),
      s.log = earlier ++ range ++ later → WithinBound cfg forRandomness o range := by
  constructor
  · intro c hround
    obtain ⟨s', hs', _⟩ := processCommit_spec cfg forRandomness (storedInv_of_reachable h) hround
    exact ⟨s', hs'⟩
  · intro o earlier range later hlog
    induction h generalizing later with
    | start =>
      obtain ⟨hfront, rfl⟩ := append_eq_nil_iff.mp hlog.symm
      obtain ⟨_, rfl⟩ := append_eq_nil_iff.mp hfront
      exact Nat.zero_le _
    | @commit s s' c hreach hround hstep hmeets ih =>
      rcases eq_nil_or_concat' later with rfl | ⟨front, last, rfl⟩
      · -- the range ends with this commit
        rw [append_nil] at hlog
        obtain ⟨before, hpays⟩ := pays_of_reachable (hreach.commit hround hstep hmeets) o
          (largestCost o range) hlog fun r hr e he hwrites => txCost_le_largestCost hr he hwrites
        exact withinBound_of_pays hpays
      · obtain ⟨s₁, hs₁, r, tracker, heffect⟩ :=
          processCommit_spec cfg forRandomness (storedInv_of_reachable hreach) hround
        cases hs₁.symm.trans hstep
        rw [heffect.log, ← append_assoc] at hlog
        obtain ⟨hfront, _⟩ := append_inj' hlog rfl
        exact ih front hfront

instance (scheduled : List ScheduledCost) : Decidable (Exact scheduled) :=
  inferInstanceAs (Decidable (∀ e ∈ scheduled, e.endCost = e.startCost + e.txCost))

instance (cfg : CongestionConfig) (forRandomness : Bool) (o : ObjectID)
    (range : List CommitRecord) : Decidable (WithinBound cfg forRandomness o range) :=
  inferInstanceAs (Decidable (_ ≤ _))

/-- The parameters of the protocol: half of the time of an object, and a burst of 500 ms. -/
def mainnetCongestion : CongestionConfig where
  params := ⟨50, 500000, 20⟩
  maxAccumulatedTxnCostPerObjectInMysticetiCommit := some 37000000
  maxAccumulatedRandomnessTxnCostPerObjectInMysticetiCommit := some 7400000

/-- A commit with two transactions of 300 ms that write one object, at ten commits a second. -/
def busyCommit (round : Round) : CongestionCommit where
  info := ⟨round, 100000⟩
  transactions := [⟨⟨2 * round, [⟨1, 1, .mutable⟩], [], [], 0, false⟩, 300000, true⟩,
    ⟨⟨2 * round + 1, [⟨1, 1, .mutable⟩], [], [], 0, false⟩, 300000, true⟩]

theorem decayed_next_round (stored : CongestionPerObjectDebt) (budget : Nat) :
    stored.decayed budget (stored.round + 1) = stored.debt := by
  simp [CongestionPerObjectDebt.decayed]

theorem congestion_bound_of_covered_next_round :
    ∃ s, CongestionReachable mainnetCongestion false (Covered mainnetCongestion false) s ∧
      s.log.map (fun r => r.info.round) = [1, 2] ∧
      WithinBound mainnetCongestion false 1 s.log := by
  obtain ⟨s, hs, hfirst⟩ := ok_of_any (x := processCommit mainnetCongestion false {} (busyCommit 1))
    (p := fun s => (∀ r ∈ s.log, r.info.round = 1 ∧ Exact r.scheduled) ∧
      (processCommit mainnetCongestion false s (busyCommit 2)).toOption.any fun s' =>
        (∀ r ∈ s'.log, Exact r.scheduled) ∧ s'.log.map (fun r => r.info.round) = [1, 2])
    (by decide +kernel)
  obtain ⟨hlog, hnext⟩ := of_decide_eq_true hfirst
  obtain ⟨s', hs', hsecond⟩ := ok_of_any hnext
  obtain ⟨hlog', hrounds⟩ := of_decide_eq_true hsecond
  have hreach : CongestionReachable mainnetCongestion false (Covered mainnetCongestion false) s :=
    .commit .start (fun r hr => by cases hr) hs
      ⟨fun o _ stored hstored => (by cases hstored), fun r hr => (hlog r hr).2⟩
  have hreach' : CongestionReachable mainnetCongestion false (Covered mainnetCongestion false) s' := by
    refine .commit hreach (fun r hr => ?_) hs' ⟨fun o _ stored hstored => ?_, hlog'⟩
    · rw [(hlog r hr).1]
      decide
    · obtain ⟨_, r, hr, hround⟩ := storedInv_of_reachable hreach o stored hstored
      have hone : stored.round = 1 := hround.symm.trans (hlog r hr).1
      have hkept := decayed_next_round stored (perCommitBudget mainnetCongestion false)
      rw [hone] at hkept
      exact le_trans (le_of_eq hkept.symm) (Nat.le_add_right _ _)
  exact ⟨s', hreach', hrounds, (congestion_bound_of_covered hreach').2 1 [] s'.log [] (by simp)⟩

/-! ### A skipped round

The debts decay with the limit of the older congestion control, once for every round that
has no commit; that limit is in another unit and far above the budget of a commit.  When the
leader of one round is skipped, the debt is gone. -/

theorem congestion_bound_fails_after_skipped_round :
    ∃ s s', processCommit mainnetCongestion false {} (busyCommit 1) = .ok s ∧
      processCommit mainnetCongestion false s (busyCommit 3) = .ok s' ∧
      totalCost 1 s'.log = 1200000 ∧
      (s'.log.map CommitRecord.commitBudget).sum
        + (CongestionParams.mk mainnetCongestion.params false).maxBurst + carriedDebt 1 s'.log
        + largestCost 1 s'.log = 900000 ∧
      ¬ WithinBound mainnetCongestion false 1 s'.log := by
  obtain ⟨s, hs, hnext⟩ := ok_of_any (x := processCommit mainnetCongestion false {} (busyCommit 1))
    (p := fun s => (processCommit mainnetCongestion false s (busyCommit 3)).toOption.any fun s' =>
      totalCost 1 s'.log = 1200000 ∧
      (s'.log.map CommitRecord.commitBudget).sum
        + (CongestionParams.mk mainnetCongestion.params false).maxBurst + carriedDebt 1 s'.log
        + largestCost 1 s'.log = 900000 ∧
      ¬ WithinBound mainnetCongestion false 1 s'.log) (by decide +kernel)
  obtain ⟨s', hs', hbound⟩ := ok_of_any hnext
  exact ⟨s, s', hs, hs', of_decide_eq_true hbound⟩

end Haneul.Authority
