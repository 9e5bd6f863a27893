import Haneul.Staking.VotingPower

/-!
# Rewards at the change of epoch

Mirror of the first half of `validator_set::advance_epoch`.  The rewards of an epoch are split
by voting power and those of the storage fund evenly; validators that a quorum has reported lose
a part of theirs to the others.  Each of these divisions rounds down: taking from the slashed
validators at one denominator and giving to the others at another never gives out more than
was there, and leaves less than two units for each validator.
-/

namespace Haneul.Staking

open Haneul.Shares VotingPower List

namespace ValidatorSet

/-! ### The code -/

def basisPointDenominator : Nat := 10000

def divU64 (a b : Nat) : Except PoolAbort Nat :=
  if b = 0 then .error .divisionByZero else .ok (a / b)

def getAt {α : Type*} (l : List α) (i : Nat) : Except ValidatorSetAbort α :=
  match l[i]? with
  | some a => .ok a
  | none => .error .indexOutOfBounds

/-- A `VecMap` from indices to amounts, as the list of its entries. -/
abbrev AmountMap := List (Nat × Nat)

def AmountMap.contains (map : AmountMap) (key : Nat) : Bool := (map.lookup key).isSome

def AmountMap.insert (map : AmountMap) (key value : Nat) : Except ValidatorSetAbort AmountMap :=
  if map.contains key then .error .keyAlreadyExists else .ok (map ++ [(key, value)])

def AmountMap.get (map : AmountMap) (key : Nat) : Except ValidatorSetAbort Nat :=
  match map.lookup key with
  | some value => .ok value
  | none => .error .indexOutOfBounds

variable (validators : List Validator)

def findValidator (validatorAddress : Nat) : Option Nat :=
  validators.findIdx? fun v => v.haneulAddress == validatorAddress

def indexOf (validatorAddress : Nat) : Except ValidatorSetAbort Nat :=
  match findValidator validators validatorAddress with
  | some i => .ok i
  | none => .error .notAValidator

def getValidatorIndices (validatorAddresses : List Nat) :
    Except ValidatorSetAbort (List Nat) :=
  validatorAddresses.mapM (indexOf validators)

def getValidatorRef (validatorAddress : Nat) :
    Except ValidatorSetAbort Validator := do
  let idx ← indexOf validators validatorAddress
  getAt validators idx

def sumVotingPowerByAddresses (addresses : List Nat) :
    Except ValidatorSetAbort Nat :=
  addresses.foldlM (fun sum address => do
    let validator ← getValidatorRef validators address
    inPool (addU64 sum validator.votingPower)) 0

/-- `pop` takes the records from the end; each is a validator with those that reported it. -/
def computeSlashedValidators
    (validatorReportRecords : List (Nat × List Nat)) : Except ValidatorSetAbort (List Nat) :=
  validatorReportRecords.reverse.foldlM (fun slashedValidators record => do
    requireSet (findValidator validators record.1).isSome .nonValidatorInReportRecords
    let reporterVotes ← sumVotingPowerByAddresses validators record.2
    return if quorumThreshold ≤ reporterVotes then slashedValidators ++ [record.1]
      else slashedValidators) []

def computeUnadjustedRewardDistribution
    (totalVotingPower totalStakingReward totalStorageFundReward : Nat) :
    Except ValidatorSetAbort (List Nat × List Nat) := do
  let storageFundRewardPerValidator ← inPool (divU64 totalStorageFundReward validators.length)
  let stakingRewardAmounts ← validators.mapM fun validator =>
    inPool (mulDiv validator.votingPower totalStakingReward totalVotingPower)
  return (stakingRewardAmounts, validators.map fun _ => storageFundRewardPerValidator)

structure Adjustments where
  total : Nat
  individual : AmountMap

/-- One slashed validator; the same for both kinds of rewards. -/
def slash (rewardSlashingRate : Nat) (unadjusted : List Nat) (acc : Adjustments)
    (validatorIndex : Nat) : Except ValidatorSetAbort Adjustments := do
  let unadjustedReward ← getAt unadjusted validatorIndex
  let adjustment ← inPool (mulDiv unadjustedReward rewardSlashingRate basisPointDenominator)
  let individual ← acc.individual.insert validatorIndex adjustment
  let total ← inPool (addU64 acc.total adjustment)
  return ⟨total, individual⟩

/-- `destroy!` takes the indices from the end. -/
def computeRewardAdjustments (slashedValidatorIndices : List Nat) (rewardSlashingRate : Nat)
    (unadjustedStakingRewardAmounts unadjustedStorageFundRewardAmounts : List Nat) :
    Except ValidatorSetAbort (Adjustments × Adjustments) :=
  slashedValidatorIndices.reverse.foldlM (fun acc validatorIndex => do
    let staking ← slash rewardSlashingRate unadjustedStakingRewardAmounts acc.1 validatorIndex
    let storageFund ← slash rewardSlashingRate unadjustedStorageFundRewardAmounts acc.2 validatorIndex
    return (staking, storageFund)) (⟨0, []⟩, ⟨0, []⟩)

/-- A slashed validator loses its adjustment, another one gets its share of all of them. -/
def adjustAmount (adjustments : Adjustments) (i unadjusted : Nat) (share : Except PoolAbort Nat) :
    Except ValidatorSetAbort Nat :=
  if adjustments.individual.contains i then do
    let adjustment ← adjustments.individual.get i
    inPool (subU64 unadjusted adjustment)
  else do
    let adjustment ← inPool share
    inPool (addU64 unadjusted adjustment)

/-- One turn of the loop of `compute_adjusted_reward_distribution`. -/
def adjustedRewardsAt (totalUnslashedValidatorVotingPower numUnslashedValidators : Nat)
    (unadjustedStakingRewardAmounts unadjustedStorageFundRewardAmounts : List Nat)
    (staking storageFund : Adjustments) (i : Nat) : Except ValidatorSetAbort (Nat × Nat) := do
  let validator ← getAt validators i
  let unadjustedStaking ← getAt unadjustedStakingRewardAmounts i
  let adjustedStaking ← adjustAmount staking i unadjustedStaking
    (mulDiv staking.total validator.votingPower totalUnslashedValidatorVotingPower)
  let unadjustedStorageFund ← getAt unadjustedStorageFundRewardAmounts i
  let adjustedStorageFund ← adjustAmount storageFund i unadjustedStorageFund
    (divU64 storageFund.total numUnslashedValidators)
  return (adjustedStaking, adjustedStorageFund)

def computeAdjustedRewardDistribution (totalVotingPower totalSlashedValidatorVotingPower : Nat)
    (unadjustedStakingRewardAmounts unadjustedStorageFundRewardAmounts : List Nat)
    (staking storageFund : Adjustments) : Except ValidatorSetAbort (List Nat × List Nat) := do
  let totalUnslashedValidatorVotingPower ←
    inPool (subU64 totalVotingPower totalSlashedValidatorVotingPower)
  let numUnslashedValidators ← inPool (subU64 validators.length staking.individual.length)
  let amounts ← (List.range validators.length).mapM (adjustedRewardsAt validators
    totalUnslashedValidatorVotingPower numUnslashedValidators unadjustedStakingRewardAmounts
    unadjustedStorageFundRewardAmounts staking storageFund)
  return (amounts.map (·.1), amounts.map (·.2))

/-- The amounts that `advance_epoch` distributes, for the validators that are slashed. -/
def computeRewards (slashedValidators : List Nat)
    (rewardSlashingRate computationReward storageFundReward : Nat) :
    Except ValidatorSetAbort (List Nat × List Nat) := do
  let (unadjustedStaking, unadjustedStorageFund) ← computeUnadjustedRewardDistribution validators
    totalVotingPower computationReward storageFundReward
  let totalSlashedValidatorVotingPower ← sumVotingPowerByAddresses validators slashedValidators
  let slashedValidatorIndices ← getValidatorIndices validators slashedValidators
  let (staking, storageFund) ← computeRewardAdjustments slashedValidatorIndices rewardSlashingRate
    unadjustedStaking unadjustedStorageFund
  computeAdjustedRewardDistribution validators totalVotingPower totalSlashedValidatorVotingPower
    unadjustedStaking unadjustedStorageFund staking storageFund

structure Payout where
  validators : List Validator
  stakingRewards : Nat
  storageFundReward : Nat

variable (validator : Validator)

/-- The reward of the validator itself is staked, unless there is none. -/
def stakeReward (validatorReward epoch : Nat) : Except PoolAbort Validator :=
  if 0 < validatorReward then do
    let (stakingPool, _) ← Validator.requestAddStake validator.stakingPool validatorReward epoch
    let nextEpochStake ← addU64 validator.nextEpochStake validatorReward
    return { validator with stakingPool, nextEpochStake }
  else .ok validator

def depositStakeRewards (reward : Nat) : Except PoolAbort Validator := do
  let nextEpochStake ← addU64 validator.nextEpochStake reward
  let stakingPool ← validator.stakingPool.depositRewards reward
  return { validator with stakingPool, nextEpochStake }

def payValidator (validatorReward stakerReward epoch : Nat) :
    Except PoolAbort Validator := do
  let validator ← stakeReward validator validatorReward epoch
  depositStakeRewards validator stakerReward

def distributeStep (adjustedStaking adjustedStorageFund : List Nat) (epoch : Nat) (state : Payout)
    (i : Nat) : Except ValidatorSetAbort Payout := do
  let validator ← getAt state.validators i
  let stakingRewardAmount ← getAt adjustedStaking i
  let stakingRewards ← inPool (splitBalance state.stakingRewards stakingRewardAmount)
  let validatorCommissionAmount ←
    inPool (mulDiv stakingRewardAmount validator.commissionRate basisPointDenominator)
  let stakerReward ← inPool (splitBalance stakingRewardAmount validatorCommissionAmount)
  let storageFundAmount ← getAt adjustedStorageFund i
  let storageFundReward ← inPool (splitBalance state.storageFundReward storageFundAmount)
  let validatorReward ← inPool (addU64 validatorCommissionAmount storageFundAmount)
  let validator ← inPool (payValidator validator validatorReward stakerReward epoch)
  return ⟨state.validators.set i validator, stakingRewards, storageFundReward⟩

def distributeReward (adjustedStaking adjustedStorageFund : List Nat)
    (stakingRewards storageFundReward epoch : Nat) : Except ValidatorSetAbort Payout := do
  requireSet (decide (0 < validators.length)) .validatorSetEmpty
  (List.range validators.length).foldlM (distributeStep adjustedStaking adjustedStorageFund epoch)
    ⟨validators, stakingRewards, storageFundReward⟩

/-! ### What the code computes -/

section Amounts

variable {n amount rate : Nat} {w : Nat → Nat} {t : Finset Nat}

def unadjustedAmount (w : Nat → Nat) (n amount i : Nat) : Nat :=
  amount * w i / ∑ j ∈ Finset.range n, w j

def slashedAmount (w : Nat → Nat) (n rate amount i : Nat) : Nat :=
  unadjustedAmount w n amount i * rate / basisPointDenominator

def adjustedAmount (w : Nat → Nat) (n : Nat) (t : Finset Nat) (rate amount i : Nat) : Nat :=
  if i ∈ t then unadjustedAmount w n amount i - slashedAmount w n rate amount i
  else unadjustedAmount w n amount i +
    (∑ j ∈ t, slashedAmount w n rate amount j) * w i / ∑ j ∈ Finset.range n \ t, w j

theorem slashedAmount_le (hrate : rate ≤ basisPointDenominator) (i : Nat) :
    slashedAmount w n rate amount i ≤ unadjustedAmount w n amount i :=
  Nat.div_le_of_le_mul ((Nat.mul_comm _ _).trans_le (Nat.mul_le_mul_right _ hrate))

section

variable (ht : t ⊆ Finset.range n) (hrate : rate ≤ basisPointDenominator)
include ht hrate

theorem sum_adjustedAmount :
    ∑ i ∈ Finset.range n, adjustedAmount w n t rate amount i +
        ∑ j ∈ t, slashedAmount w n rate amount j =
      ∑ i ∈ Finset.range n, unadjustedAmount w n amount i + ∑ i ∈ Finset.range n \ t,
        (∑ j ∈ t, slashedAmount w n rate amount j) * w i / ∑ j ∈ Finset.range n \ t, w j :=
  sum_redistribute ht fun i _ => slashedAmount_le hrate i

theorem sum_adjustedAmount_le :
    ∑ i ∈ Finset.range n, adjustedAmount w n t rate amount i ≤ amount := by
  have hsum := @sum_adjustedAmount n amount rate w t ht hrate
  have hunadjusted : ∑ i ∈ Finset.range n, unadjustedAmount w n amount i ≤ amount := sum_split_le
  have hshares : ∑ i ∈ Finset.range n \ t,
      (∑ j ∈ t, slashedAmount w n rate amount j) * w i / ∑ j ∈ Finset.range n \ t, w j ≤
        ∑ j ∈ t, slashedAmount w n rate amount j := sum_split_le
  omega

/-- What is left is less than two units for each index. -/
theorem lt_sum_adjustedAmount (hpos : 0 < ∑ j ∈ Finset.range n \ t, w j) :
    amount < ∑ i ∈ Finset.range n, adjustedAmount w n t rate amount i + 2 * n := by
  have hsum := @sum_adjustedAmount n amount rate w t ht hrate
  have hall : 0 < ∑ j ∈ Finset.range n, w j :=
    lt_of_lt_of_le hpos (Finset.sum_le_sum_of_subset Finset.sdiff_subset)
  have hunadjusted : amount < ∑ i ∈ Finset.range n, unadjustedAmount w n amount i +
      (Finset.range n).card := lt_sum_split_add_card hall
  have hshares : ∑ j ∈ t, slashedAmount w n rate amount j < ∑ i ∈ Finset.range n \ t,
      (∑ j ∈ t, slashedAmount w n rate amount j) * w i / (∑ j ∈ Finset.range n \ t, w j) +
        (Finset.range n \ t).card := lt_sum_split_add_card hpos
  have hcard : (Finset.range n \ t).card ≤ (Finset.range n).card :=
    Finset.card_le_card Finset.sdiff_subset
  rw [Finset.card_range] at hunadjusted hcard
  omega

end

end Amounts

section Loops

variable {n : Nat} {f d : Nat → Nat} {i : Nat}

theorem getAt_range (h : i < n) : getAt ((List.range n).map f) i = .ok (f i) := by
  simp [getAt, h]

/-- The adjustments of a list of validators, in the order in which they are made. -/
def adjustmentsOf (d : Nat → Nat) (l : List Nat) : Adjustments :=
  ⟨(l.map d).sum, l.map fun i => (i, d i)⟩

theorem lookup_adjustmentsOf (d : Nat → Nat) (l : List Nat) (i : Nat) :
    (adjustmentsOf d l).individual.lookup i = if i ∈ l then some (d i) else none := by
  change (l.map fun i => (i, d i)).lookup i = _
  induction l with
  | nil => rfl
  | cons j l ih =>
    rw [map_cons, lookup_cons]
    by_cases heq : i = j
    · simp [heq]
    · rw [beq_false_of_ne heq]
      simpa [heq] using ih

variable {l : List Nat}

theorem slash_eq {rate : Nat} (hi : i < n) (hnew : i ∉ l)
    (hd : d i = f i * rate / basisPointDenominator) (hfits : (l.map d).sum + d i ≤ u64Max) :
    slash rate ((List.range n).map f) (adjustmentsOf d l) i = .ok (adjustmentsOf d (l ++ [i])) := by
  have hmul : mulDiv (f i) rate basisPointDenominator = .ok (d i) :=
    mulDiv_eq_ok.mpr ⟨by decide, by rw [← hd]; omega, hd⟩
  have hinsert : (adjustmentsOf d l).individual.insert i (d i) =
      .ok ((adjustmentsOf d l).individual ++ [(i, d i)]) := by
    unfold AmountMap.insert AmountMap.contains
    rw [lookup_adjustmentsOf, if_neg hnew]
    rfl
  have hadd : addU64 (adjustmentsOf d l).total (d i) = .ok ((l.map d).sum + d i) :=
    addU64_of_le hfits
  refine bind₂_eq_ok.mpr ⟨_, getAt_range hi, _, inPool_eq_ok.mpr hmul, ?_⟩
  refine bind₂_eq_ok.mpr ⟨_, hinsert, _, inPool_eq_ok.mpr hadd, ?_⟩
  simp [adjustmentsOf, pure, Except.pure]

variable {rate : Nat} {g e : Nat → Nat}

theorem slashLoop_eq {todo : List Nat} :
    ∀ {done : List Nat}, (done ++ todo).Nodup → (∀ i ∈ todo, i < n) →
    (∀ i, d i = f i * rate / basisPointDenominator) →
    (∀ i, e i = g i * rate / basisPointDenominator) →
    ((done ++ todo).map d).sum ≤ u64Max → ((done ++ todo).map e).sum ≤ u64Max →
    todo.foldlM (fun acc validatorIndex => do
      let staking ← slash rate ((List.range n).map f) acc.1 validatorIndex
      let storageFund ← slash rate ((List.range n).map g) acc.2 validatorIndex
      return (staking, storageFund)) (adjustmentsOf d done, adjustmentsOf e done) =
        (.ok (adjustmentsOf d (done ++ todo), adjustmentsOf e (done ++ todo)) :
          Except ValidatorSetAbort (Adjustments × Adjustments)) := by
  induction todo with
  | nil =>
    intro done _ _ _ _ _ _
    simp [pure, Except.pure]
  | cons i todo ih =>
    intro done hnodup hlt hd he hdfits hefits
    have hmiddle : done ++ i :: todo = (done ++ [i]) ++ todo := by simp
    have hnew : i ∉ done := fun hmem =>
      (nodup_append.mp hnodup).2.2 i hmem i mem_cons_self rfl
    have hi := hlt i (.head _)
    have hle : ∀ h : Nat → Nat, (done.map h).sum + h i ≤ ((done ++ i :: todo).map h).sum := by
      intro h
      rw [map_append, sum_append, map_cons, sum_cons]
      omega
    have hstaking : slash rate ((List.range n).map f) (adjustmentsOf d done) i = _ :=
      slash_eq hi hnew (hd i) ((hle d).trans hdfits)
    have hstorage : slash rate ((List.range n).map g) (adjustmentsOf e done) i = _ :=
      slash_eq hi hnew (he i) ((hle e).trans hefits)
    rw [foldlM_cons, hmiddle]
    dsimp only
    rw [hstaking, hstorage]
    rw [hmiddle] at hnodup hdfits hefits
    exact ih hnodup (fun j hj => hlt j (.tail _ hj)) hd he hdfits hefits

variable {share : Except PoolAbort Nat}

theorem adjustAmount_slashed {unadjusted : Nat} (hi : i ∈ l) (hle : d i ≤ unadjusted) :
    adjustAmount (adjustmentsOf d l) i unadjusted share = .ok (unadjusted - d i) := by
  have hlookup := lookup_adjustmentsOf d l i
  rw [if_pos hi] at hlookup
  unfold adjustAmount AmountMap.contains AmountMap.get
  rw [hlookup]
  exact bind_eq_ok.mpr ⟨d i, rfl, inPool_eq_ok.mpr (subU64_of_le hle)⟩

theorem adjustAmount_unslashed {unadjusted amount : Nat} (hi : i ∉ l) (hshare : share = .ok amount)
    (hfits : unadjusted + amount ≤ u64Max) :
    adjustAmount (adjustmentsOf d l) i unadjusted share = .ok (unadjusted + amount) := by
  have hlookup := lookup_adjustmentsOf d l i
  rw [if_neg hi] at hlookup
  unfold adjustAmount AmountMap.contains
  rw [hlookup]
  exact bind_eq_ok.mpr ⟨amount, inPool_eq_ok.mpr hshare, inPool_eq_ok.mpr (addU64_of_le hfits)⟩

end Loops

/-! ### The validators behind the indices -/

section Indices

variable {validators : List Validator} {slashed : List Nat} {address i : Nat}

def powerAt (validators : List Validator) (i : Nat) : Nat :=
  (validators[i]?.map (·.votingPower)).getD 0

theorem getAt_eq {α : Type*} {l : List α} {a : α} (h : l[i]? = some a) : getAt l i = .ok a := by
  unfold getAt
  rw [h]

theorem powerAt_eq {v : Validator} (h : validators[i]? = some v) :
    powerAt validators i = v.votingPower := by
  simp [powerAt, h]

theorem sum_powerAt : ∑ i ∈ Finset.range validators.length, powerAt validators i =
    (validators.map (·.votingPower)).sum := by
  rw [map_eq_range validators (·.votingPower) (powerAt validators) fun _ _ hv => (powerAt_eq hv).symm,
    ← toFinset_range, sum_toFinset _ nodup_range]

def idx (validators : List Validator) (address : Nat) : Nat :=
  validators.findIdx (·.haneulAddress == address)

theorem idx_spec (h : ∃ v ∈ validators, v.haneulAddress = address) :
    ∃ v, validators[idx validators address]? = some v ∧ v.haneulAddress = address := by
  have hlt : idx validators address < validators.length := findIdx_lt_length.mpr (by simpa using h)
  refine ⟨_, List.getElem?_eq_getElem hlt, ?_⟩
  exact beq_iff_eq.mp (findIdx_getElem (w := hlt))

theorem indexOf_eq (h : ∃ v ∈ validators, v.haneulAddress = address) :
    indexOf validators address = .ok (idx validators address) := by
  have hlt : idx validators address < validators.length := findIdx_lt_length.mpr (by simpa using h)
  have hfind : findValidator validators address = some (idx validators address) :=
    List.findIdx?_eq_some_iff_findIdx_eq.mpr ⟨hlt, rfl⟩
  unfold indexOf
  rw [hfind]

section

variable (h : ∀ a ∈ slashed, ∃ v ∈ validators, v.haneulAddress = a)
include h

theorem getValidatorIndices_eq :
    getValidatorIndices validators slashed = .ok (slashed.map (idx validators)) :=
  mapM_eq_map fun a ha => indexOf_eq (h a ha)

theorem nodup_indices (hnodup : slashed.Nodup) : (slashed.map (idx validators)).Nodup := by
  refine hnodup.map_on ?_
  intro a ha b hb heq
  obtain ⟨v, hv, rfl⟩ := idx_spec (h a ha)
  obtain ⟨w, hw, rfl⟩ := idx_spec (h b hb)
  rw [heq, hw] at hv
  cases hv
  rfl

theorem indices_lt :
    ∀ i ∈ slashed.map (idx validators), i < validators.length := by
  intro i hi
  obtain ⟨a, ha, rfl⟩ := mem_map.mp hi
  obtain ⟨v, hv, _⟩ := idx_spec (h a ha)
  exact (List.getElem?_eq_some_iff.mp hv).1

end

theorem sumVotingPower_loop {sum : Nat} (h : ∀ a ∈ slashed, ∃ v ∈ validators, v.haneulAddress = a)
    (hfits : sum + ((slashed.map (idx validators)).map (powerAt validators)).sum ≤ u64Max) :
    slashed.foldlM (fun sum address => do
      let validator ← getValidatorRef validators address
      inPool (addU64 sum validator.votingPower)) sum =
        .ok (sum + ((slashed.map (idx validators)).map (powerAt validators)).sum) := by
  induction slashed generalizing sum with
  | nil => rfl
  | cons a slashed ih =>
    obtain ⟨v, hv, _⟩ := idx_spec (h a (.head _))
    have href : getValidatorRef validators a = .ok v :=
      bind_eq_ok.mpr ⟨_, indexOf_eq (h a (.head _)), getAt_eq hv⟩
    rw [map_cons, map_cons, sum_cons, powerAt_eq hv] at hfits ⊢
    have hadd := @addU64_of_le sum v.votingPower (by omega)
    rw [foldlM_cons, href]
    refine bind_eq_ok.mpr ⟨_, inPool_eq_ok.mpr hadd, ?_⟩
    rw [← Nat.add_assoc]
    exact ih (fun b hb => h b (.tail _ hb)) (by omega)

end Indices

/-! ### The computation of the amounts -/

section Compute

variable {validators : List Validator} {slashed : List Nat} {w : Nat → Nat}
  {rate amount computationReward storageFundReward i : Nat}

/-- The weights of the storage fund rewards: all validators get the same. -/
def evenly (_ : Nat) : Nat := 1

theorem sum_evenly (r : Finset Nat) : ∑ i ∈ r, evenly i = r.card := by simp [evenly]

def slashedIndices (validators : List Validator) (slashed : List Nat) : Finset Nat :=
  (slashed.map (idx validators)).toFinset

def unadjustedList (w : Nat → Nat) (validators : List Validator) (amount : Nat) : List Nat :=
  (List.range validators.length).map (unadjustedAmount w validators.length amount)

def slashedList (w : Nat → Nat) (validators : List Validator) (slashed : List Nat)
    (rate amount : Nat) : Adjustments :=
  adjustmentsOf (slashedAmount w validators.length rate amount) (slashed.map (idx validators)).reverse

def adjustedList (w : Nat → Nat) (validators : List Validator) (slashed : List Nat)
    (rate amount : Nat) : List Nat :=
  (List.range validators.length).map
    (adjustedAmount w validators.length (slashedIndices validators slashed) rate amount)

/-- The slashed validators are distinct addresses of active validators. -/
structure Slashed (validators : List Validator) (slashed : List Nat) : Prop where
  nodup : slashed.Nodup
  active : ∀ a ∈ slashed, ∃ v ∈ validators, v.haneulAddress = a

/-- The reports slash distinct active validators: a validator has one record, and each record
    is of an active validator. -/
theorem computeSlashedValidators_slashed {records : List (Nat × List Nat)}
    (hkeys : (records.map (·.1)).Nodup)
    (h : computeSlashedValidators validators records = .ok slashed) :
    Slashed validators slashed := by
  have hrun : ∀ {todo : List (Nat × List Nat)} {done result : List Nat},
      (done ++ todo.map (·.1)).Nodup → (∀ a ∈ done, ∃ v ∈ validators, v.haneulAddress = a) →
      todo.foldlM (fun slashedValidators record => do
        requireSet (findValidator validators record.1).isSome .nonValidatorInReportRecords
        let reporterVotes ← sumVotingPowerByAddresses validators record.2
        return if quorumThreshold ≤ reporterVotes then slashedValidators ++ [record.1]
          else slashedValidators) done = Except.ok result → Slashed validators result := by
    intro todo
    induction todo with
    | nil =>
      intro done result hnodup hactive hresult
      cases hresult
      exact ⟨by simpa using hnodup, hactive⟩
    | cons record todo ih =>
      intro done result hnodup hactive hresult
      obtain ⟨next, hstep, hrest⟩ := foldlM_cons_eq_ok.mp hresult
      obtain ⟨_, hfound, votes, _, h₂⟩ := bind₂_eq_ok.mp hstep
      rw [map_cons] at hnodup
      cases h₂
      split at hrest
      · have hsome := requireSet_eq_ok.mp hfound
        refine ih (by simpa using hnodup)
          (forall_mem_append.mpr ⟨hactive, forall_mem_singleton.mpr ?_⟩) hrest
        simpa [findValidator, List.findIdx?_isSome] using hsome
      · exact ih (hnodup.sublist (List.Sublist.append_left (sublist_cons_self _ _) _)) hactive hrest
  refine hrun ?_ (fun a ha => absurd ha not_mem_nil) h
  rw [nil_append, map_reverse]
  exact nodup_reverse.mpr hkeys

section

variable (h : Slashed validators slashed)
include h

theorem Slashed.subset :
    slashedIndices validators slashed ⊆ Finset.range validators.length := by
  intro i hi
  exact Finset.mem_range.mpr (indices_lt h.active i (mem_toFinset.mp hi))

theorem Slashed.card :
    (slashedIndices validators slashed).card = slashed.length := by
  rw [slashedIndices, toFinset_card_of_nodup (nodup_indices h.active h.nodup), length_map]

theorem Slashed.sum_eq (f : Nat → Nat) :
    ((slashed.map (idx validators)).map f).sum = ∑ i ∈ slashedIndices validators slashed, f i :=
  (sum_toFinset _ (nodup_indices h.active h.nodup)).symm

theorem Slashed.total_eq :
    (slashedList w validators slashed rate amount).total =
      ∑ i ∈ slashedIndices validators slashed, slashedAmount w validators.length rate amount i := by
  rw [← h.sum_eq, slashedList, adjustmentsOf, map_reverse, sum_reverse]

theorem Slashed.total_le (hrate : rate ≤ basisPointDenominator) :
    (slashedList w validators slashed rate amount).total ≤ amount := by
  rw [h.total_eq]
  calc ∑ j ∈ slashedIndices validators slashed, slashedAmount w validators.length rate amount j
      ≤ ∑ j ∈ slashedIndices validators slashed, unadjustedAmount w validators.length amount j :=
        Finset.sum_le_sum fun j _ => slashedAmount_le hrate j
    _ ≤ ∑ j ∈ Finset.range validators.length, unadjustedAmount w validators.length amount j :=
        Finset.sum_le_sum_of_subset h.subset
    _ ≤ amount := sum_split_le

end

theorem computeUnadjusted_eq (hne : validators ≠ [])
    (hsum : (validators.map (·.votingPower)).sum = totalVotingPower)
    (hreward : computationReward ≤ u64Max) :
    computeUnadjustedRewardDistribution validators totalVotingPower computationReward
        storageFundReward =
      .ok (unadjustedList (powerAt validators) validators computationReward,
        unadjustedList evenly validators storageFundReward) := by
  have hlength : validators.length ≠ 0 := (length_pos_iff.mpr hne).ne'
  have hdiv : divU64 storageFundReward validators.length =
      .ok (storageFundReward / validators.length) := if_neg hlength
  have hamount : ∀ v ∈ validators,
      inPool (mulDiv v.votingPower computationReward totalVotingPower) =
        .ok (v.votingPower * computationReward / totalVotingPower) := by
    intro v hv
    have hpower : v.votingPower ≤ totalVotingPower := hsum ▸ le_sum_of_mem (mem_map_of_mem hv)
    apply inPool_eq_ok.mpr
    refine mulDiv_eq_ok.mpr ⟨by decide, ?_, rfl⟩
    exact (Nat.div_le_of_le_mul (Nat.mul_le_mul_right _ hpower)).trans hreward
  refine bind₂_eq_ok.mpr ⟨_, inPool_eq_ok.mpr hdiv, _, mapM_eq_map hamount, ?_⟩
  rw [map_eq_range validators _
      (unadjustedAmount (powerAt validators) validators.length computationReward) ?_,
    map_eq_range validators _ (unadjustedAmount evenly validators.length storageFundReward) ?_]
  · rfl
  · intro i v _
    rw [unadjustedAmount, sum_evenly, Finset.card_range, evenly, Nat.mul_one]
  · intro i v hv
    rw [unadjustedAmount, sum_powerAt, hsum, powerAt_eq hv, Nat.mul_comm]

theorem computeRewardAdjustments_eq (h : Slashed validators slashed)
    (hrate : rate ≤ basisPointDenominator) (hreward : computationReward ≤ u64Max)
    (hstorage : storageFundReward ≤ u64Max) :
    computeRewardAdjustments (slashed.map (idx validators)) rate
        (unadjustedList (powerAt validators) validators computationReward)
        (unadjustedList evenly validators storageFundReward) =
      .ok (slashedList (powerAt validators) validators slashed rate computationReward,
        slashedList evenly validators slashed rate storageFundReward) := by
  have hnodup : ([] ++ (slashed.map (idx validators)).reverse).Nodup :=
    nodup_reverse.mpr (nodup_indices h.active h.nodup)
  exact slashLoop_eq hnodup (fun i hi => indices_lt h.active i (mem_reverse.mp hi))
    (fun _ => rfl) (fun _ => rfl) ((h.total_le hrate).trans hreward)
    ((h.total_le hrate).trans hstorage)

theorem Slashed.adjustAmount_eq {share : Except PoolAbort Nat} (h : Slashed validators slashed)
    (hrate : rate ≤ basisPointDenominator) (hamount : amount ≤ u64Max) (hi : i < validators.length)
    (hshare : i ∉ slashedIndices validators slashed → share =
      .ok ((slashedList w validators slashed rate amount).total * w i /
        ∑ j ∈ Finset.range validators.length \ slashedIndices validators slashed, w j)) :
    adjustAmount (slashedList w validators slashed rate amount) i
        (unadjustedAmount w validators.length amount i) share =
      .ok (adjustedAmount w validators.length (slashedIndices validators slashed) rate amount i) := by
  have hmem : i ∈ (slashed.map (idx validators)).reverse ↔ i ∈ slashedIndices validators slashed := by
    rw [mem_reverse, slashedIndices, mem_toFinset]
  have hle : adjustedAmount w validators.length (slashedIndices validators slashed) rate amount i ≤
      u64Max :=
    (Finset.single_le_sum (fun j _ => Nat.zero_le _) (Finset.mem_range.mpr hi)).trans
      ((sum_adjustedAmount_le h.subset hrate).trans hamount)
  by_cases hslashed : i ∈ slashedIndices validators slashed
  · rw [adjustedAmount, if_pos hslashed]
    exact adjustAmount_slashed (hmem.mpr hslashed) (slashedAmount_le hrate i)
  · rw [h.total_eq] at hshare
    rw [adjustedAmount, if_neg hslashed] at hle ⊢
    exact adjustAmount_unslashed (fun hi' => hslashed (hmem.mp hi')) (hshare hslashed) hle

theorem Slashed.unslashed (hi : i < validators.length)
    (hnot : i ∉ slashedIndices validators slashed) :
    i ∈ Finset.range validators.length \ slashedIndices validators slashed :=
  Finset.mem_sdiff.mpr ⟨Finset.mem_range.mpr hi, hnot⟩

section

variable (h : Slashed validators slashed) (hpos : ∀ v ∈ validators, 0 < v.votingPower)
  (hrate : rate ≤ basisPointDenominator) (hreward : computationReward ≤ u64Max)
  (hstorage : storageFundReward ≤ u64Max)
include h hpos hrate hreward hstorage

/-- One turn of the loop: no division by zero, and every sum fits. -/
theorem Slashed.adjustedRewardsAt_eq (hi : i < validators.length) :
    adjustedRewardsAt validators
        (∑ j ∈ Finset.range validators.length \ slashedIndices validators slashed,
          powerAt validators j)
        (Finset.range validators.length \ slashedIndices validators slashed).card
        (unadjustedList (powerAt validators) validators computationReward)
        (unadjustedList evenly validators storageFundReward)
        (slashedList (powerAt validators) validators slashed rate computationReward)
        (slashedList evenly validators slashed rate storageFundReward) i =
      .ok (adjustedAmount (powerAt validators) validators.length
          (slashedIndices validators slashed) rate computationReward i,
        adjustedAmount evenly validators.length (slashedIndices validators slashed) rate
          storageFundReward i) := by
  have hget : validators[i]? = some validators[i] := List.getElem?_eq_getElem hi
  refine bind₂_eq_ok.mpr ⟨_, getAt_eq hget, _, getAt_range hi, ?_⟩
  refine bind₂_eq_ok.mpr ⟨_, h.adjustAmount_eq hrate hreward hi ?_,
    _, getAt_range hi, bind_eq_ok.mpr ⟨_, h.adjustAmount_eq hrate hstorage hi ?_, rfl⟩⟩
  · intro hnot
    have hmem := Slashed.unslashed hi hnot
    have hle : powerAt validators i ≤ _ := Finset.single_le_sum (fun j _ => Nat.zero_le _) hmem
    have hone := hpos _ (getElem_mem hi)
    rw [← powerAt_eq hget] at hone ⊢
    have htotal : (slashedList (powerAt validators) validators slashed rate
        computationReward).total ≤ u64Max := (h.total_le hrate).trans hreward
    refine mulDiv_eq_ok.mpr ⟨by omega, LE.le.trans ?_ htotal, rfl⟩
    exact Nat.div_le_of_le_mul ((Nat.mul_le_mul_left _ hle).trans_eq (Nat.mul_comm _ _))
  · intro hnot
    have hne : (Finset.range validators.length \ slashedIndices validators slashed).card ≠ 0 :=
      Finset.card_ne_zero_of_mem (Slashed.unslashed hi hnot)
    rw [sum_evenly, evenly, Nat.mul_one]
    exact if_neg hne

theorem computeAdjusted_eq (hsum : (validators.map (·.votingPower)).sum = totalVotingPower) :
    computeAdjustedRewardDistribution validators totalVotingPower
        (∑ i ∈ slashedIndices validators slashed, powerAt validators i)
        (unadjustedList (powerAt validators) validators computationReward)
        (unadjustedList evenly validators storageFundReward)
        (slashedList (powerAt validators) validators slashed rate computationReward)
        (slashedList evenly validators slashed rate storageFundReward) =
      .ok (adjustedList (powerAt validators) validators slashed rate computationReward,
        adjustedList evenly validators slashed rate storageFundReward) := by
  have hsplit := Finset.sum_sdiff (f := powerAt validators) h.subset
  rw [sum_powerAt, hsum] at hsplit
  have hpower : subU64 totalVotingPower (∑ i ∈ slashedIndices validators slashed,
      powerAt validators i) = .ok (∑ j ∈ Finset.range validators.length \
        slashedIndices validators slashed, powerAt validators j) :=
    subU64_eq_ok.mpr ⟨by omega, by omega⟩
  have hcard := Finset.card_sdiff_of_subset h.subset
  have hcount := Finset.card_le_card h.subset
  rw [h.card, Finset.card_range] at hcard hcount
  have hnum : subU64 validators.length
      (slashedList (powerAt validators) validators slashed rate computationReward).individual.length =
        .ok (Finset.range validators.length \ slashedIndices validators slashed).card := by
    have hlength : (slashedList (powerAt validators) validators slashed rate
        computationReward).individual.length = slashed.length := by
      simp [slashedList, adjustmentsOf]
    rw [hlength]
    exact subU64_eq_ok.mpr ⟨hcount, hcard⟩
  refine bind₂_eq_ok.mpr ⟨_, inPool_eq_ok.mpr hpower, _, inPool_eq_ok.mpr hnum, ?_⟩
  refine bind_eq_ok.mpr ⟨_, mapM_eq_map fun i hi =>
    h.adjustedRewardsAt_eq hpos hrate hreward hstorage (mem_range.mp hi), ?_⟩
  rw [map_map, map_map]
  rfl

theorem computeRewards_eq (hne : validators ≠ [])
    (hsum : (validators.map (·.votingPower)).sum = totalVotingPower) :
    computeRewards validators slashed rate computationReward storageFundReward =
      .ok (adjustedList (powerAt validators) validators slashed rate computationReward,
        adjustedList evenly validators slashed rate storageFundReward) := by
  have hpowers : ∑ i ∈ slashedIndices validators slashed, powerAt validators i ≤
      totalVotingPower := by
    rw [← hsum, ← sum_powerAt]
    exact Finset.sum_le_sum_of_subset h.subset
  have hslashed : sumVotingPowerByAddresses validators slashed =
      .ok (∑ i ∈ slashedIndices validators slashed, powerAt validators i) := by
    have hloop := @sumVotingPower_loop validators slashed 0 h.active (by
      rw [h.sum_eq, Nat.zero_add]
      exact hpowers.trans (by decide))
    rwa [h.sum_eq, Nat.zero_add] at hloop
  refine bind₂_eq_ok.mpr ⟨_, computeUnadjusted_eq hne hsum hreward, _, hslashed, ?_⟩
  refine bind₂_eq_ok.mpr ⟨_, getValidatorIndices_eq h.active, _,
    computeRewardAdjustments_eq h hrate hreward hstorage, ?_⟩
  exact computeAdjusted_eq h hpos hrate hreward hstorage hsum

end

theorem sum_adjustedList : (adjustedList w validators slashed rate amount).sum =
    ∑ i ∈ Finset.range validators.length,
      adjustedAmount w validators.length (slashedIndices validators slashed) rate amount i := by
  rw [adjustedList, ← toFinset_range, sum_toFinset _ nodup_range]

theorem Slashed.sum_adjustedList_le (h : Slashed validators slashed)
    (hrate : rate ≤ basisPointDenominator) :
    (adjustedList w validators slashed rate amount).sum ≤ amount :=
  sum_adjustedList.trans_le (sum_adjustedAmount_le h.subset hrate)

/-- With a validator that is not slashed and has a weight, less than two units each are left. -/
theorem Slashed.lt_sum_adjustedList (h : Slashed validators slashed)
    (hrate : rate ≤ basisPointDenominator) (hw : ∀ i < validators.length, 0 < w i)
    (hother : ∃ v ∈ validators, v.haneulAddress ∉ slashed) :
    amount < (adjustedList w validators slashed rate amount).sum + 2 * validators.length := by
  obtain ⟨v, hv, hnot⟩ := hother
  obtain ⟨i, hi, rfl⟩ := mem_iff_getElem.mp hv
  have hunslashed : i ∉ slashedIndices validators slashed := by
    intro hmem
    obtain ⟨a, ha, hidx⟩ := mem_map.mp (mem_toFinset.mp hmem)
    obtain ⟨v, hv', haddress⟩ := idx_spec (h.active a ha)
    rw [hidx, List.getElem?_eq_getElem hi] at hv'
    rw [Option.some.inj hv', haddress] at hnot
    exact hnot ha
  rw [sum_adjustedList]
  apply lt_sum_adjustedAmount h.subset hrate
  exact lt_of_lt_of_le (hw i hi)
    (Finset.single_le_sum (fun j _ => Nat.zero_le _) (Slashed.unslashed hi hunslashed))

end Compute

/-! ### Handing the rewards out -/

section Payout

/-- No reward is split off a balance that does not hold it, and no other part of the
    distribution fails: an abort comes from a staking pool or a sum that does not fit. -/
def SplitsSucceed (e : ValidatorSetAbort) : Prop := ∃ abort, e = .pool abort ∧ abort ≠ .notEnough

theorem inPool_splits {α : Type*} {x : Except PoolAbort α} (h : ErrorsIn (· ≠ .notEnough) x) :
    ErrorsIn SplitsSucceed (inPool x) := by
  intro e he
  cases x with
  | ok a => cases he
  | error abort =>
    cases he
    exact ⟨abort, rfl, h abort rfl⟩

theorem overflow_ne_notEnough {α : Type*} {x : Except PoolAbort α}
    (h : ErrorsIn PoolAbort.IsOverflow x) : ErrorsIn (· ≠ .notEnough) x := by
  intro e he
  rcases h e he with rfl | rfl <;> decide

theorem subU64_ne_notEnough {a b : Nat} : ErrorsIn (· ≠ .notEnough) (subU64 a b) :=
  .ite .ok (.error (by decide))

variable {validatorReward stakerReward epoch : Nat}

theorem payValidator_errors {v : Validator} :
    ErrorsIn (· ≠ .notEnough) (payValidator v validatorReward stakerReward epoch) := by
  have hadd : ∀ {a b}, ErrorsIn (· ≠ PoolAbort.notEnough) (addU64 a b) :=
    overflow_ne_notEnough addU64_errors
  have hpending : ∀ {pool : StakingPool}, ErrorsIn (· ≠ .notEnough) pool.processPendingStake :=
    .bind hadd fun _ _ => .bind subU64_ne_notEnough fun _ _ =>
      .bind (overflow_ne_notEnough PoolTokenExchangeRate.getTokenAmount_errors) fun _ _ => .ok
  have hpreactive : ∀ {pool : StakingPool},
      ErrorsIn (· ≠ .notEnough) (Validator.processIfPreactive pool) := .ite hpending .ok
  have hrequest : ∀ {pool : StakingPool} {stake epoch : Nat},
      ErrorsIn (· ≠ .notEnough) (Validator.requestAddStake pool stake epoch) :=
    .bind (require_errors (by decide)) fun _ _ =>
      .bind (.bind (require_errors (by decide)) fun _ _ => .bind (require_errors (by decide))
        fun _ _ => .bind hadd fun _ _ => .ok) fun _ _ => .bind hpreactive fun _ _ => .ok
  have hstake : ErrorsIn (· ≠ .notEnough) (stakeReward v validatorReward epoch) :=
    .ite (.bind hrequest fun _ _ => .bind hadd fun _ _ => .ok) .ok
  exact .bind hstake fun _ _ => .bind hadd fun _ _ =>
    .bind (.bind hadd fun _ _ => .bind hadd fun _ _ => .ok) fun _ _ => .ok

theorem payValidator_commissionRate {v v' : Validator}
    (h : payValidator v validatorReward stakerReward epoch = .ok v') :
    v'.commissionRate = v.commissionRate := by
  obtain ⟨v₁, hstake, hdeposit⟩ := bind_eq_ok.mp h
  have hfirst : v₁.commissionRate = v.commissionRate := by
    unfold stakeReward at hstake
    split at hstake
    · obtain ⟨_, _, _, _, h₂⟩ := bind₂_eq_ok.mp hstake
      cases h₂
      rfl
    · cases hstake
      rfl
  obtain ⟨_, _, _, _, h₄⟩ := bind₂_eq_ok.mp hdeposit
  cases h₄
  exact hfirst

variable {n : Nat} {f g : Nat → Nat} {epoch : Nat}

/-- What holds of the state before the rewards of the indices in `todo` are paid. -/
structure Payable (n : Nat) (f g : Nat → Nat) (todo : List Nat) (state : Payout) : Prop where
  length : state.validators.length = n
  commission : ∀ v ∈ state.validators, v.commissionRate ≤ basisPointDenominator
  staking : (todo.map f).sum ≤ state.stakingRewards
  storageFund : (todo.map g).sum ≤ state.storageFundReward

theorem distributeStep_spec {todo : List Nat} {state : Payout} {i : Nat}
    (h : Payable n f g (i :: todo) state) (hi : i < n) (hfits : f i ≤ u64Max) :
    ErrorsIn SplitsSucceed
        (distributeStep ((List.range n).map f) ((List.range n).map g) epoch state i) ∧
      ∀ state', distributeStep ((List.range n).map f) ((List.range n).map g) epoch state i =
          .ok state' → Payable n f g todo state' ∧
        state'.stakingRewards = state.stakingRewards - f i ∧
        state'.storageFundReward = state.storageFundReward - g i := by
  have hstaking := h.staking
  have hstorage := h.storageFund
  rw [map_cons, sum_cons] at hstaking hstorage
  have hlt : i < state.validators.length := h.length ▸ hi
  have hcommission := h.commission _ (getElem_mem hlt)
  have hget := getAt_eq (List.getElem?_eq_getElem hlt)
  have hpart : f i * state.validators[i].commissionRate / basisPointDenominator ≤ f i :=
    Nat.div_le_of_le_mul ((Nat.mul_comm _ _).trans_le (Nat.mul_le_mul_right _ hcommission))
  have hmul : mulDiv (f i) state.validators[i].commissionRate basisPointDenominator =
      .ok (f i * state.validators[i].commissionRate / basisPointDenominator) :=
    mulDiv_eq_ok.mpr ⟨by decide, hpart.trans hfits, rfl⟩
  have hstep : distributeStep ((List.range n).map f) ((List.range n).map g) epoch state i = (do
      let validatorReward ← inPool (addU64
        (f i * state.validators[i].commissionRate / basisPointDenominator) (g i))
      let validator ← inPool (payValidator state.validators[i] validatorReward
        (f i - f i * state.validators[i].commissionRate / basisPointDenominator) epoch)
      return ⟨state.validators.set i validator, state.stakingRewards - f i,
        state.storageFundReward - g i⟩) := by
    unfold distributeStep
    rw [hget, getAt_range hi, getAt_range hi]
    simp only [bind, Except.bind, hmul, splitBalance_of_le hpart, inPool_ok,
      splitBalance_of_le (show f i ≤ state.stakingRewards by omega),
      splitBalance_of_le (show g i ≤ state.storageFundReward by omega)]
  rw [hstep]
  constructor
  · exact .bind (inPool_splits (overflow_ne_notEnough addU64_errors)) fun _ _ =>
      .bind (inPool_splits payValidator_errors) fun _ _ => .ok
  · intro state' hstate
    obtain ⟨_, _, v, hpay, h₂⟩ := bind₂_eq_ok.mp hstate
    cases h₂
    refine ⟨⟨?_, ?_, ?_, ?_⟩, rfl, rfl⟩
    · exact (length_set ..).trans h.length
    · intro w hw
      rcases mem_or_eq_of_mem_set hw with hold | rfl
      · exact h.commission w hold
      · rw [payValidator_commissionRate (inPool_eq_ok.mp hpay)]
        exact hcommission
    · dsimp only
      omega
    · dsimp only
      omega

/-- The whole loop: all splits succeed, and what is left is what was not given out. -/
theorem distributeLoop_spec {todo : List Nat} {state : Payout} (hfits : ∀ i < n, f i ≤ u64Max)
    (hlt : ∀ i ∈ todo, i < n) (h : Payable n f g todo state) :
    ErrorsIn SplitsSucceed
        (todo.foldlM (distributeStep ((List.range n).map f) ((List.range n).map g) epoch) state) ∧
      ∀ state', todo.foldlM (distributeStep ((List.range n).map f) ((List.range n).map g) epoch)
          state = .ok state' →
        state'.stakingRewards = state.stakingRewards - (todo.map f).sum ∧
        state'.storageFundReward = state.storageFundReward - (todo.map g).sum := by
  induction todo generalizing state with
  | nil =>
    refine ⟨.ok, ?_⟩
    intro state' hstate
    cases hstate
    exact ⟨rfl, rfl⟩
  | cons i todo ih =>
    have hi := hlt i (.head _)
    obtain ⟨herrors, hnext⟩ := @distributeStep_spec n f g epoch todo state i h hi (hfits i hi)
    have hlt' : ∀ j ∈ todo, j < n := fun j hj => hlt j (.tail _ hj)
    rw [foldlM_cons]
    constructor
    · exact herrors.bind fun s hs => (ih hlt' (hnext s hs).1).1
    · intro state' hstate
      obtain ⟨s, hs, hrest⟩ := bind_eq_ok.mp hstate
      obtain ⟨hpayable, hstaking, hstorage⟩ := hnext s hs
      obtain ⟨hstaking', hstorage'⟩ := (ih hlt' hpayable).2 state' hrest
      rw [map_cons, sum_cons, map_cons, sum_cons]
      omega

end Payout

end ValidatorSet

open ValidatorSet in
/-- The rewards of an epoch, whichever distinct active validators are slashed: the amounts are
    computed, they are there to be split off the two balances, and if some validator is not
    slashed, what remains of each balance is less than two units for each validator. -/
theorem reward_distribution_solvent {validators : List Validator} {slashed : List Nat}
    {rewardSlashingRate computationReward storageFundReward : Nat} (hne : validators ≠ [])
    (hpos : ∀ v ∈ validators, 0 < v.votingPower)
    (hsum : (validators.map (·.votingPower)).sum = 10000) (hreward : computationReward ≤ u64Max)
    (hstorage : storageFundReward ≤ u64Max) (hrate : rewardSlashingRate ≤ 10000)
    (hcommission : ∀ v ∈ validators, v.commissionRate ≤ 10000) (hnodup : slashed.Nodup)
    (hactive : ∀ a ∈ slashed, ∃ v ∈ validators, v.haneulAddress = a) :
    ∃ staking storageFund, computeRewards validators slashed rewardSlashingRate computationReward
        storageFundReward = .ok (staking, storageFund) ∧
      staking.sum ≤ computationReward ∧ storageFund.sum ≤ storageFundReward ∧
      (∀ epoch, ErrorsIn (fun e => ∃ abort, e = .pool abort ∧ abort ≠ .notEnough)
          (distributeReward validators staking storageFund computationReward storageFundReward
            epoch) ∧
        ∀ payout, distributeReward validators staking storageFund computationReward
            storageFundReward epoch = .ok payout →
          payout.stakingRewards = computationReward - staking.sum ∧
          payout.storageFundReward = storageFundReward - storageFund.sum) ∧
      ((∃ v ∈ validators, v.haneulAddress ∉ slashed) →
        computationReward - staking.sum < 2 * validators.length + 1 ∧
        storageFundReward - storageFund.sum < 2 * validators.length + 1) := by
  have hslashed : Slashed validators slashed := ⟨hnodup, hactive⟩
  have hlength : 0 < validators.length := length_pos_iff.mpr hne
  have hstakingLe : (adjustedList (powerAt validators) validators slashed rewardSlashingRate
      computationReward).sum ≤ computationReward := hslashed.sum_adjustedList_le hrate
  have hstorageLe : (adjustedList evenly validators slashed rewardSlashingRate
      storageFundReward).sum ≤ storageFundReward := hslashed.sum_adjustedList_le hrate
  refine ⟨_, _, computeRewards_eq hslashed hpos hrate hreward hstorage hne hsum, hstakingLe,
    hstorageLe, ?_, ?_⟩
  · intro epoch
    have hpayable : Payable validators.length
        (adjustedAmount (powerAt validators) validators.length (slashedIndices validators slashed)
          rewardSlashingRate computationReward)
        (adjustedAmount evenly validators.length (slashedIndices validators slashed)
          rewardSlashingRate storageFundReward)
        (List.range validators.length) ⟨validators, computationReward, storageFundReward⟩ :=
      ⟨rfl, hcommission, hstakingLe, hstorageLe⟩
    have hfits : ∀ i < validators.length, adjustedAmount (powerAt validators) validators.length
        (slashedIndices validators slashed) rewardSlashingRate computationReward i ≤ u64Max := by
      intro i hi
      have hmem := mem_map_of_mem (f := adjustedAmount (powerAt validators) validators.length
        (slashedIndices validators slashed) rewardSlashingRate computationReward)
        (mem_range.mpr hi)
      exact (le_sum_of_mem hmem).trans (hstakingLe.trans hreward)
    have hrequire : requireSet (decide (0 < validators.length)) .validatorSetEmpty = .ok () :=
      requireSet_eq_ok.mpr (decide_eq_true hlength)
    unfold distributeReward
    rw [hrequire]
    exact distributeLoop_spec hfits (fun i hi => mem_range.mp hi) hpayable
  · intro hother
    have hpowers : ∀ i < validators.length, 0 < powerAt validators i := by
      intro i hi
      rw [powerAt_eq (List.getElem?_eq_getElem hi)]
      exact hpos _ (getElem_mem hi)
    have hstaking : computationReward < _ := hslashed.lt_sum_adjustedList hrate hpowers hother
    have heven : ∀ i < validators.length, 0 < evenly i := fun _ _ => Nat.one_pos
    have hstorage : storageFundReward < _ := hslashed.lt_sum_adjustedList hrate heven hother
    exact ⟨by omega, by omega⟩

/-- Two validators, one of them slashed by a tenth. -/
theorem reward_distribution_solvent_pair : ∃ staking storageFund,
    ValidatorSet.computeRewards [⟨1, 6000, 500, 0, StakingPool.new 1⟩,
        ⟨2, 4000, 10000, 0, StakingPool.new 2⟩] [2] 1000 1001 101 = .ok (staking, storageFund) ∧
      1001 - staking.sum < 5 ∧ 101 - storageFund.sum < 5 := by
  obtain ⟨staking, storageFund, hcompute, _, _, _, hrest⟩ := @reward_distribution_solvent
    [⟨1, 6000, 500, 0, StakingPool.new 1⟩, ⟨2, 4000, 10000, 0, StakingPool.new 2⟩] [2] 1000 1001 101
    (by simp) (by simp) (by decide) (by decide) (by decide) (by decide) (by simp) (by decide)
    (by simp)
  exact ⟨staking, storageFund, hcompute, hrest (by simp)⟩

end Haneul.Staking
