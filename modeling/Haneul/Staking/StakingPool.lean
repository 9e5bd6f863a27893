import Haneul.Lib.Loop
import Haneul.Lib.Shares

/-!
# The staking pool of a validator

Mirror of `haneul_system/staking_pool.move`, and of the functions of `validator.move` that
call it.  A pool keeps one balance of HANEUL against one balance of pool tokens.  Stake that
is requested counts from the next epoch; what is withdrawn is paid at once, but taken off the
balances at the change of epoch, when the pool also records the exchange rate of the new epoch.

Every operation of the code on `u64` is here with the abort of the virtual machine: a sum or
a cast that does not fit, a difference below zero, a division by zero.  A `Balance` is its
value.  The bag of extra fields has two keys in the code and is two fields here; the table of
exchange rates is a function.
-/

namespace Haneul.Staking

open Haneul.Shares

/-! ### Arithmetic -/

def u64Max : Nat := 2 ^ 64 - 1

/-- The aborts: those of the virtual machine, of the balances and tables, and the assertions
    of the module under the names of their codes. -/
inductive PoolAbort where
  | sumOverflow
  | castOverflow
  | underflow
  | divisionByZero
  | notEnough
  | fieldAlreadyExists
  | fieldDoesNotExist
  | wrongPool
  | insufficientPoolTokenBalance
  | insufficientHaneulTokenBalance
  | tokenBalancesDoNotMatchExchangeRate
  | delegationToInactivePool
  | deactivationOfInactivePool
  | incompatibleStakedHaneul
  | delegationOfZeroHaneul
  | stakedHaneulBelowThreshold
  | cannotMintFungibleStakedHaneulYet
  | invariantFailure
  | poolAlreadyActive
  | activationOfInactivePool
  | poolPreactiveOrInactive
  | invalidStakeAmount
  | calledDuringNonGenesis
  | notCalled
deriving DecidableEq, Repr

def require (condition : Bool) (code : PoolAbort) : Except PoolAbort Unit :=
  if condition then .ok () else .error code

def addU64 (a b : Nat) : Except PoolAbort Nat :=
  if a + b ≤ u64Max then .ok (a + b) else .error .sumOverflow

def subU64 (a b : Nat) : Except PoolAbort Nat :=
  if b ≤ a then .ok (a - b) else .error .underflow

/-- `mul_div!`: the product is taken in `u128`, the quotient is cast back. -/
def mulDiv (a b c : Nat) : Except PoolAbort Nat :=
  if c = 0 then .error .divisionByZero
  else if a * b / c ≤ u64Max then .ok (a * b / c)
  else .error .castOverflow

/-- `Balance::split`: what remains in the balance. -/
def splitBalance (balance value : Nat) : Except PoolAbort Nat :=
  if value ≤ balance then .ok (balance - value) else .error .notEnough

section Arithmetic

variable {a b c : Nat} {condition : Bool} {code : PoolAbort}

@[simp] theorem require_eq_ok {u : Unit} : require condition code = .ok u ↔ condition = true := by
  cases condition <;> simp [require]

theorem addU64_eq_ok : addU64 a b = .ok c ↔ a + b ≤ u64Max ∧ c = a + b := by
  unfold addU64
  split <;> simp_all [eq_comm]

theorem subU64_eq_ok : subU64 a b = .ok c ↔ b ≤ a ∧ c = a - b := by
  unfold subU64
  split <;> simp_all [eq_comm]

theorem splitBalance_eq_ok : splitBalance a b = .ok c ↔ b ≤ a ∧ c = a - b := by
  unfold splitBalance
  split <;> simp_all [eq_comm]

theorem mulDiv_eq_ok
    {d : Nat} : mulDiv a b c = .ok d ↔ c ≠ 0 ∧ a * b / c ≤ u64Max ∧ d = a * b / c := by
  unfold mulDiv
  split
  · simp_all
  · split <;> simp_all [eq_comm]

end Arithmetic

/-! ### The code -/

structure PoolTokenExchangeRate where
  haneulAmount : Nat
  poolTokenAmount : Nat
deriving DecidableEq, Repr

def initialExchangeRate : PoolTokenExchangeRate := ⟨0, 0⟩

namespace PoolTokenExchangeRate

def getHaneulAmount (rate : PoolTokenExchangeRate) (tokenAmount : Nat) : Except PoolAbort Nat :=
  if rate.haneulAmount = 0 ∨ rate.poolTokenAmount = 0 then .ok tokenAmount
  else mulDiv rate.haneulAmount tokenAmount rate.poolTokenAmount

def getTokenAmount (rate : PoolTokenExchangeRate) (haneulAmount : Nat) : Except PoolAbort Nat :=
  if rate.haneulAmount = 0 ∨ rate.poolTokenAmount = 0 then .ok haneulAmount
  else mulDiv rate.poolTokenAmount haneulAmount rate.haneulAmount

end PoolTokenExchangeRate

/-- `FungibleStakedHaneulData`: supply of the fungible tokens and the principal behind them. -/
structure FungibleStakedHaneulData where
  totalSupply : Nat
  principal : Nat
deriving DecidableEq, Repr

structure StakingPool where
  id : Nat
  activationEpoch : Option Nat
  deactivationEpoch : Option Nat
  haneulBalance : Nat
  rewardsPool : Nat
  poolTokenBalance : Nat
  exchangeRates : Nat → Option PoolTokenExchangeRate
  pendingStake : Nat
  pendingTotalHaneulWithdraw : Nat
  pendingPoolTokenWithdraw : Nat
  /-- The extra field `FungibleStakedHaneulDataKey`. -/
  fungibleStakedHaneulData : Option FungibleStakedHaneulData
  /-- The extra field `UnderflowHaneulBalance`. -/
  underflowHaneulBalance : Option Nat

structure StakedHaneul where
  poolId : Nat
  stakeActivationEpoch : Nat
  principal : Nat
deriving DecidableEq, Repr

structure FungibleStakedHaneul where
  poolId : Nat
  value : Nat
deriving DecidableEq, Repr

def minStakingThreshold : Nat := 1000000000

namespace StakingPool

def new (id : Nat) : StakingPool where
  id := id
  activationEpoch := none
  deactivationEpoch := none
  haneulBalance := 0
  rewardsPool := 0
  poolTokenBalance := 0
  exchangeRates := fun _ => none
  pendingStake := 0
  pendingTotalHaneulWithdraw := 0
  pendingPoolTokenWithdraw := 0
  fungibleStakedHaneulData := none
  underflowHaneulBalance := none

variable (pool : StakingPool)

def isPreactive : Bool := pool.activationEpoch.isNone

def isInactive : Bool := pool.deactivationEpoch.isSome

variable (epoch : Nat)

def isPreactiveAtEpoch : Bool :=
  match pool.activationEpoch with
  | none => true
  | some activationEpoch => decide (epoch < activationEpoch)

/-- The loop that goes down from an epoch to the latest one with an entry. -/
def latestEntry (rates : Nat → Option PoolTokenExchangeRate) (activationEpoch : Nat) :
    Nat → Except PoolAbort PoolTokenExchangeRate
  | 0 =>
    if activationEpoch ≤ 0 then
      match rates 0 with
      | some rate => .ok rate
      | none => .error .underflow
    else .ok initialExchangeRate
  | epoch + 1 =>
    if activationEpoch ≤ epoch + 1 then
      match rates (epoch + 1) with
      | some rate => .ok rate
      | none => latestEntry rates activationEpoch epoch
    else .ok initialExchangeRate

def poolTokenExchangeRateAtEpoch :
    Except PoolAbort PoolTokenExchangeRate :=
  if pool.isPreactiveAtEpoch epoch then .ok initialExchangeRate
  else
    let clampedEpoch := pool.deactivationEpoch.getD epoch
    match pool.activationEpoch with
    | some activationEpoch => latestEntry pool.exchangeRates activationEpoch (min clampedEpoch epoch)
    | none => .error .fieldDoesNotExist

def requestAddStake (stake stakeActivationEpoch : Nat) :
    Except PoolAbort (StakingPool × StakedHaneul) := do
  require (!pool.isInactive) .delegationToInactivePool
  require (decide (0 < stake)) .delegationOfZeroHaneul
  let pendingStake ← addU64 pool.pendingStake stake
  return ({ pool with pendingStake }, ⟨pool.id, stakeActivationEpoch, stake⟩)

variable (stakedHaneul : StakedHaneul)

/-- Pool tokens of a receipt at the rate of its activation epoch, and its principal. -/
def withdrawFromPrincipal :
    Except PoolAbort (Nat × Nat) := do
  require (stakedHaneul.poolId == pool.id) .wrongPool
  let rate ← pool.poolTokenExchangeRateAtEpoch stakedHaneul.stakeActivationEpoch
  let poolTokenWithdrawAmount ← rate.getTokenAmount stakedHaneul.principal
  return (poolTokenWithdrawAmount, stakedHaneul.principal)

/-- Takes the rewards from the rewards pool, as far as there are any. -/
def withdrawRewards (principalWithdrawAmount poolTokenWithdrawAmount epoch : Nat) :
    Except PoolAbort (StakingPool × Nat) := do
  let rate ← pool.poolTokenExchangeRateAtEpoch epoch
  let totalHaneulWithdrawAmount ← rate.getHaneulAmount poolTokenWithdrawAmount
  let rewardWithdrawAmount :=
    if principalWithdrawAmount ≤ totalHaneulWithdrawAmount
    then totalHaneulWithdrawAmount - principalWithdrawAmount else 0
  let rewardWithdrawAmount := min rewardWithdrawAmount pool.rewardsPool
  let rewardsPool ← splitBalance pool.rewardsPool rewardWithdrawAmount
  return ({ pool with rewardsPool }, rewardWithdrawAmount)

/-- The first half of `process_pending_stake_withdraw`: the HANEUL side.  What cannot be taken
    off the balance is left for `process_pending_stake`, except for a pool that is inactive. -/
def takePendingHaneul : Except PoolAbort StakingPool :=
  if pool.pendingTotalHaneulWithdraw ≤ pool.haneulBalance then
    .ok { pool with haneulBalance := pool.haneulBalance - pool.pendingTotalHaneulWithdraw }
  else if pool.isInactive then .ok { pool with haneulBalance := 0 }
  else if pool.underflowHaneulBalance.isSome then .error .fieldAlreadyExists
  else .ok { pool with
    haneulBalance := 0
    underflowHaneulBalance := some (pool.pendingTotalHaneulWithdraw - pool.haneulBalance) }

def processPendingStakeWithdraw : Except PoolAbort StakingPool := do
  let pool ← pool.takePendingHaneul
  return { pool with
    poolTokenBalance :=
      if pool.pendingPoolTokenWithdraw ≤ pool.poolTokenBalance
      then pool.poolTokenBalance - pool.pendingPoolTokenWithdraw else 0
    pendingTotalHaneulWithdraw := 0
    pendingPoolTokenWithdraw := 0 }

/-- The end of a withdrawal: a pool that is inactive or preactive is not processed at the
    change of epoch, so it is processed right away. -/
def processIfNotActive : Except PoolAbort StakingPool :=
  if pool.isInactive || pool.isPreactive then pool.processPendingStakeWithdraw else .ok pool

def processPendingStake : Except PoolAbort StakingPool := do
  let latestExchangeRate : PoolTokenExchangeRate := ⟨pool.haneulBalance, pool.poolTokenBalance⟩
  let haneulDiff := pool.underflowHaneulBalance.getD 0
  let withStake ← addU64 pool.haneulBalance pool.pendingStake
  let haneulBalance ← subU64 withStake haneulDiff
  let poolTokenBalance ← latestExchangeRate.getTokenAmount haneulBalance
  return { pool with
    haneulBalance, poolTokenBalance, pendingStake := 0, underflowHaneulBalance := none }

def checkBalanceInvariants : Except PoolAbort Unit := do
  let rate ← pool.poolTokenExchangeRateAtEpoch epoch
  let expected ← rate.getTokenAmount pool.haneulBalance
  require (expected == pool.poolTokenBalance) .tokenBalancesDoNotMatchExchangeRate

def addExchangeRate (rate : PoolTokenExchangeRate) :
    Except PoolAbort StakingPool :=
  if (pool.exchangeRates epoch).isSome then .error .fieldAlreadyExists
  else .ok { pool with exchangeRates := Function.update pool.exchangeRates epoch (some rate) }

def processPendingStakesAndWithdraws :
    Except PoolAbort StakingPool := do
  let newEpoch := epoch + 1
  let pool ← pool.processPendingStakeWithdraw
  let pool ← pool.processPendingStake
  let pool ← pool.addExchangeRate newEpoch ⟨pool.haneulBalance, pool.poolTokenBalance⟩
  pool.checkBalanceInvariants newEpoch
  return pool

/-- Returns the pool and what is paid out. -/
def requestWithdrawStake (epoch : Nat) :
    Except PoolAbort (StakingPool × Nat) :=
  if epoch < stakedHaneul.stakeActivationEpoch ∧ pool.isPreactive = false then do
    let pendingStake ← subU64 pool.pendingStake stakedHaneul.principal
    return ({ pool with pendingStake }, stakedHaneul.principal)
  else do
    let (poolTokenWithdrawAmount, principalWithdrawAmount) ← pool.withdrawFromPrincipal stakedHaneul
    let (pool, rewardsWithdraw) ←
      pool.withdrawRewards principalWithdrawAmount poolTokenWithdrawAmount epoch
    let totalHaneulWithdrawAmount ← addU64 principalWithdrawAmount rewardsWithdraw
    let pendingTotalHaneulWithdraw ←
      addU64 pool.pendingTotalHaneulWithdraw totalHaneulWithdrawAmount
    let pendingPoolTokenWithdraw ← addU64 pool.pendingPoolTokenWithdraw poolTokenWithdrawAmount
    let pool ← processIfNotActive { pool with pendingTotalHaneulWithdraw, pendingPoolTokenWithdraw }
    return (pool, totalHaneulWithdrawAmount)

def depositRewards (rewards : Nat) : Except PoolAbort StakingPool := do
  let haneulBalance ← addU64 pool.haneulBalance rewards
  let rewardsPool ← addU64 pool.rewardsPool rewards
  return { pool with haneulBalance, rewardsPool }

/-- The fungible data after a conversion; the first one creates it. -/
def addFungible (data : Option FungibleStakedHaneulData) (poolTokenAmount principal : Nat) :
    Except PoolAbort FungibleStakedHaneulData :=
  match data with
  | none => .ok ⟨poolTokenAmount, principal⟩
  | some data => do
    let totalSupply ← addU64 data.totalSupply poolTokenAmount
    let principal ← addU64 data.principal principal
    return ⟨totalSupply, principal⟩

def convertToFungibleStakedHaneul (epoch : Nat) :
    Except PoolAbort (StakingPool × FungibleStakedHaneul) := do
  require (stakedHaneul.poolId == pool.id) .wrongPool
  require (decide (stakedHaneul.stakeActivationEpoch ≤ epoch)) .cannotMintFungibleStakedHaneulYet
  require (!pool.isPreactive && !pool.isInactive) .poolPreactiveOrInactive
  let rate ← pool.poolTokenExchangeRateAtEpoch stakedHaneul.stakeActivationEpoch
  let poolTokenAmount ← rate.getTokenAmount stakedHaneul.principal
  require (decide (0 < poolTokenAmount)) .stakedHaneulBelowThreshold
  let data ← addFungible pool.fungibleStakedHaneulData poolTokenAmount stakedHaneul.principal
  return ({ pool with fungibleStakedHaneulData := some data }, ⟨stakedHaneul.poolId, poolTokenAmount⟩)

end StakingPool

/-- What a fungible receipt is paid from the principal and from the rewards. -/
def PoolTokenExchangeRate.calculateFungibleStakedHaneulWithdrawAmount
    (latestExchangeRate : PoolTokenExchangeRate) (value principalAmount totalSupply : Nat) :
    Except PoolAbort (Nat × Nat) := do
  let totalHaneulAmount ← latestExchangeRate.getHaneulAmount totalSupply
  let principalAmount := min principalAmount totalHaneulAmount
  let totalRewards ← subU64 totalHaneulAmount principalAmount
  let principalWithdrawAmount ← mulDiv value principalAmount totalSupply
  let rewardsWithdrawAmount ← mulDiv value totalRewards totalSupply
  let expectedHaneulAmount ← latestExchangeRate.getHaneulAmount value
  let withdrawAmount ← addU64 principalWithdrawAmount rewardsWithdrawAmount
  require (decide (withdrawAmount ≤ expectedHaneulAmount)) .invariantFailure
  return (principalWithdrawAmount, rewardsWithdrawAmount)

namespace StakingPool

variable (pool : StakingPool)

def redeemFungibleStakedHaneul (fungible : FungibleStakedHaneul) (epoch : Nat) :
    Except PoolAbort (StakingPool × Nat) := do
  require (fungible.poolId == pool.id) .wrongPool
  let latestExchangeRate ← pool.poolTokenExchangeRateAtEpoch epoch
  match pool.fungibleStakedHaneulData with
  | none => .error .fieldDoesNotExist
  | some data =>
    let (principalAmount, rewardsAmount) ←
      latestExchangeRate.calculateFungibleStakedHaneulWithdrawAmount
        fungible.value data.principal data.totalSupply
    let totalSupply ← subU64 data.totalSupply fungible.value
    let principal ← splitBalance data.principal principalAmount
    let rewardsPool ← splitBalance pool.rewardsPool rewardsAmount
    let haneulOut ← addU64 principalAmount rewardsAmount
    let pendingTotalHaneulWithdraw ← addU64 pool.pendingTotalHaneulWithdraw haneulOut
    let pendingPoolTokenWithdraw ← addU64 pool.pendingPoolTokenWithdraw fungible.value
    return ({ pool with
      fungibleStakedHaneulData := some ⟨totalSupply, principal⟩
      rewardsPool, pendingTotalHaneulWithdraw, pendingPoolTokenWithdraw }, haneulOut)

def activateStakingPool (activationEpoch : Nat) : Except PoolAbort StakingPool := do
  let pool ← pool.addExchangeRate activationEpoch initialExchangeRate
  require pool.isPreactive .poolAlreadyActive
  require (!pool.isInactive) .activationOfInactivePool
  return { pool with activationEpoch := some activationEpoch }

def deactivateStakingPool (deactivationEpoch : Nat) :
    Except PoolAbort StakingPool := do
  require (!pool.isInactive) .deactivationOfInactivePool
  return { pool with deactivationEpoch := some deactivationEpoch }

end StakingPool

/-- `split_fungible_staked_haneul`: the receipt that remains and the new one. -/
def FungibleStakedHaneul.split (fungible : FungibleStakedHaneul) (splitAmount : Nat) :
    Except PoolAbort (FungibleStakedHaneul × FungibleStakedHaneul) := do
  require (decide (splitAmount ≤ fungible.value)) .insufficientPoolTokenBalance
  let value ← subU64 fungible.value splitAmount
  return ({ fungible with value }, { fungible with value := splitAmount })

def FungibleStakedHaneul.join (self other : FungibleStakedHaneul) :
    Except PoolAbort FungibleStakedHaneul := do
  require (self.poolId == other.poolId) .wrongPool
  let value ← addU64 self.value other.value
  return { self with value }

def StakedHaneul.split (self : StakedHaneul) (splitAmount : Nat) :
    Except PoolAbort (StakedHaneul × StakedHaneul) := do
  require (decide (splitAmount ≤ self.principal)) .insufficientHaneulTokenBalance
  let remainingAmount ← subU64 self.principal splitAmount
  require (decide (minStakingThreshold ≤ remainingAmount)) .stakedHaneulBelowThreshold
  require (decide (minStakingThreshold ≤ splitAmount)) .stakedHaneulBelowThreshold
  let principal ← splitBalance self.principal splitAmount
  return ({ self with principal }, { self with principal := splitAmount })

def StakedHaneul.isEqualStakingMetadata (self other : StakedHaneul) : Bool :=
  self.poolId == other.poolId && self.stakeActivationEpoch == other.stakeActivationEpoch

def StakedHaneul.join (self other : StakedHaneul) : Except PoolAbort StakedHaneul := do
  require (self.isEqualStakingMetadata other) .incompatibleStakedHaneul
  let principal ← addU64 self.principal other.principal
  return { self with principal }

/-! ### The validator in front of the pool -/

namespace Validator

variable (pool : StakingPool)

/-- The stake of a preactive pool counts at once. -/
def processIfPreactive : Except PoolAbort StakingPool :=
  if pool.isPreactive then pool.processPendingStake else .ok pool

def requestAddStake (stake epoch : Nat) :
    Except PoolAbort (StakingPool × StakedHaneul) := do
  require (decide (0 < stake)) .invalidStakeAmount
  let (pool, stakedHaneul) ← pool.requestAddStake stake (epoch + 1)
  let pool ← processIfPreactive pool
  return (pool, stakedHaneul)

def requestAddStakeAtGenesis (stake epoch : Nat) :
    Except PoolAbort (StakingPool × StakedHaneul) := do
  require (epoch == 0) .calledDuringNonGenesis
  require (decide (0 < stake)) .invalidStakeAmount
  let (pool, stakedHaneul) ← pool.requestAddStake stake 0
  let pool ← pool.processPendingStake
  return (pool, stakedHaneul)

end Validator

/-! ### Exchange rates

A recorded rate converts both ways by `convert`; the code computes the same wherever the
result fits. -/

namespace PoolTokenExchangeRate

variable {rate : PoolTokenExchangeRate} {x y : Nat} {e : PoolAbort}

def tokens (rate : PoolTokenExchangeRate) (x : Nat) : Nat :=
  convert rate.haneulAmount rate.poolTokenAmount x

def haneul (rate : PoolTokenExchangeRate) (x : Nat) : Nat :=
  convert rate.poolTokenAmount rate.haneulAmount x

/-- The rate of a pool in which there is nothing on one of the sides. -/
def OneToOne (rate : PoolTokenExchangeRate) : Prop :=
  rate.haneulAmount = 0 ∨ rate.poolTokenAmount = 0

theorem initial_oneToOne : initialExchangeRate.OneToOne := .inl rfl

theorem OneToOne.tokens_eq (h : rate.OneToOne) : rate.tokens x = x := convert_of_one_to_one h

theorem OneToOne.haneul_eq (h : rate.OneToOne) : rate.haneul x = x := convert_of_one_to_one h.symm

@[simp] theorem tokens_zero : rate.tokens 0 = 0 := convert_zero

theorem getTokenAmount_cases :
    rate.getTokenAmount x = .ok (rate.tokens x) ∨
      rate.getTokenAmount x = .error .castOverflow ∧ u64Max < rate.tokens x := by
  by_cases hone : rate.haneulAmount = 0 ∨ rate.poolTokenAmount = 0
  · exact .inl (by rw [getTokenAmount, if_pos hone, tokens, convert_of_one_to_one hone])
  · have hzero : rate.haneulAmount ≠ 0 ∧ rate.poolTokenAmount ≠ 0 := not_or.mp hone
    rw [getTokenAmount, if_neg hone, tokens, convert_of_ne_zero hzero.1 hzero.2, mulDiv,
      if_neg hzero.1]
    split
    · exact .inl rfl
    · exact .inr ⟨rfl, by omega⟩

theorem getHaneulAmount_cases :
    rate.getHaneulAmount x = .ok (rate.haneul x) ∨
      rate.getHaneulAmount x = .error .castOverflow ∧ u64Max < rate.haneul x := by
  by_cases hone : rate.haneulAmount = 0 ∨ rate.poolTokenAmount = 0
  · exact .inl (by rw [getHaneulAmount, if_pos hone, haneul, convert_of_one_to_one hone.symm])
  · have hzero : rate.haneulAmount ≠ 0 ∧ rate.poolTokenAmount ≠ 0 := not_or.mp hone
    rw [getHaneulAmount, if_neg hone, haneul, convert_of_ne_zero hzero.2 hzero.1, mulDiv,
      if_neg hzero.2]
    split
    · exact .inl rfl
    · exact .inr ⟨rfl, by omega⟩

theorem eq_tokens_of_ok (h : rate.getTokenAmount x = .ok y) : y = rate.tokens x := by
  rcases @getTokenAmount_cases rate x with hok | ⟨herr, _⟩
  · exact (Except.ok.inj (hok.symm.trans h)).symm
  · rw [herr] at h
    cases h

theorem eq_haneul_of_ok (h : rate.getHaneulAmount x = .ok y) : y = rate.haneul x := by
  rcases @getHaneulAmount_cases rate x with hok | ⟨herr, _⟩
  · exact (Except.ok.inj (hok.symm.trans h)).symm
  · rw [herr] at h
    cases h

theorem getTokenAmount_of_le (h : rate.tokens x ≤ u64Max) :
    rate.getTokenAmount x = .ok (rate.tokens x) :=
  getTokenAmount_cases.resolve_right fun herr => absurd h (Nat.not_le.mpr herr.2)

theorem getHaneulAmount_of_le (h : rate.haneul x ≤ u64Max) :
    rate.getHaneulAmount x = .ok (rate.haneul x) :=
  getHaneulAmount_cases.resolve_right fun herr => absurd h (Nat.not_le.mpr herr.2)

/-- For an amount that fits the result is returned exactly if it fits. -/
theorem getTokenAmount_eq (hx : x ≤ u64Max) : rate.getTokenAmount x =
    if rate.tokens x ≤ u64Max then .ok (rate.tokens x) else .error .castOverflow := by
  split
  · next hfits => exact getTokenAmount_of_le hfits
  · next hlarge =>
      have hone : ¬(rate.haneulAmount = 0 ∨ rate.poolTokenAmount = 0) := fun hone =>
        hlarge ((convert_of_one_to_one hone).trans_le hx)
      have hzero := not_or.mp hone
      rw [tokens, convert_of_ne_zero hzero.1 hzero.2] at hlarge
      rw [getTokenAmount, if_neg hone, mulDiv, if_neg hzero.1, if_neg hlarge]

theorem castOverflow_of_getTokenAmount (h : rate.getTokenAmount x = .error e) :
    e = .castOverflow := by
  rcases @getTokenAmount_cases rate x with hok | ⟨herr, _⟩
  · rw [hok] at h
    cases h
  · exact (Except.error.inj (herr.symm.trans h)).symm

theorem castOverflow_of_getHaneulAmount (h : rate.getHaneulAmount x = .error e) :
    e = .castOverflow := by
  rcases @getHaneulAmount_cases rate x with hok | ⟨herr, _⟩
  · rw [hok] at h
    cases h
  · exact (Except.error.inj (herr.symm.trans h)).symm

end PoolTokenExchangeRate

/-! ### The table of rates -/

def latestRate (rates : Nat → Option PoolTokenExchangeRate) : Nat → PoolTokenExchangeRate
  | 0 => (rates 0).getD initialExchangeRate
  | epoch + 1 => (rates (epoch + 1)).getD (latestRate rates epoch)

section LatestRate

variable {rates rates' : Nat → Option PoolTokenExchangeRate} {epoch : Nat}

theorem latestRate_congr (h : ∀ e ≤ epoch, rates e = rates' e) :
    latestRate rates epoch = latestRate rates' epoch := by
  induction epoch with
  | zero => rw [latestRate, latestRate, h 0 le_rfl]
  | succ epoch ih =>
    rw [latestRate, latestRate, h _ le_rfl, ih fun e he => h e (he.trans (Nat.le_succ epoch))]

theorem latestRate_eq_initial
    (h : ∀ e ≤ epoch, ∀ rate, rates e = some rate → rate = initialExchangeRate) :
    latestRate rates epoch = initialExchangeRate := by
  have hentry : ∀ e ≤ epoch, ∀ rate : PoolTokenExchangeRate, rate = initialExchangeRate →
      (rates e).getD rate = initialExchangeRate := by
    intro e he rate hrate
    cases hr : rates e with
    | none => exact hrate
    | some rate' => exact h e he rate' hr
  induction epoch with
  | zero => exact hentry 0 le_rfl _ rfl
  | succ epoch ih =>
    exact hentry _ le_rfl _ (ih (fun e he => h e (he.trans (Nat.le_succ epoch)))
      fun e he => hentry e (he.trans (Nat.le_succ epoch)))

variable {rate : PoolTokenExchangeRate}

theorem latestRate_of_entry (h : rates epoch = some rate) :
    latestRate rates epoch = rate := by
  cases epoch <;> simp [latestRate, h]

theorem latestRate_mem (rates : Nat → Option PoolTokenExchangeRate) (epoch : Nat) :
    latestRate rates epoch = initialExchangeRate ∨
      ∃ e ≤ epoch, rates e = some (latestRate rates epoch) := by
  induction epoch with
  | zero =>
    cases h : rates 0 with
    | none => exact .inl (by rw [latestRate, h]; rfl)
    | some rate => exact .inr ⟨0, le_rfl, by rw [latestRate_of_entry h, h]⟩
  | succ epoch ih =>
    cases h : rates (epoch + 1) with
    | none =>
      rw [latestRate, h]
      rcases ih with hinit | ⟨e, he, hentry⟩
      · exact .inl hinit
      · exact .inr ⟨e, he.trans (Nat.le_succ epoch), hentry⟩
    | some rate => exact .inr ⟨_, le_rfl, by rw [latestRate_of_entry h, h]⟩

theorem latestEntry_eq {activationEpoch : Nat}
    (hfirst : rates activationEpoch = some rate) (hbefore : ∀ e < activationEpoch, rates e = none) :
    StakingPool.latestEntry rates activationEpoch epoch = .ok (latestRate rates epoch) := by
  -- below the activation epoch there is no entry that could be found
  have hearly : epoch < activationEpoch → latestRate rates epoch = initialExchangeRate :=
    fun hlt => latestRate_eq_initial fun e he rate hr => by
      rw [hbefore e (by omega)] at hr
      cases hr
  induction epoch with
  | zero =>
    unfold StakingPool.latestEntry
    split
    · next hle =>
        obtain rfl := Nat.le_zero.mp hle
        rw [latestRate_of_entry hfirst, hfirst]
    · next hlt => rw [hearly (by omega)]
  | succ epoch ih =>
    unfold StakingPool.latestEntry
    split
    · next hle =>
        cases h : rates (epoch + 1) with
        | some rate' => rw [latestRate_of_entry h]
        | none =>
          have hne : activationEpoch ≠ epoch + 1 := by
            rintro rfl
            rw [hfirst] at h
            cases h
          simp only [latestRate, h, Option.getD_none]
          exact ih fun hlt => absurd hlt (by omega)
    · next hlt => rw [hearly (by omega)]

end LatestRate

namespace StakingPool

variable {pool : StakingPool} {epoch : Nat}

/-- The rate that counts for an epoch; a pool that is inactive keeps its last one. -/
def rateAt (pool : StakingPool) (epoch : Nat) : PoolTokenExchangeRate :=
  latestRate pool.exchangeRates (min (pool.deactivationEpoch.getD epoch) epoch)

/-- The table starts with the initial rate at the activation of the pool. -/
structure RatesFrom (pool : StakingPool) : Prop where
  preactive : pool.activationEpoch = none → ∀ e, pool.exchangeRates e = none
  first : ∀ a, pool.activationEpoch = some a → pool.exchangeRates a = some initialExchangeRate
  before : ∀ a, pool.activationEpoch = some a → ∀ e < a, pool.exchangeRates e = none

theorem RatesFrom.of_eq {pool' : StakingPool} (h : RatesFrom pool)
    (ha : pool'.activationEpoch = pool.activationEpoch)
    (hr : pool'.exchangeRates = pool.exchangeRates) : RatesFrom pool' where
  preactive := by rw [ha, hr]; exact h.preactive
  first := by rw [ha, hr]; exact h.first
  before := by rw [ha, hr]; exact h.before

theorem RatesFrom.rateAt_of_preactive (h : RatesFrom pool) (hpre : pool.activationEpoch = none) :
    pool.rateAt epoch = initialExchangeRate :=
  latestRate_eq_initial fun e _ rate hr => by
    rw [h.preactive hpre e] at hr
    cases hr

theorem RatesFrom.rateAtEpoch_eq (h : RatesFrom pool) :
    pool.poolTokenExchangeRateAtEpoch epoch = .ok (pool.rateAt epoch) := by
  unfold poolTokenExchangeRateAtEpoch isPreactiveAtEpoch
  cases ha : pool.activationEpoch with
  | none => rw [h.rateAt_of_preactive ha]; rfl
  | some a =>
    by_cases hlt : epoch < a
    · have hinit : pool.rateAt epoch = initialExchangeRate :=
        latestRate_eq_initial fun e he rate hr => by
          rw [h.before a ha e (by omega)] at hr
          cases hr
      simp [hlt, hinit]
    · simp [hlt, rateAt, latestEntry_eq (h.first a ha) (h.before a ha)]

end StakingPool

end Haneul.Staking
