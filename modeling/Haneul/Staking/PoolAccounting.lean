import Haneul.Staking.PoolOperations

/-!
# The books of a staking pool over whole histories

A pool together with every receipt that is outstanding for it, under the calls that the rest
of the system makes: requests of stakers at any time, rewards and the processing of what is
pending at the change of epoch, activation and departure of the validator.  An epoch may also
end in safe mode, without any processing.

Two ledgers are kept.  The HANEUL of the pool is always what the receipts and the fungible
stake have as principal, and the rewards.  The pool tokens always suffice for the receipts at
the rates of their activation epochs; this is carried for the principals of an epoch as a
whole, since two receipts that are joined may be owed one token more than they were apart.
-/

namespace Haneul.Staking

open PoolTokenExchangeRate

open Function (update update_self update_of_ne)

open Haneul.Shares StakingPool

/-! ### The system around a pool -/

structure PoolState where
  pool : StakingPool
  epoch : Nat
  /-- Receipts that are outstanding. -/
  staked : List StakedHaneul
  fungible : List FungibleStakedHaneul
  /-- An epoch has ended in safe mode. -/
  skipped : Bool

def PoolState.init (id epoch : Nat) : PoolState := ⟨StakingPool.new id, epoch, [], [], false⟩

inductive PoolOp where
  | requestAddStake (stake : Nat)
  | requestAddStakeAtGenesis (stake : Nat)
  | requestWithdrawStake (receipt : Nat)
  | convertToFungible (receipt : Nat)
  | redeemFungible (receipt : Nat)
  | splitStaked (receipt amount : Nat)
  | joinStaked (receipt other : Nat)
  | splitFungible (receipt amount : Nat)
  | joinFungible (receipt other : Nat)
  | depositRewards (rewards : Nat)
  | activateAtGenesis
  | activate
  | removeCandidate
  | advanceEpoch
  | depart
  | skipEpoch
deriving DecidableEq, Repr

def takeAt {α : Type} (l : List α) (i : Nat) : Except PoolAbort (α × List α) :=
  match l[i]? with
  | some a => .ok (a, l.eraseIdx i)
  | none => .error .notCalled

variable (pool : StakingPool)

def StakingPool.isActive : Bool := !pool.isPreactive && !pool.isInactive

theorem StakingPool.isActive_iff : pool.isActive = true ↔
    pool.activationEpoch ≠ none ∧ pool.deactivationEpoch = none := by
  simp [isActive, isPreactive, isInactive, Option.isSome_iff_ne_none]

/-- One call.  `notCalled` stands for what the callers do not do: rewards are for active
    validators, and at genesis all stake is put in before any pool is activated. -/
def PoolState.apply (s : PoolState) : PoolOp → Except PoolAbort PoolState
  | .requestAddStake stake => do
    let (pool, receipt) ← Validator.requestAddStake s.pool stake s.epoch
    return { s with pool, staked := receipt :: s.staked }
  | .requestAddStakeAtGenesis stake => do
    require s.pool.isPreactive .notCalled
    let (pool, receipt) ← Validator.requestAddStakeAtGenesis s.pool stake s.epoch
    return { s with pool, staked := receipt :: s.staked }
  | .requestWithdrawStake i => do
    let (receipt, staked) ← takeAt s.staked i
    let (pool, _) ← s.pool.requestWithdrawStake receipt s.epoch
    return { s with pool, staked }
  | .convertToFungible i => do
    let (receipt, staked) ← takeAt s.staked i
    let (pool, fungible) ← s.pool.convertToFungibleStakedHaneul receipt s.epoch
    return { s with pool, staked, fungible := fungible :: s.fungible }
  | .redeemFungible i => do
    let (receipt, fungible) ← takeAt s.fungible i
    let (pool, _) ← s.pool.redeemFungibleStakedHaneul receipt s.epoch
    return { s with pool, fungible }
  | .splitStaked i amount => do
    let (receipt, staked) ← takeAt s.staked i
    let (receipt, part) ← receipt.split amount
    return { s with staked := receipt :: part :: staked }
  | .joinStaked i j => do
    let (receipt, staked) ← takeAt s.staked i
    let (other, staked) ← takeAt staked j
    let receipt ← receipt.join other
    return { s with staked := receipt :: staked }
  | .splitFungible i amount => do
    let (receipt, fungible) ← takeAt s.fungible i
    let (receipt, part) ← receipt.split amount
    return { s with fungible := receipt :: part :: fungible }
  | .joinFungible i j => do
    let (receipt, fungible) ← takeAt s.fungible i
    let (other, fungible) ← takeAt fungible j
    let receipt ← receipt.join other
    return { s with fungible := receipt :: fungible }
  | .depositRewards rewards => do
    require s.pool.isActive .notCalled
    let pool ← s.pool.depositRewards rewards
    return { s with pool }
  | .activateAtGenesis => do
    require (s.epoch == 0 && s.staked.all fun receipt => receipt.stakeActivationEpoch == 0) .notCalled
    let pool ← s.pool.activateStakingPool 0
    return { s with pool }
  | .activate => do
    let pool ← s.pool.activateStakingPool s.epoch
    return { s with pool, epoch := s.epoch + 1 }
  | .removeCandidate => do
    require s.pool.isPreactive .notCalled
    let pool ← s.pool.deactivateStakingPool s.epoch
    return { s with pool }
  | .advanceEpoch =>
    if s.pool.isActive then do
      let pool ← s.pool.processPendingStakesAndWithdraws s.epoch
      return { s with pool, epoch := s.epoch + 1 }
    else .ok { s with epoch := s.epoch + 1 }
  | .depart => do
    require s.pool.isActive .notCalled
    let pool ← s.pool.processPendingStakesAndWithdraws s.epoch
    let pool ← pool.deactivateStakingPool (s.epoch + 1)
    return { s with pool, epoch := s.epoch + 1 }
  | .skipEpoch => .ok { s with epoch := s.epoch + 1, skipped := true }

/-- The states that histories of calls lead to. -/
def PoolReachable (s : PoolState) : Prop :=
  ∃ (id epoch : Nat) (ops : List PoolOp), ops.foldlM PoolState.apply (PoolState.init id epoch) = .ok s

/-! ### Principals of receipts -/

variable (staked : List StakedHaneul)

def principals : Nat := (staked.map (·.principal)).sum

def principalsAt (epoch : Nat) : Nat :=
  (staked.map fun r => if r.stakeActivationEpoch = epoch then r.principal else 0).sum

def principalsAfter (epoch : Nat) : Nat :=
  (staked.map fun r => if epoch < r.stakeActivationEpoch then r.principal else 0).sum

section Principals

variable {staked staked' : List StakedHaneul} {r : StakedHaneul} {epoch : Nat}

@[simp] theorem principals_cons : principals (r :: staked) = r.principal + principals staked := rfl

@[simp] theorem principalsAt_cons : principalsAt (r :: staked) epoch =
    (if epoch = r.stakeActivationEpoch then r.principal else 0) + principalsAt staked epoch := by
  simp [principalsAt, eq_comm]

@[simp] theorem principalsAfter_cons : principalsAfter (r :: staked) epoch =
    (if epoch < r.stakeActivationEpoch then r.principal else 0) + principalsAfter staked epoch := by
  simp [principalsAfter]

theorem principalsAfter_cons_of_le (h : r.stakeActivationEpoch ≤ epoch) :
    principalsAfter (r :: staked) epoch = principalsAfter staked epoch := by
  rw [principalsAfter_cons, if_neg (by omega), Nat.zero_add]

theorem principals_perm (h : staked.Perm staked') : principals staked = principals staked' :=
  (h.map _).sum_eq

theorem principalsAt_perm (h : staked.Perm staked') :
    principalsAt staked epoch = principalsAt staked' epoch := (h.map _).sum_eq

theorem principalsAfter_perm (h : staked.Perm staked') :
    principalsAfter staked epoch = principalsAfter staked' epoch := (h.map _).sum_eq

theorem principalsAfter_le : principalsAfter staked epoch ≤ principals staked := by
  refine List.sum_le_sum fun r _ => ?_
  split <;> omega

theorem principalsAfter_succ_le :
    principalsAfter staked (epoch + 1) ≤ principalsAfter staked epoch := by
  refine List.sum_le_sum fun r _ => ?_
  split <;> split <;> omega

theorem principalsAt_succ_eq (h : ∀ r ∈ staked, r.stakeActivationEpoch ≤ epoch + 1) :
    principalsAt staked (epoch + 1) = principalsAfter staked epoch := by
  refine congrArg List.sum (List.map_congr_left fun r hr => ?_)
  have := h r hr
  split <;> split <;> omega

theorem principalsAfter_eq_zero (h : ∀ r ∈ staked, r.stakeActivationEpoch ≤ epoch) :
    principalsAfter staked epoch = 0 := by
  refine List.sum_eq_zero (List.forall_mem_map.mpr fun r hr => ?_)
  rw [if_neg (Nat.not_lt.mpr (h r hr))]

theorem principalsAt_add_principalsAfter_le {e : Nat} (he : e ≤ epoch) :
    principalsAt staked e + principalsAfter staked epoch ≤ principals staked := by
  induction staked with
  | nil => exact le_rfl
  | cons r staked ih =>
    rw [principalsAt_cons, principalsAfter_cons, principals_cons]
    split <;> split <;> omega

end Principals

/-- Tokens owed to the receipts that count before an epoch, with the principals of each
    activation epoch taken together. -/
def owedTokens (staked : List StakedHaneul) (n : Nat) : Nat :=
  owed (fun e x => (pool.rateAt e).tokens x) (principalsAt staked) n

/-- Tokens owed to the receipts that count in an epoch, receipt by receipt. -/
def receiptTokens (staked : List StakedHaneul) (epoch : Nat) : Nat :=
  (staked.map fun r => if r.stakeActivationEpoch ≤ epoch
    then (pool.rateAt r.stakeActivationEpoch).tokens r.principal else 0).sum

section OwedTokens

variable {pool : StakingPool} {staked : List StakedHaneul} {r : StakedHaneul} {n epoch : Nat}

theorem tokens_add_owedTokens_le (h : r.stakeActivationEpoch < n) :
    (pool.rateAt r.stakeActivationEpoch).tokens r.principal + owedTokens pool staked n ≤
      owedTokens pool (r :: staked) n :=
  @owed_add_le r.principal (fun e x => (pool.rateAt e).tokens x) (principalsAt (r :: staked))
    (principalsAt staked) n r.stakeActivationEpoch (fun _ _ _ => convert_add_le) h
    fun _ => principalsAt_cons

theorem owedTokens_cons_of_le (h : n ≤ r.stakeActivationEpoch) :
    owedTokens pool (r :: staked) n = owedTokens pool staked n :=
  owed_congr fun e he => by rw [principalsAt_cons, if_neg (by omega), Nat.zero_add]

theorem owedTokens_succ : owedTokens pool staked (n + 1) =
    owedTokens pool staked n + (pool.rateAt n).tokens (principalsAt staked n) := owed_succ

theorem receiptTokens_le : receiptTokens pool staked epoch ≤ owedTokens pool staked (epoch + 1) := by
  induction staked with
  | nil => exact Nat.zero_le _
  | cons r staked ih =>
    have hcons : receiptTokens pool (r :: staked) epoch =
        (if r.stakeActivationEpoch ≤ epoch
          then (pool.rateAt r.stakeActivationEpoch).tokens r.principal else 0) +
          receiptTokens pool staked epoch := rfl
    rw [hcons]
    split
    · next hle =>
        have := @tokens_add_owedTokens_le pool staked r (epoch + 1) (by omega)
        omega
    · next hlt =>
        have := @owedTokens_cons_of_le pool staked r (epoch + 1) (by omega)
        omega

/-- One to one, no more is owed than was put in. -/
theorem owedTokens_le_of_oneToOne (h : ∀ e < n, (pool.rateAt e).OneToOne) :
    owedTokens pool staked n ≤ principals staked := by
  have hone : owedTokens pool staked n = owed (fun _ x => x) (principalsAt staked) n :=
    owed_congr fun e he => (h e he).tokens_eq
  rw [hone]
  induction staked with
  | nil => exact (owed_eq_zero fun _ _ => rfl).le
  | cons r staked ih =>
    have hsum : owed (fun _ x => x) (principalsAt (r :: staked)) n =
        (∑ e ∈ Finset.range n, if e = r.stakeActivationEpoch then r.principal else 0) +
          owed (fun _ x => x) (principalsAt staked) n := by
      simp only [owed, principalsAt_cons, Finset.sum_add_distrib]
    have hfirst : (∑ e ∈ Finset.range n, if e = r.stakeActivationEpoch then r.principal else 0) ≤
        r.principal := by
      rw [Finset.sum_ite_eq']
      split <;> omega
    have hih := ih (owed_congr fun e he => (h e he).tokens_eq)
    rw [hsum, principals_cons]
    omega

end OwedTokens

/-! ### The invariant -/

def fungibleValues (fungible : List FungibleStakedHaneul) : Nat := (fungible.map (·.value)).sum

/-- The side of the pool tokens, while no epoch has been skipped. -/
structure TokensInv (pool : StakingPool) (epoch : Nat) (staked : List StakedHaneul) : Prop where
  pendingEq : pool.pendingStake = principalsAfter staked epoch
  covered : owedTokens pool staked (epoch + 1) + pool.fungibleSupply +
    pool.pendingPoolTokenWithdraw ≤ pool.poolTokenBalance
  current : (pool.rateAt epoch).OneToOne ∨ pool.poolTokenBalance ≤ (pool.rateAt epoch).poolTokenAmount

structure PoolInv (pool : StakingPool) (epoch : Nat) (staked : List StakedHaneul)
    (fungible : List FungibleStakedHaneul) (skipped : Bool) : Prop where
  rates : RatesFrom pool
  recorded : ∀ e rate, pool.exchangeRates e = some rate → e ≤ epoch ∧ rate.haneulAmount ≤ u64Max
  ended : ∀ d, pool.deactivationEpoch = some d → d ≤ epoch
  receipts : ∀ r ∈ staked, r.poolId = pool.id ∧ 0 < r.principal ∧ r.stakeActivationEpoch ≤ epoch + 1
  fungibles : ∀ f ∈ fungible, f.poolId = pool.id
  ledger : pool.haneulBalance + pool.pendingStake = pool.pendingTotalHaneulWithdraw +
    pool.rewardsPool + principals staked + pool.fungiblePrincipal
  supply : pool.fungibleSupply = fungibleValues fungible
  backed : 0 < pool.fungibleSupply → 0 < pool.fungiblePrincipal
  settled : pool.underflowHaneulBalance = none
  bounded : pool.haneulBalance ≤ u64Max ∧ pool.poolTokenBalance ≤ u64Max
  /-- Before its activation a pool holds nothing but stake, one to one. -/
  preactive : pool.activationEpoch = none → pool.pendingStake = 0 ∧
    pool.pendingTotalHaneulWithdraw = 0 ∧ pool.pendingPoolTokenWithdraw = 0 ∧
    pool.rewardsPool = 0 ∧ pool.fungibleStakedHaneulData = none ∧
    pool.poolTokenBalance = pool.haneulBalance
  pending : pool.activationEpoch ≠ none → principalsAfter staked epoch ≤ pool.pendingStake ∧
    (pool.deactivationEpoch ≠ none → pool.pendingStake = 0)
  tokens : pool.activationEpoch ≠ none → skipped = false → TokensInv pool epoch staked

section Preservation

variable {pool : StakingPool} {epoch : Nat} {staked staked' : List StakedHaneul}
  {fungible fungible' : List FungibleStakedHaneul} {skipped : Bool} {receipt : StakedHaneul}

theorem PoolInv.init {id epoch : Nat} : PoolInv (StakingPool.new id) epoch [] [] false where
  rates := ⟨fun _ _ => rfl, nofun, nofun⟩
  recorded := nofun
  ended := nofun
  receipts := nofun
  fungibles := nofun
  ledger := rfl
  supply := rfl
  backed := fun h => h
  settled := rfl
  bounded := ⟨Nat.zero_le _, Nat.zero_le _⟩
  preactive := fun _ => ⟨rfl, rfl, rfl, rfl, rfl, rfl⟩
  pending := fun h => absurd rfl h
  tokens := fun h => absurd rfl h

section

variable (hinv : PoolInv pool epoch staked fungible skipped)
include hinv

theorem PoolInv.staked_congr (hreceipts : ∀ r ∈ staked',
      r.poolId = pool.id ∧ 0 < r.principal ∧ r.stakeActivationEpoch ≤ epoch + 1)
    (hall : principals staked' = principals staked)
    (hat : ∀ e, principalsAt staked' e = principalsAt staked e)
    (hafter : principalsAfter staked' epoch = principalsAfter staked epoch) :
    PoolInv pool epoch staked' fungible skipped := by
  refine { hinv with
    receipts := hreceipts
    ledger := hall.symm ▸ hinv.ledger
    pending := hafter.symm ▸ hinv.pending
    tokens := fun ha hskip => ?_ }
  have htokens := hinv.tokens ha hskip
  have howed : owedTokens pool staked' (epoch + 1) = owedTokens pool staked (epoch + 1) :=
    owed_congr fun e _ => by rw [hat e]
  exact ⟨hafter.symm ▸ htokens.pendingEq, howed.symm ▸ htokens.covered, htokens.current⟩

theorem PoolInv.staked_perm
    (h : staked.Perm staked') : PoolInv pool epoch staked' fungible skipped :=
  hinv.staked_congr (fun r hr => hinv.receipts r (h.mem_iff.mpr hr)) (principals_perm h.symm)
    (fun _ => principalsAt_perm h.symm) (principalsAfter_perm h.symm)

theorem PoolInv.fungible_congr (hids : ∀ f ∈ fungible', f.poolId = pool.id)
    (hvalues : fungibleValues fungible' = fungibleValues fungible) :
    PoolInv pool epoch staked fungible' skipped :=
  { hinv with fungibles := hids, supply := hinv.supply.trans hvalues.symm }

theorem PoolInv.fungible_perm
    (h : fungible.Perm fungible') : PoolInv pool epoch staked fungible' skipped :=
  hinv.fungible_congr (fun f hf => hinv.fungibles f (h.mem_iff.mpr hf)) (h.map _).sum_eq.symm

/-! ### Requests -/

theorem PoolInv.stake_pending {stake : Nat} (hactive : pool.activationEpoch ≠ none)
    (hopen : pool.deactivationEpoch = none) (hstake : 0 < stake) :
    PoolInv { pool with pendingStake := pool.pendingStake + stake } epoch
      (⟨pool.id, epoch + 1, stake⟩ :: staked) fungible skipped :=
  { hinv with
    rates := hinv.rates.of_eq rfl rfl
    receipts := List.forall_mem_cons.mpr ⟨⟨rfl, hstake, le_rfl⟩, hinv.receipts⟩
    ledger := by
      have := hinv.ledger
      rw [principals_cons]
      unfold fungiblePrincipal at *
      dsimp only
      omega
    preactive := fun hnone => absurd hnone hactive
    pending := fun _ => by
      have := (hinv.pending hactive).1
      rw [principalsAfter_cons, if_pos (by simp)]
      exact ⟨by dsimp only; omega, fun hclosed => absurd hopen hclosed⟩
    tokens := fun _ hskip => by
      have htokens := hinv.tokens hactive hskip
      refine ⟨?_, ?_, htokens.current⟩
      · rw [principalsAfter_cons, if_pos (by simp), ← htokens.pendingEq, Nat.add_comm]
      · rw [owedTokens_cons_of_le le_rfl]
        exact htokens.covered }

theorem PoolInv.stake_preactive {stake activation : Nat} {pool' : StakingPool}
    (hnone : pool.activationEpoch = none) (hstake : 0 < stake)
    (hactivation : activation ≤ epoch + 1)
    (h : { pool with pendingStake := pool.pendingStake + stake }.processPendingStake = .ok pool') :
    PoolInv pool' epoch (⟨pool.id, activation, stake⟩ :: staked) fungible skipped := by
  obtain ⟨hpending, hrest⟩ := hinv.preactive hnone
  obtain ⟨hfits, rfl⟩ := @processPendingStake_of_equal
    { pool with pendingStake := pool.pendingStake + stake } pool' hrest.2.2.2.2 hinv.settled h
  have hledger := hinv.ledger
  refine { hinv with
    rates := hinv.rates.of_eq rfl rfl
    receipts := List.forall_mem_cons.mpr ⟨⟨rfl, hstake, hactivation⟩, hinv.receipts⟩
    ledger := ?_
    bounded := ⟨hfits, hfits⟩
    preactive := fun _ => ⟨rfl, hrest.1, hrest.2.1, hrest.2.2.1, hrest.2.2.2.1, rfl⟩
    pending := fun h => absurd hnone h
    tokens := fun h => absurd hnone h }
  rw [principals_cons]
  unfold fungiblePrincipal at *
  dsimp only
  omega

end

section

variable (hinv : PoolInv pool epoch (receipt :: staked) fungible skipped)
  (hactive : pool.activationEpoch ≠ none)
include hinv hactive

theorem PoolInv.unstake_pending (hlate : epoch < receipt.stakeActivationEpoch) :
    receipt.principal ≤ pool.pendingStake ∧
      PoolInv { pool with pendingStake := pool.pendingStake - receipt.principal } epoch staked
        fungible skipped := by
  obtain ⟨hle, hclosed⟩ := hinv.pending hactive
  rw [principalsAfter_cons, if_pos hlate] at hle
  have hledger := hinv.ledger
  rw [principals_cons] at hledger
  refine ⟨by omega, { hinv with
    rates := hinv.rates.of_eq rfl rfl
    receipts := fun r hr => hinv.receipts r (.tail _ hr)
    ledger := ?_
    preactive := fun hnone => absurd hnone hactive
    pending := fun _ => ⟨by dsimp only; omega, fun h => by dsimp only; rw [hclosed h, Nat.zero_sub]⟩
    tokens := fun _ hskip => ?_ }⟩
  · unfold fungiblePrincipal at *
    dsimp only
    omega
  · have htokens := hinv.tokens hactive hskip
    have hpending := htokens.pendingEq
    have hcovered := htokens.covered
    rw [principalsAfter_cons, if_pos hlate] at hpending
    rw [owedTokens_cons_of_le hlate] at hcovered
    exact ⟨by dsimp only; omega, hcovered, htokens.current⟩

theorem PoolInv.unstake {rewards : Nat} (hstarted : receipt.stakeActivationEpoch ≤ epoch)
    (hrewards : rewards ≤ pool.rewardsPool) :
    PoolInv (pool.paying rewards (receipt.principal + rewards)
        ((pool.rateAt receipt.stakeActivationEpoch).tokens receipt.principal))
      epoch staked fungible skipped :=
  { hinv with
    rates := hinv.rates.of_eq rfl rfl
    receipts := fun r hr => hinv.receipts r (.tail _ hr)
    ledger := by
      have := hinv.ledger
      rw [principals_cons] at this
      unfold fungiblePrincipal paying at *
      dsimp only
      omega
    preactive := fun hnone => absurd hnone hactive
    pending := fun _ => principalsAfter_cons_of_le hstarted ▸ hinv.pending hactive
    tokens := fun _ hskip => by
      have htokens := hinv.tokens hactive hskip
      have hcovered := htokens.covered
      have howed := @tokens_add_owedTokens_le pool staked receipt (epoch + 1) (by omega)
      have howed' : owedTokens (pool.paying rewards (receipt.principal + rewards)
          ((pool.rateAt receipt.stakeActivationEpoch).tokens receipt.principal)) staked (epoch + 1) =
          owedTokens pool staked (epoch + 1) := rfl
      refine ⟨principalsAfter_cons_of_le hstarted ▸ htokens.pendingEq, ?_, htokens.current⟩
      unfold fungibleSupply paying at *
      dsimp only
      omega }

end

theorem PoolInv.withdraw_inactive (hinv : PoolInv pool epoch staked fungible skipped)
    (hactive : pool.activationEpoch ≠ none) (hclosed : pool.deactivationEpoch ≠ none) :
    pool.pendingTotalHaneulWithdraw ≤ pool.haneulBalance ∧
      PoolInv pool.withdrawn epoch staked fungible skipped := by
  have hpending := (hinv.pending hactive).2 hclosed
  have hledger := hinv.ledger
  have hle : pool.pendingTotalHaneulWithdraw ≤ pool.haneulBalance := by omega
  refine ⟨hle, { hinv with
    rates := hinv.rates.of_eq rfl rfl
    ledger := ?_
    bounded := ⟨(Nat.sub_le _ _).trans hinv.bounded.1, (Nat.sub_le _ _).trans hinv.bounded.2⟩
    preactive := fun hnone => absurd hnone hactive
    tokens := fun _ hskip => ?_ }⟩
  · unfold fungiblePrincipal withdrawn at *
    dsimp only
    omega
  · have htokens := hinv.tokens hactive hskip
    have hcovered := htokens.covered
    have howed : owedTokens pool.withdrawn staked (epoch + 1) =
        owedTokens pool staked (epoch + 1) := rfl
    refine ⟨htokens.pendingEq, ?_, htokens.current.imp_right fun h => (Nat.sub_le _ _).trans h⟩
    unfold fungibleSupply withdrawn at *
    dsimp only
    omega

theorem PoolInv.unstake_preactive {rewards : Nat}
    (hinv : PoolInv pool epoch (receipt :: staked) fungible skipped)
    (hnone : pool.activationEpoch = none) (hrewards : rewards ≤ pool.rewardsPool) :
    receipt.principal + rewards ≤ pool.haneulBalance ∧
      PoolInv (pool.paying rewards (receipt.principal + rewards)
        ((pool.rateAt receipt.stakeActivationEpoch).tokens receipt.principal)).withdrawn
        epoch staked fungible skipped := by
  obtain ⟨hpending, hwithdraw, htokens, hpool, hdata, hequal⟩ := hinv.preactive hnone
  have hrate : (pool.rateAt receipt.stakeActivationEpoch).tokens receipt.principal =
      receipt.principal := by
    rw [hinv.rates.rateAt_of_preactive hnone]
    exact initial_oneToOne.tokens_eq
  have hprincipal : pool.fungiblePrincipal = 0 := by simp [fungiblePrincipal, hdata]
  have hledger := hinv.ledger
  rw [principals_cons, hprincipal] at hledger
  rw [hrate]
  refine ⟨by omega, { hinv with
    rates := hinv.rates.of_eq rfl rfl
    receipts := fun r hr => hinv.receipts r (.tail _ hr)
    ledger := ?_
    bounded := ⟨(Nat.sub_le _ _).trans hinv.bounded.1, (Nat.sub_le _ _).trans hinv.bounded.2⟩
    preactive := fun _ => ⟨hpending, rfl, rfl, ?_, hdata, ?_⟩
    pending := fun h => absurd hnone h
    tokens := fun h => absurd hnone h }⟩
  · have hprincipal' : (pool.paying rewards (receipt.principal + rewards)
        receipt.principal).withdrawn.fungiblePrincipal = 0 := hprincipal
    rw [hprincipal']
    unfold paying withdrawn
    dsimp only
    omega
  · unfold paying withdrawn
    dsimp only
    omega
  · unfold paying withdrawn
    dsimp only
    omega

theorem PoolInv.to_fungible (hinv : PoolInv pool epoch (receipt :: staked) fungible skipped)
    (hactive : pool.activationEpoch ≠ none) (hstarted : receipt.stakeActivationEpoch ≤ epoch) :
    PoolInv { pool with
        fungibleStakedHaneulData := some ⟨
          pool.fungibleSupply + (pool.rateAt receipt.stakeActivationEpoch).tokens receipt.principal,
          pool.fungiblePrincipal + receipt.principal⟩ } epoch staked
      (⟨receipt.poolId, (pool.rateAt receipt.stakeActivationEpoch).tokens receipt.principal⟩ ::
        fungible) skipped := by
  obtain ⟨hid, hpos, _⟩ := hinv.receipts receipt (.head _)
  refine { hinv with
    rates := hinv.rates.of_eq rfl rfl
    receipts := fun r hr => hinv.receipts r (.tail _ hr)
    fungibles := List.forall_mem_cons.mpr ⟨hid, hinv.fungibles⟩
    ledger := ?_
    supply := ?_
    backed := fun _ => Nat.lt_of_lt_of_le hpos (Nat.le_add_left _ _)
    preactive := fun hnone => absurd hnone hactive
    pending := fun _ => principalsAfter_cons_of_le hstarted ▸ hinv.pending hactive
    tokens := fun _ hskip => ?_ }
  · have := hinv.ledger
    rw [principals_cons] at this
    change pool.haneulBalance + pool.pendingStake = pool.pendingTotalHaneulWithdraw +
      pool.rewardsPool + principals staked + (pool.fungiblePrincipal + receipt.principal)
    omega
  · have := hinv.supply
    change pool.fungibleSupply + (pool.rateAt receipt.stakeActivationEpoch).tokens receipt.principal =
      (pool.rateAt receipt.stakeActivationEpoch).tokens receipt.principal + fungibleValues fungible
    omega
  · have htokens := hinv.tokens hactive hskip
    have hcovered := htokens.covered
    have howed := @tokens_add_owedTokens_le pool staked receipt (epoch + 1) (by omega)
    refine ⟨principalsAfter_cons_of_le hstarted ▸ htokens.pendingEq, ?_, htokens.current⟩
    change owedTokens pool staked (epoch + 1) + (pool.fungibleSupply +
      (pool.rateAt receipt.stakeActivationEpoch).tokens receipt.principal) +
      pool.pendingPoolTokenWithdraw ≤ pool.poolTokenBalance
    omega

/-- As long as not the whole supply is redeemed, something of the principal is left. -/
theorem principalShare_lt {value : Nat} (hvalue : value < pool.fungibleSupply)
    (hpos : 0 < pool.fungiblePrincipal) : pool.principalShare value epoch < pool.fungiblePrincipal := by
  refine Nat.div_lt_of_lt_mul ?_
  calc value * min pool.fungiblePrincipal (pool.fungibleWorth epoch)
      ≤ value * pool.fungiblePrincipal := Nat.mul_le_mul_left _ (min_le_left _ _)
    _ < pool.fungibleSupply * pool.fungiblePrincipal := Nat.mul_lt_mul_of_pos_right hvalue hpos

theorem PoolInv.redeem {f : FungibleStakedHaneul}
    (hinv : PoolInv pool epoch staked (f :: fungible) skipped)
    (hdata : pool.fungibleStakedHaneulData ≠ none) (hvalue : f.value ≤ pool.fungibleSupply)
    (hprincipal : pool.principalShare f.value epoch ≤ pool.fungiblePrincipal)
    (hrewards : pool.rewardsShare f.value epoch ≤ pool.rewardsPool) :
    PoolInv (pool.redeemed f.value epoch) epoch staked fungible skipped := by
  have hactive : pool.activationEpoch ≠ none := fun hnone => hdata (hinv.preactive hnone).2.2.2.2.1
  refine { hinv with
    rates := hinv.rates.of_eq rfl rfl
    fungibles := fun f hf => hinv.fungibles f (.tail _ hf)
    ledger := ?_
    supply := ?_
    backed := fun hpos => ?_
    preactive := fun hnone => absurd hnone hactive
    tokens := fun _ hskip => ?_ }
  · have := hinv.ledger
    change pool.haneulBalance + pool.pendingStake = pool.pendingTotalHaneulWithdraw +
      (pool.principalShare f.value epoch + pool.rewardsShare f.value epoch) +
      (pool.rewardsPool - pool.rewardsShare f.value epoch) + principals staked +
      (pool.fungiblePrincipal - pool.principalShare f.value epoch)
    omega
  · have := hinv.supply
    have hcons : fungibleValues (f :: fungible) = f.value + fungibleValues fungible := rfl
    change pool.fungibleSupply - f.value = fungibleValues fungible
    omega
  · change 0 < pool.fungibleSupply - f.value at hpos
    change 0 < pool.fungiblePrincipal - pool.principalShare f.value epoch
    have := @principalShare_lt pool epoch f.value (by omega) (hinv.backed (by omega))
    omega
  · have htokens := hinv.tokens hactive hskip
    have hcovered := htokens.covered
    refine ⟨htokens.pendingEq, ?_, htokens.current⟩
    change owedTokens pool staked (epoch + 1) + (pool.fungibleSupply - f.value) +
      (pool.pendingPoolTokenWithdraw + f.value) ≤ pool.poolTokenBalance
    omega

section

variable (hinv : PoolInv pool epoch staked fungible skipped)
include hinv

theorem PoolInv.deposit {rewards : Nat}
    (hactive : pool.activationEpoch ≠ none) (hfits : pool.haneulBalance + rewards ≤ u64Max) :
    PoolInv { pool with
        haneulBalance := pool.haneulBalance + rewards
        rewardsPool := pool.rewardsPool + rewards } epoch staked fungible skipped :=
  { hinv with
    rates := hinv.rates.of_eq rfl rfl
    ledger := by
      have := hinv.ledger
      unfold fungiblePrincipal at *
      dsimp only
      omega
    bounded := ⟨hfits, hinv.bounded.2⟩
    preactive := fun hnone => absurd hnone hactive
    tokens := fun _ hskip =>
      ⟨(hinv.tokens hactive hskip).pendingEq, (hinv.tokens hactive hskip).covered,
        (hinv.tokens hactive hskip).current⟩ }

/-! ### Activation and departure -/

theorem PoolInv.activate {epoch' : Nat} (hnone : pool.activationEpoch = none)
    (hlater : epoch ≤ epoch') (hopen : pool.deactivationEpoch = none)
    (hreceipts : ∀ r ∈ staked, r.stakeActivationEpoch ≤ epoch') :
    PoolInv { pool with
        exchangeRates := update pool.exchangeRates epoch (some initialExchangeRate)
        activationEpoch := some epoch } epoch' staked fungible skipped := by
  obtain ⟨hpending, hwithdraw, htokens, hrewards, hdata, hequal⟩ := hinv.preactive hnone
  have hentry : ∀ e rate, update pool.exchangeRates epoch (some initialExchangeRate) e =
      some rate → e = epoch ∧ rate = initialExchangeRate := by
    intro e rate he
    by_cases heq : e = epoch
    · subst heq
      rw [update_self] at he
      exact ⟨rfl, (Option.some.inj he).symm⟩
    · rw [update_of_ne heq, hinv.rates.preactive hnone e] at he
      cases he
  have hrate : ∀ e, ({ pool with
      exchangeRates := update pool.exchangeRates epoch (some initialExchangeRate)
      activationEpoch := some epoch } : StakingPool).rateAt e |>.OneToOne := fun e => by
    rw [rateAt, latestRate_eq_initial fun e' _ rate he' => (hentry e' rate he').2]
    exact initial_oneToOne
  have hafter := principalsAfter_eq_zero hreceipts
  refine { hinv with
    rates := ⟨(fun h => by cases h), ?_, ?_⟩
    recorded := fun e rate he => ?_
    ended := fun _ hd => by cases hopen.symm.trans hd
    receipts := fun r hr =>
      ⟨(hinv.receipts r hr).1, (hinv.receipts r hr).2.1, (hreceipts r hr).trans (Nat.le_succ _)⟩
    preactive := fun h => by cases h
    pending := fun _ => ⟨by rw [hafter]; exact Nat.zero_le _, fun hclosed => absurd hopen hclosed⟩
    tokens := fun _ _ => ⟨hpending.trans hafter.symm, ?_, ?_⟩ }
  · intro a ha
    obtain rfl := Option.some.inj ha
    exact update_self _ _ _
  · intro a ha e he
    obtain rfl := Option.some.inj ha
    exact (update_of_ne (by omega) _ _).trans (hinv.rates.preactive hnone e)
  · obtain ⟨rfl, rfl⟩ := hentry e rate he
    exact ⟨hlater, Nat.zero_le _⟩
  · have howed := @owedTokens_le_of_oneToOne { pool with
        exchangeRates := update pool.exchangeRates epoch (some initialExchangeRate)
        activationEpoch := some epoch } staked (epoch' + 1) fun e _ => hrate e
    have hledger := hinv.ledger
    have hsupply : pool.fungibleSupply = 0 := by simp [fungibleSupply, hdata]
    refine (Nat.add_le_add (Nat.add_le_add howed hsupply.le) htokens.le).trans ?_
    dsimp only
    omega
  · exact .inl (hrate epoch')

theorem PoolInv.remove_candidate (hnone : pool.activationEpoch = none) :
    PoolInv { pool with deactivationEpoch := some epoch } epoch staked fungible skipped :=
  { hinv with
    rates := hinv.rates.of_eq rfl rfl
    ended := fun _ hd => (Option.some.inj hd).symm.le
    pending := fun h => absurd hnone h
    tokens := fun h => absurd hnone h }

/-- A pool that is closed right after what was pending has been processed. -/
theorem PoolInv.deactivate (hopen : pool.deactivationEpoch = none)
    (hactive : pool.activationEpoch ≠ none) (hpending : pool.pendingStake = 0) :
    PoolInv { pool with deactivationEpoch := some epoch } epoch staked fungible skipped := by
  -- the rates up to this epoch are the same
  have hrate : ∀ e ≤ epoch,
      ({ pool with deactivationEpoch := some epoch } : StakingPool).rateAt e = pool.rateAt e := by
    intro e he
    simp [rateAt, hopen, he]
  refine { hinv with
    rates := hinv.rates.of_eq rfl rfl
    ended := fun d hd => (Option.some.inj hd).symm.le
    preactive := fun hnone => absurd hnone hactive
    pending := fun _ => ⟨(hinv.pending hactive).1, fun _ => hpending⟩
    tokens := fun _ hskip => ⟨(hinv.tokens hactive hskip).pendingEq, ?_, ?_⟩ }
  · have howed : owedTokens { pool with deactivationEpoch := some epoch } staked (epoch + 1) =
        owedTokens pool staked (epoch + 1) :=
      owed_congr fun e he => by rw [hrate e (by omega)]
    rw [howed]
    exact (hinv.tokens hactive hskip).covered
  · rw [hrate epoch le_rfl]
    exact (hinv.tokens hactive hskip).current

/-! ### Changes of epoch -/

theorem PoolInv.withdraw_covered :
    pool.pendingTotalHaneulWithdraw ≤ pool.haneulBalance + pool.pendingStake := by
  have := hinv.ledger
  omega

theorem PoolInv.activation_le {a : Nat} (ha : pool.activationEpoch = some a) : a ≤ epoch :=
  (hinv.recorded a _ (hinv.rates.first a ha)).1

theorem PoolInv.fresh_rate :
    pool.exchangeRates (epoch + 1) = none := by
  cases h : pool.exchangeRates (epoch + 1) with
  | none => rfl
  | some rate => exact absurd (hinv.recorded _ rate h).1 (by omega)

/-- The tokens of the pool after the change of epoch cover the stake that has become active. -/
theorem PoolInv.covered_settled (htokens : TokensInv pool epoch staked) :
    owedTokens pool staked (epoch + 1) + pool.fungibleSupply +
      PoolTokenExchangeRate.tokens ⟨pool.settledHaneul, pool.settledTokens⟩ pool.pendingStake ≤
      pool.settledTokens := by
  have hcovered := htokens.covered
  have hledger := hinv.ledger
  have hpending := htokens.pendingEq
  have hafter := @principalsAfter_le staked epoch
  have hsettled : pool.settledHaneul =
      pool.settlementRate.haneulAmount + pool.pendingStake := by
    rw [settledHaneul, settlementRate]
    dsimp only
    omega
  have hold : owedTokens pool staked (epoch + 1) + pool.fungibleSupply ≤
      pool.settlementRate.poolTokenAmount := by
    rw [settlementRate]
    dsimp only
    omega
  by_cases hone : pool.settlementRate.OneToOne
  · have hsame : pool.settledTokens = pool.settledHaneul := hone.tokens_eq
    have hnone : owedTokens pool staked (epoch + 1) + pool.fungibleSupply = 0 := by
      rcases hone with hhaneul | htoken
      · -- nothing is left of the balance, so there was nobody whom it was owed to
        have hleft : pool.haneulBalance - pool.pendingTotalHaneulWithdraw = 0 := hhaneul
        have howed : owedTokens pool staked (epoch + 1) = 0 := owed_eq_zero fun e he => by
          have hnobody : principalsAt staked e = 0 := by
            have := @principalsAt_add_principalsAfter_le staked epoch e (by omega)
            omega
          rw [hnobody, PoolTokenExchangeRate.tokens_zero]
        have hsupply : pool.fungibleSupply = 0 := by
          rcases Nat.eq_zero_or_pos pool.fungibleSupply with hzero | hpos
          · exact hzero
          · have := hinv.backed hpos
            omega
        omega
      · omega
    have hnew : PoolTokenExchangeRate.tokens ⟨pool.settledHaneul, pool.settledTokens⟩
        pool.pendingStake ≤ pool.settledTokens := by
      rw [hsame]
      rcases Nat.eq_zero_or_pos pool.settledHaneul with hzero | hpos
      · have hzero' : pool.pendingStake = 0 := by omega
        rw [hzero', PoolTokenExchangeRate.tokens_zero]
        exact Nat.zero_le _
      · exact convert_le hpos.ne' (by dsimp only; omega)
    omega
  · have hzero := not_or.mp hone
    have hissue := @issue_le _ _ pool.pendingStake hzero.1 hzero.2
    rw [← hsettled] at hissue
    have hnew : PoolTokenExchangeRate.tokens ⟨pool.settledHaneul, pool.settledTokens⟩
        pool.pendingStake = convert pool.settledHaneul (convert pool.settlementRate.haneulAmount
          pool.settlementRate.poolTokenAmount pool.settledHaneul) pool.pendingStake := rfl
    have htotal : pool.settledTokens = convert pool.settlementRate.haneulAmount
        pool.settlementRate.poolTokenAmount pool.settledHaneul := rfl
    omega

theorem PoolInv.skip :
    PoolInv pool (epoch + 1) staked fungible true :=
  { hinv with
    recorded := fun e rate he =>
      ⟨(hinv.recorded e rate he).1.trans (Nat.le_succ _), (hinv.recorded e rate he).2⟩
    ended := fun d hd => (hinv.ended d hd).trans (Nat.le_succ _)
    receipts := fun r hr => ⟨(hinv.receipts r hr).1, (hinv.receipts r hr).2.1,
      (hinv.receipts r hr).2.2.trans (Nat.le_succ _)⟩
    pending := fun hactive => ⟨principalsAfter_succ_le.trans (hinv.pending hactive).1,
      (hinv.pending hactive).2⟩
    tokens := nofun }

theorem PoolInv.settle {a : Nat}
    (ha : pool.activationEpoch = some a) (hopen : pool.deactivationEpoch = none)
    (hsum : pool.stakeSum ≤ u64Max) (hfits : pool.settledTokens ≤ u64Max) :
    PoolInv (pool.settledPool epoch) (epoch + 1) staked fungible skipped := by
  have hactive : pool.activationEpoch ≠ none := fun hnone => nomatch hnone.symm.trans ha
  have hbalance : pool.settledHaneul ≤ u64Max := settledHaneul_le.trans hsum
  have hafter : principalsAfter staked (epoch + 1) = 0 :=
    principalsAfter_eq_zero fun r hr => (hinv.receipts r hr).2.2
  refine { hinv.skip with
    rates := hinv.rates.settledPool ha (hinv.activation_le ha)
    recorded := fun e rate he => ?_
    ended := fun _ hd => absurd (hopen.symm.trans hd) nofun
    ledger := ?_
    settled := rfl
    bounded := ⟨hbalance, hfits⟩
    preactive := fun hnone => absurd hnone hactive
    pending := fun _ => ⟨hafter.le, fun _ => rfl⟩
    tokens := fun _ hskip => ⟨hafter.symm, ?_, .inr ?_⟩ }
  · dsimp only [settledPool] at he
    by_cases heq : e = epoch + 1
    · subst heq
      rw [update_self] at he
      obtain rfl := Option.some.inj he
      exact ⟨le_rfl, hbalance⟩
    · exact hinv.skip.recorded e rate ((update_of_ne heq _ _).symm.trans he)
  · have hledger := hinv.ledger
    change pool.settledHaneul + 0 =
      0 + pool.rewardsPool + principals staked + pool.fungiblePrincipal
    rw [settledHaneul]
    omega
  · have hcovered := hinv.covered_settled (hinv.tokens hactive hskip)
    have howed : owedTokens (pool.settledPool epoch) staked (epoch + 1) =
        owedTokens pool staked (epoch + 1) :=
      owed_congr fun e he => by rw [rateAt_settledPool_old (by omega)]
    have hnew : principalsAt staked (epoch + 1) = pool.pendingStake := by
      rw [principalsAt_succ_eq fun r hr => (hinv.receipts r hr).2.2,
        (hinv.tokens hactive hskip).pendingEq]
    rw [owedTokens_succ, howed, rateAt_settledPool_new hopen, hnew]
    change owedTokens pool staked (epoch + 1) +
      PoolTokenExchangeRate.tokens ⟨pool.settledHaneul, pool.settledTokens⟩ pool.pendingStake +
      pool.fungibleSupply + 0 ≤ pool.settledTokens
    omega
  · rw [rateAt_settledPool_new hopen]
    exact le_rfl

theorem PoolInv.idle
    (hidle : pool.isActive = false) : PoolInv pool (epoch + 1) staked fungible skipped := by
  -- only the tokens tell this from an epoch that is skipped
  refine { hinv.skip with tokens := fun hactive hskip => ?_ }
  obtain ⟨d, hd⟩ := Option.ne_none_iff_exists'.mp fun hopen =>
    Bool.false_ne_true (hidle.symm.trans ((isActive_iff pool).mpr ⟨hactive, hopen⟩))
  have hzero : pool.pendingStake = 0 := (hinv.pending hactive).2 (by rw [hd]; nofun)
  have htokens := hinv.tokens hactive hskip
  have hafter : principalsAfter staked epoch = 0 := htokens.pendingEq.symm.trans hzero
  have hle := @principalsAfter_succ_le staked epoch
  -- no receipt starts after the pool was closed, and its rate stays
  have hrate : pool.rateAt (epoch + 1) = pool.rateAt epoch := by
    have := hinv.ended d hd
    rw [rateAt, rateAt, hd, Option.getD_some, Option.getD_some, Nat.min_eq_left (by omega),
      Nat.min_eq_left this]
  have hnew : principalsAt staked (epoch + 1) = 0 := by
    rw [principalsAt_succ_eq fun r hr => (hinv.receipts r hr).2.2, hafter]
  refine ⟨by omega, ?_, ?_⟩
  · rw [owedTokens_succ, hnew, tokens_zero, Nat.add_zero]
    exact htokens.covered
  · rw [hrate]
    exact htokens.current

theorem PoolInv.process_eq
    (hactive : pool.isActive = true) : pool.processPendingStakesAndWithdraws epoch =
      if u64Max < pool.stakeSum then .error .sumOverflow
      else if pool.settledTokens ≤ u64Max then .ok (pool.settledPool epoch)
      else .error .castOverflow := by
  obtain ⟨hsome, hopen⟩ := (isActive_iff pool).mp hactive
  obtain ⟨a, ha⟩ := Option.ne_none_iff_exists'.mp hsome
  exact processPending_eq hinv.rates ha (hinv.activation_le ha) hopen hinv.settled
    hinv.withdraw_covered hinv.fresh_rate

theorem PoolInv.process {pool' : StakingPool} (hactive : pool.isActive = true)
    (h : pool.processPendingStakesAndWithdraws epoch = .ok pool') :
    pool' = pool.settledPool epoch ∧ PoolInv pool' (epoch + 1) staked fungible skipped := by
  rw [hinv.process_eq hactive] at h
  obtain ⟨hsome, hopen⟩ := (isActive_iff pool).mp hactive
  obtain ⟨a, ha⟩ := Option.ne_none_iff_exists'.mp hsome
  split_ifs at h with hsum hfits
  cases h
  exact ⟨rfl, hinv.settle ha hopen (Nat.not_lt.mp hsum) hfits⟩

end

end Preservation

/-! ### Whole histories -/

section Runs

variable {receipt : StakedHaneul}

theorem takeAt_perm {α : Type} {l rest : List α} {i : Nat} {a : α}
    (h : takeAt l i = .ok (a, rest)) : l.Perm (a :: rest) := by
  unfold takeAt at h
  split at h
  · next b hget =>
      cases h
      obtain ⟨hlt, rfl⟩ := List.getElem?_eq_some_iff.mp hget
      exact (List.getElem_cons_eraseIdx_perm hlt).symm
  · cases h

variable {s s' : PoolState} {pool pool' : StakingPool} {epoch : Nat}
  {staked : List StakedHaneul} {fungible : List FungibleStakedHaneul} {skipped : Bool}

def PoolState.Inv (s : PoolState) : Prop := PoolInv s.pool s.epoch s.staked s.fungible s.skipped

theorem PoolInv.requestAddStake {stake : Nat} (hinv : PoolInv pool epoch staked fungible skipped)
    (h : Validator.requestAddStake pool stake epoch = .ok (pool', receipt)) :
    PoolInv pool' epoch (receipt :: staked) fungible skipped := by
  obtain ⟨_, _, ⟨pool₁, receipt₁⟩, hrequest, h⟩ := bind₂_eq_ok.mp h
  obtain ⟨hopen, hpos, rfl, rfl⟩ := requestAddStake_ok hrequest
  obtain ⟨pool₂, hprocess, h⟩ := bind_eq_ok.mp h
  cases h
  unfold Validator.processIfPreactive at hprocess
  split at hprocess
  · next hpre =>
      exact hinv.stake_preactive (by simpa [isPreactive] using hpre) hpos le_rfl hprocess
  · next hpre =>
      have hactive : pool.activationEpoch ≠ none := fun hnone => hpre (by simp [isPreactive, hnone])
      cases hprocess
      exact hinv.stake_pending hactive hopen hpos

theorem PoolInv.requestAddStakeAtGenesis {stake : Nat}
    (hinv : PoolInv pool epoch staked fungible skipped) (hpre : pool.isPreactive = true)
    (h : Validator.requestAddStakeAtGenesis pool stake epoch = .ok (pool', receipt)) :
    PoolInv pool' epoch (receipt :: staked) fungible skipped := by
  obtain ⟨_, _, _, _, ⟨pool₁, receipt₁⟩, hrequest, h⟩ := bind₃_eq_ok.mp h
  obtain ⟨hopen, hpos, rfl, rfl⟩ := requestAddStake_ok hrequest
  obtain ⟨pool₂, hprocess, h⟩ := bind_eq_ok.mp h
  cases h
  exact hinv.stake_preactive (by simpa [isPreactive] using hpre) hpos (Nat.zero_le _) hprocess

theorem PoolInv.requestWithdrawStake {out : Nat}
    (hinv : PoolInv pool epoch (receipt :: staked) fungible skipped)
    (h : pool.requestWithdrawStake receipt epoch = .ok (pool', out)) :
    PoolInv pool' epoch staked fungible skipped := by
  rcases requestWithdrawStake_ok hinv.rates h with ⟨hlate, hpre, _, rfl⟩ | ⟨hdirect, rewards, hle, hpaid⟩
  · have hactive : pool.activationEpoch ≠ none := fun hnone => by simp [isPreactive, hnone] at hpre
    exact (hinv.unstake_pending hactive hlate).2
  · unfold processIfNotActive at hpaid
    by_cases hnone : pool.activationEpoch = none
    · obtain ⟨hhaneul, hnext⟩ := hinv.unstake_preactive hnone hle
      have hwithdraw := (hinv.preactive hnone).2.1
      split at hpaid
      · rw [processPendingStakeWithdraw_of_le
          (by dsimp only [paying]; rw [hwithdraw]; omega)] at hpaid
        cases hpaid
        exact hnext
      · next hcond => exact absurd (by simp [isPreactive, paying, hnone]) hcond
    · have hstarted : receipt.stakeActivationEpoch ≤ epoch := by
        by_contra hlate
        refine hdirect ⟨by omega, ?_⟩
        simpa [isPreactive, Option.isSome_iff_ne_none] using hnone
      have hnext := hinv.unstake hnone hstarted hle
      split at hpaid
      · next hcond =>
          have hclosed : pool.deactivationEpoch ≠ none := by
            rw [Bool.or_eq_true] at hcond
            rcases hcond with hinactive | hpre
            · exact Option.isSome_iff_ne_none.mp hinactive
            · exact absurd (Option.isNone_iff_eq_none.mp hpre) hnone
          obtain ⟨hcovered, hdone⟩ := hnext.withdraw_inactive hnone hclosed
          rw [processPendingStakeWithdraw_of_le hcovered] at hpaid
          cases hpaid
          exact hdone
      · cases hpaid
        exact hnext

theorem PoolInv.split_staked {receipt left right : StakedHaneul} {amount : Nat}
    (hinv : PoolInv pool epoch (receipt :: staked) fungible skipped)
    (h : receipt.split amount = .ok (left, right)) :
    PoolInv pool epoch (left :: right :: staked) fungible skipped := by
  obtain ⟨_, _, remaining, hremaining, _, hmin, _, hmin', h⟩ := bind₄_eq_ok.mp h
  obtain ⟨hle, rfl⟩ := subU64_eq_ok.mp hremaining
  obtain ⟨rest, hrest, h⟩ := bind_eq_ok.mp h
  obtain ⟨_, rfl⟩ := splitBalance_eq_ok.mp hrest
  cases h
  have hthreshold : 0 < minStakingThreshold := by decide
  have hleft : minStakingThreshold ≤ receipt.principal - amount :=
    of_decide_eq_true (require_eq_ok.mp hmin)
  have hright : minStakingThreshold ≤ amount := of_decide_eq_true (require_eq_ok.mp hmin')
  obtain ⟨⟨hid, _, hstart⟩, hothers⟩ := List.forall_mem_cons.mp hinv.receipts
  refine hinv.staked_congr ?_ ?_ (fun e => ?_) ?_
  · refine List.forall_mem_cons.mpr ⟨⟨hid, by dsimp only; omega, hstart⟩, ?_⟩
    exact List.forall_mem_cons.mpr ⟨⟨hid, by dsimp only; omega, hstart⟩, hothers⟩
  · simp only [principals_cons]
    omega
  · simp only [principalsAt_cons]
    split <;> omega
  · simp only [principalsAfter_cons]
    split <;> omega

theorem PoolInv.join_staked {receipt other joined : StakedHaneul}
    (hinv : PoolInv pool epoch (receipt :: other :: staked) fungible skipped)
    (h : receipt.join other = .ok joined) :
    PoolInv pool epoch (joined :: staked) fungible skipped := by
  obtain ⟨_, hequal, sum, hsum, h⟩ := bind₂_eq_ok.mp h
  obtain ⟨_, rfl⟩ := addU64_eq_ok.mp hsum
  cases h
  have hsame : receipt.stakeActivationEpoch = other.stakeActivationEpoch := by
    have := require_eq_ok.mp hequal
    rw [StakedHaneul.isEqualStakingMetadata, Bool.and_eq_true] at this
    exact beq_iff_eq.mp this.2
  obtain ⟨⟨hid, hpos, hstart⟩, hothers⟩ := List.forall_mem_cons.mp hinv.receipts
  refine hinv.staked_congr ?_ ?_ (fun e => ?_) ?_
  · exact List.forall_mem_cons.mpr
      ⟨⟨hid, by dsimp only; omega, hstart⟩, (List.forall_mem_cons.mp hothers).2⟩
  · simp only [principals_cons]
    omega
  · simp only [principalsAt_cons, hsame]
    split <;> omega
  · simp only [principalsAfter_cons, hsame]
    split <;> omega

theorem PoolInv.split_fungible {receipt left right : FungibleStakedHaneul} {amount : Nat}
    (hinv : PoolInv pool epoch staked (receipt :: fungible) skipped)
    (h : receipt.split amount = .ok (left, right)) :
    PoolInv pool epoch staked (left :: right :: fungible) skipped := by
  obtain ⟨_, _, value, hvalue, h⟩ := bind₂_eq_ok.mp h
  obtain ⟨hle, rfl⟩ := subU64_eq_ok.mp hvalue
  cases h
  obtain ⟨hid, hothers⟩ := List.forall_mem_cons.mp hinv.fungibles
  refine hinv.fungible_congr ?_ ?_
  · exact List.forall_mem_cons.mpr ⟨hid, List.forall_mem_cons.mpr ⟨hid, hothers⟩⟩
  · simp only [fungibleValues, List.map_cons, List.sum_cons]
    omega

theorem PoolInv.join_fungible {receipt other joined : FungibleStakedHaneul}
    (hinv : PoolInv pool epoch staked (receipt :: other :: fungible) skipped)
    (h : receipt.join other = .ok joined) :
    PoolInv pool epoch staked (joined :: fungible) skipped := by
  obtain ⟨_, _, sum, hsum, h⟩ := bind₂_eq_ok.mp h
  obtain ⟨_, rfl⟩ := addU64_eq_ok.mp hsum
  cases h
  obtain ⟨hid, hothers⟩ := List.forall_mem_cons.mp hinv.fungibles
  refine hinv.fungible_congr ?_ ?_
  · exact List.forall_mem_cons.mpr ⟨hid, (List.forall_mem_cons.mp hothers).2⟩
  · simp only [fungibleValues, List.map_cons, List.sum_cons]
    omega

theorem PoolInv.activateStakingPool {epoch' : Nat}
    (hinv : PoolInv pool epoch staked fungible skipped) (hlater : epoch ≤ epoch')
    (hreceipts : ∀ r ∈ staked, r.stakeActivationEpoch ≤ epoch')
    (h : pool.activateStakingPool epoch = .ok pool') :
    PoolInv pool' epoch' staked fungible skipped := by
  obtain ⟨pool₁, hadd, h⟩ := bind_eq_ok.mp h
  unfold addExchangeRate at hadd
  split at hadd
  · cases hadd
  cases hadd
  obtain ⟨_, hpre, _, hopen, h⟩ := bind₂_eq_ok.mp h
  cases h
  exact hinv.activate (by simpa [isPreactive] using require_eq_ok.mp hpre) hlater
    (by simpa [isInactive] using require_eq_ok.mp hopen) hreceipts

theorem deactivateStakingPool_ok {d : Nat} (h : pool.deactivateStakingPool d = .ok pool') :
    pool.deactivationEpoch = none ∧ pool' = { pool with deactivationEpoch := some d } := by
  obtain ⟨_, hopen, h⟩ := bind_eq_ok.mp h
  cases h
  exact ⟨by simpa [isInactive] using require_eq_ok.mp hopen, rfl⟩

theorem PoolState.Inv.apply {op : PoolOp} (hinv : s.Inv) (h : s.apply op = .ok s') : s'.Inv := by
  have hinv' : PoolInv s.pool s.epoch s.staked s.fungible s.skipped := hinv
  cases op with
  | requestAddStake stake =>
    obtain ⟨⟨pool, receipt⟩, hcall, h⟩ := bind_eq_ok.mp h
    cases h
    exact hinv'.requestAddStake hcall
  | requestAddStakeAtGenesis stake =>
    obtain ⟨_, hpre, ⟨pool, receipt⟩, hcall, h⟩ := bind₂_eq_ok.mp h
    cases h
    exact hinv'.requestAddStakeAtGenesis (require_eq_ok.mp hpre) hcall
  | requestWithdrawStake i =>
    obtain ⟨⟨receipt, rest⟩, htake, ⟨pool, out⟩, hcall, h⟩ := bind₂_eq_ok.mp h
    cases h
    exact (hinv'.staked_perm (takeAt_perm htake)).requestWithdrawStake hcall
  | convertToFungible i =>
    obtain ⟨⟨receipt, rest⟩, htake, ⟨pool, fungible⟩, hcall, h⟩ := bind₂_eq_ok.mp h
    obtain ⟨hstarted, hactive, rfl, rfl⟩ := convertToFungibleStakedHaneul_ok hinv'.rates hcall
    cases h
    exact (hinv'.staked_perm (takeAt_perm htake)).to_fungible hactive hstarted
  | redeemFungible i =>
    obtain ⟨⟨receipt, rest⟩, htake, ⟨pool, out⟩, hcall, h⟩ := bind₂_eq_ok.mp h
    obtain ⟨hdata, _, hvalue, hprincipal, hrewards, rfl⟩ :=
      redeemFungibleStakedHaneul_ok hinv'.rates hcall
    cases h
    exact (hinv'.fungible_perm (takeAt_perm htake)).redeem hdata hvalue hprincipal hrewards
  | splitStaked i amount =>
    obtain ⟨⟨receipt, rest⟩, htake, ⟨left, right⟩, hcall, h⟩ := bind₂_eq_ok.mp h
    cases h
    exact (hinv'.staked_perm (takeAt_perm htake)).split_staked hcall
  | joinStaked i j =>
    obtain ⟨⟨receipt, rest⟩, htake, ⟨other, rest'⟩, htake', joined, hcall, h⟩ := bind₃_eq_ok.mp h
    cases h
    have hperm : s.staked.Perm (receipt :: other :: rest') :=
      (takeAt_perm htake).trans ((takeAt_perm htake').cons receipt)
    exact (hinv'.staked_perm hperm).join_staked hcall
  | splitFungible i amount =>
    obtain ⟨⟨receipt, rest⟩, htake, ⟨left, right⟩, hcall, h⟩ := bind₂_eq_ok.mp h
    cases h
    exact (hinv'.fungible_perm (takeAt_perm htake)).split_fungible hcall
  | joinFungible i j =>
    obtain ⟨⟨receipt, rest⟩, htake, ⟨other, rest'⟩, htake', joined, hcall, h⟩ := bind₃_eq_ok.mp h
    cases h
    have hperm : s.fungible.Perm (receipt :: other :: rest') :=
      (takeAt_perm htake).trans ((takeAt_perm htake').cons receipt)
    exact (hinv'.fungible_perm hperm).join_fungible hcall
  | depositRewards rewards =>
    obtain ⟨_, hactive, pool, hcall, h⟩ := bind₂_eq_ok.mp h
    obtain ⟨hfits, rfl⟩ := depositRewards_ok hcall
    cases h
    exact hinv'.deposit ((isActive_iff _).mp (require_eq_ok.mp hactive)).1 hfits
  | activateAtGenesis =>
    obtain ⟨_, hgenesis, pool, hcall, h⟩ := bind₂_eq_ok.mp h
    cases h
    have hcond := require_eq_ok.mp hgenesis
    rw [Bool.and_eq_true, beq_iff_eq, List.all_eq_true] at hcond
    rw [← hcond.1] at hcall
    exact hinv'.activateStakingPool le_rfl
      (fun r hr => (beq_iff_eq.mp (hcond.2 r hr)).le.trans (Nat.zero_le _)) hcall
  | activate =>
    obtain ⟨pool, hcall, h⟩ := bind_eq_ok.mp h
    cases h
    exact hinv'.activateStakingPool (Nat.le_succ _) (fun r hr => (hinv'.receipts r hr).2.2) hcall
  | removeCandidate =>
    obtain ⟨_, hpre, pool, hcall, h⟩ := bind₂_eq_ok.mp h
    obtain ⟨_, rfl⟩ := deactivateStakingPool_ok hcall
    cases h
    exact hinv'.remove_candidate (by simpa [isPreactive] using require_eq_ok.mp hpre)
  | advanceEpoch =>
    rw [PoolState.apply] at h
    split at h
    · next hactive =>
        obtain ⟨pool, hcall, h⟩ := bind_eq_ok.mp h
        cases h
        exact (hinv'.process hactive hcall).2
    · next hidle =>
        cases h
        exact hinv'.idle (Bool.not_eq_true _ ▸ hidle)
  | depart =>
    obtain ⟨_, hactive, pool₁, hcall, pool₂, hcall', h⟩ := bind₃_eq_ok.mp h
    cases h
    obtain ⟨rfl, hnext⟩ := hinv'.process (require_eq_ok.mp hactive) hcall
    obtain ⟨hopen, rfl⟩ := deactivateStakingPool_ok hcall'
    exact hnext.deactivate hopen ((isActive_iff _).mp (require_eq_ok.mp hactive)).1 rfl
  | skipEpoch =>
    cases h
    exact hinv'.skip

theorem PoolReachable.inv (h : PoolReachable s) : s.Inv := by
  obtain ⟨id, epoch, ops, hrun⟩ := h
  have hstart : (PoolState.init id epoch).Inv := PoolInv.init
  exact foldlM_keeps PoolState.Inv (fun _ _ _ _ hinv hstep => hinv.apply hstep) hstart hrun

/-! ### What can stop a call -/

theorem takeAt_errors {α : Type} {l : List α} {i : Nat} :
    ErrorsIn (¬PoolAbort.IsInconsistent ·) (takeAt l i) := by
  unfold takeAt
  split
  · exact .ok
  · exact .error (by decide)

theorem PoolInv.process_errors (hinv : PoolInv pool epoch staked fungible skipped)
    (hactive : pool.isActive = true) :
    ErrorsIn (¬PoolAbort.IsInconsistent ·) (pool.processPendingStakesAndWithdraws epoch) := by
  rw [hinv.process_eq hactive]
  exact .ite (.error (by decide)) (.ite .ok (.error (by decide)))

/-- A receipt that does not count yet is covered by the stake that is pending. -/
theorem PoolInv.withdraw_errors (hinv : PoolInv pool epoch (receipt :: staked) fungible skipped) :
    ErrorsIn PoolAbort.IsOverflow (pool.requestWithdrawStake receipt epoch) :=
  requestWithdrawStake_errors hinv.rates hinv.settled (hinv.receipts receipt (.head _)).1
    fun hlate hpre => (hinv.unstake_pending
      (fun hnone => by simp [isPreactive, hnone] at hpre) hlate).1

theorem activateStakingPool_errors :
    ErrorsIn (¬PoolAbort.IsInconsistent ·) (pool.activateStakingPool epoch) := by
  have hadd : ∀ rate, ErrorsIn (¬PoolAbort.IsInconsistent ·) (pool.addExchangeRate epoch rate) :=
    fun _ => .ite (.error (by decide)) .ok
  exact .bind (hadd _) fun _ _ => .bind (require_errors (by decide)) fun _ _ =>
    .bind (require_errors (by decide)) fun _ _ => .ok

theorem deactivateStakingPool_errors {d : Nat} :
    ErrorsIn (¬PoolAbort.IsInconsistent ·) (pool.deactivateStakingPool d) :=
  .bind (require_errors (by decide)) fun _ _ => .ok

/-- No call finds the books wrong: no difference is taken below zero, and the balances always
    match the recorded rate. -/
theorem PoolState.Inv.apply_errors (hinv : s.Inv) (op : PoolOp) :
    ErrorsIn (¬PoolAbort.IsInconsistent ·) (s.apply op) := by
  have hinv' : PoolInv s.pool s.epoch s.staked s.fungible s.skipped := hinv
  have hrequire : ∀ {condition code}, ¬PoolAbort.IsInconsistent code →
      ErrorsIn (¬PoolAbort.IsInconsistent ·) (require condition code) := fun h => require_errors h
  have hnotCalled : ¬PoolAbort.IsInconsistent .notCalled := by decide
  cases op with
  | requestAddStake stake =>
    refine .bind (.bind (hrequire (by decide)) fun _ _ => .bind requestAddStake_errors
      fun ⟨pool₁, _⟩ hrequest => .bind ?_ fun _ _ => .ok) fun _ _ => .ok
    obtain ⟨_, _, _, rfl⟩ := requestAddStake_ok hrequest
    exact .ite (processPendingStake_errors hinv'.settled) .ok
  | requestAddStakeAtGenesis stake =>
    refine .bind (hrequire hnotCalled) fun _ _ =>
      .bind (.bind (hrequire (by decide)) fun _ _ =>
        .bind (hrequire (by decide)) fun _ _ =>
        .bind requestAddStake_errors fun ⟨pool₁, _⟩ hrequest => .bind ?_ fun _ _ => .ok)
      fun _ _ => .ok
    obtain ⟨_, _, _, rfl⟩ := requestAddStake_ok hrequest
    exact processPendingStake_errors hinv'.settled
  | requestWithdrawStake i =>
    exact .bind takeAt_errors fun ⟨receipt, rest⟩ htake =>
      .bind (overflow_consistent (hinv'.staked_perm (takeAt_perm htake)).withdraw_errors)
        fun _ _ => .ok
  | convertToFungible i =>
    exact .bind takeAt_errors fun _ _ =>
      .bind (convertToFungibleStakedHaneul_errors hinv'.rates) fun _ _ => .ok
  | redeemFungible i =>
    refine .bind takeAt_errors fun ⟨receipt, rest⟩ htake =>
      .bind (redeemFungibleStakedHaneul_errors hinv'.rates ?_) fun _ _ => .ok
    rw [(hinv'.fungible_perm (takeAt_perm htake)).supply]
    exact Nat.le_add_right _ _
  | splitStaked i amount =>
    refine .bind takeAt_errors fun ⟨receipt, rest⟩ _ => .bind ?_ fun _ _ => .ok
    refine .bind (hrequire (by decide)) fun _ hle => ?_
    rw [subU64_of_le (of_decide_eq_true (require_eq_ok.mp hle))]
    exact .bind .ok fun _ _ => .bind (hrequire (by decide)) fun _ _ =>
      .bind (hrequire (by decide)) fun _ _ =>
      .bind splitBalance_errors fun _ _ => .ok
  | splitFungible i amount =>
    refine .bind takeAt_errors fun ⟨receipt, rest⟩ _ => .bind ?_ fun _ _ => .ok
    refine .bind (hrequire (by decide)) fun _ hle => ?_
    rw [subU64_of_le (of_decide_eq_true (require_eq_ok.mp hle))]
    exact .bind .ok fun _ _ => .ok
  | joinStaked i j | joinFungible i j =>
    exact .bind takeAt_errors fun _ _ => .bind takeAt_errors fun _ _ =>
      .bind (.bind (hrequire (by decide)) fun _ _ =>
        .bind addU64_consistent fun _ _ => .ok) fun _ _ => .ok
  | depositRewards rewards =>
    exact .bind (hrequire hnotCalled) fun _ _ =>
      .bind (.bind addU64_consistent fun _ _ =>
        .bind addU64_consistent fun _ _ => .ok) fun _ _ => .ok
  | activateAtGenesis =>
    exact .bind (hrequire hnotCalled) fun _ _ => .bind activateStakingPool_errors fun _ _ => .ok
  | activate => exact .bind activateStakingPool_errors fun _ _ => .ok
  | removeCandidate =>
    exact .bind (hrequire hnotCalled) fun _ _ => .bind deactivateStakingPool_errors fun _ _ => .ok
  | advanceEpoch =>
    rw [PoolState.apply]
    split
    · next hactive => exact .bind (hinv'.process_errors hactive) fun _ _ => .ok
    · exact .ok
  | depart =>
    exact .bind (hrequire hnotCalled) fun _ hactive =>
      .bind (hinv'.process_errors (require_eq_ok.mp hactive)) fun _ _ =>
      .bind deactivateStakingPool_errors fun _ _ => .ok
  | skipEpoch => exact .ok

/-! ### The result -/

theorem PoolInv.receipts_covered (hinv : PoolInv pool epoch staked fungible skipped)
    (hskip : skipped = false) :
    receiptTokens pool staked epoch + pool.fungibleSupply + pool.pendingPoolTokenWithdraw ≤
      pool.poolTokenBalance := by
  have hreceipts := @receiptTokens_le pool staked epoch
  by_cases hnone : pool.activationEpoch = none
  · obtain ⟨hpending, hwithdraw, htokens, hrewards, hdata, hequal⟩ := hinv.preactive hnone
    have howed := @owedTokens_le_of_oneToOne pool staked (epoch + 1) fun e _ => by
      rw [hinv.rates.rateAt_of_preactive hnone]
      exact initial_oneToOne
    have hsupply : pool.fungibleSupply = 0 := by simp [fungibleSupply, hdata]
    have hledger := hinv.ledger
    omega
  · have hcovered := (hinv.tokens hnone hskip).covered
    omega

end Runs

/-- The calls of the history, up to the change of epoch that aborts. -/
def inflatedHistory : List PoolOp :=
  [.activate, .requestAddStake 1000000000, .advanceEpoch, .depositRewards 1, .advanceEpoch,
    .requestAddStake 1000000002, .requestAddStake 1000000002, .requestAddStake 1000000002,
    .requestAddStake 1000000002, .advanceEpoch, .requestWithdrawStake 0, .requestWithdrawStake 0,
    .requestWithdrawStake 0, .requestWithdrawStake 0, .advanceEpoch, .requestWithdrawStake 0,
    .requestAddStake (2 ^ 63)]

end Haneul.Staking
