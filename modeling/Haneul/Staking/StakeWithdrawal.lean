import Haneul.Staking.FungibleRedeem

/-!
# Stake can always be withdrawn

Redemptions of fungible stake can abort for want of rewards.  The withdrawal of a receipt
takes at most the rewards that are there, and always returns with the principal at least.
-/

namespace Haneul.Staking

open Haneul.Shares StakingPool PoolTokenExchangeRate

section Withdraw

variable {pool : StakingPool} {epoch : Nat} {staked : List StakedHaneul}
  {fungible : List FungibleStakedHaneul} {skipped : Bool} {receipt : StakedHaneul}

/-- The rate of the epoch converts every part of the token balance. -/
theorem PoolInv.worth_le {x : Nat} (hinv : PoolInv pool epoch staked fungible skipped)
    (hskip : skipped = false) (hle : x ≤ pool.poolTokenBalance) :
    (pool.rateAt epoch).haneul x ≤ u64Max := by
  have hbound := hinv.bounded.2
  have hone : (pool.rateAt epoch).OneToOne → (pool.rateAt epoch).haneul x ≤ u64Max := by
    intro h
    rw [h.haneul_eq]
    omega
  by_cases hnone : pool.activationEpoch = none
  · rw [hinv.rates.rateAt_of_preactive hnone] at hone ⊢
    exact hone initial_oneToOne
  rcases latestRate_mem pool.exchangeRates (min (pool.deactivationEpoch.getD epoch) epoch) with
    hinitial | ⟨e, _, hentry⟩
  · exact hone (by rw [rateAt, hinitial]; exact initial_oneToOne)
  · rcases (hinv.tokens hnone hskip).current with hequal | hcurrent
    · exact hone hequal
    · by_cases hzero : (pool.rateAt epoch).haneulAmount = 0
      · exact hone (.inl hzero)
      · exact (convert_le hzero (hle.trans hcurrent)).trans (hinv.recorded e _ hentry).2

/-- The tokens of a receipt that is not pending are among the tokens of the pool. -/
theorem PoolInv.tokens_le (hinv : PoolInv pool epoch (receipt :: staked) fungible skipped)
    (hskip : skipped = false)
    (hcounts : ¬(epoch < receipt.stakeActivationEpoch ∧ pool.isPreactive = false)) :
    (pool.rateAt receipt.stakeActivationEpoch).tokens receipt.principal +
      pool.pendingPoolTokenWithdraw ≤ pool.poolTokenBalance := by
  by_cases hnone : pool.activationEpoch = none
  · have hpre := hinv.preactive hnone
    have hledger := hinv.ledger
    rw [principals_cons] at hledger
    rw [hinv.rates.rateAt_of_preactive hnone, initial_oneToOne.tokens_eq]
    omega
  · have hstarted : receipt.stakeActivationEpoch < epoch + 1 := by
      by_contra hlate
      refine hcounts ⟨by omega, ?_⟩
      simpa [isPreactive, Option.isSome_iff_ne_none] using hnone
    have hcovered := (hinv.tokens hnone hskip).covered
    have howed := @tokens_add_owedTokens_le pool staked receipt (epoch + 1) hstarted
    omega

theorem PoolInv.withdrawFromPrincipal_eq
    (hinv : PoolInv pool epoch (receipt :: staked) fungible skipped)
    (hfits : (pool.rateAt receipt.stakeActivationEpoch).tokens receipt.principal ≤ u64Max) :
    pool.withdrawFromPrincipal receipt =
      .ok ((pool.rateAt receipt.stakeActivationEpoch).tokens receipt.principal,
        receipt.principal) := by
  unfold withdrawFromPrincipal
  rw [hinv.rates.rateAtEpoch_eq, (hinv.receipts receipt (.head _)).1, beq_self_eq_true]
  simp only [require, if_true, bind, Except.bind, getTokenAmount_of_le hfits, pure, Except.pure]

theorem PoolInv.withdrawRewards_le {principal t : Nat}
    (hinv : PoolInv pool epoch staked fungible skipped) (hskip : skipped = false)
    (hle : t ≤ pool.poolTokenBalance) :
    ∃ rewards ≤ pool.rewardsPool, pool.withdrawRewards principal t epoch =
      .ok ({ pool with rewardsPool := pool.rewardsPool - rewards }, rewards) := by
  unfold withdrawRewards
  rw [hinv.rates.rateAtEpoch_eq]
  simp only [bind, Except.bind, getHaneulAmount_of_le (hinv.worth_le hskip hle),
    splitBalance_of_le (min_le_right _ _), pure, Except.pure]
  exact ⟨_, min_le_right _ _, rfl⟩

theorem PoolInv.withdraw_returns (hinv : PoolInv pool epoch (receipt :: staked) fungible skipped)
    (hskip : skipped = false) (hsum : pool.haneulBalance + pool.pendingStake ≤ u64Max) :
    ∃ pool' out, pool.requestWithdrawStake receipt epoch = .ok (pool', out) ∧
      receipt.principal ≤ out ∧ out ≤ receipt.principal + pool.rewardsPool := by
  unfold StakingPool.requestWithdrawStake
  split
  · next hdirect =>
      have hactive : pool.activationEpoch ≠ none := fun hnone => by
        simp [isPreactive, hnone] at hdirect
      rw [subU64_of_le (hinv.unstake_pending hactive hdirect.1).1]
      exact ⟨_, _, rfl, le_rfl, Nat.le_add_right _ _⟩
  · next hcounts =>
      have htokens := hinv.tokens_le hskip hcounts
      have hbound := hinv.bounded.2
      have hledger := hinv.ledger
      rw [principals_cons] at hledger
      have hprincipal := hinv.withdrawFromPrincipal_eq (by omega)
      generalize (pool.rateAt receipt.stakeActivationEpoch).tokens receipt.principal = t
        at htokens hprincipal
      obtain ⟨rewards, hle, hrewards⟩ :=
        @PoolInv.withdrawRewards_le _ _ _ _ _ receipt.principal t hinv hskip (by omega)
      have hpaid : ∃ pool', (pool.paying rewards (receipt.principal + rewards) t).processIfNotActive =
          .ok pool' := by
        unfold processIfNotActive
        split
        · exact processPendingStakeWithdraw_total hinv.settled
        · exact ⟨_, rfl⟩
      obtain ⟨pool', hpool'⟩ := hpaid
      simp only [hprincipal, hrewards, bind, Except.bind, pure, Except.pure,
        @addU64_of_le receipt.principal rewards (by omega),
        @addU64_of_le pool.pendingTotalHaneulWithdraw (receipt.principal + rewards) (by omega),
        @addU64_of_le pool.pendingPoolTokenWithdraw t (by omega)]
      rw [paying] at hpool'
      rw [hpool']
      exact ⟨pool', _, rfl, Nat.le_add_right _ _, Nat.add_le_add_left hle _⟩

end Withdraw

/-- **Stake is never stuck.**  In every history without a skipped epoch, as long as the HANEUL
    of the pool fits into `u64`, the withdrawal of every outstanding receipt returns, with the
    principal and at most the rewards that are there. -/
theorem stake_never_stuck {s : PoolState} (hs : PoolReachable s) (hskip : s.skipped = false)
    (hsum : s.pool.haneulBalance + s.pool.pendingStake ≤ u64Max) {receipt : StakedHaneul}
    (hreceipt : receipt ∈ s.staked) :
    ∃ pool' out, s.pool.requestWithdrawStake receipt s.epoch = .ok (pool', out) ∧
      receipt.principal ≤ out ∧ out ≤ receipt.principal + s.pool.rewardsPool := by
  have hinv : PoolInv s.pool s.epoch s.staked s.fungible s.skipped := hs.inv
  exact (hinv.staked_perm (List.perm_cons_erase hreceipt)).withdraw_returns hskip hsum

theorem stake_never_stuck_single : ∃ s receipt, PoolReachable s ∧ receipt ∈ s.staked ∧
    s.pool.rewardsPool = 7 ∧ ∃ pool' out,
      s.pool.requestWithdrawStake receipt s.epoch = .ok (pool', out) ∧ 1000000000 ≤ out := by
  obtain ⟨s, hrun, hs⟩ := ok_of_any
    (x := List.foldlM PoolState.apply (PoolState.init 0 0)
      [.activate, .requestAddStake 1000000000, .advanceEpoch, .depositRewards 7, .advanceEpoch])
    (p := fun s => decide (s.skipped = false ∧ ⟨0, 2, 1000000000⟩ ∈ s.staked ∧
      s.pool.rewardsPool = 7 ∧ s.pool.haneulBalance + s.pool.pendingStake ≤ u64Max))
    (by decide +kernel)
  obtain ⟨hskip, hmem, hrewards, hsum⟩ := of_decide_eq_true hs
  have hreach : PoolReachable s := ⟨0, 0, _, hrun⟩
  obtain ⟨pool', out, hout, hle, -⟩ := stake_never_stuck hreach hskip hsum hmem
  exact ⟨s, _, hreach, hmem, hrewards, pool', out, hout, hle⟩

end Haneul.Staking
