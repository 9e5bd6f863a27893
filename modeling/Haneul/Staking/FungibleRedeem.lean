import Haneul.Staking.PoolAccounting
import Haneul.Staking.FungibleRounding

/-!
# Redeeming fungible stake

A redemption pays a part of the principal behind the fungible tokens and, for what the tokens
are worth above it, a part of the rewards pool.  The worth is taken from the exchange rate, and
the rewards pool holds what the rate does not know of: the rates round the tokens for new stake
down, so the tokens from before gain up to the worth of one token at a change of epoch, while
the new stakers keep their whole principal.  `withdraw_rewards` pays at most what is there; a
redemption does not, and aborts.
-/

namespace Haneul.Staking

open Haneul.Shares StakingPool

section Redeem

variable {pool : StakingPool} {epoch : Nat} {staked : List StakedHaneul}
  {fungible : List FungibleStakedHaneul} {skipped : Bool} {f : FungibleStakedHaneul}

/-- The rate of the epoch covers the fungible supply: at most the whole balance is paid. -/
theorem PoolInv.haneul_le {x : Nat} (hinv : PoolInv pool epoch staked fungible skipped)
    (hskip : skipped = false) (hactive : pool.activationEpoch ≠ none)
    (hle : x ≤ pool.fungibleSupply) : (pool.rateAt epoch).haneul x ≤ u64Max := by
  have htokens := hinv.tokens hactive hskip
  have hcovered := htokens.covered
  have hbound := hinv.bounded.2
  rcases htokens.current with hone | hcurrent
  · rw [hone.haneul_eq]
    omega
  · rcases latestRate_mem pool.exchangeRates (min (pool.deactivationEpoch.getD epoch) epoch) with
      hinitial | ⟨e, _, hentry⟩
    · have hone : (pool.rateAt epoch).OneToOne := by
        rw [rateAt, hinitial]
        exact PoolTokenExchangeRate.initial_oneToOne
      rw [hone.haneul_eq]
      omega
    · by_cases hzero : (pool.rateAt epoch).haneulAmount = 0
      · rw [PoolTokenExchangeRate.OneToOne.haneul_eq (.inl hzero)]
        omega
      · refine (convert_le hzero (by omega)).trans ?_
        exact (hinv.recorded e _ hentry).2

theorem PoolInv.value_le (hinv : PoolInv pool epoch staked (f :: fungible) skipped) :
    f.value ≤ pool.fungibleSupply := by
  rw [hinv.supply]
  exact Nat.le_add_right _ _

/-- A redemption returns exactly if there is a supply to take a part of, and the rewards pool
    holds what the rate promises. -/
theorem PoolInv.redeem_iff (hinv : PoolInv pool epoch staked (f :: fungible) skipped)
    (hskip : skipped = false) (hsum : pool.haneulBalance + pool.pendingStake ≤ u64Max) :
    (∃ result, pool.redeemFungibleStakedHaneul f epoch = .ok result) ↔
      pool.fungibleSupply ≠ 0 ∧ pool.rewardsShare f.value epoch ≤ pool.rewardsPool := by
  constructor
  · rintro ⟨⟨pool', out⟩, h⟩
    obtain ⟨_, hsupply, _, _, hrewards, _⟩ := redeemFungibleStakedHaneul_ok hinv.rates h
    exact ⟨hsupply, hrewards⟩
  · rintro ⟨hsupply, hrewards⟩
    have hvalue := hinv.value_le
    have hactive : pool.activationEpoch ≠ none := fun hnone =>
      hsupply (by simp [fungibleSupply, (hinv.preactive hnone).2.2.2.2.1])
    have hcovered := (hinv.tokens hactive hskip).covered
    have hledger := hinv.ledger
    have hamounts : (pool.rateAt epoch).calculateFungibleStakedHaneulWithdrawAmount f.value
        pool.fungiblePrincipal pool.fungibleSupply =
          .ok (pool.principalShare f.value epoch, pool.rewardsShare f.value epoch) :=
      PoolTokenExchangeRate.calculate_eq_parts hsupply hvalue (hinv.haneul_le hskip hactive le_rfl)
    have hprincipal : pool.principalShare f.value epoch ≤ pool.fungiblePrincipal :=
      (Nat.div_le_of_le_mul (Nat.mul_le_mul_right _ hvalue)).trans (min_le_left _ _)
    cases hdata : pool.fungibleStakedHaneulData with
    | none => exact absurd (by simp [fungibleSupply, hdata]) hsupply
    | some data =>
      have hsupply' : pool.fungibleSupply = data.totalSupply := by simp [fungibleSupply, hdata]
      have hprincipal' : pool.fungiblePrincipal = data.principal := by
        simp [fungiblePrincipal, hdata]
      rw [hsupply', hprincipal'] at hamounts
      have hid : (f.poolId == pool.id) = true := beq_iff_eq.mpr (hinv.fungibles f (.head _))
      unfold redeemFungibleStakedHaneul
      rw [hinv.rates.rateAtEpoch_eq, hdata, hid]
      have hout := @addU64_of_le (pool.principalShare f.value epoch)
        (pool.rewardsShare f.value epoch) (by omega)
      have hpending := @addU64_of_le pool.pendingTotalHaneulWithdraw
        (pool.principalShare f.value epoch + pool.rewardsShare f.value epoch) (by omega)
      have htokens := @addU64_of_le pool.pendingPoolTokenWithdraw f.value
        (by have := hinv.bounded.2; omega)
      simp only [require, if_true, bind, Except.bind, hamounts,
        subU64_of_le (hsupply' ▸ hvalue), splitBalance_of_le (hprincipal' ▸ hprincipal),
        splitBalance_of_le hrewards, hout, hpending, htokens, pure, Except.pure]
      exact ⟨_, rfl⟩

end Redeem

end Haneul.Staking
