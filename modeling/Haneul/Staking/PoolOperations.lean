import Haneul.Staking.StakingPool

/-!
# What the operations of a staking pool do

One lemma for each operation that returned, and one for the aborts that are left where its
arguments are right.  The change of epoch is computed in closed form: withdrawals off both
balances, the stake that was pending onto the balance of HANEUL, pool tokens for the sum at
the rate between the two.
-/

namespace Haneul.Staking

open Haneul.Shares PoolTokenExchangeRate

/-- The aborts of arithmetic that does not fit into `u64`. -/
def PoolAbort.IsOverflow (e : PoolAbort) : Prop := e = .sumOverflow ∨ e = .castOverflow

/-- The aborts by which the pool would contradict its own books. -/
def PoolAbort.IsInconsistent (e : PoolAbort) : Prop :=
  e = .underflow ∨ e = .tokenBalancesDoNotMatchExchangeRate

instance : DecidablePred PoolAbort.IsInconsistent := fun _ => inferInstanceAs (Decidable (_ ∨ _))

theorem PoolAbort.IsOverflow.consistent {e : PoolAbort} (h : e.IsOverflow) : ¬e.IsInconsistent := by
  rcases h with rfl | rfl <;> decide

section Errors

variable {a b c : Nat} {condition : Bool} {code : PoolAbort}

theorem addU64_errors : ErrorsIn PoolAbort.IsOverflow (addU64 a b) :=
  .ite .ok (.error (.inl rfl))

variable {rate : PoolTokenExchangeRate}

theorem PoolTokenExchangeRate.getTokenAmount_errors :
    ErrorsIn PoolAbort.IsOverflow (rate.getTokenAmount a) :=
  fun _ h => .inr (castOverflow_of_getTokenAmount h)

theorem PoolTokenExchangeRate.getHaneulAmount_errors :
    ErrorsIn PoolAbort.IsOverflow (rate.getHaneulAmount a) :=
  fun _ h => .inr (castOverflow_of_getHaneulAmount h)

theorem require_errors {P : PoolAbort → Prop}
    (h : P code) : ErrorsIn P (require condition code) :=
  .ite .ok (.error h)

theorem mulDiv_errors : ErrorsIn (¬PoolAbort.IsInconsistent ·) (mulDiv a b c) :=
  .ite (.error (by decide)) (.ite .ok (.error (by decide)))

theorem splitBalance_errors : ErrorsIn (¬PoolAbort.IsInconsistent ·) (splitBalance a b) :=
  .ite .ok (.error (by decide))

theorem overflow_consistent {α : Type} {x : Except PoolAbort α}
    (h : ErrorsIn PoolAbort.IsOverflow x) :
    ErrorsIn (¬PoolAbort.IsInconsistent ·) x := fun e he => (h e he).consistent

theorem addU64_consistent : ErrorsIn (¬PoolAbort.IsInconsistent ·) (addU64 a b) :=
  overflow_consistent addU64_errors

end Errors

theorem addU64_of_le {a b : Nat} (h : a + b ≤ u64Max) : addU64 a b = .ok (a + b) := if_pos h

theorem subU64_of_le {a b : Nat} (h : b ≤ a) : subU64 a b = .ok (a - b) := if_pos h

theorem splitBalance_of_le {a b : Nat} (h : b ≤ a) : splitBalance a b = .ok (a - b) := if_pos h

namespace PoolTokenExchangeRate

variable {rate : PoolTokenExchangeRate} {value principal supply : Nat}

def principalPart (rate : PoolTokenExchangeRate) (value principal supply : Nat) : Nat :=
  value * min principal (rate.haneul supply) / supply

def rewardsPart (rate : PoolTokenExchangeRate) (value principal supply : Nat) : Nat :=
  value * (rate.haneul supply - min principal (rate.haneul supply)) / supply

theorem calculate_ok {amounts : Nat × Nat}
    (h : rate.calculateFungibleStakedHaneulWithdrawAmount value principal supply = .ok amounts) :
    supply ≠ 0 ∧ amounts =
      (rate.principalPart value principal supply, rate.rewardsPart value principal supply) := by
  obtain ⟨total, htotal, h⟩ := bind_eq_ok.mp h
  obtain rfl := eq_haneul_of_ok htotal
  obtain ⟨rewards, hrewards, fromPrincipal, hfrom, fromRewards, hfrom', h⟩ := bind₃_eq_ok.mp h
  obtain ⟨_, rfl⟩ := subU64_eq_ok.mp hrewards
  obtain ⟨hne, _, rfl⟩ := mulDiv_eq_ok.mp hfrom
  obtain ⟨_, _, rfl⟩ := mulDiv_eq_ok.mp hfrom'
  obtain ⟨_, _, _, _, _, _, h⟩ := bind₃_eq_ok.mp h
  cases h
  exact ⟨hne, rfl⟩

end PoolTokenExchangeRate

namespace StakingPool

variable {pool pool' : StakingPool} {epoch : Nat} {e : PoolAbort}

def fungibleSupply (pool : StakingPool) : Nat :=
  (pool.fungibleStakedHaneulData.map (·.totalSupply)).getD 0

def fungiblePrincipal (pool : StakingPool) : Nat :=
  (pool.fungibleStakedHaneulData.map (·.principal)).getD 0

/-! ### The change of epoch -/

def withdrawn (pool : StakingPool) : StakingPool :=
  { pool with
    haneulBalance := pool.haneulBalance - pool.pendingTotalHaneulWithdraw
    poolTokenBalance := pool.poolTokenBalance - pool.pendingPoolTokenWithdraw
    pendingTotalHaneulWithdraw := 0
    pendingPoolTokenWithdraw := 0 }

def settlementRate (pool : StakingPool) : PoolTokenExchangeRate :=
  ⟨pool.haneulBalance - pool.pendingTotalHaneulWithdraw,
    pool.poolTokenBalance - pool.pendingPoolTokenWithdraw⟩

def settledHaneul (pool : StakingPool) : Nat :=
  pool.haneulBalance + pool.pendingStake - pool.pendingTotalHaneulWithdraw

def settledTokens (pool : StakingPool) : Nat := pool.settlementRate.tokens pool.settledHaneul

def settledPool (pool : StakingPool) (epoch : Nat) : StakingPool :=
  { pool with
    haneulBalance := pool.settledHaneul
    poolTokenBalance := pool.settledTokens
    pendingStake := 0
    pendingTotalHaneulWithdraw := 0
    pendingPoolTokenWithdraw := 0
    exchangeRates := Function.update pool.exchangeRates (epoch + 1)
      (some ⟨pool.settledHaneul, pool.settledTokens⟩)
    underflowHaneulBalance := none }

theorem ite_le_sub {a b : Nat} : (if a ≤ b then b - a else 0) = b - a := by
  split <;> omega

theorem processPendingStakeWithdraw_of_le
    (h : pool.pendingTotalHaneulWithdraw ≤ pool.haneulBalance) :
    pool.processPendingStakeWithdraw = .ok pool.withdrawn := by
  simp [processPendingStakeWithdraw, takePendingHaneul, h, withdrawn, ite_le_sub, bind, Except.bind,
    pure, Except.pure]

/-- Where more is withdrawn than the balance holds, the rest is left for the stake that is
    pending, and the pool tokens are computed anew. -/
theorem processPendingStakeWithdraw_of_lt (h : pool.haneulBalance < pool.pendingTotalHaneulWithdraw)
    (hactive : pool.deactivationEpoch = none) (hsettled : pool.underflowHaneulBalance = none) :
    pool.processPendingStakeWithdraw = .ok { pool.withdrawn with
      underflowHaneulBalance := some (pool.pendingTotalHaneulWithdraw - pool.haneulBalance) } := by
  have hhaneul : pool.haneulBalance - pool.pendingTotalHaneulWithdraw = 0 := by omega
  simp [processPendingStakeWithdraw, takePendingHaneul, Nat.not_le.mpr h, isInactive, hactive,
    hsettled, withdrawn, ite_le_sub, hhaneul, bind, Except.bind, pure, Except.pure]

theorem processPendingStake_eq {diff : Nat} (hdiff : pool.underflowHaneulBalance.getD 0 = diff)
    (hle : diff ≤ pool.haneulBalance + pool.pendingStake) :
    pool.processPendingStake = do
      let _ ← addU64 pool.haneulBalance pool.pendingStake
      let poolTokenBalance ← getTokenAmount
        ⟨pool.haneulBalance, pool.poolTokenBalance⟩ (pool.haneulBalance + pool.pendingStake - diff)
      return { pool with
        haneulBalance := pool.haneulBalance + pool.pendingStake - diff
        poolTokenBalance, pendingStake := 0, underflowHaneulBalance := none } := by
  unfold processPendingStake
  rw [hdiff]
  by_cases hfits : pool.haneulBalance + pool.pendingStake ≤ u64Max
  · rw [addU64_of_le hfits]
    simp only [bind, Except.bind, subU64_of_le hle]
  · rw [addU64, if_neg hfits]
    rfl

def stakeSum (pool : StakingPool) : Nat :=
  pool.haneulBalance - pool.pendingTotalHaneulWithdraw + pool.pendingStake

theorem settledHaneul_le : pool.settledHaneul ≤ pool.stakeSum := by
  rw [settledHaneul, stakeSum]
  omega

theorem processBoth_eq (hactive : pool.deactivationEpoch = none)
    (hsettled : pool.underflowHaneulBalance = none)
    (hcovered : pool.pendingTotalHaneulWithdraw ≤ pool.haneulBalance + pool.pendingStake) :
    (pool.processPendingStakeWithdraw >>= processPendingStake) = do
      let _ ← addU64 (pool.haneulBalance - pool.pendingTotalHaneulWithdraw) pool.pendingStake
      let poolTokenBalance ← pool.settlementRate.getTokenAmount pool.settledHaneul
      return { pool.withdrawn with
        haneulBalance := pool.settledHaneul, poolTokenBalance, pendingStake := 0
        underflowHaneulBalance := none } := by
  rcases Nat.lt_or_ge pool.haneulBalance pool.pendingTotalHaneulWithdraw with hlt | hle
  · rw [processPendingStakeWithdraw_of_lt hlt hactive hsettled]
    have hbalance : pool.haneulBalance - pool.pendingTotalHaneulWithdraw + pool.pendingStake -
        (pool.pendingTotalHaneulWithdraw - pool.haneulBalance) = pool.settledHaneul := by
      rw [settledHaneul]
      omega
    refine (@processPendingStake_eq _ (pool.pendingTotalHaneulWithdraw - pool.haneulBalance)
      rfl ?_).trans ?_
    · dsimp only [withdrawn]
      omega
    · dsimp only [withdrawn]
      rw [hbalance]
      rfl
  · rw [processPendingStakeWithdraw_of_le hle]
    have hbalance : pool.haneulBalance - pool.pendingTotalHaneulWithdraw + pool.pendingStake - 0 =
        pool.settledHaneul := by
      rw [settledHaneul]
      omega
    refine (@processPendingStake_eq _ 0 (by simp [withdrawn, hsettled]) (Nat.zero_le _)).trans ?_
    dsimp only [withdrawn]
    rw [hbalance]
    rfl

/-- The two balances stand in the ratio that is recorded: neither is zero without the other. -/
theorem settled_tokens_eq
    (hcovered : pool.pendingTotalHaneulWithdraw ≤ pool.haneulBalance + pool.pendingStake) :
    tokens ⟨pool.settledHaneul, pool.settledTokens⟩ pool.settledHaneul = pool.settledTokens := by
  by_cases hhaneul : pool.settledHaneul = 0
  · rw [settledTokens, hhaneul, tokens_zero, tokens_zero]
  · have htokens : pool.settledTokens ≠ 0 := by
      by_cases hone : pool.settlementRate.OneToOne
      · rw [settledTokens, hone.tokens_eq]
        exact hhaneul
      · have hzero := not_or.mp hone
        have hle : pool.settlementRate.haneulAmount ≤ pool.settledHaneul := by
          rw [settledHaneul, settlementRate]
          dsimp only
          omega
        have := le_convert hzero.1 hzero.2 hle
        rw [settledTokens, tokens]
        omega
    exact convert_self hhaneul htokens

theorem RatesFrom.settledPool (h : RatesFrom pool) {a : Nat} (ha : pool.activationEpoch = some a)
    (hle : a ≤ epoch) : RatesFrom (pool.settledPool epoch) where
  preactive := fun hpre => absurd (hpre.symm.trans ha) nofun
  first := fun b hb => by
    have hb' : pool.activationEpoch = some b := hb
    obtain rfl : a = b := Option.some.inj (ha.symm.trans hb')
    exact (Function.update_of_ne (by omega) _ _).trans (h.first a ha)
  before := fun b hb e he => by
    have hb' : pool.activationEpoch = some b := hb
    obtain rfl : a = b := Option.some.inj (ha.symm.trans hb')
    exact (Function.update_of_ne (by omega) _ _).trans (h.before a ha e he)

theorem rateAt_settledPool_new (hactive : pool.deactivationEpoch = none) :
    (pool.settledPool epoch).rateAt (epoch + 1) = ⟨pool.settledHaneul, pool.settledTokens⟩ := by
  refine latestRate_of_entry ?_
  simp [settledPool, hactive]

theorem rateAt_settledPool_old {e : Nat} (hle : e ≤ epoch) :
    (pool.settledPool epoch).rateAt e = pool.rateAt e :=
  latestRate_congr fun e' he' => Function.update_of_ne (by omega) _ _

/-- The change of epoch, of an active pool that keeps its books, returns exactly if the sum of
    HANEUL and the pool tokens for the new balance fit into `u64`. -/
theorem processPending_eq {a : Nat} (hrates : RatesFrom pool) (ha : pool.activationEpoch = some a)
    (hle : a ≤ epoch) (hactive : pool.deactivationEpoch = none)
    (hsettled : pool.underflowHaneulBalance = none)
    (hcovered : pool.pendingTotalHaneulWithdraw ≤ pool.haneulBalance + pool.pendingStake)
    (hfresh : pool.exchangeRates (epoch + 1) = none) :
    pool.processPendingStakesAndWithdraws epoch =
      if u64Max < pool.stakeSum then .error .sumOverflow
      else if pool.settledTokens ≤ u64Max then .ok (pool.settledPool epoch)
      else .error .castOverflow := by
  have hboth : pool.processPendingStakesAndWithdraws epoch =
      (pool.processPendingStakeWithdraw >>= processPendingStake) >>= fun pool => do
        let pool ← pool.addExchangeRate (epoch + 1) ⟨pool.haneulBalance, pool.poolTokenBalance⟩
        pool.checkBalanceInvariants (epoch + 1)
        return pool := by
    unfold processPendingStakesAndWithdraws
    cases pool.processPendingStakeWithdraw <;> rfl
  rw [hboth, processBoth_eq hactive hsettled hcovered]
  split
  · next hlarge =>
      rw [stakeSum] at hlarge
      rw [addU64, if_neg (Nat.not_le.mpr hlarge)]
      rfl
  next hsum =>
  rw [stakeSum, Nat.not_lt] at hsum
  rw [addU64_of_le hsum]
  split
  · next hfits =>
      have htokens : pool.settlementRate.getTokenAmount pool.settledHaneul = .ok pool.settledTokens :=
        getTokenAmount_of_le hfits
      have hcheck : (pool.settledPool epoch).checkBalanceInvariants (epoch + 1) = .ok () := by
        unfold checkBalanceInvariants
        rw [(hrates.settledPool ha hle).rateAtEpoch_eq, rateAt_settledPool_new hactive]
        have heq := settled_tokens_eq hcovered
        have hget := getTokenAmount_of_le (heq.le.trans hfits)
        rw [heq] at hget
        have hbalance : (pool.settledPool epoch).haneulBalance = pool.settledHaneul := rfl
        rw [hbalance]
        simp [bind, Except.bind, hget, settledPool]
      have hadd : { pool.withdrawn with
            haneulBalance := pool.settledHaneul, poolTokenBalance := pool.settledTokens
            pendingStake := 0, underflowHaneulBalance := none }.addExchangeRate (epoch + 1)
          ⟨pool.settledHaneul, pool.settledTokens⟩ = .ok (pool.settledPool epoch) := by
        simp [addExchangeRate, withdrawn, hfresh, settledPool]
      rw [htokens]
      simp only [bind, Except.bind, pure, Except.pure, hadd, hcheck]
  · next hlarge =>
      have hbalance : pool.settledHaneul ≤ u64Max := settledHaneul_le.trans hsum
      rw [settledTokens] at hlarge
      rw [getTokenAmount_eq hbalance, if_neg hlarge]
      rfl

/-! ### Withdrawals -/

/-- Paid out of the rewards, with `haneul` and `tokens` to come off the balances. -/
def paying (pool : StakingPool) (rewards haneul tokens : Nat) : StakingPool :=
  { pool with
    rewardsPool := pool.rewardsPool - rewards
    pendingTotalHaneulWithdraw := pool.pendingTotalHaneulWithdraw + haneul
    pendingPoolTokenWithdraw := pool.pendingPoolTokenWithdraw + tokens }

variable {receipt : StakedHaneul} {out : Nat}

theorem withdrawFromPrincipal_ok {amounts : Nat × Nat} (hrates : RatesFrom pool)
    (h : pool.withdrawFromPrincipal receipt = .ok amounts) :
    amounts = ((pool.rateAt receipt.stakeActivationEpoch).tokens receipt.principal,
      receipt.principal) := by
  unfold withdrawFromPrincipal at h
  rw [hrates.rateAtEpoch_eq] at h
  obtain ⟨_, _, rate, hrate, h⟩ := bind₂_eq_ok.mp h
  cases hrate
  obtain ⟨tokens, htokens, h⟩ := bind_eq_ok.mp h
  cases h
  rw [eq_tokens_of_ok htokens]

theorem withdrawRewards_ok {principal tokens rewards : Nat}
    (h : pool.withdrawRewards principal tokens epoch = .ok (pool', rewards)) :
    rewards ≤ pool.rewardsPool ∧
      pool' = { pool with rewardsPool := pool.rewardsPool - rewards } := by
  obtain ⟨rate, _, total, _, rest, hrest, h⟩ := bind₃_eq_ok.mp h
  cases h
  obtain ⟨hle, rfl⟩ := splitBalance_eq_ok.mp hrest
  exact ⟨hle, rfl⟩

/-- A withdrawal takes stake that is still pending back, or pays the principal with rewards
    as far as there are any. -/
theorem requestWithdrawStake_ok (hrates : RatesFrom pool)
    (h : pool.requestWithdrawStake receipt epoch = .ok (pool', out)) :
    (epoch < receipt.stakeActivationEpoch ∧ pool.isPreactive = false ∧
      receipt.principal ≤ pool.pendingStake ∧
      pool' = { pool with pendingStake := pool.pendingStake - receipt.principal }) ∨
    (¬(epoch < receipt.stakeActivationEpoch ∧ pool.isPreactive = false) ∧
      ∃ rewards ≤ pool.rewardsPool,
        (pool.paying rewards (receipt.principal + rewards)
          ((pool.rateAt receipt.stakeActivationEpoch).tokens receipt.principal)).processIfNotActive =
          .ok pool') := by
  unfold requestWithdrawStake at h
  split at h
  · next hdirect =>
      obtain ⟨rest, hrest, h⟩ := bind_eq_ok.mp h
      obtain ⟨hle, rfl⟩ := subU64_eq_ok.mp hrest
      cases h
      exact .inl ⟨hdirect.1, hdirect.2, hle, rfl⟩
  · next hdirect =>
      obtain ⟨amounts, hamounts, h⟩ := bind_eq_ok.mp h
      obtain rfl := withdrawFromPrincipal_ok hrates hamounts
      obtain ⟨⟨pool₁, rewards⟩, hrewards, h⟩ := bind_eq_ok.mp h
      obtain ⟨hle, rfl⟩ := withdrawRewards_ok hrewards
      obtain ⟨total, htotal, haneul, hhaneul, tokens, htokens, pool₂, hpool₂, h⟩ := bind₄_eq_ok.mp h
      obtain ⟨_, rfl⟩ := addU64_eq_ok.mp htotal
      obtain ⟨_, rfl⟩ := addU64_eq_ok.mp hhaneul
      obtain ⟨_, rfl⟩ := addU64_eq_ok.mp htokens
      cases h
      exact .inr ⟨hdirect, rewards, hle, hpool₂⟩

theorem processPendingStakeWithdraw_total (hsettled : pool.underflowHaneulBalance = none) :
    ∃ pool', pool.processPendingStakeWithdraw = .ok pool' := by
  have htake : ∃ pool₁, pool.takePendingHaneul = .ok pool₁ := by
    unfold takePendingHaneul
    rw [hsettled]
    split
    · exact ⟨_, rfl⟩
    · split
      · exact ⟨_, rfl⟩
      · exact ⟨_, rfl⟩
  obtain ⟨pool₁, hpool₁⟩ := htake
  exact ⟨_, by rw [processPendingStakeWithdraw, hpool₁]; rfl⟩

/-- The withdrawal of a receipt of the pool stops only where an amount does not fit. -/
theorem requestWithdrawStake_errors (hrates : RatesFrom pool)
    (hsettled : pool.underflowHaneulBalance = none) (hid : receipt.poolId = pool.id)
    (hpending : epoch < receipt.stakeActivationEpoch → pool.isPreactive = false →
      receipt.principal ≤ pool.pendingStake) :
    ErrorsIn PoolAbort.IsOverflow (pool.requestWithdrawStake receipt epoch) := by
  unfold requestWithdrawStake
  split
  · next hdirect =>
      rw [subU64_of_le (hpending hdirect.1 hdirect.2)]
      exact .ok
  · have hprincipal : ErrorsIn PoolAbort.IsOverflow (pool.withdrawFromPrincipal receipt) := by
      unfold withdrawFromPrincipal
      rw [hrates.rateAtEpoch_eq, hid, beq_self_eq_true]
      exact .bind .ok fun _ _ => .bind .ok fun _ _ =>
        .bind getTokenAmount_errors fun _ _ => .ok
    refine .bind hprincipal fun ⟨tokens, principal⟩ _ => ?_
    have hrewards : ErrorsIn PoolAbort.IsOverflow (pool.withdrawRewards principal tokens epoch) := by
      unfold withdrawRewards
      rw [hrates.rateAtEpoch_eq]
      refine .bind .ok fun _ _ => .bind getHaneulAmount_errors fun _ _ => ?_
      dsimp only
      rw [splitBalance_of_le (min_le_right _ _)]
      exact .ok
    refine .bind hrewards fun ⟨pool₁, rewards⟩ hpaid => ?_
    obtain ⟨_, rfl⟩ := withdrawRewards_ok hpaid
    refine .bind addU64_errors fun _ _ => .bind addU64_errors fun haneul _ =>
      .bind addU64_errors fun tokens' _ => .bind ?_ fun _ _ => .ok
    unfold processIfNotActive
    split
    · obtain ⟨pool₂, hpool₂⟩ := @processPendingStakeWithdraw_total
        { pool with
          rewardsPool := pool.rewardsPool - rewards
          pendingTotalHaneulWithdraw := haneul
          pendingPoolTokenWithdraw := tokens' } hsettled
      rw [hpool₂]
      exact .ok
    · exact .ok

/-! ### Stake and rewards -/

theorem requestAddStake_ok {stake activation : Nat} {receipt : StakedHaneul}
    (h : pool.requestAddStake stake activation = .ok (pool', receipt)) :
    pool.deactivationEpoch = none ∧ 0 < stake ∧ receipt = ⟨pool.id, activation, stake⟩ ∧
      pool' = { pool with pendingStake := pool.pendingStake + stake } := by
  obtain ⟨_, hactive, _, hpos, pending, hpending, h⟩ := bind₃_eq_ok.mp h
  obtain ⟨_, rfl⟩ := addU64_eq_ok.mp hpending
  cases h
  have hnone : pool.deactivationEpoch = none := by
    simpa [isInactive] using require_eq_ok.mp hactive
  exact ⟨hnone, of_decide_eq_true (require_eq_ok.mp hpos), rfl, rfl⟩

theorem requestAddStake_errors {stake activation : Nat} :
    ErrorsIn (¬PoolAbort.IsInconsistent ·) (pool.requestAddStake stake activation) :=
  .bind (require_errors (by decide)) fun _ _ =>
    .bind (require_errors (by decide)) fun _ _ =>
      .bind addU64_consistent fun _ _ => .ok

theorem processPendingStake_errors (hsettled : pool.underflowHaneulBalance = none) :
    ErrorsIn (¬PoolAbort.IsInconsistent ·) pool.processPendingStake := by
  rw [@processPendingStake_eq _ 0 (by rw [hsettled]; rfl) (Nat.zero_le _)]
  exact .bind addU64_consistent fun _ _ =>
    .bind (overflow_consistent getTokenAmount_errors) fun _ _ => .ok

/-- Stake of a pool whose balances are equal counts one to one. -/
theorem processPendingStake_of_equal (hequal : pool.poolTokenBalance = pool.haneulBalance)
    (hsettled : pool.underflowHaneulBalance = none) (h : pool.processPendingStake = .ok pool') :
    pool.haneulBalance + pool.pendingStake ≤ u64Max ∧
      pool' = { pool with
        haneulBalance := pool.haneulBalance + pool.pendingStake
        poolTokenBalance := pool.haneulBalance + pool.pendingStake
        pendingStake := 0 } := by
  rw [@processPendingStake_eq _ 0 (by rw [hsettled]; rfl) (Nat.zero_le _), hequal] at h
  obtain ⟨sum, hsum, tokens, htokens, h⟩ := bind₂_eq_ok.mp h
  obtain ⟨hfits, rfl⟩ := addU64_eq_ok.mp hsum
  obtain rfl := eq_tokens_of_ok htokens
  cases h
  refine ⟨hfits, ?_⟩
  have heq : tokens ⟨pool.haneulBalance, pool.haneulBalance⟩
      (pool.haneulBalance + pool.pendingStake) = pool.haneulBalance + pool.pendingStake := by
    by_cases hzero : pool.haneulBalance = 0
    · exact convert_of_one_to_one (.inl hzero)
    · rw [tokens, convert_of_ne_zero hzero hzero,
        Nat.mul_div_cancel_left _ (Nat.pos_of_ne_zero hzero)]
  simp [heq, hsettled]

theorem depositRewards_ok {rewards : Nat} (h : pool.depositRewards rewards = .ok pool') :
    pool.haneulBalance + rewards ≤ u64Max ∧ pool' = { pool with
      haneulBalance := pool.haneulBalance + rewards
      rewardsPool := pool.rewardsPool + rewards } := by
  obtain ⟨haneul, hhaneul, rest, hrest, h⟩ := bind₂_eq_ok.mp h
  obtain ⟨hfits, rfl⟩ := addU64_eq_ok.mp hhaneul
  obtain ⟨_, rfl⟩ := addU64_eq_ok.mp hrest
  cases h
  exact ⟨hfits, rfl⟩

/-! ### Fungible stake -/

theorem addFungible_ok {tokens principal : Nat} {data : FungibleStakedHaneulData}
    (h : addFungible pool.fungibleStakedHaneulData tokens principal = .ok data) :
    data = ⟨pool.fungibleSupply + tokens, pool.fungiblePrincipal + principal⟩ := by
  unfold fungibleSupply fungiblePrincipal
  cases hold : pool.fungibleStakedHaneulData with
  | none =>
    rw [hold] at h
    cases h
    simp
  | some old =>
    rw [hold] at h
    obtain ⟨supply, hsupply, total, htotal, h⟩ := bind₂_eq_ok.mp h
    obtain ⟨_, rfl⟩ := addU64_eq_ok.mp hsupply
    obtain ⟨_, rfl⟩ := addU64_eq_ok.mp htotal
    cases h
    rfl

variable {fungible : FungibleStakedHaneul}

theorem convertToFungibleStakedHaneul_ok (hrates : RatesFrom pool)
    (h : pool.convertToFungibleStakedHaneul receipt epoch = .ok (pool', fungible)) :
    receipt.stakeActivationEpoch ≤ epoch ∧ pool.activationEpoch ≠ none ∧
      fungible = ⟨receipt.poolId,
        (pool.rateAt receipt.stakeActivationEpoch).tokens receipt.principal⟩ ∧
      pool' = { pool with
        fungibleStakedHaneulData := some ⟨
          pool.fungibleSupply + (pool.rateAt receipt.stakeActivationEpoch).tokens receipt.principal,
          pool.fungiblePrincipal + receipt.principal⟩ } := by
  unfold convertToFungibleStakedHaneul at h
  rw [hrates.rateAtEpoch_eq] at h
  obtain ⟨_, _, _, hstarted, _, hactive, rate, hrate, h⟩ := bind₄_eq_ok.mp h
  cases hrate
  obtain ⟨tokens, htokens, h⟩ := bind_eq_ok.mp h
  obtain rfl := eq_tokens_of_ok htokens
  obtain ⟨_, _, data, hdata, h⟩ := bind₂_eq_ok.mp h
  have hdata' := addFungible_ok hdata
  cases h
  have hnone : pool.activationEpoch ≠ none := by
    have := require_eq_ok.mp hactive
    rw [Bool.and_eq_true] at this
    simpa [isPreactive, Option.isSome_iff_ne_none] using this.1
  rw [hdata']
  exact ⟨of_decide_eq_true (require_eq_ok.mp hstarted), hnone, rfl, rfl⟩

theorem convertToFungibleStakedHaneul_errors (hrates : RatesFrom pool) :
    ErrorsIn (¬PoolAbort.IsInconsistent ·) (pool.convertToFungibleStakedHaneul receipt epoch) := by
  unfold convertToFungibleStakedHaneul
  rw [hrates.rateAtEpoch_eq]
  have hadd : ∀ {data tokens principal},
      ErrorsIn (¬PoolAbort.IsInconsistent ·) (addFungible data tokens principal) := by
    intro data tokens principal
    cases data with
    | none => exact .ok
    | some data =>
      exact .bind addU64_consistent fun _ _ =>
        .bind addU64_consistent fun _ _ => .ok
  exact .bind (require_errors (by decide)) fun _ _ =>
    .bind (require_errors (by decide)) fun _ _ =>
    .bind (require_errors (by decide)) fun _ _ =>
    .bind .ok fun _ _ => .bind (overflow_consistent getTokenAmount_errors) fun _ _ =>
    .bind (require_errors (by decide)) fun _ _ => .bind hadd fun _ _ => .ok

/-- HANEUL that the whole fungible supply is worth. -/
def fungibleWorth (pool : StakingPool) (epoch : Nat) : Nat :=
  (pool.rateAt epoch).haneul pool.fungibleSupply

def principalShare (pool : StakingPool) (value epoch : Nat) : Nat :=
  value * min pool.fungiblePrincipal (pool.fungibleWorth epoch) / pool.fungibleSupply

def rewardsShare (pool : StakingPool) (value epoch : Nat) : Nat :=
  value * (pool.fungibleWorth epoch - min pool.fungiblePrincipal (pool.fungibleWorth epoch)) /
    pool.fungibleSupply

def redeemed (pool : StakingPool) (value epoch : Nat) : StakingPool :=
  { pool.paying (pool.rewardsShare value epoch)
      (pool.principalShare value epoch + pool.rewardsShare value epoch) value with
    fungibleStakedHaneulData := some ⟨pool.fungibleSupply - value,
      pool.fungiblePrincipal - pool.principalShare value epoch⟩ }

theorem redeemFungibleStakedHaneul_ok (hrates : RatesFrom pool)
    (h : pool.redeemFungibleStakedHaneul fungible epoch = .ok (pool', out)) :
    pool.fungibleStakedHaneulData ≠ none ∧ pool.fungibleSupply ≠ 0 ∧
      fungible.value ≤ pool.fungibleSupply ∧
      pool.principalShare fungible.value epoch ≤ pool.fungiblePrincipal ∧
      pool.rewardsShare fungible.value epoch ≤ pool.rewardsPool ∧
      pool' = pool.redeemed fungible.value epoch := by
  unfold redeemFungibleStakedHaneul at h
  rw [hrates.rateAtEpoch_eq] at h
  obtain ⟨_, _, rate, hrate, h⟩ := bind₂_eq_ok.mp h
  cases hrate
  cases hdata : pool.fungibleStakedHaneulData with
  | none =>
    rw [hdata] at h
    cases h
  | some data =>
    have hsupply : pool.fungibleSupply = data.totalSupply := by simp [fungibleSupply, hdata]
    have hprincipal : pool.fungiblePrincipal = data.principal := by
      simp [fungiblePrincipal, hdata]
    rw [hdata] at h
    obtain ⟨⟨principalAmount, rewardsAmount⟩, hamounts, h⟩ := bind_eq_ok.mp h
    obtain ⟨hne, hparts⟩ := calculate_ok hamounts
    cases hparts
    obtain ⟨rest, hrest, principal, hsplit, rewardsPool, hsplit', h⟩ := bind₃_eq_ok.mp h
    obtain ⟨hvalue, rfl⟩ := subU64_eq_ok.mp hrest
    obtain ⟨hprincipalLe, rfl⟩ := splitBalance_eq_ok.mp hsplit
    obtain ⟨hrewardsLe, rfl⟩ := splitBalance_eq_ok.mp hsplit'
    obtain ⟨haneulOut, hout, pendingHaneul, hpendingHaneul, pendingTokens, hpendingTokens, h⟩ :=
      bind₃_eq_ok.mp h
    obtain ⟨_, rfl⟩ := addU64_eq_ok.mp hout
    obtain ⟨_, rfl⟩ := addU64_eq_ok.mp hpendingHaneul
    obtain ⟨_, rfl⟩ := addU64_eq_ok.mp hpendingTokens
    cases h
    unfold redeemed principalShare rewardsShare fungibleWorth
    rw [hsupply, hprincipal]
    exact ⟨nofun, hne, hvalue, hprincipalLe, hrewardsLe, rfl⟩

theorem redeemFungibleStakedHaneul_errors (hrates : RatesFrom pool)
    (hvalue : fungible.value ≤ pool.fungibleSupply) :
    ErrorsIn (¬PoolAbort.IsInconsistent ·) (pool.redeemFungibleStakedHaneul fungible epoch) := by
  unfold redeemFungibleStakedHaneul
  rw [hrates.rateAtEpoch_eq]
  refine .bind (require_errors (by decide)) fun _ _ => .bind .ok fun rate _ => ?_
  cases hdata : pool.fungibleStakedHaneulData with
  | none => exact .error (by decide)
  | some data =>
    have hsupply : pool.fungibleSupply = data.totalSupply := by simp [fungibleSupply, hdata]
    have hamounts : ErrorsIn (¬PoolAbort.IsInconsistent ·)
        (rate.calculateFungibleStakedHaneulWithdrawAmount fungible.value data.principal
          data.totalSupply) := by
      refine .bind (overflow_consistent getHaneulAmount_errors) fun total _ => ?_
      dsimp only
      rw [subU64_of_le (min_le_right _ _)]
      exact .bind .ok fun _ _ => .bind mulDiv_errors fun _ _ => .bind mulDiv_errors fun _ _ =>
        .bind (overflow_consistent getHaneulAmount_errors) fun _ _ =>
        .bind addU64_consistent fun _ _ =>
        .bind (require_errors (by decide)) fun _ _ => .ok
    refine .bind hamounts fun ⟨principalAmount, rewardsAmount⟩ _ => ?_
    dsimp only
    rw [subU64_of_le (hsupply ▸ hvalue)]
    exact .bind .ok fun _ _ => .bind splitBalance_errors fun _ _ =>
      .bind splitBalance_errors fun _ _ => .bind addU64_consistent fun _ _ =>
      .bind addU64_consistent fun _ _ => .bind addU64_consistent fun _ _ => .ok

end StakingPool

end Haneul.Staking
