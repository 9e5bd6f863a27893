import Haneul.Staking.PoolOperations

/-!
# Rounding of fungible redemptions

`calculate_fungible_staked_haneul_withdraw_amount` divides four times: for the worth of the
whole supply, for the two parts of it that the value gets, and for the worth of the value that
its own assertion compares them with.  Where the rate covers the supply none of them overflows,
and the two parts fall short of the worth of the value by at most two units.

A position can be split before it is redeemed.  The pieces are then redeemed one after the
other, each against the supply and the principal that the one before left.  What is left of
each of the two pots is rounded up, but never beyond what the same shares would have got at once.
-/

namespace Haneul.Staking

open Haneul.Shares PoolTokenExchangeRate

namespace PoolTokenExchangeRate

variable {rate : PoolTokenExchangeRate} {value principal supply x z : Nat}

/-- What the value gets. -/
def paidOut (rate : PoolTokenExchangeRate) (value principal supply : Nat) : Nat :=
  rate.principalPart value principal supply + rate.rewardsPart value principal supply

@[simp] theorem paidOut_zero : rate.paidOut 0 principal supply = 0 := by
  simp [paidOut, principalPart, rewardsPart]

theorem paidOut_le_haneul (hsupply : supply ≠ 0) :
    rate.paidOut value principal supply ≤ rate.haneul value := by
  have hmin := min_le_right principal (rate.haneul supply)
  exact part_le_convert (by rw [Nat.add_sub_of_le hmin]; rfl) hsupply

theorem haneul_le_paidOut (hsupply : supply ≠ 0) (hvalue : value ≤ supply) :
    rate.haneul value ≤ rate.paidOut value principal supply + 2 := by
  have hmin := min_le_right principal (rate.haneul supply)
  exact convert_le_part_add_two (by rw [Nat.add_sub_of_le hmin]; rfl) hsupply hvalue

theorem principalPart_le (hvalue : value ≤ supply) :
    rate.principalPart value principal supply ≤ principal :=
  (Nat.div_le_of_le_mul (Nat.mul_le_mul_right _ hvalue)).trans (min_le_left _ _)

/-- The code computes the two parts, and its own assertion passes. -/
theorem calculate_eq_parts (hsupply : supply ≠ 0) (hvalue : value ≤ supply)
    (hworth : rate.haneul supply ≤ u64Max) :
    rate.calculateFungibleStakedHaneulWithdrawAmount value principal supply =
      .ok (rate.principalPart value principal supply, rate.rewardsPart value principal supply) := by
  have hpart : ∀ x, value * x / supply ≤ x := fun x =>
    Nat.div_le_of_le_mul (Nat.mul_le_mul_right x hvalue)
  have hmin := min_le_right principal (rate.haneul supply)
  have hexpected : rate.haneul value ≤ u64Max := (convert_mono hvalue).trans hworth
  have hparts : rate.principalPart value principal supply +
      rate.rewardsPart value principal supply ≤ rate.haneul value := paidOut_le_haneul hsupply
  have hprincipal : mulDiv value (min principal (rate.haneul supply)) supply =
      .ok (rate.principalPart value principal supply) :=
    mulDiv_eq_ok.mpr ⟨hsupply, (hpart _).trans (hmin.trans hworth), rfl⟩
  have hrewards : mulDiv value (rate.haneul supply - min principal (rate.haneul supply)) supply =
      .ok (rate.rewardsPart value principal supply) :=
    mulDiv_eq_ok.mpr ⟨hsupply, (hpart _).trans ((Nat.sub_le _ _).trans hworth), rfl⟩
  unfold calculateFungibleStakedHaneulWithdrawAmount
  rw [getHaneulAmount_of_le hworth, getHaneulAmount_of_le hexpected]
  simp only [bind, Except.bind, subU64_of_le hmin, hprincipal, hrewards,
    addU64_of_le (hparts.trans hexpected), require, hparts, decide_true, if_true, pure, Except.pure]

/-- Two values redeemed in the same state get at most what they get together. -/
theorem paidOut_add_le : rate.paidOut x principal supply + rate.paidOut z principal supply ≤
    rate.paidOut (x + z) principal supply := by
  have hadd : ∀ p, x * p / supply + z * p / supply ≤ (x + z) * p / supply := by
    intro p
    rw [Nat.add_mul]
    exact Nat.div_add_div_le_add_div
  have hprincipal := hadd (min principal (rate.haneul supply))
  have hrewards := hadd (rate.haneul supply - min principal (rate.haneul supply))
  unfold paidOut principalPart rewardsPart
  omega

theorem sum_paidOut_le (values : List Nat) :
    (values.map fun value => rate.paidOut value principal supply).sum ≤
      rate.paidOut values.sum principal supply := by
  induction values with
  | nil => simp
  | cons value values ih =>
    rw [List.map_cons, List.sum_cons, List.sum_cons]
    exact (Nat.add_le_add_left ih _).trans paidOut_add_le

theorem paidOut_step (hxz : x + z ≤ supply) :
    rate.paidOut x principal supply +
        rate.paidOut z (principal - rate.principalPart x principal supply) (supply - x) ≤
      rate.paidOut (x + z) principal supply := by
  rcases Nat.eq_zero_or_pos z with rfl | hz
  · simp
  unfold paidOut principalPart rewardsPart
  obtain ⟨q, hq⟩ : ∃ q, min principal (rate.haneul supply) = q := ⟨_, rfl⟩
  rw [hq]
  have hrest : rate.haneul (supply - x) ≤ (q - x * q / supply) +
      (rate.haneul supply - q - x * (rate.haneul supply - q) / supply) := by
    apply convert_sub_le_rest _ (by omega)
    rw [Nat.add_sub_of_le (by omega)]
    rfl
  have hpart : ∀ p, x * p / supply ≤ p := fun p =>
    Nat.div_le_of_le_mul (Nat.mul_le_mul_right p (by omega))
  have hpaid := hpart q
  have hpaid' := hpart (rate.haneul supply - q)
  -- neither pot holds more for the second value than it kept after the first
  have hkept : min (principal - x * q / supply) (rate.haneul (supply - x)) ≤ q - x * q / supply ∧
      rate.haneul (supply - x) - min (principal - x * q / supply) (rate.haneul (supply - x)) ≤
        rate.haneul supply - q - x * (rate.haneul supply - q) / supply := by
    generalize x * q / supply = first at *
    generalize x * (rate.haneul supply - q) / supply = first' at *
    omega
  have hprincipal := part_add_part_le hxz hkept.1
  have hrewards := part_add_part_le hxz hkept.2
  omega

end PoolTokenExchangeRate

namespace StakingPool

/-- A position redeemed in pieces, one after the other; what they get in total. -/
def redeemPieces (pool : StakingPool)
    (epoch : Nat) : List Nat → Except PoolAbort (StakingPool × Nat)
  | [] => .ok (pool, 0)
  | value :: values => do
    let (pool, haneulOut) ← pool.redeemFungibleStakedHaneul ⟨pool.id, value⟩ epoch
    let (pool, rest) ← pool.redeemPieces epoch values
    return (pool, haneulOut + rest)

variable {pool pool' : StakingPool} {epoch out : Nat} {rate : PoolTokenExchangeRate}
  {data : FungibleStakedHaneulData}

section

variable (hrate : pool.poolTokenExchangeRateAtEpoch epoch = .ok rate)
  (hdata : pool.fungibleStakedHaneulData = some data)
include hrate hdata

/-- A redemption pays the two parts and leaves the supply and the principal without them, at the
    same rate. -/
theorem redeemFungibleStakedHaneul_parts {fungible : FungibleStakedHaneul}
    (h : pool.redeemFungibleStakedHaneul fungible epoch = .ok (pool', out)) :
    fungible.value ≤ data.totalSupply ∧
      out = rate.paidOut fungible.value data.principal data.totalSupply ∧
      pool'.poolTokenExchangeRateAtEpoch epoch = .ok rate ∧
      pool'.fungibleStakedHaneulData = some ⟨data.totalSupply - fungible.value,
        data.principal - rate.principalPart fungible.value data.principal data.totalSupply⟩ := by
  unfold redeemFungibleStakedHaneul at h
  rw [hrate, hdata] at h
  obtain ⟨_, _, _, hrate', h₂⟩ := bind₂_eq_ok.mp h
  cases hrate'
  obtain ⟨amounts, hamounts, h₃⟩ := bind_eq_ok.mp h₂
  obtain ⟨_, rfl⟩ := calculate_ok hamounts
  obtain ⟨supply, hsupply, principal, hprincipal, rewardsPool, _, haneulOut, hout, h₇⟩ :=
    bind₄_eq_ok.mp h₃
  obtain ⟨hvalue, rfl⟩ := subU64_eq_ok.mp hsupply
  obtain ⟨_, rfl⟩ := splitBalance_eq_ok.mp hprincipal
  obtain ⟨_, rfl⟩ := addU64_eq_ok.mp hout
  obtain ⟨_, _, _, _, h₉⟩ := bind₂_eq_ok.mp h₇
  cases h₉
  exact ⟨hvalue, rfl, hrate, rfl⟩

theorem redeemPieces_le {values : List Nat}
    (h : pool.redeemPieces epoch values = .ok (pool', out)) :
    values.sum ≤ data.totalSupply ∧
      out ≤ rate.paidOut values.sum data.principal data.totalSupply := by
  -- the induction is on the pieces: those after the first are taken as one by the hypothesis
  induction values generalizing pool data out with
  | nil =>
    cases h
    simp
  | cons value values ih =>
    obtain ⟨⟨next, first⟩, hfirst, ⟨last, rest⟩, hrest, h₂⟩ := bind₂_eq_ok.mp h
    cases h₂
    obtain ⟨hvalue, rfl, hrate', hdata'⟩ := redeemFungibleStakedHaneul_parts hrate hdata hfirst
    obtain ⟨hsum, hle⟩ := ih hrate' hdata' hrest
    dsimp only at hvalue hsum hle ⊢
    have hfits : value + values.sum ≤ data.totalSupply := by omega
    have hstep := @paidOut_step rate data.principal _ _ _ hfits
    rw [List.sum_cons]
    exact ⟨hfits, (Nat.add_le_add_left hle _).trans hstep⟩

end

end StakingPool

open StakingPool in
/-- For a supply that the rate covers, the amounts of a redemption are returned and are the worth
    of the value up to two units; the principal part is there to be paid.  In pieces, all in the
    same state or one after the other, a position gets no more than at once. -/
theorem fungible_withdraw_rounding (rate : PoolTokenExchangeRate) (principal supply : Nat)
    (hrate : rate.haneulAmount ≤ u64Max) (hsupply : 0 < supply) (hfits : supply ≤ u64Max)
    (hcovered : supply ≤ rate.poolTokenAmount ∨ rate.haneulAmount = 0 ∨ rate.poolTokenAmount = 0) :
    (∀ value ≤ supply, ∃ principalAmount rewardsAmount,
      rate.calculateFungibleStakedHaneulWithdrawAmount value principal supply =
          .ok (principalAmount, rewardsAmount) ∧
        principalAmount ≤ principal ∧
        let worth := if rate.haneulAmount = 0 ∨ rate.poolTokenAmount = 0 then value
          else value * rate.haneulAmount / rate.poolTokenAmount
        principalAmount + rewardsAmount ≤ worth ∧ worth ≤ principalAmount + rewardsAmount + 2) ∧
    (∀ values : List Nat, values.sum ≤ supply → ∃ amounts principalAmount rewardsAmount,
      values.mapM (rate.calculateFungibleStakedHaneulWithdrawAmount · principal supply) =
          .ok amounts ∧
        rate.calculateFungibleStakedHaneulWithdrawAmount values.sum principal supply =
          .ok (principalAmount, rewardsAmount) ∧
        (amounts.map fun amount => amount.1 + amount.2).sum ≤ principalAmount + rewardsAmount) ∧
    ∀ (pool pool' : StakingPool) (epoch out : Nat) (values : List Nat),
      pool.poolTokenExchangeRateAtEpoch epoch = .ok rate →
      pool.fungibleStakedHaneulData = some ⟨supply, principal⟩ →
      pool.redeemPieces epoch values = .ok (pool', out) →
      ∃ principalAmount rewardsAmount,
        rate.calculateFungibleStakedHaneulWithdrawAmount values.sum principal supply =
            .ok (principalAmount, rewardsAmount) ∧
          out ≤ principalAmount + rewardsAmount := by
  have hne : supply ≠ 0 := hsupply.ne'
  have hworth : rate.haneul supply ≤ u64Max := by
    by_cases hone : rate.OneToOne
    · rw [hone.haneul_eq]
      exact hfits
    · have hzero := not_or.mp hone
      exact (convert_le hzero.1 (hcovered.resolve_right hone)).trans hrate
  refine ⟨?_, ?_, ?_⟩
  · intro value hvalue
    refine ⟨_, _, calculate_eq_parts hne hvalue hworth, principalPart_le hvalue, ?_⟩
    have hworth : (if rate.haneulAmount = 0 ∨ rate.poolTokenAmount = 0 then value
        else value * rate.haneulAmount / rate.poolTokenAmount) = rate.haneul value := by
      rw [haneul, convert, Nat.mul_comm]
      exact if_congr or_comm rfl rfl
    rw [hworth]
    exact ⟨paidOut_le_haneul hne, haneul_le_paidOut hne hvalue⟩
  · intro values hsum
    refine ⟨values.map fun value =>
      (rate.principalPart value principal supply, rate.rewardsPart value principal supply), _, _,
      ?_, calculate_eq_parts hne hsum hworth, ?_⟩
    · exact mapM_eq_map fun value hmem => calculate_eq_parts hne
        ((List.le_sum_of_mem hmem).trans hsum) hworth
    · rw [List.map_map]
      exact sum_paidOut_le values
  · intro pool pool' epoch out values hrate' hdata h
    obtain ⟨hsum, hle⟩ := redeemPieces_le hrate' hdata h
    exact ⟨_, _, calculate_eq_parts hne hsum hworth, hle⟩

/-- Two thirds of a supply that is worth seven, two of them principal. -/
theorem fungible_withdraw_rounding_sample : ∃ principalAmount rewardsAmount,
    PoolTokenExchangeRate.calculateFungibleStakedHaneulWithdrawAmount ⟨7, 3⟩ 2 2 3 =
        .ok (principalAmount, rewardsAmount) ∧
      principalAmount ≤ 2 ∧ principalAmount + rewardsAmount ≤ 4 ∧
      4 ≤ principalAmount + rewardsAmount + 2 := by
  obtain ⟨hparts, _⟩ := fungible_withdraw_rounding ⟨7, 3⟩ 2 3 (by decide) (by decide) (by decide)
    (.inl (by decide))
  exact hparts 2 (by decide)

end Haneul.Staking
