import Haneul.Lib.Tally
import Haneul.Staking.RewardDistribution

/-!
# Slashing by reports

From the reports of an epoch to the amounts that its validators get.
-/

namespace Haneul.Staking

open VotingPower ValidatorSet List

variable {validators : List Validator} {records : List (Nat × List Nat)} {slashed : List Nat}
  {rate amount i : Nat} {w : Nat → Nat} {v : Validator}

namespace ValidatorSet

/-- The voting power of those who reported a validator. -/
def reportedPower (validators : List Validator) (reporters : List Nat) : Nat :=
  ((reporters.map (idx validators)).map (powerAt validators)).sum

theorem sumVotingPower_reporters (hsum : (validators.map (·.votingPower)).sum = totalVotingPower)
    (h : Slashed validators slashed) :
    sumVotingPowerByAddresses validators slashed = .ok (reportedPower validators slashed) := by
  have hle : reportedPower validators slashed ≤ totalVotingPower := by
    rw [reportedPower, h.sum_eq, ← hsum, ← sum_powerAt]
    exact Finset.sum_le_sum_of_subset h.subset
  have hloop := @sumVotingPower_loop validators slashed 0 h.active (by
    rw [Nat.zero_add]
    exact hle.trans (by decide))
  rwa [Nat.zero_add] at hloop

theorem computeSlashedValidators_spec
    (hsum : (validators.map (·.votingPower)).sum = totalVotingPower)
    (hreports : ∀ record ∈ records, (∃ v ∈ validators, v.haneulAddress = record.1) ∧
      Slashed validators record.2) :
    ∃ slashed, computeSlashedValidators validators records = .ok slashed ∧
      ∀ a, a ∈ slashed ↔ ∃ record ∈ records.reverse, record.1 = a ∧
        quorumThreshold ≤ reportedPower validators record.2 := by
  refine foldlM_prefix (fun (before : List (Nat × List Nat)) (s : List Nat) =>
    ∀ a, a ∈ s ↔ ∃ record ∈ before, record.1 = a ∧ quorumThreshold ≤
      reportedPower validators record.2) (by simp)
    fun before record after s hrecords hs => ?_
  obtain ⟨hactive, hreporters⟩ := hreports record (mem_reverse.mp (by simp [hrecords]))
  have hfound : (findValidator validators record.1).isSome := by
    simpa [findValidator, List.findIdx?_isSome] using hactive
  refine ⟨_, bind₂_eq_ok.mpr ⟨(), requireSet_eq_ok.mpr hfound, _,
    sumVotingPower_reporters hsum hreporters, rfl⟩, fun a => ?_⟩
  simp only [mem_append, mem_singleton, or_and_right, exists_or, exists_eq_left, ← hs]
  split <;> simp [*, eq_comm]

/-- A validator that is not slashed gets its part and what it is given of the others'. -/
theorem Slashed.unadjusted_le (h : Slashed validators slashed) (hv : validators[i]? = some v)
    (hnot : v.haneulAddress ∉ slashed) :
    ∃ reward, (adjustedList w validators slashed rate amount)[i]? = some reward ∧
      unadjustedAmount w validators.length amount i ≤ reward := by
  have hi := (List.getElem?_eq_some_iff.mp hv).1
  have hunslashed : i ∉ slashedIndices validators slashed := by
    intro hmem
    obtain ⟨a, ha, rfl⟩ := mem_map.mp (mem_toFinset.mp hmem)
    obtain ⟨u, hu, rfl⟩ := idx_spec (h.active a ha)
    rw [hv] at hu
    exact hnot (Option.some.inj hu ▸ ha)
  refine ⟨_, by rw [adjustedList, getElem?_map, getElem?_range hi]; rfl, ?_⟩
  rw [adjustedAmount, if_neg hunslashed]
  exact Nat.le_add_right _ _

end ValidatorSet

/-- **Only a quorum takes rewards away.**  With reports by and of active validators the
    amounts of an epoch are computed.  Slashed are those whose reporters have a quorum of the
    voting power, and every other validator gets at least its part of both rewards. -/
theorem slashing_needs_quorum {computationReward storageFundReward : Nat} (hne : validators ≠ [])
    (hpos : ∀ v ∈ validators, 0 < v.votingPower)
    (hsum : (validators.map (·.votingPower)).sum = 10000) (hreward : computationReward ≤ u64Max)
    (hstorage : storageFundReward ≤ u64Max) (hrate : rate ≤ 10000)
    (hkeys : (records.map (·.1)).Nodup)
    (hreports : ∀ record ∈ records, (∃ v ∈ validators, v.haneulAddress = record.1) ∧
      record.2.Nodup ∧ ∀ a ∈ record.2, ∃ v ∈ validators, v.haneulAddress = a) :
    ∃ slashed staking storageFund, computeSlashedValidators validators records = .ok slashed ∧
      computeRewards validators slashed rate computationReward storageFundReward =
        .ok (staking, storageFund) ∧
      (∀ a, a ∈ slashed ↔ ∃ record ∈ records, record.1 = a ∧
        6667 ≤ reportedPower validators record.2) ∧
      ∀ (i : Nat) v, validators[i]? = some v → v.haneulAddress ∉ slashed →
        (∃ reward, staking[i]? = some reward ∧
          computationReward * v.votingPower / 10000 ≤ reward) ∧
        ∃ reward, storageFund[i]? = some reward ∧
          storageFundReward / validators.length ≤ reward := by
  obtain ⟨slashed, hcompute, hmem⟩ := computeSlashedValidators_spec hsum fun record hrecord =>
    ⟨(hreports record hrecord).1, (hreports record hrecord).2.1, (hreports record hrecord).2.2⟩
  have hslashed := computeSlashedValidators_slashed hkeys hcompute
  simp only [mem_reverse] at hmem
  refine ⟨slashed, _, _, hcompute, computeRewards_eq hslashed hpos hrate hreward hstorage hne hsum,
    hmem, fun i v hv hnot => ?_⟩
  obtain ⟨staking, hstaking, hle⟩ := hslashed.unadjusted_le (w := powerAt validators) hv hnot
  obtain ⟨storageFund, hfund, hle'⟩ := hslashed.unadjusted_le (w := evenly) hv hnot
  rw [unadjustedAmount, sum_powerAt, hsum, powerAt_eq hv] at hle
  rw [unadjustedAmount, sum_evenly, Finset.card_range, evenly, Nat.mul_one] at hle'
  exact ⟨⟨staking, hstaking, hle⟩, storageFund, hfund, hle'⟩

/-- Two of three validators report the third. -/
theorem slashing_needs_quorum_three : ∃ slashed, computeSlashedValidators
    [⟨1, 3400, 0, 0, .new 1⟩, ⟨2, 3300, 0, 0, .new 2⟩, ⟨3, 3300, 0, 0, .new 3⟩] [(3, [1, 2])] =
      .ok slashed ∧ 3 ∈ slashed ∧ 1 ∉ slashed := by
  obtain ⟨slashed, _, _, hcompute, _, hmem, _⟩ := @slashing_needs_quorum
    [⟨1, 3400, 0, 0, .new 1⟩, ⟨2, 3300, 0, 0, .new 2⟩, ⟨3, 3300, 0, 0, .new 3⟩] [(3, [1, 2])]
    1000 1001 101 (by simp) (by simp) (by decide) (by decide) (by decide) (by decide) (by decide)
    (by simp)
  exact ⟨slashed, hcompute, (hmem 3).mpr ⟨_, .head _, rfl, by decide⟩, by simp [hmem]⟩

end Haneul.Staking
