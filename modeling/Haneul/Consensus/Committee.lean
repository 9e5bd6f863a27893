import Haneul.Lib.Quorum

/-!
# The consensus committee and its thresholds

Mirror of `consensus/config/src/committee.rs` and of the stake aggregator of
`consensus/core/src/stake_aggregator.rs`.  A committee is built by `Committee.new`
(fault budget `f = (total - 1) / 3`) or by `Committee.newV3` (a hybrid budget of
malicious and crash stake, scaled to the real total).  Both constructors assert
the intersection properties of their thresholds; a committee that was built
therefore has them (`new_thresholds`, `newV3_thresholds`).  Epochs, stakes and
authority indices are natural numbers.

The source computes in `u64`.  A sum or product that does not fit is an error of
the constructor here, as it is under overflow checks there.
-/

namespace Haneul.Consensus

open Quorum

/-- One authority.  Its network address, host name and keys are not read by
    anything modelled here. -/
structure Authority where
  stake : Nat
deriving DecidableEq, Repr

structure Committee where
  epoch : Nat
  authorities : List Authority
  totalStake : Nat
  quorumThreshold : Nat
  certificationThreshold : Nat
  validityThreshold : Nat
deriving DecidableEq, Repr

inductive CommitteeError where
  | emptyCommittee
  | tooManyAuthorities (count : Nat)
  | zeroTotalStake
  | overflow
  | quorumMustIntersect (quorum faultTolerance total : Nat)
  | certificationMustIntersectQuorum (certification quorum total f : Nat)
  | certificateMustSurvive (quorum total f certification : Nat)
deriving DecidableEq, Repr

def fitsU64 (n : Nat) : Bool := n < 2 ^ 64

def sumStakes (authorities : List Authority) : Nat := (authorities.map Authority.stake).sum

namespace Committee

/-! ### Constructors -/

/-- `Committee::new`: tolerates `f` faults when the total stake is `3f + 1`. -/
def new (epoch : Nat) (authorities : List Authority) : Except CommitteeError Committee :=
  if authorities.isEmpty then .error .emptyCommittee
  else if ¬ authorities.length < 2 ^ 32 - 1 then .error (.tooManyAuthorities authorities.length)
  else
    let totalStake := sumStakes authorities
    if ¬ fitsU64 totalStake then .error .overflow
    else if totalStake = 0 then .error .zeroTotalStake
    else
      let faultTolerance := (totalStake - 1) / 3
      let quorumThreshold := totalStake - faultTolerance
      let validityThreshold := faultTolerance + 1
      if ¬ fitsU64 (2 * quorumThreshold) then .error .overflow
      else if ¬ 2 * quorumThreshold - faultTolerance > totalStake then
        .error (.quorumMustIntersect quorumThreshold faultTolerance totalStake)
      else
        .ok {
          epoch, authorities, totalStake, quorumThreshold, validityThreshold
          -- equivalent to the quorum threshold in v2, and unused there
          certificationThreshold := quorumThreshold }

/-- The scaling of a nominal budget to the real total stake, with the truncating
    division of the source.  `none` when the product overflows. -/
def scale (nominal actualTotalStake baseStake : Nat) : Option Nat :=
  if fitsU64 (nominal * (actualTotalStake - 1)) then
    some (nominal * (actualTotalStake - 1) / baseStake)
  else none

/-- The scaled budgets `(f, c)` of `Committee::new_v3`. -/
def scaledBudgets (maliciousStake crashStake actualTotalStake : Nat) : Option (Nat × Nat) :=
  let baseStake := 5 * maliciousStake + 3 * crashStake
  if ¬ fitsU64 baseStake then none
  else if baseStake > 0 then do
    let f ← scale maliciousStake actualTotalStake baseStake
    let c ← scale crashStake actualTotalStake baseStake
    return (f, c)
  else some (0, 0)

/-- `Committee::new_v3`: thresholds from a hybrid fault budget. -/
def newV3 (epoch : Nat) (authorities : List Authority) (maliciousStake crashStake : Nat) :
    Except CommitteeError Committee :=
  if authorities.isEmpty then .error .emptyCommittee
  else if ¬ authorities.length < 2 ^ 32 - 1 then .error (.tooManyAuthorities authorities.length)
  else
    let actualTotalStake := sumStakes authorities
    if ¬ fitsU64 actualTotalStake then .error .overflow
    else if actualTotalStake = 0 then .error .zeroTotalStake
    else
      match scaledBudgets maliciousStake crashStake actualTotalStake with
      | none => .error .overflow
      | some (f, c) =>
        let validityThreshold := f + 1
        let certificationThreshold := 2 * f + c + 1
        let quorumThreshold := actualTotalStake - f - c
        if ¬ (fitsU64 (certificationThreshold + quorumThreshold) ∧
            fitsU64 (actualTotalStake + f + 1)) then .error .overflow
        else if ¬ certificationThreshold + quorumThreshold ≥ actualTotalStake + f + 1 then
          .error (.certificationMustIntersectQuorum
            certificationThreshold quorumThreshold actualTotalStake f)
        else if ¬ (fitsU64 (quorumThreshold * 2) ∧
            fitsU64 (actualTotalStake + f + certificationThreshold)) then .error .overflow
        else if ¬ quorumThreshold * 2 ≥ actualTotalStake + f + certificationThreshold then
          .error (.certificateMustSurvive quorumThreshold actualTotalStake f certificationThreshold)
        else
          .ok {
            epoch, authorities, totalStake := actualTotalStake
            quorumThreshold, certificationThreshold, validityThreshold }

/-! ### Accessors -/

variable (committee : Committee)

/-- The stake of an authority.  The source panics on an index outside the
    committee; every index read here was checked by `isValidIndex`. -/
def stake (index : Nat) : Nat :=
  match committee.authorities[index]? with
  | some authority => authority.stake
  | none => 0

def size : Nat := committee.authorities.length

def reachedQuorum (stake : Nat) : Bool := stake ≥ committee.quorumThreshold

def isValidIndex (index : Nat) : Bool := index < committee.size

/-! ### What a constructed committee satisfies -/

theorem weight_range : weight committee.stake (Finset.range committee.size) =
    sumStakes committee.authorities := by
  simp only [weight, sumStakes, size]
  rw [← Fin.sum_univ_eq_sum_range, ← List.sum_ofFn]
  congr 1
  apply List.ext_getElem
  · simp
  · intro index hindex _
    simp [stake]

theorem weight_le_sumStakes (voters : Finset Nat) :
    weight committee.stake voters ≤ sumStakes committee.authorities := by
  have hsplit : weight committee.stake voters =
      weight committee.stake (voters.filter (· < committee.size)) := by
    -- an index outside the committee weighs nothing
    simp only [weight, Finset.sum_filter]
    refine Finset.sum_congr rfl fun index _ => ?_
    by_cases hindex : index < committee.size
    · rw [if_pos hindex]
    · rw [if_neg hindex]
      simp only [size, not_lt] at hindex
      simp [stake, hindex]
  rw [hsplit, ← weight_range]
  refine weight_mono fun index hindex => ?_
  simpa using (Finset.mem_filter.mp hindex).2

variable {authorities : List Authority}

theorem new_thresholds {epoch : Nat} {committee : Committee}
    (h : new epoch authorities = .ok committee) :
    committee.authorities = authorities ∧
    committee.totalStake = sumStakes authorities ∧
    committee.totalStake = committee.quorumThreshold + (committee.validityThreshold - 1) ∧
    committee.totalStake + (committee.validityThreshold - 1) + 1 ≤
      2 * committee.quorumThreshold := by
  simp only [new] at h
  split_ifs at h with hempty hmany hfits hzero hdouble hintersect
  cases h
  refine ⟨rfl, rfl, ?_, ?_⟩ <;> dsimp only <;> omega

theorem newV3_thresholds {epoch : Nat} {maliciousStake crashStake : Nat} {committee : Committee}
    (h : newV3 epoch authorities maliciousStake crashStake = .ok committee) :
    committee.authorities = authorities ∧
    committee.totalStake = sumStakes authorities ∧
    0 < committee.certificationThreshold ∧
    committee.totalStake + (committee.validityThreshold - 1) + 1 ≤
      committee.certificationThreshold + committee.quorumThreshold ∧
    committee.totalStake + (committee.validityThreshold - 1) + committee.certificationThreshold ≤
      2 * committee.quorumThreshold := by
  simp only [newV3] at h
  split_ifs at h with hempty hmany hfits hzero
  rcases hbudgets : scaledBudgets maliciousStake crashStake (sumStakes authorities) with
    _ | ⟨f, c⟩
  · rw [hbudgets] at h
    simp at h
  · rw [hbudgets] at h
    simp only at h
    split_ifs at h with hsum hcert hdouble hsurvive
    cases h
    simp only [ge_iff_le] at hcert hsurvive
    refine ⟨rfl, rfl, ?_, ?_, ?_⟩ <;> dsimp only <;> omega

section

variable {epoch maliciousStake crashStake : Nat} {authorities : List Authority}

/-- Budgets that scale without overflow keep the nominal shape `5f + 3c + 1` of
    the total: the truncating divisions only lose stake. -/
theorem scaledBudgets_eq_some {total : Nat} (hbase : fitsU64 (5 * maliciousStake + 3 * crashStake))
    (hmalicious : fitsU64 (maliciousStake * (total - 1)))
    (hcrash : fitsU64 (crashStake * (total - 1))) :
    ∃ f c, scaledBudgets maliciousStake crashStake total = some (f, c) ∧
      5 * f + 3 * c ≤ total - 1 := by
  by_cases hzero : 5 * maliciousStake + 3 * crashStake > 0
  · refine ⟨maliciousStake * (total - 1) / (5 * maliciousStake + 3 * crashStake),
      crashStake * (total - 1) / (5 * maliciousStake + 3 * crashStake), ?_, ?_⟩
    · simp [scaledBudgets, scale, hbase, hmalicious, hcrash, hzero]
    · refine Nat.le_of_mul_le_mul_left ?_ hzero
      have hf := Nat.mul_div_le (maliciousStake * (total - 1)) (5 * maliciousStake + 3 * crashStake)
      have hc := Nat.mul_div_le (crashStake * (total - 1)) (5 * maliciousStake + 3 * crashStake)
      linarith
  · refine ⟨0, 0, ?_, by omega⟩
    simp [scaledBudgets, hbase, hzero]

/-- What `newV3` does with scaled budgets: neither assertion can fail, and the one
    thing that can is the doubled quorum of the second one. -/
theorem newV3_eq {f c : Nat} (hne : authorities ≠ []) (hlen : authorities.length < 2 ^ 32 - 1)
    (hfits : fitsU64 (sumStakes authorities)) (hpos : 1 ≤ sumStakes authorities)
    (hbudgets : scaledBudgets maliciousStake crashStake (sumStakes authorities) = some (f, c))
    (hle : 5 * f + 3 * c ≤ sumStakes authorities - 1) :
    newV3 epoch authorities maliciousStake crashStake =
      if fitsU64 ((sumStakes authorities - f - c) * 2) then
        .ok {
          epoch, authorities, totalStake := sumStakes authorities
          quorumThreshold := sumStakes authorities - f - c
          certificationThreshold := 2 * f + c + 1, validityThreshold := f + 1 }
      else .error .overflow := by
  have hempty : authorities.isEmpty = false := by simpa using hne
  have hzero : sumStakes authorities ≠ 0 := by omega
  simp only [newV3, hempty, hlen, hfits, hzero, hbudgets, not_true, Bool.false_eq_true, if_false]
  simp only [fitsU64, decide_eq_true_eq]
  split_ifs <;> first | rfl | omega

/-- Thresholds scaled from any fault budget that does not overflow.  The
    constructor returns exactly when twice the quorum fits in a `u64`, which its
    last assertion computes.  A quorum then meets a certificate, and meets another
    quorum in a certificate, outside any stake of `f`; and what is left after the
    loss of a stake of `f + c` is a quorum. -/
theorem newV3_quorums_intersect (hne : authorities ≠ []) (hlen : authorities.length < 2 ^ 32 - 1)
    (hfits : fitsU64 (sumStakes authorities)) (hpos : 1 ≤ sumStakes authorities)
    (hbase : fitsU64 (5 * maliciousStake + 3 * crashStake))
    (hmalicious : fitsU64 (maliciousStake * (sumStakes authorities - 1)))
    (hcrash : fitsU64 (crashStake * (sumStakes authorities - 1))) :
    ∃ f c, scaledBudgets maliciousStake crashStake (sumStakes authorities) = some (f, c) ∧
      ((∃ committee, newV3 epoch authorities maliciousStake crashStake = .ok committee) ↔
        fitsU64 ((sumStakes authorities - f - c) * 2)) ∧
      ∀ committee, newV3 epoch authorities maliciousStake crashStake = .ok committee →
        f = committee.validityThreshold - 1 ∧
        c = committee.certificationThreshold - 2 * f - 1 ∧
        ∀ Q₁ Q₂ C B : Finset Nat,
          committee.quorumThreshold ≤ weight committee.stake Q₁ →
          committee.quorumThreshold ≤ weight committee.stake Q₂ →
          committee.certificationThreshold ≤ weight committee.stake C →
          (weight committee.stake B ≤ f →
            ((Q₁ ∩ C) \ B).Nonempty ∧
            committee.certificationThreshold ≤ weight committee.stake ((Q₁ ∩ Q₂) \ B)) ∧
          (weight committee.stake B ≤ f + c →
            committee.quorumThreshold ≤
              weight committee.stake (Finset.range committee.size \ B)) := by
  obtain ⟨f, c, hbudgets, hle⟩ := scaledBudgets_eq_some hbase hmalicious hcrash
  have heq := @newV3_eq epoch _ _ _ f c hne hlen hfits hpos hbudgets hle
  refine ⟨f, c, hbudgets, ?_, fun committee h => ?_⟩
  · rw [heq]
    split_ifs with hdouble <;> simp [hdouble]
  rw [heq] at h
  split_ifs at h with hdouble
  simp only [Except.ok.injEq] at h
  obtain ⟨hauthorities, hquorum, hcert, hvalidity⟩ :
      committee.authorities = authorities ∧
      committee.quorumThreshold = sumStakes authorities - f - c ∧
      committee.certificationThreshold = 2 * f + c + 1 ∧
      committee.validityThreshold = f + 1 := by
    subst h
    exact ⟨rfl, rfl, rfl, rfl⟩
  have hbounded : Bounded committee.stake (sumStakes authorities) := fun voters => by
    simpa [hauthorities] using weight_le_sumStakes committee voters
  refine ⟨by omega, by omega, fun Q₁ Q₂ C B hQ₁ hQ₂ hC => ⟨fun hB => ⟨?_, ?_⟩, fun hB => ?_⟩⟩
  · have hcommon := weight_common hbounded Q₁ C B
    have hcommonPos : 0 < weight committee.stake ((Q₁ ∩ C) \ B) := by omega
    exact nonempty_of_weight_pos hcommonPos
  · have hcommon := weight_common hbounded Q₁ Q₂ B
    omega
  · have hall := weight_range committee
    have hrest := weight_le_sdiff_add (w := committee.stake) (Finset.range committee.size) B
    rw [hauthorities] at hall
    omega

/-- Four equal authorities without a fault budget for malicious stake. -/
theorem newV3_quorums_intersect_four :
    ∃ f c, scaledBudgets 0 1 (sumStakes (List.replicate 4 ⟨1⟩)) = some (f, c) ∧
      ∃ committee, newV3 0 (List.replicate 4 ⟨1⟩) 0 1 = .ok committee := by
  obtain ⟨f, c, hbudgets, hok, -⟩ := @newV3_quorums_intersect 0 0 1 (List.replicate 4 ⟨1⟩)
    (by decide) (by decide) (by decide) (by decide) (by decide) (by decide) (by decide)
  refine ⟨f, c, hbudgets, hok.mpr ?_⟩
  have hsum : sumStakes (List.replicate 4 ⟨1⟩) = 4 := by decide
  rw [hsum]
  simp only [fitsU64, decide_eq_true_eq]
  omega

/-- A stake of `2^63` without fault budgets: no product overflows, but the doubled
    quorum does. -/
theorem newV3_doubled_quorum_overflows :
    fitsU64 (5 * 0 + 3 * 0) ∧ fitsU64 (0 * (sumStakes [⟨2 ^ 63⟩] - 1)) ∧
      newV3 0 [⟨2 ^ 63⟩] 0 0 = .error .overflow := by
  decide

end

end Committee

/-! ### Stake aggregation -/

inductive CommitteeThreshold where
  | quorum
  | certification
deriving DecidableEq, Repr

namespace CommitteeThreshold

def threshold (committee : Committee) : CommitteeThreshold → Nat
  | .quorum => committee.quorumThreshold
  | .certification => committee.certificationThreshold

def isThreshold (committee : Committee) (kind : CommitteeThreshold) (amount : Nat) : Bool :=
  amount ≥ kind.threshold committee

end CommitteeThreshold

/-- Votes of distinct authorities and their total stake. -/
structure StakeAggregator where
  votes : Finset Nat := ∅
  stake : Nat := 0
deriving DecidableEq

namespace StakeAggregator

/-- Adds the vote of an authority, once; tells whether it was counted. -/
def addUnique (aggregator : StakeAggregator) (vote : Nat) (committee : Committee) :
    StakeAggregator × Bool :=
  if vote ∈ aggregator.votes then (aggregator, false)
  else
    ({ votes := insert vote aggregator.votes, stake := aggregator.stake + committee.stake vote },
      true)

/-- Adds the vote of an authority, once; tells whether the threshold is reached. -/
def add (aggregator : StakeAggregator) (vote : Nat) (committee : Committee)
    (kind : CommitteeThreshold) : StakeAggregator × Bool :=
  let aggregator := (aggregator.addUnique vote committee).1
  (aggregator, kind.isThreshold committee aggregator.stake)

def reachedThreshold (aggregator : StakeAggregator) (committee : Committee)
    (kind : CommitteeThreshold) : Bool :=
  kind.isThreshold committee aggregator.stake

/-- The stake field is the stake of the recorded votes. -/
def Consistent (committee : Committee) (aggregator : StakeAggregator) : Prop :=
  aggregator.stake = weight committee.stake aggregator.votes

variable {committee : Committee} {aggregator : StakeAggregator}

theorem consistent_empty : Consistent committee {} := by simp [Consistent]

@[simp] theorem votes_addUnique (vote : Nat) :
    (aggregator.addUnique vote committee).1.votes = insert vote aggregator.votes := by
  unfold addUnique
  split
  · rename_i hmem
    exact (Finset.insert_eq_of_mem hmem).symm
  · rfl

theorem Consistent.addUnique (h : Consistent committee aggregator) (vote : Nat) :
    Consistent committee (aggregator.addUnique vote committee).1 := by
  unfold StakeAggregator.addUnique
  split
  · exact h
  · rename_i hmem
    simp only [Consistent] at h ⊢
    rw [weight_insert hmem, h]
    omega

theorem stake_addUnique (vote : Nat) :
    (aggregator.addUnique vote committee).1.stake =
      aggregator.stake + if vote ∈ aggregator.votes then 0 else committee.stake vote := by
  unfold addUnique
  split_ifs <;> rfl

theorem addUnique_comm (aggregator : StakeAggregator) (committee : Committee) (a b : Nat) :
    ((aggregator.addUnique a committee).1.addUnique b committee).1 =
      ((aggregator.addUnique b committee).1.addUnique a committee).1 := by
  have hvotes : ((aggregator.addUnique a committee).1.addUnique b committee).1.votes =
      ((aggregator.addUnique b committee).1.addUnique a committee).1.votes := by
    simp only [votes_addUnique]
    exact Finset.insert_comm b a aggregator.votes
  have hstake : ((aggregator.addUnique a committee).1.addUnique b committee).1.stake =
      ((aggregator.addUnique b committee).1.addUnique a committee).1.stake := by
    simp only [stake_addUnique, votes_addUnique, Finset.mem_insert]
    by_cases hab : a = b
    · subst hab
      rfl
    · simp only [hab, Ne.symm hab, false_or]
      omega
  cases h : ((aggregator.addUnique a committee).1.addUnique b committee).1
  cases h' : ((aggregator.addUnique b committee).1.addUnique a committee).1
  rw [h, h'] at hvotes hstake
  simp only at hvotes hstake
  rw [hvotes, hstake]

end StakeAggregator

end Haneul.Consensus
