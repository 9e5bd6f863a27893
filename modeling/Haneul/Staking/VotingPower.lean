import Haneul.Lib.Waterfill
import Haneul.Staking.PoolOperations

/-!
# Voting power

Mirror of `haneul_system/voting_power.move`.  The voting power of a validator is its part of
the stake in basis points, rounded down and capped; what the rounding and the cap leave of the
ten thousand is spread over the validators in one pass, in the order of their stakes.
-/

namespace Haneul.Staking

open Haneul.Shares Haneul.Waterfill List

/-- The fields of a validator that the set of validators reads and writes. -/
structure Validator where
  haneulAddress : Nat
  votingPower : Nat
  commissionRate : Nat
  nextEpochStake : Nat
  stakingPool : StakingPool

/-- The aborts in the set of validators: those of the virtual machine, of balances and of the
    staking pools, those of vectors and maps, and the assertions of the two modules. -/
inductive ValidatorSetAbort where
  | pool (abort : PoolAbort)
  | indexOutOfBounds
  | keyAlreadyExists
  | totalPowerMismatch
  | relativePowerMismatch
  | votingPowerOverThreshold
  | invalidVotingPower
  | validatorSetEmpty
  | nonValidatorInReportRecords
  | notAValidator
deriving DecidableEq, Repr

/-- An operation on numbers, balances or a pool, inside the set of validators. -/
def inPool {α : Type*} (x : Except PoolAbort α) : Except ValidatorSetAbort α := x.mapError .pool

@[simp] theorem inPool_ok {α : Type*} {a : α} : inPool (.ok a) = .ok a := rfl

@[simp] theorem inPool_eq_ok {α : Type*} {x : Except PoolAbort α} {a : α} :
    inPool x = .ok a ↔ x = .ok a := by
  cases x <;> simp [inPool, Except.mapError]

def requireSet (condition : Bool) (code : ValidatorSetAbort) : Except ValidatorSetAbort Unit :=
  if condition then .ok () else .error code

@[simp] theorem requireSet_eq_ok {condition : Bool} {code : ValidatorSetAbort} {u : Unit} :
    requireSet condition code = .ok u ↔ condition = true := by
  cases condition <;> simp [requireSet]

namespace Validator

def totalStake (self : Validator) : Nat := self.stakingPool.haneulBalance

def setVotingPower (self : Validator) (newVotingPower : Nat) : Validator :=
  { self with votingPower := newVotingPower }

@[simp] theorem setVotingPower_votingPower {v : Validator} {power : Nat} :
    (v.setVotingPower power).votingPower = power := rfl

@[simp] theorem setVotingPower_totalStake {v : Validator} {power : Nat} :
    (v.setVotingPower power).totalStake = v.totalStake := rfl

end Validator

/-! ### The code -/

namespace VotingPower

def totalVotingPower : Nat := 10000

def quorumThreshold : Nat := 6667

def maxVotingPower : Nat := 1000

structure VotingPowerInfoV2 where
  validatorIndex : Nat
  votingPower : Nat
  stake : Nat
deriving DecidableEq, Repr

def divCeilU64 (x y : Nat) : Except PoolAbort Nat :=
  if y = 0 then .error .divisionByZero else .ok (divCeil x y)

def deriveRawVotingPower (stake totalStake : Nat) : Except PoolAbort Nat :=
  mulDiv stake totalVotingPower totalStake

variable (infoList : List VotingPowerInfoV2)

/-- Keeps the list in descending order of stake; behind the end where no stake is as small. -/
def insert (newInfo : VotingPowerInfoV2) :
    List VotingPowerInfoV2 :=
  infoList.insertIdx (infoList.findIdx fun info => decide (info.stake ≤ newInfo.stake)) newInfo

def initStep (threshold totalStake : Nat) (acc : List VotingPowerInfoV2 × Nat)
    (entry : Validator × Nat) : Except ValidatorSetAbort (List VotingPowerInfoV2 × Nat) := do
  let stake := entry.1.totalStake
  let raw ← inPool (deriveRawVotingPower stake totalStake)
  let votingPower := min raw threshold
  let totalPower ← inPool (addU64 acc.2 votingPower)
  return (insert acc.1 ⟨entry.2, votingPower, stake⟩, totalPower)

variable (validators : List Validator)

def initVotingPowerInfo (threshold totalStake : Nat) :
    Except ValidatorSetAbort (List VotingPowerInfoV2 × Nat) := do
  let (result, totalPower) ← validators.zipIdx.foldlM (initStep threshold totalStake) ([], 0)
  let remainingPower ← inPool (subU64 totalVotingPower totalPower)
  return (result, remainingPower)

/-- The loop of `adjust_voting_power` over the rest of the list, and the power it leaves. -/
def adjustLoop (threshold : Nat) : List VotingPowerInfoV2 → Nat →
    Except ValidatorSetAbort (List VotingPowerInfoV2 × Nat)
  | [], remainingPower => .ok ([], remainingPower)
  | v :: rest, remainingPower =>
    if remainingPower = 0 then .ok (v :: rest, remainingPower)
    else do
      let planned ← inPool (divCeilU64 remainingPower (rest.length + 1))
      let wanted ← inPool (addU64 v.votingPower planned)
      let target := min threshold wanted
      let missing ← inPool (subU64 target v.votingPower)
      let actual := min remainingPower missing
      let votingPower ← inPool (addU64 v.votingPower actual)
      requireSet (decide (votingPower ≤ threshold)) .votingPowerOverThreshold
      let remainingPower ← inPool (subU64 remainingPower actual)
      let (rest, remainingPower) ← adjustLoop threshold rest remainingPower
      return ({ v with votingPower } :: rest, remainingPower)

def adjustVotingPower (threshold remainingPower : Nat) :
    Except ValidatorSetAbort (List VotingPowerInfoV2) := do
  let (infoList, remainingPower) ← adjustLoop threshold infoList remainingPower
  requireSet (remainingPower == 0) .totalPowerMismatch
  return infoList

def updateAt (info : VotingPowerInfoV2) :
    Except ValidatorSetAbort (List Validator) :=
  match validators[info.validatorIndex]? with
  | none => .error .indexOutOfBounds
  | some v => .ok (validators.set info.validatorIndex (v.setVotingPower info.votingPower))

/-- `destroy!` takes the list apart from its end. -/
def updateVotingPower (infoList : List VotingPowerInfoV2) :
    Except ValidatorSetAbort (List Validator) :=
  infoList.reverse.foldlM updateAt validators

def addPower (total : Nat) (v : Validator) : Except ValidatorSetAbort Nat := do
  requireSet (decide (0 < v.votingPower)) .invalidVotingPower
  inPool (addU64 total v.votingPower)

/-- The two assertions about a pair of validators. -/
def checkPair (a b : Validator) : Except ValidatorSetAbort Unit := do
  requireSet (!decide (b.totalStake < a.totalStake) || decide (b.votingPower ≤ a.votingPower))
    .relativePowerMismatch
  requireSet (!decide (a.totalStake < b.totalStake) || decide (a.votingPower ≤ b.votingPower))
    .relativePowerMismatch

def checkPairs : List Validator → Except ValidatorSetAbort Unit
  | [] => .ok ()
  | a :: rest => do
    rest.forM (checkPair a)
    checkPairs rest

def checkInvariants : Except ValidatorSetAbort Unit := do
  let total ← validators.foldlM addPower 0
  requireSet (total == totalVotingPower) .totalPowerMismatch
  checkPairs validators

/-- The cap of one validator; large enough for the validators to reach the total together. -/
def thresholdOf (averageVotingPower : Nat) : Nat :=
  min totalVotingPower (max maxVotingPower averageVotingPower)

def setVotingPower (totalStake : Nat) :
    Except ValidatorSetAbort (List Validator) := do
  let averageVotingPower ← inPool (divCeilU64 totalVotingPower validators.length)
  let threshold := thresholdOf averageVotingPower
  let (infoList, remainingPower) ← initVotingPowerInfo validators threshold totalStake
  let infoList ← adjustVotingPower infoList threshold remainingPower
  let validators ← updateVotingPower validators infoList
  checkInvariants validators
  return validators

/-! ### The list in the order of the stakes -/

def infoOf (threshold totalStake : Nat) (entry : Validator × Nat) : VotingPowerInfoV2 :=
  ⟨entry.2, min (entry.1.totalStake * totalVotingPower / totalStake) threshold, entry.1.totalStake⟩

def ByStake : Prop := infoList.Pairwise fun a b => b.stake ≤ a.stake

section Insert

variable {infoList : List VotingPowerInfoV2} {info newInfo : VotingPowerInfoV2}

theorem insert_cons : insert (info :: infoList) newInfo =
    if info.stake ≤ newInfo.stake then newInfo :: info :: infoList
    else info :: insert infoList newInfo := by
  unfold insert
  rw [findIdx_cons]
  split
  · next hle => simp [hle]
  · next hlt => simp [hlt]

theorem insert_perm : (insert infoList newInfo).Perm (newInfo :: infoList) :=
  perm_insertIdx newInfo infoList findIdx_le_length

theorem insert_byStake (h : ByStake infoList) : ByStake (insert infoList newInfo) := by
  induction infoList with
  | nil => exact pairwise_singleton _ _
  | cons info infoList ih =>
    obtain ⟨hfirst, hrest⟩ := pairwise_cons.mp h
    rw [insert_cons]
    split
    · next hle =>
        refine .cons ?_ h
        intro other hother
        rcases mem_cons.mp hother with rfl | hmem
        · exact hle
        · exact (hfirst other hmem).trans hle
    · next hlt =>
        refine .cons ?_ (ih hrest)
        intro other hother
        rcases mem_cons.mp (insert_perm.mem_iff.mp hother) with rfl | hmem
        · omega
        · exact hfirst other hmem

end Insert

section Init

variable {threshold totalStake : Nat}

def cappedPower (threshold totalStake : Nat) (entries : List (Validator × Nat)) : Nat :=
  (entries.map fun entry => (infoOf threshold totalStake entry).votingPower).sum

theorem initStep_eq {acc : List VotingPowerInfoV2 × Nat} {entry : Validator × Nat}
    (htotal : totalStake ≠ 0) (hstake : entry.1.totalStake ≤ totalStake)
    (hfits : acc.2 + (infoOf threshold totalStake entry).votingPower ≤ totalVotingPower) :
    initStep threshold totalStake acc entry = .ok (insert acc.1 (infoOf threshold totalStake entry),
      acc.2 + (infoOf threshold totalStake entry).votingPower) := by
  have hraw : entry.1.totalStake * totalVotingPower / totalStake ≤ totalVotingPower :=
    Nat.div_le_of_le_mul (Nat.mul_le_mul_right _ hstake)
  have hmul : deriveRawVotingPower entry.1.totalStake totalStake =
      .ok (entry.1.totalStake * totalVotingPower / totalStake) :=
    mulDiv_eq_ok.mpr ⟨htotal, hraw.trans (by decide), rfl⟩
  have hadd : addU64 acc.2 (infoOf threshold totalStake entry).votingPower =
      .ok (acc.2 + (infoOf threshold totalStake entry).votingPower) :=
    addU64_of_le (hfits.trans (by decide))
  exact bind₂_eq_ok.mpr ⟨_, inPool_eq_ok.mpr hmul, _, inPool_eq_ok.mpr hadd, rfl⟩

theorem initLoop_eq {entries : List (Validator × Nat)} (htotal : totalStake ≠ 0)
    (hstakes : ∀ entry ∈ entries, entry.1.totalStake ≤ totalStake)
    {acc : List VotingPowerInfoV2 × Nat} (hacc : ByStake acc.1)
    (hfits : acc.2 + cappedPower threshold totalStake entries ≤ totalVotingPower) :
    ∃ infoList, entries.foldlM (initStep threshold totalStake) acc =
        .ok (infoList, acc.2 + cappedPower threshold totalStake entries) ∧
      infoList.Perm (acc.1 ++ entries.map (infoOf threshold totalStake)) ∧ ByStake infoList := by
  induction entries generalizing acc with
  | nil => exact ⟨acc.1, rfl, by simp, hacc⟩
  | cons entry entries ih =>
    have hcons : cappedPower threshold totalStake (entry :: entries) =
        (infoOf threshold totalStake entry).votingPower +
          cappedPower threshold totalStake entries := by
      simp [cappedPower]
    have hstep := @initStep_eq threshold totalStake acc entry htotal
      (hstakes entry (.head _)) (by omega)
    rw [foldlM_cons, hstep]
    obtain ⟨infoList, hrun, hperm, horder⟩ := @ih
      (fun e he => hstakes e (.tail _ he))
      (insert acc.1 (infoOf threshold totalStake entry),
        acc.2 + (infoOf threshold totalStake entry).votingPower)
      (insert_byStake hacc) (by dsimp only; omega)
    refine ⟨infoList, ?_, ?_, horder⟩
    · rw [hcons, ← Nat.add_assoc]
      exact hrun
    · rw [map_cons]
      exact (hperm.trans (insert_perm.append_right _)).trans perm_middle.symm

end Init

/-! ### The pass over the list -/

section Adjust

variable {threshold remainingPower : Nat} {infoList : List VotingPowerInfoV2}

def withPowers (infoList : List VotingPowerInfoV2) (powers : List Nat) : List VotingPowerInfoV2 :=
  (infoList.zip powers).map fun entry => { entry.1 with votingPower := entry.2 }

@[simp] theorem withPowers_self : withPowers infoList (infoList.map (·.votingPower)) = infoList := by
  induction infoList with
  | nil => rfl
  | cons info infoList ih => simpa [withPowers] using ih

theorem adjustStep_eq {v : VotingPowerInfoV2} {k : Nat} (hk : 0 < k)
    (hv : v.votingPower ≤ threshold) :
    min remainingPower (min threshold (v.votingPower + divCeil remainingPower k) - v.votingPower) =
      share threshold remainingPower k v.votingPower := by
  have hle := @divCeil_le_self remainingPower k hk
  unfold share
  omega

theorem adjustLoop_eq (hcap : ∀ info ∈ infoList, info.votingPower ≤ threshold)
    (hthreshold : threshold ≤ totalVotingPower) (hremaining : remainingPower ≤ totalVotingPower) :
    adjustLoop threshold infoList remainingPower =
      .ok (withPowers infoList (fill threshold remainingPower (infoList.map (·.votingPower))),
        left threshold remainingPower (infoList.map (·.votingPower))) := by
  induction infoList generalizing remainingPower with
  | nil => rfl
  | cons v rest ih =>
    unfold adjustLoop
    split
    · next hzero => rw [hzero, fill_zero, left_zero, withPowers_self]
    · have hv := hcap v (.head _)
      have hstep := @adjustStep_eq threshold remainingPower v _ (Nat.succ_pos rest.length) hv
      have hplanned := @divCeil_le_self remainingPower (rest.length + 1) (Nat.succ_pos _)
      have hmax : totalVotingPower + totalVotingPower ≤ u64Max := by decide
      have hshare : share threshold remainingPower (rest.length + 1) v.votingPower ≤
        remainingPower := share_le_amount (Nat.succ_pos _)
      have hroom : share threshold remainingPower (rest.length + 1) v.votingPower ≤
        threshold - v.votingPower := min_le_left _ _
      have hrest := @ih
        (remainingPower - share threshold remainingPower (rest.length + 1) v.votingPower)
        (fun info hmem => hcap info (.tail _ hmem)) (by omega)
      refine bind_eq_ok.mpr ⟨divCeil remainingPower (rest.length + 1), rfl, ?_⟩
      refine bind_eq_ok.mpr ⟨_, inPool_eq_ok.mpr (addU64_of_le (by omega)), ?_⟩
      refine bind_eq_ok.mpr ⟨_, inPool_eq_ok.mpr (subU64_of_le (by omega)), ?_⟩
      dsimp only
      rw [hstep]
      refine bind_eq_ok.mpr ⟨_, inPool_eq_ok.mpr (addU64_of_le (by omega)), ?_⟩
      refine bind_eq_ok.mpr ⟨(), requireSet_eq_ok.mpr (decide_eq_true (by omega)), ?_⟩
      refine bind_eq_ok.mpr ⟨_, inPool_eq_ok.mpr (subU64_of_le hshare), ?_⟩
      rw [hrest]
      simp [withPowers, fill, left, bind, Except.bind, pure, Except.pure]

/-- The voting powers as they are written to the validators. -/
structure Spread (validators : List Validator) (threshold totalStake : Nat)
    (infoList : List VotingPowerInfoV2) : Prop where
  indices : (infoList.map (·.validatorIndex)).Perm (List.range validators.length)
  stakes : ∀ info ∈ infoList, ∃ v, validators[info.validatorIndex]? = some v ∧
    info.stake = v.totalStake
  bounds : ∀ info ∈ infoList, min (info.stake * totalVotingPower / totalStake) threshold ≤
    info.votingPower ∧ info.votingPower ≤ threshold
  order : infoList.Pairwise fun a b => b.stake ≤ a.stake ∧ b.votingPower ≤ a.votingPower ∧
    (a.stake = b.stake → a.votingPower ≤ b.votingPower + 1)
  sum : (infoList.map (·.votingPower)).sum = totalVotingPower

structure Capped (validators : List Validator) (threshold totalStake : Nat)
    (infoList : List VotingPowerInfoV2) : Prop where
  perm : infoList.Perm (validators.zipIdx.map (infoOf threshold totalStake))
  order : ByStake infoList

variable {validators : List Validator} {totalStake : Nat}

section

variable (h : Capped validators threshold totalStake infoList)
include h

theorem Capped.votingPower_eq {info : VotingPowerInfoV2} (hmem : info ∈ infoList) :
    info.votingPower = min (info.stake * totalVotingPower / totalStake) threshold := by
  obtain ⟨entry, _, rfl⟩ := mem_map.mp (h.perm.mem_iff.mp hmem)
  rfl

theorem Capped.indices :
    (infoList.map (·.validatorIndex)).Perm (List.range validators.length) := by
  have hindices := h.perm.map (·.validatorIndex)
  rw [map_map] at hindices
  have hsnd : ((·.validatorIndex) ∘ infoOf threshold totalStake : Validator × Nat → Nat) =
      Prod.snd := rfl
  rwa [hsnd, zipIdx_map_snd, ← range_eq_range'] at hindices

theorem Capped.powers_sorted :
    (infoList.map (·.votingPower)).Pairwise (· ≥ ·) := by
  rw [pairwise_map]
  refine h.order.imp_of_mem ?_
  intro a b ha hb hle
  rw [h.votingPower_eq ha, h.votingPower_eq hb]
  exact min_le_min_right _ (Nat.div_le_div_right (Nat.mul_le_mul_right _ hle))

theorem Capped.spread (hroom : totalVotingPower ≤ validators.length * threshold)
    (hfits : (infoList.map (·.votingPower)).sum ≤ totalVotingPower)
    (hremaining : remainingPower = totalVotingPower - (infoList.map (·.votingPower)).sum) :
    left threshold remainingPower (infoList.map (·.votingPower)) = 0 ∧
      Spread validators threshold totalStake
        (withPowers infoList (fill threshold remainingPower (infoList.map (·.votingPower)))) := by
  have hcap : ∀ power ∈ infoList.map (·.votingPower), power ≤ threshold := by
    intro power hpower
    obtain ⟨info, hmem, rfl⟩ := mem_map.mp hpower
    exact (h.votingPower_eq hmem).trans_le (min_le_right _ _)
  have hlength : infoList.length = validators.length := by
    simpa using h.indices.length_eq
  have hleft : left threshold remainingPower (infoList.map (·.votingPower)) = 0 := by
    apply left_eq_zero h.powers_sorted
    have hall := sum_sub_add_sum hcap
    rw [length_map, hlength] at hall
    omega
  refine ⟨hleft, ?_⟩
  have hfill : List.Forall₂ _ _ (fill threshold remainingPower (infoList.map (·.votingPower))) :=
    fill_between hcap
  have hsum := @sum_fill_add_left threshold remainingPower (infoList.map (·.votingPower))
  have hfollows : (List.zip _ (fill threshold remainingPower
    (infoList.map (·.votingPower)))).Pairwise _ := fill_follows h.powers_sorted hcap
  generalize fill threshold remainingPower (infoList.map (·.votingPower)) = powers at *
  have hsame : infoList.length = powers.length := by
    simpa using hfill.length_eq
  have hfst : (infoList.zip powers).map Prod.fst = infoList := map_fst_zip hsame.le
  have hsnd : (infoList.zip powers).map Prod.snd = powers := map_snd_zip hsame.ge
  rw [zip_map_left] at hfollows
  have hmem : ∀ {entry}, entry ∈ infoList.zip powers → entry.1 ∈ infoList :=
    fun hentry => hfst ▸ mem_map_of_mem hentry
  refine ⟨?_, ?_, ?_, ?_, ?_⟩
  · have hindices : (withPowers infoList powers).map (·.validatorIndex) =
        ((infoList.zip powers).map Prod.fst).map (·.validatorIndex) := by
      rw [withPowers, map_map, map_map]
      rfl
    rw [hindices, hfst]
    exact h.indices
  · intro info hinfo
    obtain ⟨entry, hentry, rfl⟩ := mem_map.mp hinfo
    obtain ⟨⟨v, i⟩, hv, hof⟩ := mem_map.mp (h.perm.mem_iff.mp (hmem hentry))
    dsimp only
    rw [← hof]
    exact ⟨v, mem_zipIdx_iff_getElem?.mp hv, rfl⟩
  · intro info hinfo
    obtain ⟨entry, hentry, rfl⟩ := mem_map.mp hinfo
    have hzip : (entry.1.votingPower, entry.2) ∈ (infoList.map (·.votingPower)).zip powers := by
      rw [zip_map_left]
      exact mem_map_of_mem (f := Prod.map (·.votingPower) id) hentry
    have hpower := (List.forall₂_iff_zip.mp hfill).2 hzip
    rwa [h.votingPower_eq (hmem hentry)] at hpower
  · rw [withPowers, pairwise_map]
    have hstakes : (infoList.zip powers).Pairwise fun a b => b.1.stake ≤ a.1.stake :=
      pairwise_map.mp (hfst.symm ▸ h.order)
    refine (hstakes.and (pairwise_map.mp hfollows)).imp_of_mem ?_
    rintro a b ha hb ⟨hstake, hle, hclose⟩
    refine ⟨hstake, hle, ?_⟩
    intro heq
    apply hclose
    dsimp only [Prod.map_fst] at heq ⊢
    rw [h.votingPower_eq (hmem ha), h.votingPower_eq (hmem hb), heq]
  · have hpowers : (withPowers infoList powers).map (·.votingPower) = powers := by
      rw [withPowers, map_map]
      exact hsnd
    rw [hpowers]
    omega

end

end Adjust

/-! ### Writing the powers to the validators -/

section Update

variable {validators : List Validator} {infoList : List VotingPowerInfoV2}

/-- With distinct indices each validator is written once, and the others stay as they are. -/
theorem updateLoop_eq (hnodup : (infoList.map (·.validatorIndex)).Nodup)
    (hindex : ∀ info ∈ infoList, info.validatorIndex < validators.length) :
    ∃ validators', infoList.foldlM updateAt validators = .ok validators' ∧
      validators'.length = validators.length ∧
      (∀ i, i ∉ infoList.map (·.validatorIndex) → validators'[i]? = validators[i]?) ∧
      ∀ info ∈ infoList, validators'[info.validatorIndex]? =
        validators[info.validatorIndex]?.map (·.setVotingPower info.votingPower) := by
  induction infoList generalizing validators with
  | nil => exact ⟨validators, rfl, rfl, fun _ _ => rfl, nofun⟩
  | cons info infoList ih =>
    obtain ⟨hfirst, hnodup'⟩ := nodup_cons.mp hnodup
    have hlt := hindex info (.head _)
    have hget : validators[info.validatorIndex]? = some validators[info.validatorIndex] :=
      List.getElem?_eq_getElem hlt
    have hstep : updateAt validators info = .ok (validators.set info.validatorIndex
        (validators[info.validatorIndex].setVotingPower info.votingPower)) := by
      unfold updateAt
      rw [hget]
    obtain ⟨validators', hrun, hlength, hothers, hwritten⟩ := @ih
      (validators.set info.validatorIndex
        (validators[info.validatorIndex].setVotingPower info.votingPower)) hnodup'
      (fun other hmem => by
        rw [length_set]
        exact hindex other (.tail _ hmem))
    rw [length_set] at hlength
    refine ⟨validators', ?_, hlength, ?_, ?_⟩
    · rw [foldlM_cons, hstep]
      exact hrun
    · intro i hi
      rw [map_cons, mem_cons, not_or] at hi
      rw [hothers i hi.2, List.getElem?_set_ne (Ne.symm hi.1)]
    · intro other hmem
      rcases mem_cons.mp hmem with rfl | hmem
      · rw [hothers _ hfirst, List.getElem?_set_self hlt, hget]
        rfl
      · have hne : info.validatorIndex ≠ other.validatorIndex := by
          intro heq
          apply hfirst
          dsimp only
          rw [heq]
          exact mem_map_of_mem hmem
        rw [hwritten other hmem, List.getElem?_set_ne hne]

end Update

/-! ### The final checks -/

section Check

variable {validators : List Validator}

theorem foldlM_addPower {total : Nat} (hpos : ∀ v ∈ validators, 0 < v.votingPower)
    (hfits : total + (validators.map (·.votingPower)).sum ≤ u64Max) :
    validators.foldlM addPower total = .ok (total + (validators.map (·.votingPower)).sum) := by
  induction validators generalizing total with
  | nil => rfl
  | cons v validators ih =>
    rw [map_cons, sum_cons] at hfits ⊢
    have hstep : addPower total v = .ok (total + v.votingPower) :=
      bind_eq_ok.mpr ⟨(), requireSet_eq_ok.mpr (decide_eq_true (hpos v (.head _))),
        inPool_eq_ok.mpr (addU64_of_le (by omega))⟩
    rw [foldlM_cons, hstep]
    refine (ih (fun v' hv' => hpos v' (.tail _ hv')) (by omega)).trans ?_
    rw [Nat.add_assoc]

theorem checkPairs_eq (horder : ∀ a ∈ validators, ∀ b ∈ validators,
      b.totalStake < a.totalStake → b.votingPower ≤ a.votingPower) :
    checkPairs validators = .ok () := by
  induction validators with
  | nil => rfl
  | cons a rest ih =>
    have hpair : ∀ b ∈ rest, checkPair a b = .ok () := by
      intro b hb
      have hab := horder a mem_cons_self b (.tail _ hb)
      have hba := horder b (.tail _ hb) a (.head _)
      refine bind_eq_ok.mpr ⟨(), requireSet_eq_ok.mpr ?_, requireSet_eq_ok.mpr ?_⟩
      · simpa [imp_iff_not_or] using hab
      · simpa [imp_iff_not_or] using hba
    have hloop : rest.forM (checkPair a) = .ok () := by
      clear ih horder
      induction rest with
      | nil => rfl
      | cons b rest ih =>
        exact bind_eq_ok.mpr ⟨(), hpair b (.head _), ih fun b' hb' => hpair b' (.tail _ hb')⟩
    refine bind_eq_ok.mpr ⟨(), hloop, ih ?_⟩
    intro a' ha' b' hb'
    exact horder a' (.tail _ ha') b' (.tail _ hb')

end Check

/-! ### The distribution -/

section Distribution

variable {validators : List Validator} {totalStake : Nat} {threshold : Nat}

theorem cappedPower_le (hsum : (validators.map (·.totalStake)).sum = totalStake) :
    cappedPower threshold totalStake validators.zipIdx ≤ totalVotingPower := by
  have hraw : cappedPower threshold totalStake validators.zipIdx ≤
      ((validators.map (·.totalStake)).map fun x => x * totalVotingPower / totalStake).sum := by
    have hfst : ((validators.map (·.totalStake)).map fun x => x * totalVotingPower / totalStake) =
        validators.zipIdx.map fun entry => entry.1.totalStake * totalVotingPower / totalStake := by
      nth_rewrite 1 [← zipIdx_map_fst 0 validators]
      rw [map_map, map_map]
      rfl
    rw [hfst]
    exact sum_le_sum fun entry _ => min_le_left _ _
  refine hraw.trans ((sum_part_le _).trans ?_)
  rw [hsum]
  exact Nat.div_le_of_le_mul le_rfl

theorem room_of_threshold {n : Nat} (hn : 0 < n) :
    totalVotingPower ≤ n * thresholdOf (divCeil totalVotingPower n) := by
  unfold thresholdOf
  rcases min_choice totalVotingPower (max maxVotingPower (divCeil totalVotingPower n)) with
    hall | hcap
  · rw [hall]
    exact Nat.le_mul_of_pos_left _ hn
  · rw [hcap]
    exact (le_mul_divCeil hn).trans (Nat.mul_le_mul_left n (le_max_right _ _))

theorem infoList_spread (htotal : totalStake ≠ 0)
    (hsum : (validators.map (·.totalStake)).sum = totalStake)
    (hthreshold : threshold ≤ totalVotingPower)
    (hroom : totalVotingPower ≤ validators.length * threshold) :
    ∃ infoList infoList' remainingPower,
      initVotingPowerInfo validators threshold totalStake = .ok (infoList, remainingPower) ∧
      adjustVotingPower infoList threshold remainingPower = .ok infoList' ∧
      Spread validators threshold totalStake infoList' := by
  have hcapped := @cappedPower_le validators totalStake threshold hsum
  have hstakes : ∀ entry ∈ validators.zipIdx, entry.1.totalStake ≤ totalStake := by
    intro entry hentry
    rw [← hsum]
    apply le_sum_of_mem
    exact mem_map_of_mem (mem_of_getElem? (mem_zipIdx_iff_getElem?.mp hentry))
  obtain ⟨infoList, hinit, hperm, horder⟩ := @initLoop_eq threshold totalStake validators.zipIdx
    htotal hstakes ([], 0) List.Pairwise.nil (by rwa [Nat.zero_add])
  rw [Nat.zero_add] at hinit
  have hlist : Capped validators threshold totalStake infoList := ⟨hperm, horder⟩
  have hpowers : (infoList.map (·.votingPower)).sum =
      cappedPower threshold totalStake validators.zipIdx := by
    rw [(hperm.map (·.votingPower)).sum_eq, nil_append, map_map]
    rfl
  obtain ⟨hleft, hspread⟩ := hlist.spread hroom (hpowers.trans_le hcapped) rfl
  refine ⟨infoList, _, totalVotingPower - (infoList.map (·.votingPower)).sum, ?_, ?_, hspread⟩
  · rw [hpowers]
    exact bind₂_eq_ok.mpr ⟨_, hinit, _, inPool_eq_ok.mpr (subU64_of_le hcapped), rfl⟩
  · have hadjust := @adjustLoop_eq threshold
      (totalVotingPower - (infoList.map (·.votingPower)).sum) infoList
      (fun info hmem => (hlist.votingPower_eq hmem).trans_le (min_le_right _ _)) hthreshold
      (Nat.sub_le _ _)
    rw [hleft] at hadjust
    exact bind_eq_ok.mpr ⟨_, hadjust, rfl⟩

theorem map_eq_range {α β : Type*} (l : List α) (f : α → β) (g : Nat → β)
    (heq : ∀ i a, l[i]? = some a → f a = g i) : l.map f = (List.range l.length).map g := by
  apply ext_getElem
  · simp
  · intro i hi hi'
    have hlt : i < l.length := by simpa using hi
    simpa using heq i l[i] (List.getElem?_eq_getElem hlt)

/-- Each validator has the power of its own entry in the list. -/
def Written (validators validators' : List Validator) (infoList : List VotingPowerInfoV2) : Prop :=
  ∀ i : Nat, ∀ v', validators'[i]? = some v' → ∃ v, ∃ info ∈ infoList,
    info.validatorIndex = i ∧ validators[i]? = some v ∧ info.stake = v.totalStake ∧
    v' = v.setVotingPower info.votingPower

variable {infoList : List VotingPowerInfoV2}

theorem Spread.update (h : Spread validators threshold totalStake infoList) :
    ∃ validators', updateVotingPower validators infoList = .ok validators' ∧
      validators'.length = validators.length ∧ Written validators validators' infoList ∧
      (validators'.map (·.votingPower)).sum = totalVotingPower := by
  have hnodup : (infoList.map (·.validatorIndex)).Nodup := h.indices.nodup_iff.mpr nodup_range
  have hindex : ∀ info ∈ infoList, info.validatorIndex < validators.length := fun info hmem =>
    mem_range.mp (h.indices.mem_iff.mp (mem_map_of_mem hmem))
  obtain ⟨validators', hrun, hlength, _, hwritten⟩ := @updateLoop_eq validators infoList.reverse
    (by rw [map_reverse]; exact nodup_reverse.mpr hnodup)
    (fun info hmem => hindex info (mem_reverse.mp hmem))
  have hentry : ∀ info ∈ infoList, validators'[info.validatorIndex]? =
      validators[info.validatorIndex]?.map (·.setVotingPower info.votingPower) :=
    fun info hmem => hwritten info (mem_reverse.mpr hmem)
  refine ⟨validators', hrun, hlength, ?_, ?_⟩
  · intro i v' hv'
    have hlt : i < validators.length := by
      rw [← hlength]
      exact (List.getElem?_eq_some_iff.mp hv').1
    obtain ⟨info, hmem, rfl⟩ := mem_map.mp (h.indices.mem_iff.mpr (mem_range.mpr hlt))
    obtain ⟨v, hv, hstake⟩ := h.stakes info hmem
    rw [hentry info hmem, hv] at hv'
    exact ⟨v, info, hmem, rfl, hv, hstake, (Option.some.inj hv').symm⟩
  · -- both lists are the powers read off the new validators by index
    have hread : infoList.map (·.votingPower) = (infoList.map (·.validatorIndex)).map
        fun i => (validators'[i]?.map (·.votingPower)).getD 0 := by
      rw [map_map]
      apply map_congr_left
      intro info hmem
      obtain ⟨v, hv, _⟩ := h.stakes info hmem
      simp [hentry info hmem, hv]
    have hrange := map_eq_range validators' (·.votingPower)
      (fun i => (validators'[i]?.map (·.votingPower)).getD 0) fun i v hv => by simp [hv]
    rw [hrange, hlength, ← (h.indices.map _).sum_eq, ← hread, h.sum]

theorem Spread.order_of_written
    {validators' : List Validator} (h : Spread validators threshold totalStake infoList)
    (hwritten : Written validators validators' infoList) {a b : Validator} (ha : a ∈ validators')
    (hb : b ∈ validators') :
    (b.totalStake < a.totalStake → b.votingPower ≤ a.votingPower) ∧
      (a.totalStake = b.totalStake → a.votingPower ≤ b.votingPower + 1) := by
  obtain ⟨i, hi⟩ := mem_iff_getElem?.mp ha
  obtain ⟨j, hj⟩ := mem_iff_getElem?.mp hb
  obtain ⟨v, x, hx, _, _, hxstake, rfl⟩ := hwritten i a hi
  obtain ⟨w, y, hy, _, _, hystake, rfl⟩ := hwritten j b hj
  have hpair : (y.stake < x.stake → y.votingPower ≤ x.votingPower) ∧
      (x.stake = y.stake → x.votingPower ≤ y.votingPower + 1) := by
    obtain ⟨m, hm, rfl⟩ := mem_iff_getElem.mp hx
    obtain ⟨n, hn, rfl⟩ := mem_iff_getElem.mp hy
    have hpairs := pairwise_iff_getElem.mp h.order
    rcases lt_trichotomy m n with hlt | rfl | hgt
    · obtain ⟨_, hle, hclose⟩ := hpairs m n hm hn hlt
      exact ⟨fun _ => hle, hclose⟩
    · exact ⟨fun hlt => absurd hlt (lt_irrefl _), fun _ => Nat.le_succ _⟩
    · obtain ⟨hstake, hle, _⟩ := hpairs n m hn hm hgt
      exact ⟨fun hlt => absurd hlt (Nat.not_lt.mpr hstake), fun _ => hle.trans (Nat.le_succ _)⟩
  simpa [hxstake, hystake] using hpair

end Distribution

end VotingPower

open VotingPower in
/-- Validators whose parts of the stake are at least one basis point get powers that sum up to
    ten thousand, each at least its part and at most the threshold; more stake never means less
    power, and for equal stakes the powers are at most one apart. -/
theorem set_voting_power_distribution {validators : List Validator} {totalStake : Nat}
    (hne : validators ≠ []) (hsum : (validators.map (·.totalStake)).sum = totalStake)
    (hraw : ∀ v ∈ validators, 1 ≤ v.totalStake * totalVotingPower / totalStake) :
    ∃ validators', setVotingPower validators totalStake = .ok validators' ∧
      (validators'.map (·.votingPower)).sum = 10000 ∧
      List.Forall₂ (fun v v' => v' = v.setVotingPower v'.votingPower ∧
        min (v.totalStake * 10000 / totalStake)
          (min 10000 (max 1000 (divCeil 10000 validators.length))) ≤ v'.votingPower ∧
        v'.votingPower ≤ min 10000 (max 1000 (divCeil 10000 validators.length)))
        validators validators' ∧
      ∀ a ∈ validators', ∀ b ∈ validators',
        (b.totalStake < a.totalStake → b.votingPower ≤ a.votingPower) ∧
        (a.totalStake = b.totalStake → a.votingPower ≤ b.votingPower + 1) := by
  have hlength : 0 < validators.length := length_pos_iff.mpr hne
  have htotal : totalStake ≠ 0 := by
    rintro rfl
    obtain ⟨v, hv⟩ := exists_mem_of_ne_nil _ hne
    simpa using hraw v hv
  obtain ⟨infoList, infoList', remainingPower, hinit, hadjust, hspread⟩ :=
    infoList_spread htotal hsum (min_le_left _ _) (room_of_threshold hlength)
  obtain ⟨validators', hupdate, hlength', hwritten, hpowers⟩ := hspread.update
  have horder : ∀ a ∈ validators', ∀ b ∈ validators',
      (b.totalStake < a.totalStake → b.votingPower ≤ a.votingPower) ∧
      (a.totalStake = b.totalStake → a.votingPower ≤ b.votingPower + 1) :=
    fun a ha b hb => hspread.order_of_written hwritten ha hb
  have hpos : ∀ v' ∈ validators', 0 < v'.votingPower := by
    intro v' hv'
    obtain ⟨i, hi⟩ := mem_iff_getElem?.mp hv'
    obtain ⟨v, info, hmem, _, hv, hstake, rfl⟩ := hwritten i v' hi
    have hone := hraw v (mem_of_getElem? hv)
    have hbound := (hspread.bounds info hmem).1
    rw [hstake] at hbound
    refine lt_of_lt_of_le (lt_min hone (lt_min (by decide) ?_)) hbound
    exact lt_of_lt_of_le (by decide) (le_max_left _ _)
  refine ⟨validators', ?_, hpowers, ?_, horder⟩
  · have hdiv : divCeilU64 totalVotingPower validators.length =
        .ok (divCeil totalVotingPower validators.length) := if_neg hlength.ne'
    have hcheck : checkInvariants validators' = .ok () := by
      have hadd := @foldlM_addPower validators' 0 hpos (by rw [hpowers]; decide)
      refine bind₂_eq_ok.mpr ⟨_, hadd, (), requireSet_eq_ok.mpr ?_, ?_⟩
      · rw [hpowers]
        rfl
      · exact checkPairs_eq fun a ha b hb => (horder a ha b hb).1
    refine bind₂_eq_ok.mpr ⟨_, inPool_eq_ok.mpr hdiv, _, hinit, ?_⟩
    refine bind₂_eq_ok.mpr ⟨_, hadjust, _, hupdate, ?_⟩
    exact bind_eq_ok.mpr ⟨_, hcheck, rfl⟩
  · rw [List.forall₂_iff_get]
    refine ⟨hlength'.symm, ?_⟩
    intro i hi hi'
    obtain ⟨v, info, hmem, _, hv, hstake, heq⟩ :=
      hwritten i validators'[i] (List.getElem?_eq_getElem hi')
    rw [List.getElem?_eq_getElem hi] at hv
    cases hv
    have hbounds := hspread.bounds info hmem
    rw [hstake] at hbounds
    rw [get_eq_getElem, get_eq_getElem, heq]
    exact ⟨rfl, hbounds⟩

/-- Three validators, one with twice the stake of the others. -/
def sampleValidators : List Validator :=
  [1, 2, 1].map fun stake => ⟨stake, 0, 0, stake, { StakingPool.new stake with haneulBalance := stake }⟩

theorem set_voting_power_distribution_three :
    ∃ validators', VotingPower.setVotingPower sampleValidators 4 = .ok validators' ∧
      (validators'.map (·.votingPower)).sum = 10000 := by
  obtain ⟨validators', hset, hsum, _⟩ := @set_voting_power_distribution sampleValidators 4
    (by simp [sampleValidators]) (by decide) (by
      intro v hv
      obtain ⟨stake, hstake, rfl⟩ := mem_map.mp hv
      have hcases : stake = 1 ∨ stake = 2 ∨ stake = 1 := by simpa using hstake
      rcases hcases with rfl | rfl | rfl <;> decide)
  exact ⟨validators', hset, hsum⟩

end Haneul.Staking
