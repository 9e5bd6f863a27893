import Haneul.Lib.AnchoredRule
import Haneul.Consensus.DagInvariants

/-!
# Decisions about leader slots

What it means that a status of a leader slot is right: it is a decision of an
anchored rule over the universe of blocks.  Two nodes with such statuses agree.
-/

namespace Haneul.Consensus

open DagState

variable {context : Context} {U : BlockUniverse context} {R : AnchoredRule Nat BlockRef}
  {dag : DagState}

/-- The status is about the slot, and if it is a decision then the rule makes it; a
    committed block above the gc round is in the cache. -/
def StatusSound (U : BlockUniverse context) (R : AnchoredRule Nat BlockRef) (dag : DagState)
    (slot : Slot) : LeaderStatus → Prop
  | .undecided slot' => slot' = slot
  | .skip slot' => slot' = slot ∧ R.Decided slot.round slot.authority none
  | .commit block => block ∈ U.blocks ∧ block.slot = slot ∧
      R.Decided slot.round slot.authority (some block.reference) ∧
      (dag.gcRound context < slot.round → Cached dag block)

theorem StatusSound.unique {dag' : DagState} {slot : Slot} {status status' : LeaderStatus}
    (h : StatusSound U R dag slot status) (h' : StatusSound U R dag' slot status')
    (hdecided : status.isDecided = true) (hdecided' : status'.isDecided = true) :
    status = status' := by
  cases status with
  | undecided _ => simp [LeaderStatus.isDecided] at hdecided
  | skip s =>
    cases status' with
    | undecided _ => simp [LeaderStatus.isDecided] at hdecided'
    | skip s' => rw [h.1, h'.1]
    | commit block' => exact absurd (h.2.unique h'.2.2.1) (by simp)
  | commit block =>
    cases status' with
    | undecided _ => simp [LeaderStatus.isDecided] at hdecided'
    | skip s' => exact absurd (h.2.2.1.unique h'.2) (by simp)
    | commit block' =>
      have href := h.2.2.1.unique h'.2.2.1
      rw [Option.some.injEq] at href
      rw [U.reference_inj h.1 h'.1 href]

theorem StatusSound.retains {dag' : DagState} (hdag : Retains context dag dag') {slot : Slot}
    {status : LeaderStatus} (h : StatusSound U R dag slot status) :
    StatusSound U R dag' slot status := by
  cases status with
  | undecided _ => exact h
  | skip _ => exact h
  | commit block =>
    obtain ⟨hblock, hslot, hdecided, hcached⟩ := h
    refine ⟨hblock, hslot, hdecided, fun hround => ?_⟩
    have hblockRound : block.round = slot.round := by
      rw [← hslot]
      rfl
    exact hdag.cached (hcached (hdag.gcRound_le.trans_lt hround)) (hblockRound ▸ hround)

end Haneul.Consensus
