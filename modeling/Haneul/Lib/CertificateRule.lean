import Haneul.Lib.VotingRule

/-!
# The certificate rule

Three rounds decide a slot: its block, the blocks of the next round that name it,
which are its votes, and the blocks of the round after that, which are certificates
if a quorum of votes is among their ancestors.  The direct rule commits a block with
a quorum of certificates, and skips a slot when a quorum of the next round has no
ancestor of its author at all.  An anchor certifies the blocks of which it reaches
some certificate.

Quorums meet in a correct author, and that is all the rule needs: every certificate
of a slot is for the same block.
-/

namespace Haneul

open Quorum

namespace RoundDag

variable {ν ι : Type*} [DecidableEq ι]

/-- A quorum of votes for `b` is among the ancestors of `c`. -/
def Certifies (D : RoundDag ν ι) (c b : ν) : Prop :=
  D.Backed (D.round b + 1) D.quorum fun v => v ∈ D.anc c ∧ b ∈ D.anc v

variable {D : RoundDag ν ι} {r : ℕ} {i : ι} {b b' c c' : ν}

section

variable (hmeet : D.total + weight D.stake D.faulty < D.quorum + D.quorum) (hb : D.InSlot r i b)
  (h : D.Certifies c b)
include hmeet hb h

theorem Certifies.unique (hb' : D.InSlot r i b') (h' : D.Certifies c' b') :
    b = b' := by
  unfold Certifies at h h'
  rw [hb.2.1] at h
  rw [hb'.2.1] at h'
  obtain ⟨v, hv, -, ⟨-, hvote⟩, -, hvote'⟩ := h.meet h' hmeet
  exact hb.eq_of_anc hb' hv hvote hvote'

theorem Certifies.not_blamed :
    ¬ D.Backed (r + 1) D.quorum fun v => ∀ a ∈ D.anc v, D.author a ≠ i := by
  intro hblame
  unfold Certifies at h
  rw [hb.2.1] at h
  obtain ⟨v, -, -, ⟨-, hvote⟩, hnone⟩ := h.meet hblame hmeet
  exact hnone b hvote hb.2.2

end

/-- The rule of votes, certificates and blames. -/
def certificateRule (D : RoundDag ν ι) (leaders : ℕ → List ι)
    (hmeet : D.total + weight D.stake D.faulty < D.quorum + D.quorum) : AnchoredRule ι ν where
  leaders := leaders
  depth := 3
  directCommit r i b := D.InSlot r i b ∧ D.Backed (r + 2) D.quorum fun c => D.Certifies c b
  directSkip r i := D.Backed (r + 1) D.quorum fun v => ∀ a ∈ D.anc v, D.author a ≠ i
  anchors a r := D.Backed (r + 2) D.quorum fun c => D.Reaches (r + 1) a c
  certified a r i := {b | D.InSlot r i b ∧
    ∃ c ∈ D.nodes, D.round c = r + 2 ∧ D.Reaches (r + 1) a c ∧ D.Certifies c b}
  commit_unique := by
    rintro r i b b' ⟨hb, hcerts⟩ ⟨hb', hcerts'⟩
    obtain ⟨c, -, -, hcert⟩ := hcerts.exists_node D.quorum_pos
    obtain ⟨c', -, -, hcert'⟩ := hcerts'.exists_node D.quorum_pos
    exact hcert.unique hmeet hb hb' hcert'
  commit_not_skip := by
    rintro r i b ⟨hb, hcerts⟩
    obtain ⟨c, -, -, hcert⟩ := hcerts.exists_node D.quorum_pos
    exact hcert.not_blamed hmeet hb
  commit_certified := by
    rintro r i b a ⟨hb, hcerts⟩ hanchor
    obtain ⟨c, hc, hround, hcert, hreach⟩ := hcerts.meet hanchor hmeet
    ext b'
    constructor
    · rintro ⟨hb', c', -, -, -, hcert'⟩
      exact hcert'.unique hmeet hb' hb hcert
    · rintro rfl
      exact ⟨hb, c, hc, hround, hreach, hcert⟩
  skip_certified := by
    intro r i a b hskip _ hcertified
    have hb : b ∈ ({b} : Set ν) := rfl
    rw [← hcertified] at hb
    obtain ⟨hslot, c, -, -, -, hcert⟩ := hb
    exact hcert.not_blamed hmeet hslot hskip

end RoundDag

end Haneul
