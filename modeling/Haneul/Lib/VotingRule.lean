import Haneul.Lib.RoundDag
import Haneul.Lib.AnchoredRule

/-!
# The one-round voting rule

A block is voted for by the blocks of the next round that name it as an ancestor.
The direct rule commits a block with a quorum of votes, and skips a slot when a
quorum of the next round does not vote for any given block of it.  An anchor
certifies the blocks with enough votes among those it reaches, at a lower
threshold `certification`.

Two inequalities make this an anchored rule: a certificate and a quorum meet in a
correct author, and the votes of a quorum that another quorum sees are still a
certificate.
-/

namespace Haneul

open Quorum

namespace RoundDag

variable {ν ι : Type*} [DecidableEq ι]

/-- The nodes of slot `(r, i)`. -/
def InSlot (D : RoundDag ν ι) (r : ℕ) (i : ι) (b : ν) : Prop :=
  b ∈ D.nodes ∧ D.round b = r ∧ D.author b = i

theorem InSlot.eq_of_anc {D : RoundDag ν ι} {r : ℕ} {i : ι} {b b' c : ν} (hb : D.InSlot r i b)
    (hb' : D.InSlot r i b') (hc : c ∈ D.nodes) (h : b ∈ D.anc c) (h' : b' ∈ D.anc c) : b = b' :=
  D.anc_author hc h h' (hb.2.2.trans hb'.2.2.symm)

/-- The voting rule with a quorum and a certification threshold. -/
def votingRule (D : RoundDag ν ι) (certification : ℕ) (leaders : ℕ → List ι)
    (hmeet : D.total + weight D.stake D.faulty < certification + D.quorum)
    (hsurvive : D.total + weight D.stake D.faulty + certification ≤ D.quorum + D.quorum) :
    AnchoredRule ι ν where
  leaders := leaders
  depth := 2
  directCommit r i b := D.InSlot r i b ∧ D.Backed (r + 1) D.quorum fun c => b ∈ D.anc c
  directSkip r i := ∀ b, D.InSlot r i b → D.Backed (r + 1) D.quorum fun c => b ∉ D.anc c
  anchors a r := D.Backed (r + 1) D.quorum fun c => D.Reaches r a c
  certified a r i := {b | D.InSlot r i b ∧
    D.Backed (r + 1) certification fun c => D.Reaches r a c ∧ b ∈ D.anc c}
  commit_unique := by
    rintro r i b b' ⟨hb, hvotes⟩ ⟨hb', hvotes'⟩
    obtain ⟨c, hc, -, hvote, hvote'⟩ := hvotes.meet hvotes' (by omega)
    exact hb.eq_of_anc hb' hc hvote hvote'
  commit_not_skip := by
    rintro r i b ⟨hb, hvotes⟩ hskip
    obtain ⟨c, -, -, hvote, hnot⟩ := hvotes.meet (hskip b hb) (by omega)
    exact hnot hvote
  commit_certified := by
    rintro r i b a ⟨hb, hvotes⟩ hanchor
    ext b'
    constructor
    · rintro ⟨hb', hcert⟩
      obtain ⟨c, hc, -, ⟨-, hvote'⟩, hvote⟩ := hcert.meet hvotes hmeet
      exact hb'.eq_of_anc hb hc hvote' hvote
    · rintro rfl
      exact ⟨hb, hanchor.common hvotes hsurvive⟩
  skip_certified := by
    intro r i a b hskip _ hcertified
    have hb : b ∈ ({b} : Set ν) := rfl
    rw [← hcertified] at hb
    obtain ⟨hslot, hcert⟩ := hb
    obtain ⟨c, -, -, ⟨-, hvote⟩, hnot⟩ := hcert.meet (hskip b hslot) hmeet
    exact hnot hvote

end RoundDag

end Haneul
