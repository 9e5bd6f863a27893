import Mathlib

/-!
# Weighted quorums

A set of voters, each with a weight, and a bound on the weight of all of them.
The commit rules of a stake-weighted protocol rest on one counting fact: two
sets whose weights together exceed the total by more than the weight of the
faulty voters share a voter that is not faulty.  Everything here is about
finite sets and their weights; nothing is about blocks or rounds.
-/

namespace Haneul.Quorum

variable {ι : Type*} [DecidableEq ι] {w : ι → ℕ} {total : ℕ}

def weight (w : ι → ℕ) (voters : Finset ι) : ℕ := ∑ i ∈ voters, w i

/-- No set of voters weighs more than `total`. -/
def Bounded (w : ι → ℕ) (total : ℕ) : Prop := ∀ voters : Finset ι, weight w voters ≤ total

omit [DecidableEq ι] in
@[simp] theorem weight_empty (w : ι → ℕ) : weight w ∅ = 0 := by simp [weight]

theorem weight_insert {i : ι} {voters : Finset ι} (hi : i ∉ voters) :
    weight w (insert i voters) = w i + weight w voters := by
  simp only [weight, Finset.sum_insert hi]

omit [DecidableEq ι] in
theorem weight_mono {A B : Finset ι} (h : A ⊆ B) : weight w A ≤ weight w B :=
  Finset.sum_le_sum_of_subset h

omit [DecidableEq ι] in
theorem nonempty_of_weight_pos {A : Finset ι} (h : 0 < weight w A) : A.Nonempty := by
  rcases A.eq_empty_or_nonempty with hA | hA
  · rw [hA, weight_empty] at h
    omega
  · exact hA

/-- Inclusion-exclusion, against the bound on the union. -/
theorem weight_add_le (hw : Bounded w total) (A B : Finset ι) :
    weight w A + weight w B ≤ total + weight w (A ∩ B) := by
  have hunion : weight w (A ∪ B) + weight w (A ∩ B) = weight w A + weight w B :=
    Finset.sum_union_inter
  have hle := hw (A ∪ B)
  omega

theorem weight_le_sdiff_add (A E : Finset ι) :
    weight w A ≤ weight w (A \ E) + weight w E := by
  have hsubset : A ⊆ (A \ E) ∪ E := by
    rw [Finset.sdiff_union_self_eq_union]
    exact Finset.subset_union_left
  have hunion : weight w ((A \ E) ∪ E) = weight w (A \ E) + weight w E :=
    Finset.sum_union Finset.sdiff_disjoint
  have hle : weight w A ≤ weight w ((A \ E) ∪ E) := weight_mono hsubset
  omega

/-- The common non-faulty voters of two sets weigh at least the excess of the
    two weights over the total and the faulty weight. -/
theorem weight_common (hw : Bounded w total) (A B E : Finset ι) :
    weight w A + weight w B ≤ total + weight w E + weight w ((A ∩ B) \ E) := by
  have hinter := weight_add_le hw A B
  have hsdiff := weight_le_sdiff_add (w := w) (A ∩ B) E
  omega

end Haneul.Quorum
