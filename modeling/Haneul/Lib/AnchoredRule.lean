import Mathlib

/-!
# Anchored commit rules

A commit rule of a DAG protocol decides the leader slots of each round: commit
one block of the slot, or skip the slot.  The *direct* rule looks at the votes
for the slot.  The *indirect* rule takes the first committed slot at a distance
of at least `depth` rounds as an anchor, all slots between being skipped, and
reads the decision off the ancestry of the anchor.

`AnchoredRule` states what such a rule must satisfy: direct decisions exclude
each other, and an anchor confirms a direct decision.  The decisions then do not
depend on who decides, nor on the order of deciding (`Decided.unique`), because a
derivation refers to no local view.
-/

namespace Haneul

/-- A commit rule over leaders `ι` and blocks `β`.  `certified a r i` are the
    blocks of slot `(r, i)` that the anchor `a` certifies; the indirect rule
    commits a block exactly when it is the only one. -/
structure AnchoredRule (ι β : Type*) where
  leaders : ℕ → List ι
  depth : ℕ
  directCommit : ℕ → ι → β → Prop
  directSkip : ℕ → ι → Prop
  anchors : β → ℕ → Prop
  certified : β → ℕ → ι → Set β
  commit_unique : ∀ {r i b b'}, directCommit r i b → directCommit r i b' → b = b'
  commit_not_skip : ∀ {r i b}, directCommit r i b → ¬ directSkip r i
  commit_certified : ∀ {r i b a}, directCommit r i b → anchors a r → certified a r i = {b}
  skip_certified : ∀ {r i a b}, directSkip r i → anchors a r → certified a r i ≠ {b}

namespace AnchoredRule

variable {ι β : Type*}

/-- `outcome` is what the indirect rule makes of the certified blocks: the block
    if there is exactly one, and otherwise a skip. -/
def Outcome (certified : Set β) (outcome : Option β) : Prop :=
  ∀ b, outcome = some b ↔ certified = {b}

theorem Outcome.unique {certified : Set β} {o o' : Option β} (h : Outcome certified o)
    (h' : Outcome certified o') : o = o' := by
  apply Option.ext
  intro b
  rw [h b, h' b]

theorem outcome_of_list {certified : Set β} {l : List β} (hnodup : l.Nodup)
    (hmem : ∀ b, b ∈ l ↔ b ∈ certified) :
    (∃ b, l = [b] ∧ Outcome certified (some b)) ∨ ((∀ b, l ≠ [b]) ∧ Outcome certified none) := by
  have hsingle : ∀ b, certified = {b} ↔ l = [b] := by
    intro b
    constructor
    · intro hcertified
      have hall : ∀ x ∈ l, x = b := by
        intro x hx
        have hx := (hmem x).mp hx
        rw [hcertified] at hx
        exact hx
      have hb : b ∈ l := (hmem b).mpr (by rw [hcertified]; rfl)
      cases l with
      | nil => exact nomatch hb
      | cons x rest =>
        have hx : x = b := hall x (.head _)
        subst hx
        have hrest : rest = [] := by
          rw [List.eq_nil_iff_forall_not_mem]
          intro y hy
          have hyx : y = x := hall y (.tail x hy)
          exact (List.nodup_cons.mp hnodup).1 (hyx ▸ hy)
        rw [hrest]
    · rintro rfl
      ext x
      rw [← hmem x, List.mem_singleton]
      exact Iff.rfl
  by_cases h : ∃ b, l = [b]
  · obtain ⟨b, hb⟩ := h
    refine .inl ⟨b, hb, fun b' => ?_⟩
    rw [hsingle b', hb]
    simp
  · rw [not_exists] at h
    refine .inr ⟨h, fun b' => ?_⟩
    rw [hsingle b']
    simp [h b']

/-- The decisions that the rule allows: `some b` commits `b`, `none` skips. -/
inductive Decided (R : AnchoredRule ι β) : ℕ → ι → Option β → Prop where
  | directCommit {r : ℕ} {i : ι} {b : β} (hcommit : R.directCommit r i b) :
      Decided R r i (some b)
  | directSkip {r : ℕ} {i : ι} (hskip : R.directSkip r i) : Decided R r i none
  | indirect {r : ℕ} {i : ι} {o : Option β} {ρ k : ℕ} {j : ι} {a : β}
      (hdepth : r + R.depth ≤ ρ) (hleader : (R.leaders ρ)[k]? = some j)
      (hearlier : ∀ ρ', r + R.depth ≤ ρ' → ρ' < ρ → ∀ l ∈ R.leaders ρ', Decided R ρ' l none)
      (hbefore : ∀ k' l, k' < k → (R.leaders ρ)[k']? = some l → Decided R ρ l none)
      (hanchor : Decided R ρ j (some a)) (hanchors : R.anchors a r)
      (houtcome : Outcome (R.certified a r i) o) : Decided R r i o

variable {R : AnchoredRule ι β} {o : Option β}

/-- A direct decision is confirmed by any derivation of a decision of the slot. -/
theorem Decided.of_directCommit {r : ℕ} {i : ι} {b : β}
    (hcommit : R.directCommit r i b) (h : Decided R r i o) : o = some b := by
  cases h with
  | directCommit hcommit' => rw [R.commit_unique hcommit' hcommit]
  | directSkip hskip => exact absurd hskip (R.commit_not_skip hcommit)
  | indirect _ _ _ _ _ hanchors houtcome =>
    exact (houtcome b).mpr (R.commit_certified hcommit hanchors)

theorem Decided.of_directSkip {r : ℕ} {i : ι}
    (hskip : R.directSkip r i) (h : Decided R r i o) : o = none := by
  cases h with
  | directCommit hcommit => exact absurd hskip (R.commit_not_skip hcommit)
  | directSkip _ => rfl
  | indirect _ _ _ _ _ hanchors houtcome =>
    rw [Option.eq_none_iff_forall_ne_some]
    intro b hb
    exact R.skip_certified hskip hanchors ((houtcome b).mp hb)

/-- **Agreement.**  A slot has one decision, however it is derived. -/
theorem Decided.unique {r : ℕ} {i : ι} {o o' : Option β} (h : Decided R r i o)
    (h' : Decided R r i o') : o = o' := by
  induction h generalizing o' with
  | directCommit hcommit => exact (h'.of_directCommit hcommit).symm
  | directSkip hskip => exact (h'.of_directSkip hskip).symm
  | @indirect r i o ρ k j a hdepth hleader hearlier hbefore hanchor hanchors houtcome
      ihearlier ihbefore ihanchor =>
      cases h' with
      | directCommit hcommit =>
        exact Decided.of_directCommit hcommit
          (.indirect hdepth hleader hearlier hbefore hanchor hanchors houtcome)
      | directSkip hskip =>
        exact Decided.of_directSkip hskip
          (.indirect hdepth hleader hearlier hbefore hanchor hanchors houtcome)
      | @indirect _ _ _ ρ' k' j' a' hdepth' hleader' hearlier' hbefore' hanchor' hanchors'
          houtcome' =>
          -- the two anchors are in the same slot: the earlier of two different
          -- anchor slots would be both committed and skipped
          have hρ : ρ = ρ' := by
            rcases lt_trichotomy ρ ρ' with hlt | heq | hlt
            · have hskipped := hearlier' ρ hdepth hlt j (List.mem_of_getElem? hleader)
              exact absurd (ihanchor hskipped) (by simp)
            · exact heq
            · have hskipped := ihearlier ρ' hdepth' hlt j' (List.mem_of_getElem? hleader') hanchor'
              exact absurd hskipped (by simp)
          subst hρ
          have hk : k = k' := by
            rcases lt_trichotomy k k' with hlt | heq | hlt
            · exact absurd (ihanchor (hbefore' k j hlt hleader)) (by simp)
            · exact heq
            · exact absurd (ihbefore k' j' hlt hleader' hanchor') (by simp)
          subst hk
          have hj : j = j' := Option.some.inj (hleader.symm.trans hleader')
          subst hj
          have ha : a = a' := Option.some.inj (ihanchor hanchor')
          subst ha
          exact houtcome.unique houtcome'

/-- `a` is the first committed block at round `start` or above, in slot order, at
    round `ρ`; every slot before it is skipped. -/
def FirstCommit (R : AnchoredRule ι β) (start ρ : ℕ) (a : β) : Prop :=
  start ≤ ρ ∧ (∀ ρ', start ≤ ρ' → ρ' < ρ → ∀ l ∈ R.leaders ρ', Decided R ρ' l none) ∧
    ∃ (k : ℕ) (j : ι), (R.leaders ρ)[k]? = some j ∧
      (∀ (k' : ℕ) (l : ι), k' < k → (R.leaders ρ)[k']? = some l → Decided R ρ l none) ∧
      Decided R ρ j (some a)

theorem FirstCommit.of_succ {start ρ : ℕ} {a : β} (h : FirstCommit R (start + 1) ρ a)
    (hskip : ∀ l ∈ R.leaders start, Decided R start l none) : FirstCommit R start ρ a := by
  obtain ⟨hle, hearlier, hslot⟩ := h
  refine ⟨by omega, ?_, hslot⟩
  intro ρ' hstart hlt l hl
  rcases Nat.eq_or_lt_of_le hstart with rfl | hgt
  · exact hskip l hl
  · exact hearlier ρ' hgt hlt l hl

/-- The indirect rule, with the first commit above the slot as the anchor. -/
theorem FirstCommit.decided {r ρ : ℕ} {i : ι} {a : β} (h : FirstCommit R (r + R.depth) ρ a)
    (hanchors : R.anchors a r) (houtcome : Outcome (R.certified a r i) o) : Decided R r i o := by
  obtain ⟨hdepth, hearlier, k, j, hleader, hbefore, hanchor⟩ := h
  exact .indirect hdepth hleader hearlier hbefore hanchor hanchors houtcome

/-- `ρ` is the first round from `start` on with a committed slot. -/
def CommitRound (R : AnchoredRule ι β) (start ρ : ℕ) : Prop :=
  start ≤ ρ ∧ (∀ ρ', start ≤ ρ' → ρ' < ρ → ∀ l ∈ R.leaders ρ', Decided R ρ' l none) ∧
    ∃ l ∈ R.leaders ρ, ∃ b, Decided R ρ l (some b)

theorem CommitRound.unique {start ρ ρ' : ℕ} (h : CommitRound R start ρ)
    (h' : CommitRound R start ρ') : ρ = ρ' := by
  obtain ⟨hstart, hearlier, l, hl, b, hb⟩ := h
  obtain ⟨hstart', hearlier', l', hl', b', hb'⟩ := h'
  rcases lt_trichotomy ρ ρ' with hlt | heq | hlt
  · exact absurd (hb.unique (hearlier' ρ hstart hlt l hl)) (by simp)
  · exact heq
  · exact absurd (hb'.unique (hearlier ρ' hstart' hlt l' hl')) (by simp)

end AnchoredRule

end Haneul
