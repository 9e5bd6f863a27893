import Mathlib

/-!
# Items that wait for others

Some items wait until all the items they depend on are accepted; accepting one item
may release others.  `Settles` says that everything that can be released has been:
no accepted item is left in the waiting sets, and no waiting set is empty.

If what an item waits for has a lower rank, the settled state is determined by the
waiting sets and the accepted items at the start (`Settles.unique`), and items that
arrive one after the other may as well have been there at the start (`Settles.arrive`).
Together these make the outcome independent of the order of arrival.
-/

namespace Haneul

open Function (update update_self update_of_ne)

variable {ν : Type*} {pool pool' pool₁ pool₂ : ν → Option (Finset ν)}
  {accepted accepted' accepted₁ accepted₂ : Set ν}

/-- From `pool` and `accepted`, everything that could be released is in `accepted'`;
    the rest waits in `pool'` for what is not accepted. -/
structure Settles (pool : ν → Option (Finset ν)) (accepted : Set ν)
    (pool' : ν → Option (Finset ν)) (accepted' : Set ν) : Prop where
  mono : accepted ⊆ accepted'
  grounded : ∀ {x}, x ∈ accepted' → x ∈ accepted ∨ ∃ m, pool x = some m ∧ ∀ a ∈ m, a ∈ accepted'
  closed : ∀ {x m}, pool x = some m → (∀ a ∈ m, a ∈ accepted') → x ∈ accepted'
  waiting : ∀ {x m'}, pool' x = some m' ↔
    ∃ m, pool x = some m ∧ (∀ a, a ∈ m' ↔ a ∈ m ∧ a ∉ accepted') ∧ m'.Nonempty

namespace Settles

theorem idle (h : ∀ {x m}, pool x = some m → m.Nonempty ∧ ∀ a ∈ m, a ∉ accepted) :
    Settles pool accepted pool accepted where
  mono := subset_rfl
  grounded := .inl
  closed := by
    intro x m hx hall
    obtain ⟨⟨a, ha⟩, hnot⟩ := h hx
    exact absurd (hall a ha) (hnot a ha)
  waiting := by
    intro x m'
    constructor
    · intro hx
      obtain ⟨hnonempty, hnot⟩ := h hx
      exact ⟨m', hx, fun a => ⟨fun ha => ⟨ha, hnot a ha⟩, And.left⟩, hnonempty⟩
    · rintro ⟨m, hx, hmem, -⟩
      have hm : m' = m := by
        ext a
        exact (hmem a).trans ⟨And.left, fun ha => ⟨ha, (h hx).2 a ha⟩⟩
      rw [hm]
      exact hx

theorem still_waiting (h : Settles pool accepted pool' accepted') {x a : ν} {m : Finset ν}
    (hx : pool x = some m) (ha : a ∈ m) (hnot : a ∉ accepted') :
    ∃ m', pool' x = some m' ∧ ∀ a, a ∈ m' ↔ a ∈ m ∧ a ∉ accepted' := by
  classical
  exact ⟨m.filter (· ∉ accepted'), h.waiting.mpr ⟨m, hx, fun a => by simp, a, by simp [ha, hnot]⟩,
    fun a => by simp⟩

theorem accepted_or_waiting (h : Settles pool accepted pool' accepted') {x : ν} {m : Finset ν}
    (hx : pool x = some m) :
    x ∈ accepted' ∨ ∃ m', pool' x = some m' ∧ ∀ a, a ∈ m' ↔ a ∈ m ∧ a ∉ accepted' := by
  by_cases hall : ∀ a ∈ m, a ∈ accepted'
  · exact .inl (h.closed hx hall)
  · obtain ⟨a, ha, hnot⟩ : ∃ a ∈ m, a ∉ accepted' := by simpa using hall
    exact .inr (h.still_waiting hx ha hnot)

/-- The items accepted in one settled state are accepted in the other. -/
theorem subset_of_rank {rank : ν → ℕ} (hrank : ∀ {x m}, pool x = some m → ∀ a ∈ m, rank a < rank x)
    (h₁ : Settles pool accepted pool₁ accepted₁) (h₂ : Settles pool accepted pool₂ accepted₂) :
    accepted₁ ⊆ accepted₂ := by
  -- induction on the rank of the item
  have hle : ∀ n x, rank x < n → x ∈ accepted₁ → x ∈ accepted₂ := by
    intro n
    induction n with
    | zero => exact fun x hx => absurd hx (Nat.not_lt_zero _)
    | succ n ih =>
      intro x hx hmem
      rcases h₁.grounded hmem with hx₀ | ⟨m, hm, hall⟩
      · exact h₂.mono hx₀
      · exact h₂.closed hm fun a ha =>
          ih a (Nat.lt_of_lt_of_le (hrank hm a ha) (Nat.le_of_lt_succ hx)) (hall a ha)
  exact fun x hx => hle (rank x + 1) x (Nat.lt_succ_self _) hx

/-- **The settled state is unique.** -/
theorem unique {rank : ν → ℕ} (hrank : ∀ {x m}, pool x = some m → ∀ a ∈ m, rank a < rank x)
    (h₁ : Settles pool accepted pool₁ accepted₁) (h₂ : Settles pool accepted pool₂ accepted₂) :
    accepted₁ = accepted₂ ∧ pool₁ = pool₂ := by
  have heq : accepted₁ = accepted₂ :=
    subset_antisymm (subset_of_rank hrank h₁ h₂) (subset_of_rank hrank h₂ h₁)
  subst heq
  refine ⟨rfl, funext fun x => Option.ext fun m => ?_⟩
  rw [h₁.waiting, h₂.waiting]

/-- **Late arrivals.**  An item that arrives at a settled state, and waits for what is
    not accepted there, could have been waiting from the start. -/
theorem arrive [DecidableEq ν] {x : ν} {m m₁ : Finset ν} (h : Settles pool accepted pool₁ accepted₁)
    (hnew : pool x = none) (hm₁ : ∀ a, a ∈ m₁ ↔ a ∈ m ∧ a ∉ accepted₁)
    (h' : Settles (update pool₁ x (some m₁)) accepted₁ pool₂ accepted₂) :
    Settles (update pool x (some m)) accepted pool₂ accepted₂ := by
  -- an item waits for nothing unaccepted in one pool exactly if it does in the other
  have hsub : ∀ {n n₁ : Finset ν}, (∀ a, a ∈ n₁ ↔ a ∈ n ∧ a ∉ accepted₁) →
      ((∀ a ∈ n₁, a ∈ accepted₂) ↔ ∀ a ∈ n, a ∈ accepted₂) := by
    intro n n₁ hn
    constructor
    · intro hall a ha
      by_cases hacc : a ∈ accepted₁
      · exact h'.mono hacc
      · exact hall a ((hn a).mpr ⟨ha, hacc⟩)
    · exact fun hall a ha => hall a ((hn a).mp ha).1
  refine ⟨h.mono.trans h'.mono, ?_, ?_, ?_⟩
  · intro y hy
    rcases h'.grounded hy with hy₁ | ⟨n₁, hn₁, hall⟩
    · rcases h.grounded hy₁ with hy₀ | ⟨n, hn, hall⟩
      · exact .inl hy₀
      · have hne : y ≠ x := fun heq => by rw [heq, hnew] at hn; cases hn
        exact .inr ⟨n, by rw [update_of_ne hne]; exact hn,
          fun a ha => h'.mono (hall a ha)⟩
    · right
      by_cases hyx : y = x
      · subst hyx
        rw [update_self] at hn₁
        cases hn₁
        exact ⟨m, update_self .., (hsub hm₁).mp hall⟩
      · rw [update_of_ne hyx] at hn₁
        obtain ⟨n, hn, hmem, -⟩ := h.waiting.mp hn₁
        exact ⟨n, by rw [update_of_ne hyx]; exact hn, (hsub hmem).mp hall⟩
  · intro y n hn hall
    by_cases hyx : y = x
    · subst hyx
      rw [update_self] at hn
      cases hn
      exact h'.closed (update_self ..) ((hsub hm₁).mpr hall)
    · rw [update_of_ne hyx] at hn
      rcases h.accepted_or_waiting hn with hy₁ | ⟨n₁, hn₁, hmem⟩
      · exact h'.mono hy₁
      · exact h'.closed (by rw [update_of_ne hyx]; exact hn₁) ((hsub hmem).mpr hall)
  · intro y n'
    rw [h'.waiting]
    by_cases hyx : y = x
    · subst hyx
      simp only [update_self, Option.some.injEq, exists_eq_left']
      refine and_congr_left fun _ => forall_congr' fun a => iff_congr Iff.rfl ?_
      rw [hm₁ a, and_assoc]
      exact and_congr_right fun _ => and_iff_right_of_imp fun hnot hacc => hnot (h'.mono hacc)
    · simp only [update_of_ne hyx]
      constructor
      · rintro ⟨n₁, hn₁, hmem', hnonempty⟩
        obtain ⟨n, hn, hmem, -⟩ := h.waiting.mp hn₁
        refine ⟨n, hn, fun a => ?_, hnonempty⟩
        rw [hmem' a, hmem a, and_assoc]
        exact and_congr_right fun _ => and_iff_right_of_imp fun hnot hacc => hnot (h'.mono hacc)
      · rintro ⟨n, hn, hmem', hnonempty⟩
        obtain ⟨a, ha⟩ := hnonempty
        obtain ⟨han, hnot⟩ := (hmem' a).mp ha
        obtain ⟨n₁, hn₁, hmem⟩ := h.still_waiting hn han fun hacc => hnot (h'.mono hacc)
        refine ⟨n₁, hn₁, fun a => ?_, a, ha⟩
        rw [hmem' a, hmem a, and_assoc]
        exact (and_congr_right fun _ =>
          and_iff_right_of_imp fun hnot hacc => hnot (h'.mono hacc)).symm

end Settles

end Haneul
