import Mathlib

/-!
# Histories that grow at their end

A run of a system leaves a history, the newest entry last.  What holds of every entry, given
what came before it, is kept by a step that appends one entry for which it holds.

Two histories can be matched entry by entry, where keys tell which entry answers which.  If no
key occurs twice in the answers, they add up to no more than what they answer.
-/

namespace Haneul.History

open List

variable {α : Type*}

/-- Every entry of a history is as it should be after the entries before it. -/
def ForEach (P : List α → α → Prop) (history : List α) : Prop :=
  ∀ before entry after, history = before ++ entry :: after → P before entry

variable {P Q : List α → α → Prop} {history : List α} {entry : α}

theorem ForEach.nil : ForEach P [] := by
  intro before entry after h
  cases before <;> cases h

theorem append_singleton_eq {before after : List α} {x : α}
    (h : history ++ [entry] = before ++ x :: after) :
    (before = history ∧ x = entry) ∨ ∃ after', history = before ++ x :: after' := by
  rcases eq_nil_or_concat after with rfl | ⟨after', last, rfl⟩
  · obtain ⟨hbefore, hlast⟩ := append_inj' h rfl
    exact .inl ⟨hbefore.symm, (List.cons.inj hlast).1.symm⟩
  · rw [concat_eq_append, ← cons_append, ← append_assoc] at h
    exact .inr ⟨after', (append_inj' h rfl).1⟩

theorem ForEach.snoc (h : ForEach P history) (hentry : P history entry) :
    ForEach P (history ++ [entry]) := by
  intro before x after heq
  rcases append_singleton_eq heq with ⟨rfl, rfl⟩ | ⟨after', heq'⟩
  · exact hentry
  · exact h before x after' heq'

theorem ForEach.imp (h : ForEach P history)
    (hPQ : ∀ before entry, P before entry → Q before entry) :
    ForEach Q history :=
  fun before entry after heq => hPQ before entry (h before entry after heq)

/-! ### Matched histories -/

section Matched

variable {β κ : Type*} {has : κ → α → Bool} {has' : κ → β → Bool} {v : α → Nat} {w : β → Nat}

/-- Every entry of some value answers an entry of the other history that has its key. -/
def Matched (has : κ → α → Bool) (has' : κ → β → Bool) (v : α → Nat) (w : β → Nat)
    (xs : List α) (ys : List β) : Prop :=
  ∀ x ∈ xs, v x = 0 ∨ ∃ k y, has k x = true ∧ y ∈ ys ∧ has' k y = true ∧ v x ≤ w y

theorem sum_append_cons (l r : List β) (y : β) :
    ((l ++ y :: r).map w).sum = w y + ((l ++ r).map w).sum := by
  simp only [map_append, map_cons, sum_append, sum_cons]
  omega

/-- Answers with keys of their own add up to no more than what they answer. -/
theorem Matched.sum_le (hunique : ∀ k k' y, has' k y = true → has' k' y = true → k = k')
    {xs : List α} {ys : List β} (honce : ∀ k, xs.countP (has k) ≤ 1)
    (hmatched : Matched has has' v w xs ys) : (xs.map v).sum ≤ (ys.map w).sum := by
  induction xs generalizing ys with
  | nil => exact Nat.zero_le _
  | cons x xs ih =>
    have hrest : ∀ k, xs.countP (has k) ≤ 1 := by
      intro k
      have hcount := honce k
      rw [countP_cons] at hcount
      omega
    rw [map_cons, sum_cons]
    rcases hmatched x mem_cons_self with hzero | ⟨k, y, hx, hy, hky, hle⟩
    · rw [hzero, Nat.zero_add]
      exact ih hrest fun x' hx' => hmatched x' (.tail x hx')
    · obtain ⟨l, r, rfl⟩ := append_of_mem hy
      rw [sum_append_cons]
      refine Nat.add_le_add hle (ih hrest ?_)
      intro x' hx'
      rcases hmatched x' (.tail x hx') with hzero | ⟨k', y', hxk', hy', hky', hle'⟩
      · exact .inl hzero
      · refine .inr ⟨k', y', hxk', ?_, hky', hle'⟩
        -- the key of `x` does not occur again, so `x'` answers another entry
        have hne : k' ≠ k := by
          rintro rfl
          have hcount := honce k'
          rw [countP_cons, if_pos hx] at hcount
          have hpos : 0 < xs.countP (has k') := countP_pos_iff.mpr ⟨x', hx', hxk'⟩
          omega
        rcases mem_append.mp hy' with hl | hr
        · exact mem_append_left _ hl
        · rcases mem_cons.mp hr with rfl | hr
          · exact absurd (hunique k' k _ hky' hky) hne
          · exact mem_append_right _ hr

end Matched

end Haneul.History
