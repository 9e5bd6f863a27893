import Mathlib

/-!
# Spending against a budget, with what is spent too much owed later

A list of periods, each with a budget and with what was spent in it.  Between two periods
there is an amount that is owed; a period pays from its budget for what was owed before it
and for what it spends, and leaves the rest owed.
-/

namespace Haneul.Budget

structure Period where
  budget : Nat
  spent : Nat

/-- The periods lead from what is owed before them to what is owed after them, and a
    period that spends anything exceeds its budget by at most `excess`. -/
inductive Pays (excess : Nat) : Nat → List Period → Nat → Prop
  | nil (owed : Nat) : Pays excess owed [] owed
  | cons {owed next last : Nat} {p : Period} {rest : List Period}
      (hpaid : owed + p.spent ≤ p.budget + next)
      (hover : 0 < p.spent → owed + p.spent ≤ p.budget + excess)
      (hrest : Pays excess next rest last) : Pays excess owed (p :: rest) last

variable {excess : Nat}

/-- However long the periods are, they spend at most their budgets and what one period may
    exceed its own by. -/
theorem Pays.spent_le {owed last : Nat} {periods : List Period}
    (h : Pays excess owed periods last) :
    (periods.map Period.spent).sum ≤ (periods.map Period.budget).sum + excess := by
  -- what is owed before counts against what is spent, unless nothing is spent at all
  suffices hstrong : (periods.map Period.spent).sum = 0 ∨
      owed + (periods.map Period.spent).sum ≤ (periods.map Period.budget).sum + excess by
    omega
  induction h with
  | nil owed => exact .inl rfl
  | @cons owed next last p rest hpaid hover _ ih =>
    rw [List.map_cons, List.map_cons, List.sum_cons, List.sum_cons]
    rcases ih with hzero | hrest
    · rcases Nat.eq_zero_or_pos p.spent with hnone | hsome
      · exact .inl (by omega)
      · have := hover hsome
        exact .inr (by omega)
    · exact .inr (by omega)

theorem Pays.snoc {owed last next : Nat} {periods : List Period} {p : Period}
    (h : Pays excess owed periods last) (hpaid : last + p.spent ≤ p.budget + next)
    (hover : 0 < p.spent → last + p.spent ≤ p.budget + excess) :
    Pays excess owed (periods ++ [p]) next := by
  induction h with
  | nil owed => exact .cons hpaid hover (.nil next)
  | cons hfirst hfirstOver _ ih => exact .cons hfirst hfirstOver (ih hpaid hover)

end Haneul.Budget
