import Mathlib

/-!
# Filling a list of levels up to a cap in one pass

A list of levels and an amount that is to be added to them.  Each level in turn gets an even
share of what is left, rounded up, as far as the cap allows.  If the levels do not increase and
the cap leaves room for the whole amount, then nothing is left at the end, the levels still do
not increase, and two levels that were equal are at most one apart.
-/

namespace Haneul.Waterfill

open List

def divCeil (n k : Nat) : Nat := if n % k = 0 then n / k else n / k + 1

section DivCeil

variable {n k m : Nat}

theorem le_mul_divCeil (hk : 0 < k) : n ≤ k * divCeil n k := by
  have hdiv := Nat.div_add_mod n k
  have hmod := Nat.mod_lt n hk
  unfold divCeil
  split
  · omega
  · rw [Nat.mul_add, Nat.mul_one]
    omega

theorem divCeil_le (hk : 0 < k) (h : n ≤ k * m) : divCeil n k ≤ m := by
  unfold divCeil
  split
  · exact Nat.div_le_of_le_mul h
  · next hmod =>
      rw [Nat.succ_le_iff, Nat.div_lt_iff_lt_mul hk, Nat.mul_comm]
      refine lt_of_le_of_ne h ?_
      rintro rfl
      exact hmod (Nat.mul_mod_right k m)

theorem div_le_divCeil : n / k ≤ divCeil n k := by
  unfold divCeil
  split <;> omega

theorem divCeil_le_div_add_one : divCeil n k ≤ n / k + 1 := by
  unfold divCeil
  split <;> omega

theorem divCeil_le_self (hk : 0 < k) : divCeil n k ≤ n :=
  divCeil_le hk (Nat.le_mul_of_pos_left n hk)

/-- One share, rounded up, leaves the other shares at least what they are rounded down. -/
theorem mul_div_le_sub_divCeil : k * (n / (k + 1)) ≤ n - divCeil n (k + 1) := by
  have hdiv := Nat.div_add_mod n (k + 1)
  rw [Nat.add_mul, Nat.one_mul] at hdiv
  unfold divCeil
  split <;> omega

end DivCeil

def share (cap amount k level : Nat) : Nat := min (cap - level) (divCeil amount k)

def fill (cap : Nat) : Nat → List Nat → List Nat
  | _, [] => []
  | amount, level :: levels =>
    (level + share cap amount (levels.length + 1) level) ::
      fill cap (amount - share cap amount (levels.length + 1) level) levels

def left (cap : Nat) : Nat → List Nat → Nat
  | amount, [] => amount
  | amount, level :: levels =>
    left cap (amount - share cap amount (levels.length + 1) level) levels

variable {cap amount k level m : Nat} {levels : List Nat}

theorem share_le_amount (hk : 0 < k) : share cap amount k level ≤ amount :=
  (min_le_right _ _).trans (divCeil_le_self hk)

@[simp] theorem fill_zero : fill cap 0 levels = levels := by
  induction levels with
  | nil => rfl
  | cons level levels ih => simp [fill, share, divCeil, ih]

@[simp] theorem left_zero : left cap 0 levels = 0 := by
  induction levels with
  | nil => rfl
  | cons level levels ih => simp [left, share, divCeil, ih]

theorem sum_fill_add_left :
    (fill cap amount levels).sum + left cap amount levels = levels.sum + amount := by
  induction levels generalizing amount with
  | nil => simp [fill, left]
  | cons level levels ih =>
    have hshare : share cap amount (levels.length + 1) level ≤ amount :=
      share_le_amount (Nat.succ_pos _)
    have hrest := @ih (amount - share cap amount (levels.length + 1) level)
    rw [fill, left, sum_cons, sum_cons]
    omega

theorem fill_between (hcap : ∀ level ∈ levels, level ≤ cap) :
    List.Forall₂ (fun level level' => level ≤ level' ∧ level' ≤ cap) levels
      (fill cap amount levels) := by
  induction levels generalizing amount with
  | nil => exact .nil
  | cons level levels ih =>
    refine .cons ⟨Nat.le_add_right _ _, ?_⟩ (ih fun l hl => hcap l (.tail _ hl))
    have hlevel := hcap level (.head _)
    have hshare : share cap amount (levels.length + 1) level ≤ cap - level := min_le_left _ _
    omega

theorem sum_sub_add_sum (hcap : ∀ level ∈ levels, level ≤ cap) :
    (levels.map (cap - ·)).sum + levels.sum = levels.length * cap := by
  induction levels with
  | nil => simp
  | cons level levels ih =>
    have hlevel := hcap level (.head _)
    have hrest := ih fun l hl => hcap l (.tail _ hl)
    rw [map_cons, sum_cons, sum_cons, length_cons, Nat.add_mul, Nat.one_mul]
    omega

/-- Where the cap leaves room for the amount, all of it is given out. -/
theorem left_eq_zero (hsorted : levels.Pairwise (· ≥ ·))
    (hroom : amount ≤ (levels.map (cap - ·)).sum) : left cap amount levels = 0 := by
  induction levels generalizing amount with
  | nil => simpa [left] using hroom
  | cons level levels ih =>
    obtain ⟨hfirst, hsorted'⟩ := pairwise_cons.mp hsorted
    rw [left]
    apply ih hsorted'
    rw [map_cons, sum_cons] at hroom
    rcases min_choice (cap - level) (divCeil amount (levels.length + 1)) with hfull | heven
    · rw [share, hfull]
      omega
    · -- an even share fits below the cap, so it does for every level after this one
      rw [share, heven]
      have hle : divCeil amount (levels.length + 1) ≤ cap - level := min_eq_right_iff.mp heven
      have hroom' : levels.length * divCeil amount (levels.length + 1) ≤
          (levels.map (cap - ·)).sum := by
        have hroom := card_nsmul_le_sum (levels.map (cap - ·))
          (divCeil amount (levels.length + 1)) (by
            intro room hmem
            obtain ⟨l, hl, rfl⟩ := mem_map.mp hmem
            have := hfirst l hl
            omega)
        rwa [length_map] at hroom
      have hmul : amount ≤ (levels.length + 1) * divCeil amount (levels.length + 1) :=
        le_mul_divCeil (Nat.succ_pos _)
      rw [Nat.add_mul, Nat.one_mul] at hmul
      omega

/-- Levels that have room for `k` each, which covers the amount, get no more than `k`. -/
theorem fill_le (hroom : ∀ level ∈ levels, k ≤ cap - level) (hk : amount ≤ levels.length * k) :
    List.Forall₂ (fun level level' => level' ≤ level + k) levels (fill cap amount levels) := by
  induction levels generalizing amount with
  | nil => exact .nil
  | cons level levels ih =>
    have heven : divCeil amount (levels.length + 1) ≤ k := divCeil_le (Nat.succ_pos _) hk
    have hshare : share cap amount (levels.length + 1) level =
        divCeil amount (levels.length + 1) :=
      min_eq_right (heven.trans (hroom level (.head _)))
    have hmul : amount ≤ (levels.length + 1) * divCeil amount (levels.length + 1) :=
      le_mul_divCeil (Nat.succ_pos _)
    rw [Nat.add_mul, Nat.one_mul] at hmul
    have hothers := Nat.mul_le_mul_left levels.length heven
    rw [fill, hshare]
    refine .cons (Nat.add_le_add_left heven level) ?_
    apply ih
    · intro l hl
      exact hroom l (.tail _ hl)
    · omega

/-- If there is `m` for each level, each level gets `m`, or as much as the cap allows. -/
theorem le_fill (hm : levels.length * m ≤ amount) :
    List.Forall₂ (fun level level' => level + min (cap - level) m ≤ level') levels
      (fill cap amount levels) := by
  induction levels generalizing amount with
  | nil => exact .nil
  | cons level levels ih =>
    have hdiv : m ≤ amount / (levels.length + 1) := by
      rwa [Nat.le_div_iff_mul_le (Nat.succ_pos _), Nat.mul_comm]
    have heven : m ≤ divCeil amount (levels.length + 1) := hdiv.trans div_le_divCeil
    refine .cons (Nat.add_le_add_left (min_le_min_left _ heven) level) ?_
    apply ih
    have hshare : share cap amount (levels.length + 1) level ≤ _ := min_le_right _ _
    calc levels.length * m ≤ levels.length * (amount / (levels.length + 1)) :=
          Nat.mul_le_mul_left _ hdiv
      _ ≤ amount - divCeil amount (levels.length + 1) := mul_div_le_sub_divCeil
      _ ≤ amount - share cap amount (levels.length + 1) level := Nat.sub_le_sub_left hshare amount

/-- How two levels stand to each other after the pass, the first being before the second. -/
def Follows (first second : Nat × Nat) : Prop :=
  second.2 ≤ first.2 ∧ (first.1 = second.1 → first.2 ≤ second.2 + 1)

/-- The order of the levels is kept, and equal levels end at most one apart. -/
theorem fill_follows (hsorted : levels.Pairwise (· ≥ ·)) (hcap : ∀ level ∈ levels, level ≤ cap) :
    (levels.zip (fill cap amount levels)).Pairwise Follows := by
  induction levels generalizing amount with
  | nil => exact .nil
  | cons level levels ih =>
    obtain ⟨hfirst, hsorted'⟩ := pairwise_cons.mp hsorted
    have hcap' : ∀ l ∈ levels, l ≤ cap := fun l hl => hcap l (.tail _ hl)
    refine .cons ?_ (ih hsorted' hcap')
    rintro ⟨l, l'⟩ hmem
    have hlevel := hcap level (.head _)
    have hl := hfirst l (of_mem_zip hmem).1
    have hbetween := List.forall₂_iff_zip.mp (fill_between hcap') |>.2 hmem
    have hleft : levels.length * (amount / (levels.length + 1)) ≤
        amount - share cap amount (levels.length + 1) level :=
      mul_div_le_sub_divCeil.trans (Nat.sub_le_sub_left (min_le_right _ _) amount)
    have hge : l + min (cap - l) (amount / (levels.length + 1)) ≤ l' :=
      List.forall₂_iff_zip.mp (le_fill hleft) |>.2 hmem
    have hceil := @divCeil_le_div_add_one amount (levels.length + 1)
    rcases min_choice (cap - level) (divCeil amount (levels.length + 1)) with hfull | heven
    · -- the first level is full
      have hshare : share cap amount (levels.length + 1) level = cap - level := hfull
      have hle := min_eq_left_iff.mp hfull
      unfold Follows
      dsimp only
      rw [hshare]
      omega
    · have hshare : share cap amount (levels.length + 1) level =
          divCeil amount (levels.length + 1) := heven
      have hle := min_eq_right_iff.mp heven
      have hmul : amount ≤ (levels.length + 1) * divCeil amount (levels.length + 1) :=
        le_mul_divCeil (Nat.succ_pos _)
      rw [Nat.add_mul, Nat.one_mul] at hmul
      have hroom : ∀ l ∈ levels, divCeil amount (levels.length + 1) ≤ cap - l := by
        intro l hl
        have := hfirst l hl
        omega
      have hup : l' ≤ l + divCeil amount (levels.length + 1) := by
        rw [hshare] at hmem
        exact List.forall₂_iff_zip.mp (fill_le hroom (by omega)) |>.2 hmem
      unfold Follows
      dsimp only
      rw [hshare]
      omega

end Haneul.Waterfill
