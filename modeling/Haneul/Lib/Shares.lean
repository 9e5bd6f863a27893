import Mathlib

/-!
# Shares issued at an exchange rate that rounds down

A pot of assets against which shares are outstanding.  Amounts are converted at the ratio of
the two totals, rounded down; while either total is zero the two are exchanged one to one.
Each rounding is in favour of the pot: what is issued for a deposit at the ratio after it,
together with the shares from before, is covered by the new total of shares.
-/

namespace Haneul.Shares

/-- `x` units of the first kind in units of the second, where `a` of the first stand against
    `b` of the second. -/
def convert (a b x : Nat) : Nat := if a = 0 ∨ b = 0 then x else b * x / a

variable {a b x y : Nat}

theorem convert_of_one_to_one (h : a = 0 ∨ b = 0) : convert a b x = x := if_pos h

theorem convert_of_ne_zero (ha : a ≠ 0) (hb : b ≠ 0) : convert a b x = b * x / a :=
  if_neg (by simp [ha, hb])

@[simp] theorem convert_zero : convert a b 0 = 0 := by simp [convert]

theorem convert_self (ha : a ≠ 0) (hb : b ≠ 0) : convert a b a = b := by
  rw [convert_of_ne_zero ha hb, Nat.mul_div_cancel b (Nat.pos_of_ne_zero ha)]

theorem convert_mono (h : x ≤ y) : convert a b x ≤ convert a b y := by
  unfold convert
  split
  · exact h
  · exact Nat.div_le_div_right (Nat.mul_le_mul_left b h)

/-- Two amounts converted apart give at most what they give together. -/
theorem convert_add_le : convert a b x + convert a b y ≤ convert a b (x + y) := by
  unfold convert
  split
  · exact le_rfl
  · rw [Nat.mul_add]
    exact Nat.div_add_div_le_add_div

theorem convert_le (hb : b ≠ 0) (h : x ≤ a) : convert a b x ≤ b := by
  rcases Nat.eq_zero_or_pos a with rfl | ha
  · rw [Nat.le_zero.mp h, convert_zero]
    exact Nat.zero_le b
  · exact (convert_mono h).trans_eq (convert_self ha.ne' hb)

theorem le_convert (ha : a ≠ 0) (hb : b ≠ 0) (h : a ≤ x) : b ≤ convert a b x :=
  (convert_self ha hb).symm.trans_le (convert_mono h)

/-- A deposit of `x` into `a` assets against `b` shares: the shares that the deposit is worth
    at the new ratio fit beside those from before into the new total. -/
theorem issue_le (ha : a ≠ 0) (hb : b ≠ 0) :
    b + convert (a + x) (convert a b (a + x)) x ≤ convert a b (a + x) := by
  have hpos : convert a b (a + x) ≠ 0 := by
    have := le_convert ha hb (Nat.le_add_right a x)
    omega
  have htotal : convert a b (a + x) = b + b * x / a := by
    rw [convert_of_ne_zero ha hb, Nat.mul_add, Nat.mul_comm b a,
      Nat.mul_add_div (Nat.pos_of_ne_zero ha)]
  -- the new ratio is at most the old one, so the deposit is worth no more at it
  have hratio : convert a b (a + x) * a ≤ b * (a + x) := by
    rw [convert_of_ne_zero ha hb]
    exact Nat.div_mul_le_self _ _
  have hdeposit : convert (a + x) (convert a b (a + x)) x ≤ b * x / a := by
    rw [convert_of_ne_zero (by omega) hpos, Nat.le_div_iff_mul_le (Nat.pos_of_ne_zero ha)]
    have hdiv := Nat.div_mul_le_self (convert a b (a + x) * x) (a + x)
    refine Nat.le_of_mul_le_mul_right ?_ (show 0 < a + x by omega)
    calc convert a b (a + x) * x / (a + x) * a * (a + x)
        = convert a b (a + x) * x / (a + x) * (a + x) * a := by ring
      _ ≤ convert a b (a + x) * x * a := Nat.mul_le_mul_right a hdiv
      _ = convert a b (a + x) * a * x := by ring
      _ ≤ b * (a + x) * x := Nat.mul_le_mul_right x hratio
      _ = b * x * (a + x) := by ring
  omega

/-- A part `x` of `y` shares paid from two pots that together hold what all of `y` is worth
    gets at most what it is worth by itself. -/
theorem part_le_convert {p q : Nat} (hsum : p + q = convert a b y) (hy : y ≠ 0) :
    x * p / y + x * q / y ≤ convert a b x := by
  have hparts : x * p / y + x * q / y ≤ x * convert a b y / y := by
    rw [← hsum, Nat.mul_add]
    exact Nat.div_add_div_le_add_div
  refine hparts.trans ?_
  unfold convert
  split
  · rw [Nat.mul_div_cancel x (Nat.pos_of_ne_zero hy)]
  · next hne =>
      have ha : 0 < a := by omega
      rw [Nat.le_div_iff_mul_le ha]
      have hdiv := Nat.div_mul_le_self (x * (b * y / a)) y
      have hworth := Nat.div_mul_le_self (b * y) a
      refine Nat.le_of_mul_le_mul_right ?_ (Nat.pos_of_ne_zero hy)
      calc x * (b * y / a) / y * a * y = x * (b * y / a) / y * y * a := by ring
        _ ≤ x * (b * y / a) * a := Nat.mul_le_mul_right a hdiv
        _ = x * (b * y / a * a) := by ring
        _ ≤ x * (b * y) := Nat.mul_le_mul_left x hworth
        _ = b * x * y := by ring

/-- The same part gets at least what it is worth, up to the two units that the two divisions
    and the worth of the whole round off. -/
theorem convert_le_part_add_two {p q : Nat} (hsum : p + q = convert a b y) (hy : y ≠ 0)
    (hx : x ≤ y) : convert a b x ≤ x * p / y + x * q / y + 2 := by
  have hpos : 0 < y := Nat.pos_of_ne_zero hy
  have hparts : x * convert a b y / y ≤ x * p / y + x * q / y + 1 := by
    rw [← hsum, Nat.mul_add, Nat.add_div hpos]
    split <;> omega
  suffices hworth : convert a b x ≤ x * convert a b y / y + 1 by omega
  unfold convert
  split
  · rw [Nat.mul_div_cancel x hpos]
    exact Nat.le_succ x
  · next hne =>
      have ha : 0 < a := by omega
      have hpart := Nat.div_mul_le_self (b * x) a
      have hwhole := Nat.lt_div_mul_add (a := b * y) ha
      have hscaled : b * x / a * y ≤ x * (b * y / a) + y := by
        refine Nat.le_of_mul_le_mul_right ?_ ha
        calc b * x / a * y * a = b * x / a * a * y := by ring
          _ ≤ b * x * y := Nat.mul_le_mul_right y hpart
          _ = x * (b * y) := by ring
          _ ≤ x * (b * y / a * a + a) := Nat.mul_le_mul_left x hwhole.le
          _ = x * (b * y / a) * a + x * a := by ring
          _ ≤ x * (b * y / a) * a + y * a := by gcongr
          _ = (x * (b * y / a) + y) * a := by ring
      refine Nat.le_of_lt_succ (Nat.lt_of_mul_lt_mul_right (a := y) ?_)
      have hlt := Nat.lt_div_mul_add (a := x * (b * y / a)) hpos
      calc b * x / a * y ≤ x * (b * y / a) + y := hscaled
        _ < x * (b * y / a) / y * y + y + y := Nat.add_lt_add_right hlt y
        _ = (x * (b * y / a) / y + 1).succ * y := by rw [Nat.succ_eq_add_one]; ring

/-- Parts taken one by one give at most the part of their sum. -/
theorem sum_part_le {p : Nat} (l : List Nat) :
    (l.map fun x => x * p / y).sum ≤ l.sum * p / y := by
  induction l with
  | nil => simp
  | cons x l ih =>
    rw [List.map_cons, List.sum_cons, List.sum_cons, Nat.add_mul]
    exact (Nat.add_le_add_left ih _).trans Nat.div_add_div_le_add_div

/-- What a pot of `p` keeps when `x` of `y` shares are paid from it: its part for the shares
    that are left, rounded up. -/
theorem rest_mul_ge {p : Nat} : p * (y - x) ≤ (p - x * p / y) * y := by
  have hdiv := Nat.div_mul_le_self (x * p) y
  rw [Nat.mul_sub, Nat.sub_mul, Nat.mul_comm p x]
  omega

/-- Path independence up to rounding: `x` shares paid from a pot, and then `z` of the shares
    that are left from at most what is left, get no more than `x + z` shares at once. -/
theorem part_add_part_le {p r z : Nat} (hxz : x + z ≤ y) (hr : r ≤ p - x * p / y) :
    x * p / y + z * r / (y - x) ≤ (x + z) * p / y := by
  rcases Nat.eq_zero_or_pos (y - x) with hzero | hpos
  · rw [hzero, Nat.div_zero, Nat.add_zero]
    exact Nat.div_le_div_right (Nat.mul_le_mul_right p (Nat.le_add_right x z))
  obtain ⟨rest, hrest⟩ : ∃ rest, y = x + z + rest := ⟨y - (x + z), by omega⟩
  have hleft : y - x = z + rest := by omega
  have hkeeps : p * (z + rest) ≤ (p - x * p / y) * y := hleft ▸ rest_mul_ge
  have hfirst : x * p / y ≤ p := Nat.div_le_of_le_mul (Nat.mul_le_mul_right p (by omega))
  have hsecond : z * r / (z + rest) * (z + rest) ≤ z * (p - x * p / y) :=
    (Nat.div_mul_le_self _ _).trans (Nat.mul_le_mul_left z hr)
  rw [hleft, Nat.le_div_iff_mul_le (by omega)]
  generalize x * p / y = first at *
  generalize z * r / (z + rest) = second at *
  obtain ⟨kept, rfl⟩ : ∃ kept, p = first + kept := ⟨p - first, by omega⟩
  rw [Nat.add_sub_cancel_left] at hkeeps hsecond
  -- both sides times the shares that are left, where the two bounds can be added
  refine Nat.le_of_mul_le_mul_right ?_ (show 0 < z + rest by omega)
  have hscaled := Nat.mul_le_mul_right y hsecond
  have hkept := Nat.mul_le_mul_right rest hkeeps
  subst hrest
  nlinarith

/-- What the shares that are left are worth is held by the two pots that held the worth of all
    of them. -/
theorem convert_sub_le_rest {p q : Nat} (hsum : p + q = convert a b y) (hx : x < y) :
    convert a b (y - x) ≤ (p - x * p / y) + (q - x * q / y) := by
  have hleft : 0 < y - x := by omega
  have hkeeps : convert a b y * (y - x) ≤ ((p - x * p / y) + (q - x * q / y)) * y := by
    rw [← hsum, Nat.add_mul, Nat.add_mul]
    exact Nat.add_le_add rest_mul_ge rest_mul_ge
  generalize (p - x * p / y) + (q - x * q / y) = kept at *
  by_cases hone : a = 0 ∨ b = 0
  · rw [convert_of_one_to_one hone] at *
    exact Nat.le_of_mul_le_mul_left ((Nat.mul_comm kept y).symm ▸ hkeeps) (by omega)
  · obtain ⟨ha, hb⟩ := not_or.mp hone
    have hpos : 0 < a := Nat.pos_of_ne_zero ha
    rw [convert_of_ne_zero ha hb] at *
    have hworth := Nat.div_mul_le_self (b * (y - x)) a
    have hwhole := Nat.lt_div_mul_add (a := b * y) hpos
    refine Nat.le_of_lt_succ (Nat.lt_of_mul_lt_mul_right (a := a * y) ?_)
    calc b * (y - x) / a * (a * y) = b * (y - x) / a * a * y := by ring
      _ ≤ b * (y - x) * y := Nat.mul_le_mul_right y hworth
      _ = b * y * (y - x) := by ring
      _ < (b * y / a * a + a) * (y - x) := Nat.mul_lt_mul_of_pos_right hwhole hleft
      _ = b * y / a * (y - x) * a + (y - x) * a := by ring
      _ ≤ kept * y * a + y * a := by gcongr; exact Nat.sub_le y x
      _ = kept.succ * (a * y) := by rw [Nat.succ_eq_add_one]; ring

/-! ### An amount split by weights -/

section Split

variable {ι : Type*} {r s t : Finset ι} {w u d e : ι → Nat} {amount : Nat}

theorem sum_split_le : ∑ i ∈ r, amount * w i / ∑ j ∈ r, w j ≤ amount := by
  rcases Nat.eq_zero_or_pos (∑ j ∈ r, w j) with hzero | hpos
  · simp [hzero]
  · refine Nat.le_of_mul_le_mul_right ?_ hpos
    calc (∑ i ∈ r, amount * w i / ∑ j ∈ r, w j) * ∑ j ∈ r, w j
        = ∑ i ∈ r, amount * w i / (∑ j ∈ r, w j) * ∑ j ∈ r, w j := Finset.sum_mul _ _ _
      _ ≤ ∑ i ∈ r, amount * w i := Finset.sum_le_sum fun i _ => Nat.div_mul_le_self _ _
      _ = amount * ∑ j ∈ r, w j := (Finset.mul_sum _ _ _).symm

theorem lt_sum_split_add_card (hpos : 0 < ∑ j ∈ r, w j) :
    amount < ∑ i ∈ r, amount * w i / ∑ j ∈ r, w j + r.card := by
  have hne : r.Nonempty := by
    by_contra hempty
    rw [Finset.not_nonempty_iff_eq_empty.mp hempty, Finset.sum_empty] at hpos
    exact lt_irrefl 0 hpos
  refine Nat.lt_of_mul_lt_mul_right (a := ∑ j ∈ r, w j) ?_
  calc amount * ∑ j ∈ r, w j = ∑ i ∈ r, amount * w i := Finset.mul_sum _ _ _
    _ < ∑ i ∈ r, (amount * w i / (∑ j ∈ r, w j) * (∑ j ∈ r, w j) + ∑ j ∈ r, w j) :=
        Finset.sum_lt_sum_of_nonempty hne fun i _ => Nat.lt_div_mul_add hpos
    _ = (∑ i ∈ r, amount * w i / ∑ j ∈ r, w j + r.card) * ∑ j ∈ r, w j := by
        rw [Finset.sum_add_distrib, ← Finset.sum_mul, Finset.sum_const, smul_eq_mul, Nat.add_mul]

/-- What is taken from the members of `t` and what is given to the others of `s`. -/
theorem sum_redistribute [DecidableEq ι] (hts : t ⊆ s) (hd : ∀ i ∈ t, d i ≤ u i) :
    ∑ i ∈ s, (if i ∈ t then u i - d i else u i + e i) + ∑ i ∈ t, d i =
      ∑ i ∈ s, u i + ∑ i ∈ s \ t, e i := by
  have htaken : ∑ i ∈ t, (if i ∈ t then u i - d i else u i + e i) + ∑ i ∈ t, d i =
      ∑ i ∈ t, u i := by
    rw [← Finset.sum_add_distrib]
    refine Finset.sum_congr rfl ?_
    intro i hi
    rw [if_pos hi, Nat.sub_add_cancel (hd i hi)]
  have hgiven : ∑ i ∈ s \ t, (if i ∈ t then u i - d i else u i + e i) =
      ∑ i ∈ s \ t, u i + ∑ i ∈ s \ t, e i := by
    rw [← Finset.sum_add_distrib]
    refine Finset.sum_congr rfl ?_
    intro i hi
    rw [if_neg (Finset.mem_sdiff.mp hi).2]
  rw [← Finset.sum_sdiff hts, ← Finset.sum_sdiff (f := u) hts, hgiven]
  omega

end Split

/-! ### Deposits of several periods -/

section Owed

/-- Shares for what was deposited in each of the periods before `n`, period by period. -/
def owed (shares : Nat → Nat → Nat) (deposits : Nat → Nat) (n : Nat) : Nat :=
  ∑ e ∈ Finset.range n, shares e (deposits e)

variable {shares shares' : Nat → Nat → Nat} {deposits deposits' : Nat → Nat} {n e : Nat}

theorem owed_succ : owed shares deposits (n + 1) = owed shares deposits n + shares n (deposits n) :=
  Finset.sum_range_succ _ _

theorem owed_congr (h : ∀ e < n, shares e (deposits e) = shares' e (deposits' e)) :
    owed shares deposits n = owed shares' deposits' n :=
  Finset.sum_congr rfl fun e he => h e (Finset.mem_range.mp he)

theorem owed_eq_zero (h : ∀ e < n, shares e (deposits e) = 0) : owed shares deposits n = 0 :=
  Finset.sum_eq_zero fun e he => h e (Finset.mem_range.mp he)

/-- A deposit taken out of its period takes its own shares with it. -/
theorem owed_add_le (hadd : ∀ e x y, shares e x + shares e y ≤ shares e (x + y)) (he : e < n)
    (hdeposits : ∀ e', deposits e' = (if e' = e then x else 0) + deposits' e') :
    shares e x + owed shares deposits' n ≤ owed shares deposits n := by
  have hone : shares e x = ∑ e' ∈ Finset.range n, if e' = e then shares e x else 0 := by
    rw [Finset.sum_ite_eq' (Finset.range n) e fun _ => shares e x, if_pos (Finset.mem_range.mpr he)]
  rw [hone, owed, owed, ← Finset.sum_add_distrib]
  refine Finset.sum_le_sum fun e' _ => ?_
  rw [hdeposits e']
  by_cases heq : e' = e
  · subst heq
    simpa using hadd e' x (deposits' e')
  · simp [heq]

end Owed

end Haneul.Shares
