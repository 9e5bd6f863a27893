import Mathlib

/-!
# Sliding windows over lists

The last `n` elements of a list, `List.rtake`, under the operations of a queue of
bounded length: append at the back, remove from the front.
-/

namespace Haneul.Window

open List

variable {α : Type*} {l : List α} {m n : Nat}

theorem length_rtake (l : List α) (n : Nat) : (l.rtake n).length = min n l.length := by
  rw [List.rtake, length_drop]
  omega

theorem rtake_of_length_le (h : l.length ≤ n) : l.rtake n = l := by
  rw [List.rtake, Nat.sub_eq_zero_of_le h, drop_zero]

theorem rtake_cons (a : α) (l : List α) (n : Nat) :
    (a :: l).rtake n = if n ≤ l.length then l.rtake n else a :: l := by
  split_ifs with h
  · rw [List.rtake, List.rtake, length_cons, Nat.succ_sub h, drop_succ_cons]
  · exact rtake_of_length_le (by rw [length_cons]; omega)

theorem rtake_tail (h : n < l.length) : l.tail.rtake n = l.rtake n := by
  cases l with
  | nil => simp at h
  | cons a l =>
    rw [length_cons] at h
    rw [rtake_cons, if_pos (Nat.le_of_lt_succ h), tail_cons]

theorem rtake_comm (l : List α) (m n : Nat) : (l.rtake m).rtake n = (l.rtake n).rtake m := by
  simp only [List.rtake, drop_drop, length_drop]
  congr 1
  omega

theorem rtake_suffix (l : List α) (n : Nat) : l.rtake n <:+ l := drop_suffix _ l

theorem getLast?_rtake (h : 0 < n) : (l.rtake n).getLast? = l.getLast? := by
  rcases l.eq_nil_or_concat with rfl | ⟨front, a, rfl⟩
  · simp
  · obtain ⟨k, rfl⟩ := Nat.exists_eq_succ_of_ne_zero (Nat.ne_of_gt h)
    rw [concat_eq_append, rtake_concat_succ, List.getLast?_concat, List.getLast?_concat]

end Haneul.Window
