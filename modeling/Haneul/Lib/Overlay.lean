import Mathlib

/-!
# A queue of writes over a base

A store whose writes are first kept in a queue and later reach a base, in the order in which
they were made.  A write is a partial map; reading a key finds the newest write of the queue
that has the key, or else the base.
-/

namespace Haneul.Overlay

variable {κ υ : Type*} {queue : List (κ → Option υ)}

/-- The newest write of the queue to the key. -/
def newest (queue : List (κ → Option υ)) (k : κ) : Option υ :=
  queue.foldl (fun found w => (w k).or found) none

variable (base w : κ → Option υ)

def overwrite : κ → Option υ := fun k => (w k).or (base k)

/-- The base under the writes of the queue. -/
def view (base : κ → Option υ) (queue : List (κ → Option υ)) : κ → Option υ := fun k =>
  (newest queue k).or (base k)

def count (queue : List (κ → Option υ)) (k : κ) : Nat := queue.countP fun w => (w k).isSome

/-- The writes to one key agree on its value. -/
def Agree (queue : List (κ → Option υ)) : Prop :=
  ∀ w ∈ queue, ∀ w' ∈ queue, ∀ k v v', w k = some v → w' k = some v' → v = v'

@[simp] theorem newest_nil (k : κ) : newest ([] : List (κ → Option υ)) k = none := rfl

theorem newest_append_singleton (queue : List (κ → Option υ)) (w : κ → Option υ) (k : κ) :
    newest (queue ++ [w]) k = (w k).or (newest queue k) := by
  rw [newest, List.foldl_append]
  rfl

theorem newest_append (queue queue' : List (κ → Option υ)) (k : κ) :
    newest (queue ++ queue') k = (newest queue' k).or (newest queue k) := by
  induction queue' using List.reverseRecOn with
  | nil => rw [List.append_nil, newest_nil, Option.none_or]
  | append_singleton queue' w ih =>
    rw [← List.append_assoc, newest_append_singleton, newest_append_singleton, ih, Option.or_assoc]

theorem newest_cons (w : κ → Option υ) (queue : List (κ → Option υ)) (k : κ) :
    newest (w :: queue) k = (newest queue k).or (w k) := by
  have h := newest_append [w] queue k
  rw [List.singleton_append] at h
  rw [h]
  congr 1
  exact Option.or_none

theorem count_cons (w : κ → Option υ) (queue : List (κ → Option υ)) (k : κ) :
    count (w :: queue) k = count queue k + if (w k).isSome then 1 else 0 :=
  List.countP_cons

theorem count_append_singleton (queue : List (κ → Option υ)) (w : κ → Option υ) (k : κ) :
    count (queue ++ [w]) k = count queue k + if (w k).isSome then 1 else 0 := by
  rw [count, List.countP_append]
  by_cases hw : (w k).isSome = true <;> simp [hw, count]

theorem newest_isSome_iff {k : κ} :
    (newest queue k).isSome = true ↔ count queue k ≠ 0 := by
  induction queue with
  | nil => simp [count]
  | cons w queue ih =>
    rw [newest_cons, Option.isSome_or, Bool.or_eq_true, ih, count_cons]
    by_cases hw : (w k).isSome = true <;> simp [hw]

theorem count_eq_zero_of_newest {k : κ} (h : newest queue k = none) :
    count queue k = 0 := by
  by_contra hne
  have hsome := newest_isSome_iff.mpr hne
  rw [h] at hsome
  cases hsome

theorem exists_of_newest_eq_some {k : κ} {v : υ}
    (h : newest queue k = some v) : ∃ w ∈ queue, w k = some v := by
  induction queue with
  | nil => cases h
  | cons w queue ih =>
    rw [newest_cons, Option.or_eq_some_iff] at h
    rcases h with h | ⟨_, h⟩
    · obtain ⟨w', hw', heq⟩ := ih h
      exact ⟨w', List.mem_cons_of_mem w hw', heq⟩
    · exact ⟨w, .head _, h⟩

/-- Moving the oldest write to the base changes nothing that is read. -/
theorem view_cons (queue : List (κ → Option υ)) :
    view base (w :: queue) = view (overwrite base w) queue := by
  funext k
  rw [view, view, overwrite, newest_cons, Option.or_assoc]

theorem view_append_singleton (queue : List (κ → Option υ)) :
    view base (queue ++ [w]) = overwrite (view base queue) w := by
  funext k
  rw [view, overwrite, view, newest_append_singleton, Option.or_assoc]

theorem Agree.subset {queue queue' : List (κ → Option υ)} (h : Agree queue)
    (hsubset : queue' ⊆ queue) : Agree queue' :=
  fun w₁ hw₁ w₂ hw₂ => h w₁ (hsubset hw₁) w₂ (hsubset hw₂)

end Haneul.Overlay
