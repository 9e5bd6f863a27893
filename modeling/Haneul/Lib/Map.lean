import Mathlib

/-!
# Ordered maps

The ordered maps of the standard library, read through `m[k]?` only.  The lemmas
here replace the comparison of the map by equality of keys, which is what a
reader of `BTreeMap` code has in mind.
-/

namespace Haneul.Map

open Std.ExtTreeMap

open Function (update update_self update_of_ne)

open List

variable {κ υ : Type*} {cmp : κ → κ → Ordering} [Std.TransCmp cmp] [Std.LawfulEqCmp cmp]
  [DecidableEq κ] {m : Std.ExtTreeMap κ υ cmp}

theorem get_insert (m : Std.ExtTreeMap κ υ cmp) (k a : κ) (v : υ) :
    (m.insert k v)[a]? = if k = a then some v else m[a]? := by
  rw [Std.ExtTreeMap.getElem?_insert]
  simp only [Std.LawfulEqCmp.compare_eq_iff_eq]

@[simp] theorem get_insert_self (m : Std.ExtTreeMap κ υ cmp) (k : κ) (v : υ) :
    (m.insert k v)[k]? = some v := by
  rw [get_insert, if_pos rfl]

theorem get_insert_of_ne {k a : κ} {v : υ} (h : k ≠ a) :
    (m.insert k v)[a]? = m[a]? := by
  rw [get_insert, if_neg h]

theorem get_erase (m : Std.ExtTreeMap κ υ cmp) (k a : κ) :
    (m.erase k)[a]? = if k = a then none else m[a]? := by
  rw [getElem?_erase]
  simp only [Std.LawfulEqCmp.compare_eq_iff_eq]

omit [Std.LawfulEqCmp cmp] [DecidableEq κ] in
theorem mem_iff (m : Std.ExtTreeMap κ υ cmp) (k : κ) : k ∈ m ↔ ∃ v, m[k]? = some v := by
  rw [mem_iff_isSome_getElem?, Option.isSome_iff_exists]

omit [Std.LawfulEqCmp cmp] [DecidableEq κ] in
theorem mem_of_get {k : κ} {v : υ} (h : m[k]? = some v) : k ∈ m := (mem_iff m k).mpr ⟨v, h⟩

theorem getD_insert (m : Std.ExtTreeMap κ υ cmp) (k a : κ) (v d : υ) :
    (m.insert k v).getD a d = if k = a then v else m.getD a d := by
  rw [Std.ExtTreeMap.getD_insert]
  simp only [Std.LawfulEqCmp.compare_eq_iff_eq]

omit [DecidableEq κ] in
theorem get_filter_eq_some {p : κ → υ → Bool} {k : κ} {v : υ} :
    (m.filter p)[k]? = some v ↔ m[k]? = some v ∧ p k v = true := by
  rw [getElem?_filter', Option.filter_eq_some_iff]

omit [Std.LawfulEqCmp cmp] [DecidableEq κ] in
theorem values_eq (m : Std.ExtTreeMap κ υ cmp) : m.values = m.toList.map Prod.snd := by
  have hfoldr : m.values = m.foldr (fun _ v acc => v :: acc) [] := by
    rcases m with ⟨⟨q⟩⟩
    induction q using Quotient.ind
    rfl
  rw [hfoldr, foldr_eq_foldr_toList]
  induction m.toList with
  | nil => rfl
  | cons entry entries ih => simp [ih]

/-! ### Collecting pairs into a map

`iter.collect()` into a map: of several pairs with one key, the last counts. -/

section Collect

variable {κ υ : Type*} [DecidableEq κ] {pairs : List (κ × υ)}

def collect (pairs : List (κ × υ)) : κ → Option υ :=
  pairs.foldl (fun m entry => Function.update m entry.1 (some entry.2)) fun _ => none

theorem collect_append_singleton (pairs : List (κ × υ)) (entry : κ × υ) :
    collect (pairs ++ [entry]) = update (collect pairs) entry.1 (some entry.2) := by
  rw [collect, foldl_append]
  rfl

theorem mem_of_collect_eq_some {k : κ} {v : υ} (h : collect pairs k = some v) : (k, v) ∈ pairs := by
  induction pairs using List.reverseRecOn with
  | nil => cases h
  | append_singleton pairs entry ih =>
    rw [collect_append_singleton] at h
    by_cases hkey : k = entry.1
    · subst hkey
      rw [update_self] at h
      cases h
      exact mem_concat_self
    · rw [update_of_ne hkey] at h
      exact mem_append_left _ (ih h)

theorem exists_collect_of_mem {k : κ} (h : k ∈ pairs.map Prod.fst) :
    ∃ v, collect pairs k = some v := by
  induction pairs using List.reverseRecOn with
  | nil => cases h
  | append_singleton pairs entry ih =>
    rw [collect_append_singleton]
    by_cases hkey : k = entry.1
    · exact ⟨entry.2, by rw [hkey, update_self]⟩
    · rw [update_of_ne hkey]
      rw [map_append] at h
      rcases mem_append.mp h with h | h
      · exact ih h
      · exact absurd (mem_singleton.mp h) hkey

theorem collect_eq_some {k : κ} {v : υ} (hmem : (k, v) ∈ pairs)
    (honly : ∀ w, (k, w) ∈ pairs → w = v) : collect pairs k = some v := by
  obtain ⟨w, hw⟩ := exists_collect_of_mem (mem_map_of_mem (f := Prod.fst) hmem)
  rw [hw, honly w (mem_of_collect_eq_some hw)]

theorem collect_eq_none {k : κ} (h : ∀ v, (k, v) ∉ pairs) :
    collect pairs k = none := by
  cases hget : collect pairs k with
  | none => rfl
  | some v => exact absurd (mem_of_collect_eq_some hget) (h v)

theorem collect_append (pairs pairs' : List (κ × υ)) (k : κ) :
    collect (pairs ++ pairs') k = (collect pairs' k).or (collect pairs k) := by
  induction pairs' using List.reverseRecOn with
  | nil => rw [append_nil]; rfl
  | append_singleton pairs' entry ih =>
    rw [← append_assoc, collect_append_singleton, collect_append_singleton]
    by_cases hkey : k = entry.1
    · rw [hkey, update_self, update_self]
      rfl
    · rw [update_of_ne hkey, update_of_ne hkey, ih]

theorem collect_map_const (keys : List κ) (v : υ) (k : κ) :
    collect (keys.map fun key => (key, v)) k = if k ∈ keys then some v else none := by
  split_ifs with hk
  · refine collect_eq_some (mem_map.mpr ⟨k, hk, rfl⟩) fun w hw => ?_
    obtain ⟨key, _, heq⟩ := mem_map.mp hw
    cases heq
    rfl
  · refine collect_eq_none fun w hw => hk ?_
    obtain ⟨key, hmem, heq⟩ := mem_map.mp hw
    cases heq
    exact hmem

end Collect

end Haneul.Map
