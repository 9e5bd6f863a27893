import Haneul.Lib.Loop
import Haneul.Lib.Map

/-!
# Totals per key

Entries that carry a key and an amount, the total of one key, and what stays of it when the
entries are grouped by key into an ordered map, or when a list is cut into chunks.

A loop over a list is described by an invariant that speaks of the part of the list it has
been through; `foldlM_prefix` is the rule for it.
-/

universe u

namespace Haneul

open List Std.ExtTreeMap

/-- A fold whose steps return, with an invariant that speaks of the elements behind it. -/
theorem foldlM_prefix {ε α : Type*} {σ : Type u} {step : σ → α → Except ε σ}
    (Inv : List α → σ → Prop) {l : List α} {s : σ} (hstart : Inv [] s)
    (hstep : ∀ before a after s, l = before ++ a :: after → Inv before s →
      ∃ s', step s a = .ok s' ∧ Inv (before ++ [a]) s') :
    ∃ s', l.foldlM step s = .ok s' ∧ Inv l s' := by
  have hrest : ∀ after before s, l = before ++ after → Inv before s →
      ∃ s', after.foldlM step s = .ok s' ∧ Inv l s' := by
    intro after
    induction after with
    | nil =>
      intro before s hl hinv
      rw [append_nil] at hl
      exact ⟨s, rfl, hl ▸ hinv⟩
    | cons a after ih =>
      intro before s hl hinv
      obtain ⟨s₁, hs₁, hinv₁⟩ := hstep before a after s hl hinv
      obtain ⟨s', hs', hinv'⟩ := ih (before ++ [a]) s₁ (by simpa using hl) hinv₁
      exact ⟨s', foldlM_cons_eq_ok.mpr ⟨s₁, hs₁, hs'⟩, hinv'⟩
  exact hrest l [] s rfl hstart

theorem mapM_forall₂ {ε α : Type*} {β : Type u} {f : α → Except ε β} {l : List α} :
    ∀ {bs : List β}, l.mapM f = .ok bs → List.Forall₂ (fun a b => f a = .ok b) l bs := by
  induction l with
  | nil =>
    intro bs h
    cases h
    exact .nil
  | cons a l ih =>
    intro bs h
    rw [mapM_cons] at h
    obtain ⟨b, hb, rest, hrest, h⟩ := bind₂_eq_ok.mp h
    cases h
    exact .cons hb (ih hrest)

theorem exists_of_mem_forall₂ {α β : Type*} {R : α → β → Prop} {l : List α} {bs : List β}
    (h : List.Forall₂ R l bs) {b : β} (hb : b ∈ bs) : ∃ a ∈ l, R a b := by
  induction h with
  | nil => cases hb
  | @cons a b' l bs hab hrest ih =>
    rcases mem_cons.mp hb with rfl | hb
    · exact ⟨a, .head _, hab⟩
    · obtain ⟨a', ha', hr⟩ := ih hb
      exact ⟨a', mem_cons_of_mem a ha', hr⟩

theorem exists_of_mem_mapM {ε α : Type*} {β : Type u} {f : α → Except ε β} {l : List α}
    {bs : List β} (h : l.mapM f = .ok bs) {b : β} (hb : b ∈ bs) : ∃ a ∈ l, f a = .ok b :=
  exists_of_mem_forall₂ (mapM_forall₂ h) hb

namespace Tally

/-! ### The total of a key -/

section Total

variable {α κ : Type*} [DecidableEq κ] (key : α → κ) (amount : α → Nat)

def total (k : κ) (l : List α) : Nat := ((l.filter fun a => key a = k).map amount).sum

variable {key amount} {k : κ} {l l' : List α}

@[simp] theorem total_nil : total key amount k [] = 0 := rfl

theorem total_cons (a : α) (l : List α) :
    total key amount k (a :: l) = (if key a = k then amount a else 0) + total key amount k l := by
  by_cases h : key a = k
  · simp [total, h]
  · simp [total, h]

@[simp] theorem total_append :
    total key amount k (l ++ l') = total key amount k l + total key amount k l' := by
  simp [total]

theorem total_le_of_sublist (h : l.Sublist l') : total key amount k l ≤ total key amount k l' := by
  induction h with
  | slnil => exact Nat.le_refl _
  | cons a _ ih =>
    rw [total_cons]
    omega
  | cons_cons a _ ih =>
    rw [total_cons, total_cons]
    omega

theorem total_eq_zero (h : ∀ a ∈ l, key a ≠ k) : total key amount k l = 0 := by
  have hnone : l.filter (fun a => key a = k) = [] := by simpa using h
  rw [total, hnone]
  rfl

theorem total_le_mul {bound : Nat} (h : ∀ a ∈ l, amount a ≤ bound) :
    total key amount k l ≤ l.length * bound := by
  induction l with
  | nil => exact Nat.zero_le _
  | cons a l ih =>
    have hrest := ih fun b hb => h b (.tail a hb)
    have hfirst := h a (.head _)
    rw [total_cons, length_cons, Nat.add_mul, Nat.one_mul]
    split_ifs
    · omega
    · omega

theorem total_of_pairwise (hkeys : (l.map key).Nodup) {a : α} (ha : a ∈ l) (hkey : key a = k) :
    total key amount k l = amount a := by
  induction l with
  | nil => cases ha
  | cons b l ih =>
    rw [map_cons, nodup_cons] at hkeys
    rw [total_cons]
    rcases mem_cons.mp ha with rfl | ha
    · have hnone : total key amount k l = 0 := by
        refine total_eq_zero fun c hc heq => hkeys.1 ?_
        rw [hkey, ← heq]
        exact mem_map_of_mem hc
      rw [if_pos hkey, hnone, Nat.add_zero]
    · have hne : key b ≠ k := by
        rintro rfl
        exact hkeys.1 (hkey ▸ mem_map_of_mem ha)
      rw [if_neg hne, Nat.zero_add, ih hkeys.2 ha]

/-- Two lists whose entries have equal keys and balance pairwise, balance for every key. -/
theorem total_forall₂ {β : Type*} {key' : β → κ} {f f' : α → Nat} {g g' : β → Nat} {bs : List β}
    (h : List.Forall₂ (fun a b => key a = key' b ∧ f a + g b = f' a + g' b) l bs) :
    total key f k l + total key' g k bs = total key f' k l + total key' g' k bs := by
  induction h with
  | nil => rfl
  | cons hab _ ih =>
    obtain ⟨hkey, hbalance⟩ := hab
    simp only [total_cons, hkey]
    split_ifs
    · omega
    · omega

end Total

/-! ### Grouping by key -/

section Group

variable {α κ υ : Type*} {cmp : κ → κ → Ordering} [Std.TransCmp cmp] [Std.LawfulEqCmp cmp]
  [DecidableEq κ]

/-- `map.entry(key).or_default().push(value)` for every element. -/
def group (cmp : κ → κ → Ordering) [Std.TransCmp cmp] (key : α → κ) (value : α → υ) (l : List α) :
    Std.ExtTreeMap κ (List υ) cmp :=
  l.foldl (fun m a => m.insert (key a) (m.getD (key a) [] ++ [value a])) ∅

variable {key : α → κ} {value : α → υ}

omit [Std.LawfulEqCmp cmp] [DecidableEq κ] in
theorem group_append_singleton (l : List α) (a : α) :
    group cmp key value (l ++ [a]) = (group cmp key value l).insert (key a)
      ((group cmp key value l).getD (key a) [] ++ [value a]) := by
  rw [group, foldl_append]
  rfl

/-- The values of the elements with a key. -/
def valuesAt (key : α → κ) (value : α → υ) (k : κ) (l : List α) : List υ :=
  (l.filter fun a => key a = k).map value

theorem group_get (l : List α) (k : κ) :
    (group cmp key value l)[k]? =
      if valuesAt key value k l = [] then none else some (valuesAt key value k l) := by
  induction l using List.reverseRecOn with
  | nil => rfl
  | append_singleton l a ih =>
    rw [group_append_singleton, Map.get_insert]
    by_cases hkey : key a = k
    · subst hkey
      have hvalues : valuesAt key value (key a) (l ++ [a]) =
          valuesAt key value (key a) l ++ [value a] := by
        simp [valuesAt]
      have hgetD : (group cmp key value l).getD (key a) [] = valuesAt key value (key a) l := by
        rw [getD_eq_getD_getElem?, ih]
        split_ifs with hnil
        · exact hnil.symm
        · rfl
      rw [if_pos rfl, hvalues, hgetD, if_neg (by simp)]
    · have hvalues : valuesAt key value k (l ++ [a]) = valuesAt key value k l := by
        simp [valuesAt, hkey]
      rw [if_neg hkey, hvalues, ih]

end Group

/-! ### Entries of a map -/

section Entries

variable {κ υ : Type*} {cmp : κ → κ → Ordering} [Std.TransCmp cmp] [Std.LawfulEqCmp cmp]
  [DecidableEq κ]

omit [Std.LawfulEqCmp cmp] [DecidableEq κ] in
theorem nodup_map_fst_toList (m : Std.ExtTreeMap κ υ cmp) : (m.toList.map Prod.fst).Nodup := by
  rw [map_fst_toList_eq_keys]
  exact nodup_keys

theorem total_toList (m : Std.ExtTreeMap κ υ cmp) (amount : κ × υ → Nat) (k : κ) :
    total Prod.fst amount k m.toList = (m[k]?.map fun v => amount (k, v)).getD 0 := by
  cases hget : m[k]? with
  | none =>
    refine total_eq_zero fun entry hentry heq => ?_
    have hmem := mem_toList_iff_getElem?_eq_some.mp hentry
    rw [heq, hget] at hmem
    cases hmem
  | some v =>
    have hmem : (k, v) ∈ m.toList := mem_toList_iff_getElem?_eq_some.mpr hget
    exact total_of_pairwise (nodup_map_fst_toList m) hmem rfl

end Entries

/-! ### Chunks -/

section Chunks

variable {α : Type*} {size : Nat}

/-- `iter.chunks(size)`; the fuel is the length of the list. -/
def chunksFrom (size : Nat) : Nat → List α → List (List α)
  | 0, _ => []
  | _ + 1, [] => []
  | fuel + 1, a :: l => (a :: l).take size :: chunksFrom size fuel ((a :: l).drop size)

def chunks (size : Nat) (l : List α) : List (List α) := chunksFrom size l.length l

theorem flatten_chunksFrom (hsize : 0 < size) (fuel : Nat) :
    ∀ l : List α, l.length ≤ fuel → (chunksFrom size fuel l).flatten = l := by
  induction fuel with
  | zero =>
    intro l hl
    rw [eq_nil_of_length_eq_zero (Nat.le_zero.mp hl)]
    rfl
  | succ fuel ih =>
    intro l hl
    cases l with
    | nil => rfl
    | cons a l =>
      have hdrop : ((a :: l).drop size).length ≤ fuel := by
        rw [length_drop, length_cons] at *
        omega
      rw [chunksFrom, flatten_cons, ih _ hdrop, take_append_drop]

theorem flatten_chunks (hsize : 0 < size) (l : List α) :
    (chunks size l).flatten = l :=
  flatten_chunksFrom hsize l.length l le_rfl

theorem length_le_of_mem_chunksFrom {size fuel : Nat} :
    ∀ {l : List α}, ∀ chunk ∈ chunksFrom size fuel l, chunk.length ≤ size := by
  induction fuel with
  | zero =>
    intro l chunk hchunk
    cases hchunk
  | succ fuel ih =>
    intro l chunk hchunk
    cases l with
    | nil => cases hchunk
    | cons a l =>
      rcases mem_cons.mp hchunk with rfl | hchunk
      · exact length_take_le size _
      · exact ih chunk hchunk

theorem length_le_of_mem_chunks {l chunk : List α} (h : chunk ∈ chunks size l) :
    chunk.length ≤ size :=
  length_le_of_mem_chunksFrom chunk h

theorem chunks_cons (hsize : 0 < size) (a : α) (l : List α) :
    ∃ rest, chunks size (a :: l) = (a :: l.take (size - 1)) :: rest := by
  obtain ⟨n, rfl⟩ : ∃ n, size = n + 1 := ⟨size - 1, by omega⟩
  exact ⟨_, rfl⟩

theorem chunks_of_length_le {l : List α} (hne : l ≠ []) (h : l.length ≤ size) :
    chunks size l = [l] := by
  cases l with
  | nil => exact absurd rfl hne
  | cons a l =>
    rw [chunks, length_cons, chunksFrom, take_of_length_le h, drop_of_length_le h]
    cases l.length with
    | zero => rfl
    | succ n => rfl

end Chunks

end Tally

end Haneul
