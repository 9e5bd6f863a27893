import Mathlib

/-!
# Buckets in the order of their keys

An ordered map from keys to lists, as the list of its entries.  The order in which the entries
stand is given by a test `lt`; what the map contains does not depend on it.
-/

namespace Haneul.Buckets

open List

variable {κ α : Type*} [DecidableEq κ] (lt : κ → κ → Bool)

def erase (k : κ) (m : List (κ × List α)) : List (κ × List α) := m.filter fun e => e.1 ≠ k

omit [DecidableEq κ] in
/-- An entry put before the first one with a greater key. -/
def place (k : κ) (v : List α) : List (κ × List α) → List (κ × List α)
  | [] => [(k, v)]
  | e :: m => if lt k e.1 then (k, v) :: e :: m else e :: place k v m

def insert (k : κ) (v : List α) (m : List (κ × List α)) : List (κ × List α) :=
  place lt k v (erase k m)

def get (k : κ) (m : List (κ × List α)) : Option (List α) := m.lookup k

def append (k : κ) (v : List α) (m : List (κ × List α)) : List (κ × List α) :=
  insert lt k ((get k m).getD [] ++ v) m

omit [DecidableEq κ] in
def contents (m : List (κ × List α)) : List α := m.flatMap Prod.snd

omit [DecidableEq κ] in
def NodupKeys (m : List (κ × List α)) : Prop := (m.map Prod.fst).Nodup

variable {lt} {k : κ} {v : List α} {m m' d : List (κ × List α)} {e : κ × List α}

omit [DecidableEq κ] in
theorem place_perm (k : κ) (v : List α) (m : List (κ × List α)) :
    (place lt k v m).Perm ((k, v) :: m) := by
  induction m with
  | nil => exact .refl _
  | cons e m ih =>
    rw [place]
    split_ifs
    · exact .refl _
    · exact (ih.cons e).trans (.swap _ _ _)

theorem insert_perm (k : κ) (v : List α) (m : List (κ × List α)) :
    (insert lt k v m).Perm ((k, v) :: erase k m) :=
  place_perm k v _

theorem mem_insert : e ∈ insert lt k v m ↔ e = (k, v) ∨ e ∈ m ∧ e.1 ≠ k := by
  rw [(insert_perm k v m).mem_iff, mem_cons, erase, mem_filter, decide_eq_true_iff]

omit [DecidableEq κ] in
theorem NodupKeys.filter (h : NodupKeys m) (p : κ × List α → Bool) : NodupKeys (m.filter p) :=
  h.sublist (filter_sublist.map Prod.fst)

theorem NodupKeys.insert (h : NodupKeys m) : NodupKeys (insert lt k v m) := by
  rw [NodupKeys, ((insert_perm k v m).map Prod.fst).nodup_iff, map_cons, nodup_cons]
  refine ⟨?_, h.filter _⟩
  intro hmem
  obtain ⟨e, he, hkey⟩ := mem_map.mp hmem
  rw [erase, mem_filter, decide_eq_true_iff] at he
  exact he.2 hkey

omit [DecidableEq κ] in
theorem NodupKeys.nodup (h : NodupKeys m) : m.Nodup := List.Nodup.of_map Prod.fst h

theorem get_eq_some_iff (h : NodupKeys m) : get k m = some v ↔ (k, v) ∈ m := by
  induction m with
  | nil => simp [get]
  | cons e m ih =>
    obtain ⟨key, value⟩ := e
    obtain ⟨hfresh, hrest⟩ := nodup_cons.mp h
    rw [get, lookup_cons, mem_cons]
    by_cases hkey : k = key
    · subst hkey
      have habsent : (k, v) ∉ m := fun hmem =>
        hfresh (mem_map.mpr ⟨(k, v), hmem, rfl⟩)
      simp [habsent, eq_comm]
    · rw [beq_eq_false_iff_ne.mpr hkey]
      simp [hkey, ← ih hrest, get]

theorem get_eq_none_of_forall (h : ∀ e ∈ m, e.1 ≠ k) : get k m = none := by
  induction m with
  | nil => rfl
  | cons e m ih =>
    obtain ⟨key, value⟩ := e
    rw [get, lookup_cons, beq_eq_false_iff_ne.mpr (Ne.symm (h _ (.head _)))]
    exact ih fun e he => h e (.tail _ he)

theorem get_insert (h : NodupKeys m) (key : κ) :
    get key (insert lt k v m) = if key = k then some v else get key m := by
  refine Option.ext fun w => ?_
  show get key (Buckets.insert lt k v m) = some w ↔ _ = some w
  rw [get_eq_some_iff h.insert, mem_insert]
  by_cases hkey : key = k
  · simp [hkey, eq_comm]
  · simp [hkey, get_eq_some_iff h]

theorem get_filter (h : NodupKeys m) (p : κ → Bool) (key : κ) :
    get key (m.filter fun e => p e.1) = if p key then get key m else none := by
  refine Option.ext fun w => ?_
  show get key (m.filter fun e => p e.1) = some w ↔ _ = some w
  rw [get_eq_some_iff (h.filter _), mem_filter]
  by_cases hkey : p key = true
  · simp [hkey, get_eq_some_iff h]
  · simp [hkey]

theorem perm_of_get_eq (h : NodupKeys m) (h' : NodupKeys m') (hget : ∀ k, get k m = get k m') :
    m.Perm m' := by
  rw [perm_ext_iff_of_nodup h.nodup h'.nodup]
  rintro ⟨k, v⟩
  rw [← get_eq_some_iff h, ← get_eq_some_iff h', hget]

omit [DecidableEq κ] in
theorem contents_perm (h : m.Perm m') : (contents m).Perm (contents m') := h.flatMap_right _

omit [DecidableEq κ] in
theorem contents_filter_perm (p : κ × List α → Bool) (m : List (κ × List α)) :
    (contents (m.filter p) ++ contents (m.filter fun e => !p e)).Perm (contents m) := by
  rw [contents, contents, ← flatMap_append]
  exact contents_perm (filter_append_perm p m)

omit [DecidableEq κ] in
theorem mem_contents {a : α} : a ∈ contents m ↔ ∃ e ∈ m, a ∈ e.2 := mem_flatMap

theorem contents_append (h : NodupKeys m) (k : κ) (v : List α) :
    (contents (append lt k v m)).Perm (contents m ++ v) := by
  have hkept : (contents (erase k m) ++ (get k m).getD []).Perm (contents m) := by
    have hsplit := contents_filter_perm (fun e => decide (e.1 ≠ k)) m
    refine List.Perm.trans (List.Perm.append_left _ ?_) hsplit
    cases hget : get k m with
    | none =>
      have hempty : m.filter (fun e => !decide (e.1 ≠ k)) = [] := by
        refine filter_eq_nil_iff.mpr fun e he => ?_
        have hne : e.1 ≠ k := by
          intro hkey
          have := (get_eq_some_iff h).mpr (show (k, e.2) ∈ m from hkey ▸ he)
          rw [hget] at this
          cases this
        simp [hne]
      rw [hempty]
      exact .refl _
    | some w =>
      have hmem := (get_eq_some_iff h).mp hget
      have hsingle : (m.filter fun e => !decide (e.1 ≠ k)).Perm [(k, w)] := by
        rw [perm_ext_iff_of_nodup (h.filter _).nodup (nodup_singleton _)]
        rintro ⟨key, value⟩
        rw [mem_filter, mem_singleton]
        constructor
        · rintro ⟨hin, hkey⟩
          have hkey : key = k := by simpa using hkey
          subst hkey
          have := (get_eq_some_iff h).mpr hin
          rw [hget, Option.some.injEq] at this
          rw [this]
        · intro heq
          cases heq
          exact ⟨hmem, by simp⟩
      have := contents_perm hsingle
      exact (by simpa [contents] using this.symm)
  rw [append]
  have hinsert := contents_perm (@insert_perm κ α _ lt k ((get k m).getD [] ++ v) m)
  refine hinsert.trans ?_
  show (((get k m).getD [] ++ v) ++ contents (erase k m)).Perm _
  refine perm_append_comm.trans ?_
  rw [← append_assoc]
  exact hkept.append_right v

theorem NodupKeys.append (h : NodupKeys m) : NodupKeys (append lt k v m) := h.insert

theorem mem_append : e ∈ append lt k v m ↔ e = (k, (get k m).getD [] ++ v) ∨ e ∈ m ∧ e.1 ≠ k :=
  mem_insert

end Haneul.Buckets
