import Haneul.Authority.Transaction

/-!
# Circular ownership of transferred objects

Mirror of `check_circular_ownership` of the object runtime.  It builds a map from the transferred
objects to the objects that own them, one transfer at a time, and follows the map from each new
owner.  The walk has no visited set.  It ends because the map has no cycle at any time: the edge
that would close one is reported, not inserted.
-/

namespace Haneul.Execution

open Authority Relation

/-- The owner of an object.  What the other kinds carry is not read. -/
inductive Owner where
  | addressOwner
  | objectOwner (newOwner : ObjectID)
  | shared
  | immutable
  | consensusAddressOwner
  | party
deriving DecidableEq, Repr

/-- The inner loop: whether the owners of `cur` lead to `id`.  `none` if it takes more turns. -/
def leadsTo (objectOwnerMap : ObjectID → Option ObjectID) (id : ObjectID) :
    Nat → ObjectID → Option Bool
  | 0, _ => none
  | turns + 1, cur =>
    if cur = id then some true
    else match objectOwnerMap cur with
      | some parent => leadsTo objectOwnerMap id turns parent
      | none => some false

/-- The loop over the transfers.  The error names the object. -/
def checkTransfers (turns : Nat) :
    (ObjectID → Option ObjectID) → List (ObjectID × Owner) → Option (Except ObjectID Unit)
  | _, [] => some (.ok ())
  | objectOwnerMap, (id, recipient) :: transfers =>
    let objectOwnerMap := Function.update objectOwnerMap id none
    match recipient with
    | .objectOwner newOwner =>
      match leadsTo objectOwnerMap id turns newOwner with
      | none => none
      | some true => some (.error id)
      | some false =>
        checkTransfers turns (Function.update objectOwnerMap id (some newOwner)) transfers
    | _ => checkTransfers turns objectOwnerMap transfers

def checkCircularOwnership (turns : Nat) (transfers : List (ObjectID × Owner)) :
    Option (Except ObjectID Unit) :=
  checkTransfers turns (fun _ => none) transfers

/-! ### The walk -/

section Walk

variable {m : ObjectID → Option ObjectID} {id : ObjectID}

/-- One step along the owners. -/
def OwnedBy (m : ObjectID → Option ObjectID) (x y : ObjectID) : Prop := m x = some y

/-- Following the owners ends everywhere. -/
def Acyclic (m : ObjectID → Option ObjectID) : Prop := WellFounded fun y x => OwnedBy m x y

theorem leadsTo_spec (hm : Acyclic m) (cur : ObjectID) :
    ∃ bound found, (∀ turns ≥ bound, leadsTo m id turns cur = some found) ∧
      (found = true ↔ ReflTransGen (OwnedBy m) cur id) := by
  induction cur using hm.induction with
  | _ cur ih =>
  by_cases hcur : cur = id
  · refine ⟨1, true, fun turns hturns => ?_, iff_of_true rfl (hcur ▸ .refl)⟩
    obtain ⟨turns, rfl⟩ := Nat.exists_eq_add_of_le' hturns
    simp [leadsTo, hcur]
  · cases hparent : m cur with
    | none =>
      refine ⟨1, false, fun turns hturns => ?_, iff_of_false Bool.false_ne_true fun h => ?_⟩
      · obtain ⟨turns, rfl⟩ := Nat.exists_eq_add_of_le' hturns
        simp [leadsTo, hcur, hparent]
      · rcases h.cases_head with rfl | ⟨y, hy, -⟩
        · exact hcur rfl
        · cases hparent.symm.trans hy
    | some parent =>
      obtain ⟨bound, found, hrun, hfound⟩ := ih parent hparent
      refine ⟨bound + 1, found, fun turns hturns => ?_, hfound.trans ⟨.head hparent, fun h => ?_⟩⟩
      · obtain ⟨turns, rfl⟩ := Nat.exists_eq_add_of_le' (Nat.one_le_of_lt hturns)
        simpa [leadsTo, hcur, hparent] using hrun turns (Nat.le_of_succ_le_succ hturns)
      · rcases h.cases_head with rfl | ⟨y, hy, hrest⟩
        · exact absurd rfl hcur
        · cases hparent.symm.trans hy
          exact hrest

theorem Acyclic.remove (hm : Acyclic m) (id : ObjectID) : Acyclic (Function.update m id none) := by
  refine Subrelation.wf ?_ hm
  intro y x h
  rcases eq_or_ne x id with rfl | hne
  · simp [OwnedBy] at h
  · simpa [OwnedBy, hne] using h

/-- An edge from an object without one, whose target does not lead back to it, closes no cycle. -/
theorem Acyclic.insert (hm : Acyclic m) (hnone : m id = none) {newOwner : ObjectID}
    (hfree : ¬ ReflTransGen (OwnedBy m) newOwner id) :
    Acyclic (Function.update m id (some newOwner)) := by
  have hold : ∀ {x y}, x ≠ id → OwnedBy (Function.update m id (some newOwner)) x y →
      OwnedBy m x y := by
    intro x y hne h
    simpa [OwnedBy, hne] using h
  -- what does not lead to the object keeps its owners
  have hkeep : ∀ c, ¬ ReflTransGen (OwnedBy m) c id →
      Acc (fun y x => OwnedBy (Function.update m id (some newOwner)) x y) c := by
    intro c
    induction c using hm.induction with
    | _ c ih =>
    intro hc
    refine .intro c fun y hy => ?_
    have hstep := hold (fun heq => hc (heq ▸ .refl)) hy
    exact ih y hstep fun hreach => hc (.head hstep hreach)
  refine ⟨fun x => ?_⟩
  induction x using hm.induction with
  | _ x ih =>
  refine .intro x fun y hy => ?_
  rcases eq_or_ne x id with rfl | hne
  · obtain rfl : newOwner = y := by simpa [OwnedBy] using hy
    exact hkeep newOwner hfree
  · exact ih y (hold hne hy)

end Walk

/-! ### The whole list -/

/-- The edges of a map and of the transfers that are still to come. -/
def Edge (m : ObjectID → Option ObjectID) (transfers : List (ObjectID × Owner)) (x y : ObjectID) :
    Prop :=
  m x = some y ∨ (x, .objectOwner y) ∈ transfers

theorem checkTransfers_spec {m : ObjectID → Option ObjectID} {transfers : List (ObjectID × Owner)}
    (hm : Acyclic m) :
    ∃ bound result, (∀ turns ≥ bound, checkTransfers turns m transfers = some result) ∧
      ((transfers.map Prod.fst).Nodup → (∀ t ∈ transfers, m t.1 = none) →
        ((∃ object, result = .error object) ↔ ∃ x, TransGen (Edge m transfers) x x)) := by
  induction transfers generalizing m with
  | nil =>
    refine ⟨0, .ok (), fun _ _ => rfl, fun _ _ => iff_of_false (by simp) ?_⟩
    rintro ⟨x, hx⟩
    rw [show Edge m [] = OwnedBy m by ext; simp [Edge, OwnedBy]] at hx
    exact hm.transGen.asymmetric x x hx.swap hx.swap
  | cons t transfers ih =>
    obtain ⟨id, recipient⟩ := t
    have hremoved : (∀ t ∈ (id, recipient) :: transfers, m t.1 = none) →
        Function.update m id none = m := fun hnone => by
      rw [← hnone (id, recipient) (.head _), Function.update_eq_self]
    -- the edges are the same before and after the turn
    have hsame : ∀ {m'}, (∀ x y, Edge m' transfers x y ↔ Edge m ((id, recipient) :: transfers) x y) →
        ((∃ x, TransGen (Edge m' transfers) x x) ↔
          ∃ x, TransGen (Edge m ((id, recipient) :: transfers)) x x) := fun h => by
      rw [funext fun x => funext fun y => propext (h x y)]
    by_cases howner : ∃ newOwner, recipient = .objectOwner newOwner
    · obtain ⟨newOwner, rfl⟩ := howner
      obtain ⟨bound, found, hwalk, hfound⟩ := @leadsTo_spec _ id (hm.remove id) newOwner
      cases found with
      | true =>
        refine ⟨bound, .error id, fun turns hturns => ?_, fun _ hnone => ?_⟩
        · simp [checkTransfers, hwalk turns hturns]
        · refine iff_of_true ⟨id, rfl⟩ ⟨id, TransGen.head' (.inr (.head _)) ?_⟩
          rw [hremoved hnone] at hfound
          exact ReflTransGen.mono (fun _ _ => Or.inl) _ _ (hfound.mp rfl)
      | false =>
        have hfree := mt hfound.mpr Bool.false_ne_true
        obtain ⟨bound', result, hrun, hresult⟩ :=
          ih ((hm.remove id).insert (Function.update_self _ _ _) hfree)
        refine ⟨max bound bound', result, fun turns hturns => ?_, fun hnodup hnone => ?_⟩
        · simp only [checkTransfers, hwalk turns (le_of_max_le_left hturns)]
          exact hrun turns (le_of_max_le_right hturns)
        · obtain ⟨hnew, hnodup⟩ := List.nodup_cons.mp hnodup
          rw [hresult hnodup fun t ht => ?_, hsame fun x y => ?_]
          · rw [hremoved hnone, Edge, Edge, List.mem_cons, Prod.mk.injEq, Owner.objectOwner.injEq]
            rcases eq_or_ne x id with rfl | hne
            · simp [hnone (x, _) (.head _), eq_comm]
            · simp [hne]
          · have hne : t.1 ≠ id := fun heq => hnew (List.mem_map.mpr ⟨t, ht, heq⟩)
            simpa [hne] using hnone t (.tail _ ht)
    · obtain ⟨bound, result, hrun, hresult⟩ := ih (hm.remove id)
      refine ⟨bound, result, fun turns hturns => ?_, fun hnodup hnone => ?_⟩
      · rw [← hrun turns hturns]
        cases recipient with
        | objectOwner newOwner => exact absurd ⟨newOwner, rfl⟩ howner
        | _ => rfl
      · rw [hremoved hnone] at hresult
        rw [hresult (List.nodup_cons.mp hnodup).2 fun t ht => hnone t (.tail _ ht)]
        refine hsame fun x y => or_congr_right ?_
        rw [List.mem_cons, or_iff_right]
        rintro ⟨⟩
        exact howner ⟨y, rfl⟩

/-- **Circular ownership.**  The check ends on every list of transfers.  On transfers of distinct
    objects it fails exactly if some object is reached again along its owners. -/
theorem circular_ownership_exact (transfers : List (ObjectID × Owner)) :
    ∃ bound result, (∀ turns ≥ bound, checkCircularOwnership turns transfers = some result) ∧
      ((transfers.map Prod.fst).Nodup → ((∃ object, result = .error object) ↔
        ∃ x, TransGen (fun x y => (x, .objectOwner y) ∈ transfers) x x)) := by
  have hempty : Acyclic fun _ => none := ⟨fun x => .intro x fun y hy => by cases hy⟩
  obtain ⟨bound, result, hrun, hresult⟩ := @checkTransfers_spec _ transfers hempty
  have hedges : Edge (fun _ => none) transfers = fun x y => (x, .objectOwner y) ∈ transfers := by
    ext
    simp [Edge]
  exact ⟨bound, result, hrun, fun hnodup => hedges ▸ hresult hnodup fun _ _ => rfl⟩

/-- Three objects in a circle, the closing edge in the middle of the list. -/
example : checkCircularOwnership 3 [(1, .objectOwner 2), (3, .objectOwner 1), (5, .shared),
    (2, .objectOwner 3)] = some (.error 2) := by decide

end Haneul.Execution
