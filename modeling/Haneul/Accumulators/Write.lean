import Haneul.Lib.Tally
import Haneul.Authority.Transaction

/-!
# Accumulator events, and how one transaction folds them

The writes to accumulators that a transaction emits (`accumulator_event.rs` and
`effects/object_change.rs` of `haneul-types`), and `merge_accumulator_events` of the temporary
store, which leaves one write for each accumulator.

An accumulator is named by an address and a type.  Its object id is the hash of the two; the
hash is a parameter, as are the other hashes.
-/

namespace Haneul.Accumulators

open Tally

open Authority (ObjectID)

/-! ### Names -/

abbrev HaneulAddress := Vector UInt8 32

abbrev Digest := Vector UInt8 32

def frameworkAddress : HaneulAddress := (Vector.replicate 31 0).push 2

inductive TypeTag where
  | bool
  | u8
  | u16
  | u32
  | u64
  | u128
  | u256
  | address
  | signer
  | vector (ty : TypeTag)
  | struct (address : HaneulAddress) (module name : String) (typeParams : List TypeTag)

/-- `GAS::is_gas_type`: `0x2::haneul::HANEUL`. -/
def TypeTag.isGasType : TypeTag → Bool
  | .struct addr module name typeParams =>
    addr == frameworkAddress && module == "haneul" && name == "HANEUL" && typeParams.isEmpty
  | _ => false

/-- `GasCoin::is_gas_balance`: `0x2::balance::Balance<0x2::haneul::HANEUL>`. -/
def TypeTag.isGasBalance : TypeTag → Bool
  | .struct addr module name [param] =>
    addr == frameworkAddress && module == "balance" && name == "Balance" && param.isGasType
  | _ => false

inductive ClassifiedType where
  | balance
  | unknown
deriving DecidableEq, Repr

def classify : TypeTag → ClassifiedType
  | .struct addr module name _ =>
    if addr == frameworkAddress && module == "balance" && name == "Balance" then .balance
    else .unknown
  | _ => .unknown

/-- Accumulator objects are named by an address (an account address or a UID) and a type. -/
structure AccumulatorAddress where
  address : HaneulAddress
  ty : TypeTag

abbrev AccumulatorObjId := ObjectID

/-! ### Failures -/

inductive MoveAbort where
  | notSystemAddress
  | invalidSplitAmount
  | invariantViolation
  | arithmeticError
  | fieldAlreadyExists
deriving DecidableEq, Repr

inductive Failure where
  /-- `checked_add(..).expect("validated in object runtime")` -/
  | amountOverflow
  /-- `fatal!("mismatched accumulator value types for same object")` -/
  | mismatchedValues
  /-- `writes[0]` of no writes. -/
  | noWrites
  /-- `todo!` -/
  | notImplemented
  /-- `fatal!("invalid merge")` -/
  | invalidMerge
  /-- `fatal!("invalid accumulator value")` -/
  | invalidValue
  /-- `addresses.get(&accumulator_obj).unwrap()` -/
  | missingAddress
  /-- An argument of a Move call that is not a value of the parameter's type. -/
  | invalidArgument
  | abort (code : MoveAbort)
deriving DecidableEq, Repr

/-! ### Writes -/

inductive AccumulatorOperation where
  | merge
  | split
deriving DecidableEq, Repr

inductive AccumulatorValue where
  | integer (v : UInt64)
  | integerTuple (v w : UInt64)
  /-- A list that is not empty, of event indices in the transaction and digests. -/
  | eventDigest (first : UInt64 × Digest) (rest : List (UInt64 × Digest))
deriving DecidableEq, Repr

structure AccumulatorWriteV1 where
  address : AccumulatorAddress
  operation : AccumulatorOperation
  value : AccumulatorValue

/-- `u64::checked_add(..).expect(..)` -/
def checkedAdd (v w : UInt64) : Except Failure UInt64 :=
  if v.toNat + w.toNat < 2 ^ 64 then .ok (v + w) else .error .amountOverflow

/-- One step of the fold in `AccumulatorWriteV1::merge`, over the sums of merges and splits. -/
def netStep (sums : UInt64 × UInt64) (w : AccumulatorWriteV1) : Except Failure (UInt64 × UInt64) :=
  match w.value, w.operation with
  | .integer v, .merge => do return (← checkedAdd sums.1 v, sums.2)
  | .integer v, .split => do return (sums.1, ← checkedAdd sums.2 v)
  | _, _ => .error .mismatchedValues

def extendDigests (digests : List (UInt64 × Digest)) (w : AccumulatorWriteV1) :
    Except Failure (List (UInt64 × Digest)) :=
  match w.value with
  | .eventDigest first rest => .ok (digests ++ first :: rest)
  | _ => .error .mismatchedValues

def netWrite (address : AccumulatorAddress) (merge split : UInt64) : AccumulatorWriteV1 :=
  if split ≤ merge then ⟨address, .merge, .integer (merge - split)⟩
  else ⟨address, .split, .integer (split - merge)⟩

/-- `AccumulatorWriteV1::merge`.  The addresses are compared in test configurations only. -/
def AccumulatorWriteV1.merge : List AccumulatorWriteV1 → Except Failure AccumulatorWriteV1
  | [] => .error .noWrites
  | [write] => .ok write
  | write :: writes =>
    match write.value with
    | .integer _ => do
      let sums ← (write :: writes).foldlM netStep (0, 0)
      return netWrite write.address sums.1 sums.2
    | .integerTuple _ _ => .error .notImplemented
    | .eventDigest first rest => do
      let rest ← writes.foldlM extendDigests rest
      return ⟨write.address, .merge, .eventDigest first rest⟩

structure AccumulatorEvent where
  accumulatorObj : AccumulatorObjId
  write : AccumulatorWriteV1

/-- The HANEUL that an event carries. -/
def AccumulatorEvent.haneul (event : AccumulatorEvent) : Except Failure UInt64 :=
  if event.write.address.ty.isGasBalance then
    match event.write.value with
    | .integer v => .ok v
    | _ => .error .invalidValue
  else .ok 0

/-- `total_haneul_in_event`: what goes in, and what comes out. -/
def AccumulatorEvent.totalHaneulInEvent (event : AccumulatorEvent) :
    Except Failure (UInt64 × UInt64) := do
  let haneul ← event.haneul
  match event.write.operation with
  | .merge => return (0, haneul)
  | .split => return (haneul, 0)

/-- `merge_accumulator_events`: one event for each accumulator, in the order of their ids. -/
def mergeAccumulatorEvents (events : List AccumulatorEvent) :
    Except Failure (List AccumulatorEvent) :=
  (Tally.group compare AccumulatorEvent.accumulatorObj AccumulatorEvent.write events).toList.mapM
    fun entry => do return ⟨entry.1, ← AccumulatorWriteV1.merge entry.2⟩

/-! ### What a write adds and takes -/

variable (w : AccumulatorWriteV1)

def AccumulatorWriteV1.mergeAmount : Nat :=
  match w.value, w.operation with
  | .integer v, .merge => v.toNat
  | _, _ => 0

def AccumulatorWriteV1.splitAmount : Nat :=
  match w.value, w.operation with
  | .integer v, .split => v.toNat
  | _, _ => 0

variable (k : AccumulatorObjId)

def merges (events : List AccumulatorEvent) : Nat :=
  Tally.total AccumulatorEvent.accumulatorObj (fun e => e.write.mergeAmount) k events

def splits (events : List AccumulatorEvent) : Nat :=
  Tally.total AccumulatorEvent.accumulatorObj (fun e => e.write.splitAmount) k events

theorem merges_append_singleton (events : List AccumulatorEvent)
    (e : AccumulatorEvent) : merges k (events ++ [e]) =
      merges k events + if e.accumulatorObj = k then e.write.mergeAmount else 0 := by
  rw [merges, total_append, total_cons, total_nil, Nat.add_zero]
  rfl

theorem splits_append_singleton (events : List AccumulatorEvent)
    (e : AccumulatorEvent) : splits k (events ++ [e]) =
      splits k events + if e.accumulatorObj = k then e.write.splitAmount else 0 := by
  rw [splits, total_append, total_cons, total_nil, Nat.add_zero]
  rfl

structure AccumulatorWriteV1.IsBalance (w : AccumulatorWriteV1) : Prop where
  balance : classify w.address.ty = .balance
  integer : ∃ v, w.value = .integer v

theorem AccumulatorWriteV1.IsBalance.cases {w : AccumulatorWriteV1} (h : w.IsBalance) :
    (∃ v : UInt64, w.value = .integer v ∧ w.operation = .merge ∧ w.mergeAmount = v.toNat ∧
      w.splitAmount = 0) ∨
    ∃ v : UInt64, w.value = .integer v ∧ w.operation = .split ∧ w.mergeAmount = 0 ∧
      w.splitAmount = v.toNat := by
  obtain ⟨v, hv⟩ := h.integer
  cases hop : w.operation with
  | merge => exact .inl ⟨v, hv, rfl, by simp [mergeAmount, hv, hop], by simp [splitAmount, hv, hop]⟩
  | split => exact .inr ⟨v, hv, rfl, by simp [mergeAmount, hv, hop], by simp [splitAmount, hv, hop]⟩

theorem AccumulatorWriteV1.mergeAmount_lt : w.mergeAmount < 2 ^ 64 := by
  unfold mergeAmount
  split
  · exact UInt64.toNat_lt _
  · exact Nat.two_pow_pos 64

theorem AccumulatorWriteV1.splitAmount_lt : w.splitAmount < 2 ^ 64 := by
  unfold splitAmount
  split
  · exact UInt64.toNat_lt _
  · exact Nat.two_pow_pos 64

/-! ### Folding the writes of one accumulator -/

theorem checkedAdd_eq_ok {v w sum : UInt64} (h : checkedAdd v w = .ok sum) :
    sum.toNat = v.toNat + w.toNat := by
  unfold checkedAdd at h
  split_ifs at h with hlt
  cases h
  rw [UInt64.toNat_add, Nat.mod_eq_of_lt hlt]

variable {sums sums' : UInt64 × UInt64}

theorem netStep_ok {w : AccumulatorWriteV1} (h : netStep sums w = .ok sums') :
    sums'.1.toNat = sums.1.toNat + w.mergeAmount ∧
      sums'.2.toNat = sums.2.toNat + w.splitAmount := by
  unfold netStep at h
  split at h
  case h_1 v hv hop =>
    obtain ⟨sum, hsum, hpure⟩ := bind_eq_ok.mp h
    cases hpure
    simp [AccumulatorWriteV1.mergeAmount, AccumulatorWriteV1.splitAmount, hv, hop,
      checkedAdd_eq_ok hsum]
  case h_2 v hv hop =>
    obtain ⟨sum, hsum, hpure⟩ := bind_eq_ok.mp h
    cases hpure
    simp [AccumulatorWriteV1.mergeAmount, AccumulatorWriteV1.splitAmount, hv, hop,
      checkedAdd_eq_ok hsum]
  case h_3 => cases h

theorem netStep_total {sums : UInt64 × UInt64} {w : AccumulatorWriteV1}
    (hinteger : ∃ v, w.value = .integer v) (hmerge : sums.1.toNat + w.mergeAmount < 2 ^ 64)
    (hsplit : sums.2.toNat + w.splitAmount < 2 ^ 64) : ∃ sums', netStep sums w = .ok sums' := by
  obtain ⟨v, hv⟩ := hinteger
  cases hop : w.operation with
  | merge =>
    simp only [AccumulatorWriteV1.mergeAmount, hv, hop] at hmerge
    exact ⟨(sums.1 + v, sums.2), by simp only [netStep, hv, hop, checkedAdd, if_pos hmerge]; rfl⟩
  | split =>
    simp only [AccumulatorWriteV1.splitAmount, hv, hop] at hsplit
    exact ⟨(sums.1, sums.2 + v), by simp only [netStep, hv, hop, checkedAdd, if_pos hsplit]; rfl⟩

variable {writes : List AccumulatorWriteV1}

theorem foldlM_netStep_ok (h : writes.foldlM netStep sums = .ok sums') :
    sums'.1.toNat = sums.1.toNat + (writes.map AccumulatorWriteV1.mergeAmount).sum ∧
      sums'.2.toNat = sums.2.toNat + (writes.map AccumulatorWriteV1.splitAmount).sum := by
  induction writes generalizing sums with
  | nil =>
    cases h
    exact ⟨rfl, rfl⟩
  | cons w writes ih =>
    obtain ⟨sums₁, hstep, hrest⟩ := foldlM_cons_eq_ok.mp h
    have hfirst := netStep_ok hstep
    have hsums := ih hrest
    rw [List.map_cons, List.sum_cons, List.map_cons, List.sum_cons]
    omega

theorem foldlM_netStep_total
    (hinteger : ∀ w ∈ writes, ∃ v, w.value = .integer v) {sums : UInt64 × UInt64}
    (hmerge : sums.1.toNat + (writes.map AccumulatorWriteV1.mergeAmount).sum < 2 ^ 64)
    (hsplit : sums.2.toNat + (writes.map AccumulatorWriteV1.splitAmount).sum < 2 ^ 64) :
    ∃ sums', writes.foldlM netStep sums = .ok sums' := by
  induction writes generalizing sums with
  | nil => exact ⟨sums, rfl⟩
  | cons w writes ih =>
    rw [List.map_cons, List.sum_cons] at hmerge hsplit
    obtain ⟨sums₁, hstep⟩ := @netStep_total sums w (hinteger w (.head _)) (by omega) (by omega)
    have hfirst := netStep_ok hstep
    obtain ⟨sums', hrest⟩ := @ih (fun w' hw' => hinteger w' (.tail w hw')) sums₁
      (by omega) (by omega)
    exact ⟨sums', foldlM_cons_eq_ok.mpr ⟨sums₁, hstep, hrest⟩⟩

theorem netWrite_spec (address : AccumulatorAddress) (merge split : UInt64) :
    (netWrite address merge split).address = address ∧
      (∃ v, (netWrite address merge split).value = .integer v) ∧
      (netWrite address merge split).mergeAmount + split.toNat =
        (netWrite address merge split).splitAmount + merge.toNat := by
  unfold netWrite
  split_ifs with hle
  · refine ⟨rfl, ⟨_, rfl⟩, ?_⟩
    have hsub : (merge - split).toNat = merge.toNat - split.toNat := UInt64.toNat_sub_of_le _ _ hle
    simp only [AccumulatorWriteV1.mergeAmount, AccumulatorWriteV1.splitAmount, hsub]
    have := UInt64.le_iff_toNat_le.mp hle
    omega
  · refine ⟨rfl, ⟨_, rfl⟩, ?_⟩
    have hlt : merge ≤ split := UInt64.le_of_lt (UInt64.not_le.mp hle)
    have hsub : (split - merge).toNat = split.toNat - merge.toNat := UInt64.toNat_sub_of_le _ _ hlt
    simp only [AccumulatorWriteV1.mergeAmount, AccumulatorWriteV1.splitAmount, hsub]
    have := UInt64.le_iff_toNat_le.mp hlt
    omega

theorem merge_ok {w : AccumulatorWriteV1} (hinteger : ∀ w ∈ writes, ∃ v, w.value = .integer v)
    (h : AccumulatorWriteV1.merge writes = .ok w) :
    (∃ w₀ ∈ writes, w₀.address = w.address) ∧ (∃ v, w.value = .integer v) ∧
      w.mergeAmount + (writes.map AccumulatorWriteV1.splitAmount).sum =
        w.splitAmount + (writes.map AccumulatorWriteV1.mergeAmount).sum := by
  rcases writes with _ | ⟨first, _ | ⟨second, writes⟩⟩
  · cases h
  · cases h
    refine ⟨⟨w, .head _, rfl⟩, hinteger w (.head _), ?_⟩
    simp only [List.map_cons, List.map_nil, List.sum_singleton]
    omega
  · obtain ⟨v, hv⟩ := hinteger first (.head _)
    simp only [AccumulatorWriteV1.merge, hv] at h
    obtain ⟨sums, hfold, hpure⟩ := bind_eq_ok.mp h
    cases hpure
    obtain ⟨haddress, hvalue, hnet⟩ := netWrite_spec first.address sums.1 sums.2
    obtain ⟨hsum₁, hsum₂⟩ := foldlM_netStep_ok hfold
    rw [hsum₁, hsum₂] at hnet
    exact ⟨⟨first, .head _, haddress.symm⟩, hvalue, by simpa using hnet⟩

theorem merge_total (hne : writes ≠ []) (hinteger : ∀ w ∈ writes, ∃ v, w.value = .integer v)
    (hmerge : (writes.map AccumulatorWriteV1.mergeAmount).sum < 2 ^ 64)
    (hsplit : (writes.map AccumulatorWriteV1.splitAmount).sum < 2 ^ 64) :
    ∃ w, AccumulatorWriteV1.merge writes = .ok w := by
  rcases writes with _ | ⟨first, _ | ⟨second, writes⟩⟩
  · exact absurd rfl hne
  · exact ⟨first, rfl⟩
  · obtain ⟨v, hv⟩ := hinteger first (.head _)
    obtain ⟨sums, hfold⟩ := @foldlM_netStep_total _ hinteger (0, 0)
      (by simpa using hmerge) (by simpa using hsplit)
    simp only [AccumulatorWriteV1.merge, hv]
    exact ⟨_, bind_eq_ok.mpr ⟨sums, hfold, rfl⟩⟩

/-! ### Folding the events of one transaction -/

/-- The events a transaction leaves in its effects, against those it emitted. -/
structure Folded (raw merged : List AccumulatorEvent) : Prop where
  nodup : (merged.map AccumulatorEvent.accumulatorObj).Nodup
  source : ∀ e ∈ merged, (∃ v, e.write.value = .integer v) ∧
    ∃ e₀ ∈ raw, e₀.accumulatorObj = e.accumulatorObj ∧ e₀.write.address = e.write.address
  covers : ∀ e₀ ∈ raw, ∃ e ∈ merged, e.accumulatorObj = e₀.accumulatorObj
  net : ∀ k, merges k merged + splits k raw = splits k merged + merges k raw

/-- The writes of an accumulator in a list of events. -/
abbrev writesAt (events : List AccumulatorEvent) : List AccumulatorWriteV1 :=
  Tally.valuesAt AccumulatorEvent.accumulatorObj AccumulatorEvent.write k events

theorem sum_mergeAmount_writesAt (events : List AccumulatorEvent) :
    ((writesAt k events).map AccumulatorWriteV1.mergeAmount).sum = merges k events := by
  rw [writesAt, valuesAt, List.map_map]
  rfl

theorem sum_splitAmount_writesAt (events : List AccumulatorEvent) :
    ((writesAt k events).map AccumulatorWriteV1.splitAmount).sum = splits k events := by
  rw [writesAt, valuesAt, List.map_map]
  rfl

variable {events : List AccumulatorEvent}

theorem mem_writesAt {k : AccumulatorObjId} {w : AccumulatorWriteV1} (h : w ∈ writesAt k events) :
    ∃ e ∈ events, e.accumulatorObj = k ∧ e.write = w := by
  obtain ⟨e, he, rfl⟩ := List.mem_map.mp h
  obtain ⟨hmem, hkey⟩ := List.mem_filter.mp he
  exact ⟨e, hmem, by simpa using hkey, rfl⟩

/-- The groups of a transaction's events. -/
abbrev grouped (events : List AccumulatorEvent) :
    Std.ExtTreeMap AccumulatorObjId (List AccumulatorWriteV1) compare :=
  Tally.group compare AccumulatorEvent.accumulatorObj AccumulatorEvent.write events

theorem mem_grouped {k : AccumulatorObjId}
    {writes : List AccumulatorWriteV1} (h : (k, writes) ∈ (grouped events).toList) :
    writes = writesAt k events ∧ writes ≠ [] := by
  have hget := Std.ExtTreeMap.mem_toList_iff_getElem?_eq_some.mp h
  rw [group_get] at hget
  split_ifs at hget with hnil
  cases hget
  exact ⟨rfl, hnil⟩

theorem total_grouped (events : List AccumulatorEvent) (k : AccumulatorObjId)
    (amount : AccumulatorWriteV1 → Nat) :
    total Prod.fst (fun entry => (entry.2.map amount).sum) k (grouped events).toList =
      ((writesAt k events).map amount).sum := by
  rw [total_toList, group_get]
  split_ifs with hnil
  · rw [writesAt, hnil]
    rfl
  · rfl

theorem mergeAccumulatorEvents_total {raw : List AccumulatorEvent}
    (hinteger : ∀ e ∈ raw, ∃ v, e.write.value = .integer v) (hmerges : ∀ k, merges k raw < 2 ^ 64)
    (hsplits : ∀ k, splits k raw < 2 ^ 64) : ∃ merged, mergeAccumulatorEvents raw = .ok merged := by
  refine mapM_total ?_
  rintro ⟨k, writes⟩ hentry
  obtain ⟨rfl, hne⟩ := mem_grouped hentry
  obtain ⟨w, hw⟩ := merge_total hne (fun w hw => by
      obtain ⟨e, he, -, rfl⟩ := mem_writesAt hw
      exact hinteger e he)
    (sum_mergeAmount_writesAt k raw ▸ hmerges k) (sum_splitAmount_writesAt k raw ▸ hsplits k)
  exact ⟨⟨k, w⟩, bind_eq_ok.mpr ⟨w, hw, rfl⟩⟩

theorem Folded.of_ok {raw merged : List AccumulatorEvent}
    (hinteger : ∀ e ∈ raw, ∃ v, e.write.value = .integer v)
    (hmerged : mergeAccumulatorEvents raw = .ok merged) : Folded raw merged := by
  -- the entries of the groups and the merged events, pair by pair
  have hpairs : List.Forall₂ (fun (entry : AccumulatorObjId × List AccumulatorWriteV1)
      (e : AccumulatorEvent) => entry ∈ (grouped raw).toList ∧ entry.1 = e.accumulatorObj ∧
        (∃ w₀ ∈ entry.2, w₀.address = e.write.address) ∧ (∃ v, e.write.value = .integer v) ∧
        (entry.2.map AccumulatorWriteV1.splitAmount).sum + e.write.mergeAmount =
          (entry.2.map AccumulatorWriteV1.mergeAmount).sum + e.write.splitAmount)
      (grouped raw).toList merged := by
    refine List.forall₂_iff_zip.mpr ⟨(mapM_forall₂ hmerged).length_eq, ?_⟩
    intro entry e hzip
    have hentry := (List.of_mem_zip hzip).1
    obtain ⟨w, hw, he⟩ := bind_eq_ok.mp ((List.forall₂_iff_zip.mp (mapM_forall₂ hmerged)).2 hzip)
    cases he
    obtain ⟨hwrites, -⟩ := mem_grouped hentry
    obtain ⟨hsource, hvalue, hnet⟩ := merge_ok (fun w hw => by
      obtain ⟨e, he, -, rfl⟩ := mem_writesAt (hwrites ▸ hw)
      exact hinteger e he) hw
    exact ⟨hentry, rfl, hsource, hvalue, by dsimp only; omega⟩
  have hkeys : (grouped raw).toList.map Prod.fst = merged.map AccumulatorEvent.accumulatorObj := by
    rw [← List.forall₂_eq_eq_eq, List.forall₂_map_left_iff, List.forall₂_map_right_iff]
    exact hpairs.imp fun _ _ h => h.2.1
  constructor
  case nodup =>
    rw [← hkeys]
    exact nodup_map_fst_toList _
  case source =>
    intro e he
    obtain ⟨⟨k, writes⟩, -, hentry, hkey, ⟨w₀, hw₀, haddress⟩, hvalue, -⟩ :=
      exists_of_mem_forall₂ hpairs he
    obtain ⟨rfl, -⟩ := mem_grouped hentry
    obtain ⟨e₀, he₀, hkey₀, rfl⟩ := mem_writesAt hw₀
    exact ⟨hvalue, e₀, he₀, hkey₀.trans hkey, haddress⟩
  case covers =>
    intro e₀ he₀
    have hmem : (e₀.accumulatorObj, writesAt e₀.accumulatorObj raw) ∈ (grouped raw).toList := by
      refine Std.ExtTreeMap.mem_toList_iff_getElem?_eq_some.mpr ?_
      rw [group_get, if_neg]
      refine List.ne_nil_of_mem (a := e₀.write) ?_
      exact List.mem_map.mpr ⟨e₀, List.mem_filter.mpr ⟨he₀, by simp⟩, rfl⟩
    have hkey : e₀.accumulatorObj ∈ merged.map AccumulatorEvent.accumulatorObj :=
      hkeys ▸ List.mem_map_of_mem (f := Prod.fst) hmem
    exact List.mem_map.mp hkey
  case net =>
    intro k
    have hnet := total_forall₂ (k := k) (hpairs.imp fun _ _ h => ⟨h.2.1, h.2.2.2.2⟩)
    rw [total_grouped, total_grouped, sum_splitAmount_writesAt, sum_mergeAmount_writesAt] at hnet
    unfold merges splits at *
    omega

end Haneul.Accumulators
