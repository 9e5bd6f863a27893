import Haneul.Accumulators.SettlementBuild

/-!
# Settlement is exact

The settlement of a checkpoint changes every balance by the sum of what the checkpoint's
transactions merged into it and split from it.  The amounts are netted in each transaction, in
the checkpoint, and in each call; what is kept through all three is the difference of merges and
splits.

An accumulator exists exactly while its balance is not zero, and the barrier transaction keeps
the number of accumulators (`RootInv`).
-/

namespace Haneul.Accumulators

open List Std.ExtTreeMap

/-! ### The updates of a checkpoint -/

section Updates

variable {hashes : Hashes} {event : AccumulatorEvent}

structure BalanceEvent (hashes : Hashes) (event : AccumulatorEvent) : Prop where
  balance : classify event.write.address.ty = .balance
  integer : ∃ v, event.write.value = .integer v
  fieldId : hashes.fieldId event.write.address = event.accumulatorObj

/-- What the builder knows after some events. -/
structure Recorded (hashes : Hashes) (events : List AccumulatorEvent)
    (b : AccumulatorSettlementTxBuilder) : Prop where
  written : ∀ e ∈ events, ∃ update address, b.updates[e.accumulatorObj]? = some update ∧
    update.merge = .sumU128 (merges e.accumulatorObj events) ∧
    update.split = .sumU128 (splits e.accumulatorObj events) ∧
    b.addresses[e.accumulatorObj]? = some address ∧ classify address.ty = .balance ∧
    hashes.fieldId address = e.accumulatorObj
  unwritten : ∀ k, (∀ e ∈ events, e.accumulatorObj ≠ k) → b.updates[k]? = none

theorem totalHaneulInEvent_total (h : BalanceEvent hashes event) :
    ∃ flows, event.totalHaneulInEvent = .ok flows := by
  obtain ⟨v, hv⟩ := h.integer
  have hhaneul : ∃ haneul, event.haneul = .ok haneul := by
    unfold AccumulatorEvent.haneul
    rw [hv]
    split_ifs
    · exact ⟨v, rfl⟩
    · exact ⟨0, rfl⟩
  obtain ⟨haneul, hhaneul⟩ := hhaneul
  unfold AccumulatorEvent.totalHaneulInEvent
  rw [hhaneul]
  cases event.write.operation with
  | merge => exact ⟨_, rfl⟩
  | split => exact ⟨_, rfl⟩

theorem update_add (hevent : BalanceEvent hashes event) {update : Update} {merge split : Nat}
    (hmerge : update.merge = .sumU128 merge) (hsplit : update.split = .sumU128 split)
    (hmergeLt : merge + event.write.mergeAmount < 2 ^ 128)
    (hsplitLt : split + event.write.splitAmount < 2 ^ 128) (checkpointSeq transactionIdx : UInt64) :
    ∃ update', update.add checkpointSeq transactionIdx event = .ok update' ∧
      update'.merge = .sumU128 (merge + event.write.mergeAmount) ∧
      update'.split = .sumU128 (split + event.write.splitAmount) := by
  obtain ⟨flows, hflows⟩ := totalHaneulInEvent_total hevent
  rcases AccumulatorWriteV1.IsBalance.cases ⟨hevent.balance, hevent.integer⟩ with
    ⟨v, hv, hop, hm, hs⟩ | ⟨v, hv, hop, hm, hs⟩
  · rw [hm] at hmergeLt ⊢
    rw [hs]
    simp only [Update.add, hflows, hop, hv, hmerge, MergedValueIntermediate.accumulateInto]
    rw [Nat.mod_eq_of_lt hmergeLt]
    exact ⟨_, rfl, rfl, hsplit⟩
  · rw [hs] at hsplitLt ⊢
    rw [hm]
    simp only [Update.add, hflows, hop, hv, hsplit, MergedValueIntermediate.accumulateInto]
    rw [Nat.mod_eq_of_lt hsplitLt]
    exact ⟨_, rfl, hmerge, rfl⟩

theorem Recorded.addEvent {events : List AccumulatorEvent} {b : AccumulatorSettlementTxBuilder}
    (hb : Recorded hashes events b) (hevent : BalanceEvent hashes event)
    (hmerges : merges event.accumulatorObj (events ++ [event]) < 2 ^ 128)
    (hsplits : splits event.accumulatorObj (events ++ [event]) < 2 ^ 128)
    (checkpointSeq txIndexOffset : UInt64) (txIndex : Nat) :
    ∃ b', b.addEvent checkpointSeq txIndexOffset (event, txIndex) = .ok b' ∧
      Recorded hashes (events ++ [event]) b' := by
  rw [merges_append_singleton, if_pos rfl] at hmerges
  rw [splits_append_singleton, if_pos rfl] at hsplits
  -- the entry of the map, or a zero
  have hentry : ∃ update : Update,
      b.updates.getD event.accumulatorObj (.start event.write.value) = update ∧
      update.merge = .sumU128 (merges event.accumulatorObj events) ∧
      update.split = .sumU128 (splits event.accumulatorObj events) := by
    by_cases hseen : ∃ e ∈ events, e.accumulatorObj = event.accumulatorObj
    · obtain ⟨e, he, hkey⟩ := hseen
      obtain ⟨update, -, hget, hmerge, hsplit, -⟩ := hb.written e he
      rw [hkey] at hget hmerge hsplit
      refine ⟨update, ?_, hmerge, hsplit⟩
      rw [getD_eq_getD_getElem?, hget]
      rfl
    · have hnone : ∀ e ∈ events, e.accumulatorObj ≠ event.accumulatorObj :=
        fun e he hkey => hseen ⟨e, he, hkey⟩
      obtain ⟨v, hv⟩ := hevent.integer
      refine ⟨.start event.write.value, ?_, ?_, ?_⟩
      · rw [getD_eq_getD_getElem?, hb.unwritten _ hnone]
        rfl
      · rw [merges, Tally.total_eq_zero hnone, hv]
        rfl
      · rw [splits, Tally.total_eq_zero hnone, hv]
        rfl
  obtain ⟨update, hget, hmerge, hsplit⟩ := hentry
  obtain ⟨update', hadd, hmerge', hsplit'⟩ := update_add hevent hmerge hsplit hmerges hsplits
    checkpointSeq (UInt64.ofNat txIndex + txIndexOffset)
  refine ⟨_, bind_eq_ok.mpr ⟨update', ?_, rfl⟩, ?_, ?_⟩
  · rw [hget]
    exact hadd
  · intro e he
    dsimp only
    by_cases hkey : event.accumulatorObj = e.accumulatorObj
    · refine ⟨update', event.write.address, ?_, ?_, ?_, ?_, hevent.balance, ?_⟩
      · rw [Map.get_insert, if_pos hkey]
      · rw [← hkey, merges_append_singleton, if_pos rfl]
        exact hmerge'
      · rw [← hkey, splits_append_singleton, if_pos rfl]
        exact hsplit'
      · rw [Map.get_insert, if_pos hkey]
      · rw [hevent.fieldId, hkey]
    · have he' : e ∈ events := by
        rcases mem_append.mp he with he | he
        · exact he
        · exact absurd (by rw [mem_singleton.mp he]) hkey
      obtain ⟨u, address, hu, hm, hs, haddress, hbalance, hfield⟩ := hb.written e he'
      refine ⟨u, address, ?_, ?_, ?_, ?_, hbalance, hfield⟩
      · rw [Map.get_insert, if_neg hkey, hu]
      · rw [merges_append_singleton, if_neg hkey, Nat.add_zero]
        exact hm
      · rw [splits_append_singleton, if_neg hkey, Nat.add_zero]
        exact hs
      · rw [Map.get_insert, if_neg hkey, haddress]
  · intro k hk
    have hne : event.accumulatorObj ≠ k := hk event (by simp)
    dsimp only
    rw [Map.get_insert, if_neg hne]
    exact hb.unwritten k fun e he => hk e (mem_append_left _ he)

theorem map_fst_indexed (ckptEffects : List (List AccumulatorEvent)) :
    (AccumulatorSettlementTxBuilder.indexed ckptEffects).map Prod.fst = ckptEffects.flatten := by
  have hgeneral : ∀ n, (ckptEffects.zipIdx n).flatMap (fun effect => effect.1) =
      ckptEffects.flatten := by
    intro n
    rw [flatMap_def]
    congr 1
    exact zipIdx_map_fst n ckptEffects
  rw [AccumulatorSettlementTxBuilder.indexed, map_flatMap]
  simpa [Function.comp_def] using hgeneral 0

theorem new_spec {ckptEffects : List (List AccumulatorEvent)}
    (hevents : ∀ e ∈ ckptEffects.flatten, BalanceEvent hashes e)
    (hmerges : ∀ k, merges k ckptEffects.flatten < 2 ^ 128)
    (hsplits : ∀ k, splits k ckptEffects.flatten < 2 ^ 128) (checkpointSeq txIndexOffset : UInt64) :
    ∃ b, AccumulatorSettlementTxBuilder.new ckptEffects checkpointSeq txIndexOffset = .ok b ∧
      Recorded hashes ckptEffects.flatten b := by
  rw [← map_fst_indexed] at hevents hmerges hsplits ⊢
  refine foldlM_prefix (fun before b => Recorded hashes (before.map Prod.fst) b) ⟨nofun, ?_⟩ ?_
  · intro k _
    rfl
  · rintro before ⟨event, txIndex⟩ after b hl hb
    rw [hl] at hevents hmerges hsplits
    simp only [map_append, map_cons] at hevents hmerges hsplits ⊢
    have hsofar : before.map Prod.fst ++ [event] <+:
        before.map Prod.fst ++ event :: after.map Prod.fst := ⟨after.map Prod.fst, by simp⟩
    exact hb.addEvent (hevents event (by simp))
      (Nat.lt_of_le_of_lt (Tally.total_le_of_sublist hsofar.sublist) (hmerges _))
      (Nat.lt_of_le_of_lt (Tally.total_le_of_sublist hsofar.sublist) (hsplits _))
      checkpointSeq txIndexOffset txIndex

end Updates

/-! ### Balances -/

/-- The field of a balance: there is none for zero. -/
def balanceField (value : Nat) : Option FieldValue := if value = 0 then none else some (.u128 value)

def AccumulatorRoot.value (root : AccumulatorRoot) (k : AccumulatorObjId) : Nat :=
  match root.accumulators[k]? with
  | some (.u128 value) => value
  | _ => 0

theorem value_of_field {root : AccumulatorRoot} {k : AccumulatorObjId} {value : Nat}
    (h : root.accumulators[k]? = balanceField value) : root.value k = value := by
  rw [AccumulatorRoot.value, h, balanceField]
  split_ifs with hzero
  · exact hzero.symm
  · rfl

theorem mem_of_field {root : AccumulatorRoot} {k : AccumulatorObjId} {value : Nat}
    (h : root.accumulators[k]? = balanceField value) : k ∈ root.accumulators ↔ value ≠ 0 := by
  rw [Map.mem_iff, h, balanceField]
  split_ifs with hzero
  · simp [hzero]
  · simp [hzero]

section Settle

variable {hashes : Hashes} {root : AccumulatorRoot} {address : AccumulatorAddress}

/-- What a settled accumulator leaves alone. -/
structure SameElsewhere (k : AccumulatorObjId) (root root' : AccumulatorRoot) : Prop where
  other : ∀ k', k' ≠ k → root'.accumulators[k']? = root.accumulators[k']?
  objectCount : root'.objectCount = root.objectCount

theorem settleU128_system (hashes : Hashes) (root : AccumulatorRoot) (address : AccumulatorAddress)
    (merge split : Nat) :
    settleU128 hashes systemTx root address.ty address.address merge split =
      if (merge = 0) = (split = 0) then .error (.abort .invalidSplitAmount)
      else match root.accumulators[hashes.fieldId address]? with
        | some (.u128 value) => root.updateAccumulator (hashes.fieldId address) value merge split
        | _ =>
          if split ≠ 0 then .error (.abort .invalidSplitAmount)
          else root.addAccumulator (hashes.fieldId address) (.u128 merge) :=
  rfl

theorem settleU128_spec (merge split : Nat) {value : Nat}
    (hfield : root.accumulators[hashes.fieldId address]? = balanceField value)
    (hnet : (merge = 0) ≠ (split = 0)) (hle : split ≤ value + merge)
    (hlt : value + merge < 2 ^ 128) :
    ∃ root', settleU128 hashes systemTx root address.ty address.address merge split = .ok root' ∧
      root'.accumulators[hashes.fieldId address]? = balanceField (value + merge - split) ∧
      SameElsewhere (hashes.fieldId address) root root' := by
  rw [settleU128_system, if_neg hnet, hfield, balanceField]
  by_cases hzero : value = 0
  · -- no field yet, so nothing can be split
    subst hzero
    have hsplit : split = 0 := by
      by_contra hsplit
      have hmerge : merge ≠ 0 := by omega
      exact hnet (by simp [hsplit, hmerge])
    have hmerge : merge ≠ 0 := by
      intro hmerge
      exact hnet (by simp [hsplit, hmerge])
    subst hsplit
    have hnone : root.accumulators[hashes.fieldId address]? = none := by
      rw [hfield, balanceField, if_pos rfl]
    rw [if_pos rfl]
    dsimp only
    rw [if_neg (by simp), AccumulatorRoot.addAccumulator, hnone]
    refine ⟨_, rfl, ?_, fun k' hk' => ?_, rfl⟩
    · simp [balanceField, hmerge]
    · exact Map.get_insert_of_ne (Ne.symm hk')
  · have hupdate : updateU128 value merge split = .ok (value + merge - split) := if_neg (by omega)
    rw [if_neg hzero]
    dsimp only
    rw [AccumulatorRoot.updateAccumulator, hupdate]
    refine ⟨_, rfl, ?_, fun k' hk' => ?_, rfl⟩
    · by_cases hleft : value + merge - split = 0
      · simp [hleft, balanceField]
      · simp [hleft, balanceField]
    · by_cases hleft : value + merge - split = 0
      · simp [hleft, Map.get_erase, Ne.symm hk']
      · simp [hleft, Map.get_insert, Ne.symm hk']

theorem run_settleCalls {value merge split : Nat}
    (hfield : root.accumulators[hashes.fieldId address]? = balanceField value)
    (hvalue : value < 2 ^ 128) (hle : split ≤ value + merge)
    (hlt : value + merge - split < 2 ^ 128) :
    ∃ root', (settleCalls address (netOut merge split)).foldlM
        (SettlementCall.run hashes systemTx) root = .ok root' ∧
      root'.accumulators[hashes.fieldId address]? = balanceField (value + merge - split) ∧
      SameElsewhere (hashes.fieldId address) root root' := by
  unfold netOut
  by_cases hcmp : split ≤ merge
  · rw [if_pos hcmp, settleCalls]
    have hsum : value + (merge - split) - 0 = value + merge - split := by omega
    by_cases hzero : merge - split = 0
    · refine ⟨root, ?_, ?_, fun _ _ => rfl, rfl⟩
      · rw [if_neg (by simp [hzero])]
        rfl
      · rw [hfield, ← hsum, hzero]
        rfl
    · obtain ⟨root', hrun, hfield', hsame⟩ := settleU128_spec (merge - split) 0 hfield
        (by simp [hzero]) (Nat.zero_le _) (by omega)
      refine ⟨root', ?_, hsum ▸ hfield', hsame⟩
      rw [if_pos (.inl hzero)]
      exact foldlM_cons_eq_ok.mpr ⟨root', hrun, rfl⟩
  · rw [if_neg hcmp, settleCalls]
    have hsum : value + 0 - (split - merge) = value + merge - split := by omega
    have hnonzero : split - merge ≠ 0 := by omega
    obtain ⟨root', hrun, hfield', hsame⟩ := settleU128_spec 0 (split - merge) hfield
      (by simp [hnonzero]) (by omega) hvalue
    refine ⟨root', ?_, hsum ▸ hfield', hsame⟩
    rw [if_pos (.inr hnonzero)]
    exact foldlM_cons_eq_ok.mpr ⟨root', hrun, rfl⟩

/-! ### Lists of updates -/

/-- An update that the stored balance can take. -/
structure Payable (root : AccumulatorRoot) (entry : AccumulatorObjId × Update) : Prop where
  field : root.accumulators[entry.1]? = balanceField (root.value entry.1)
  value_lt : root.value entry.1 < 2 ^ 128
  covered : entry.2.sums.2 ≤ root.value entry.1 + entry.2.sums.1
  fits : root.value entry.1 + entry.2.sums.1 - entry.2.sums.2 < 2 ^ 128

/-- The updates have been added to the balances, and nothing else has changed. -/
structure Applied (root : AccumulatorRoot) (updates : List (AccumulatorObjId × Update))
    (root' : AccumulatorRoot) : Prop where
  updated : ∀ entry ∈ updates, root'.accumulators[entry.1]? =
    balanceField (root.value entry.1 + entry.2.sums.1 - entry.2.sums.2)
  other : ∀ k, k ∉ updates.map Prod.fst → root'.accumulators[k]? = root.accumulators[k]?
  objectCount : root'.objectCount = root.objectCount

theorem Applied.nil (root : AccumulatorRoot) : Applied root [] root := ⟨nofun, fun _ _ => rfl, rfl⟩

variable {root root' : AccumulatorRoot}

theorem value_congr {k : AccumulatorObjId}
    (h : root'.accumulators[k]? = root.accumulators[k]?) : root'.value k = root.value k := by
  rw [AccumulatorRoot.value, AccumulatorRoot.value, h]

variable {updates : List (AccumulatorObjId × Update)} {entry : AccumulatorObjId × Update}

theorem Payable.of_applied (happlied : Applied root updates root')
    (hentry : entry.1 ∉ updates.map Prod.fst) (h : Payable root entry) : Payable root' entry := by
  have hsame := happlied.other entry.1 hentry
  have hvalue := value_congr hsame
  refine ⟨?_, ?_, ?_, ?_⟩
  · rw [hsame, hvalue]
    exact h.field
  · rw [hvalue]
    exact h.value_lt
  · rw [hvalue]
    exact h.covered
  · rw [hvalue]
    exact h.fits

theorem Applied.append {root root₁ root₂ : AccumulatorRoot}
    {updates updates' : List (AccumulatorObjId × Update)} (h₁ : Applied root updates root₁)
    (h₂ : Applied root₁ updates' root₂) (hnodup : ((updates ++ updates').map Prod.fst).Nodup) :
    Applied root (updates ++ updates') root₂ := by
  rw [map_append, nodup_append] at hnodup
  obtain ⟨-, -, hdisjoint⟩ := hnodup
  refine ⟨?_, ?_, h₂.objectCount.trans h₁.objectCount⟩
  · intro entry hentry
    rcases mem_append.mp hentry with hentry | hentry
    · have hmem : entry.1 ∈ updates.map Prod.fst := mem_map_of_mem hentry
      rw [h₂.other entry.1 fun hmem' => hdisjoint _ hmem _ hmem' rfl]
      exact h₁.updated entry hentry
    · have hmem : entry.1 ∈ updates'.map Prod.fst := mem_map_of_mem hentry
      rw [h₂.updated entry hentry,
        value_congr (h₁.other entry.1 fun hmem' => hdisjoint _ hmem' _ hmem rfl)]
  · intro k hk
    rw [map_append, mem_append, not_or] at hk
    rw [h₂.other k hk.2, h₁.other k hk.1]

variable {addresses : Std.ExtTreeMap AccumulatorObjId AccumulatorAddress compare}

theorem run_updateCalls (hentry : BalanceEntry hashes addresses entry address)
    (hpayable : Payable root entry) :
    ∃ root', (updateCalls addresses entry).foldlM (SettlementCall.run hashes systemTx) root =
      .ok root' ∧ Applied root [entry] root' := by
  have hfield := hpayable.field
  rw [← hentry.fieldId] at hfield
  obtain ⟨root', hrun, hfield', hsame⟩ := run_settleCalls hfield
    (hentry.fieldId ▸ hpayable.value_lt) (hentry.fieldId ▸ hpayable.covered)
    (hentry.fieldId ▸ hpayable.fits)
  refine ⟨root', ?_, ?_, ?_, hsame.objectCount⟩
  · rw [hentry.updateCalls]
    exact hrun
  · intro e he
    rw [mem_singleton.mp he]
    rw [hentry.fieldId] at hfield'
    exact hfield'
  · intro k hk
    refine hsame.other k ?_
    rw [hentry.fieldId]
    simpa using hk

theorem run_updates
    (hupdates : ∀ entry ∈ updates, ∃ address, BalanceEntry hashes addresses entry address)
    (hnodup : (updates.map Prod.fst).Nodup) (hpayable : ∀ entry ∈ updates, Payable root entry) :
    ∃ root', (updates.flatMap (updateCalls addresses)).foldlM (SettlementCall.run hashes systemTx)
      root = .ok root' ∧ Applied root updates root' := by
  induction updates generalizing root with
  | nil => exact ⟨root, rfl, .nil root⟩
  | cons entry updates ih =>
    obtain ⟨address, hentry⟩ := hupdates entry (.head _)
    obtain ⟨root₁, hrun₁, happlied₁⟩ := run_updateCalls hentry (hpayable entry (.head _))
    have hnodup' := hnodup
    rw [map_cons, nodup_cons] at hnodup
    have hpayable₁ : ∀ e ∈ updates, Payable root₁ e := by
      intro e he
      refine Payable.of_applied happlied₁ ?_ (hpayable e (.tail entry he))
      intro hmem
      rw [map_singleton, mem_singleton] at hmem
      exact hnodup.1 (hmem ▸ mem_map_of_mem he)
    obtain ⟨root', hrun, happlied⟩ := ih (fun e he => hupdates e (.tail entry he))
      hnodup.2 hpayable₁
    refine ⟨root', ?_, happlied₁.append happlied hnodup'⟩
    rw [flatMap_cons, foldlM_append]
    exact bind_eq_ok.mpr ⟨root₁, hrun₁, hrun⟩

end Settle

/-! ### Executing transactions -/

section Execute

variable {hashes : Hashes} {calls : List SettlementCall}

theorem foldlM_runCommand {inputs : List CallArg} {commands : List MoveCall}
    (h : List.Forall₂ (fun command call => command.resolve inputs = .ok call) commands calls)
    (root : AccumulatorRoot) : commands.foldlM (runCommand hashes inputs) root =
      calls.foldlM (SettlementCall.run hashes systemTx) root := by
  induction h generalizing root with
  | nil => rfl
  | @cons command call commands calls hcommand _ ih =>
    have hrun : runCommand hashes inputs root command = call.run hashes systemTx root := by
      rw [runCommand, hcommand]
      rfl
    rw [foldlM_cons, foldlM_cons, hrun]
    exact bind_congr ih

variable {tx : ProgrammableTransaction}

theorem execute_of_resolved
    (h : tx.commands.mapM (·.resolve tx.inputs) = .ok calls) (root : AccumulatorRoot) :
    tx.execute hashes root = calls.foldlM (SettlementCall.run hashes systemTx) root :=
  foldlM_runCommand (mapM_forall₂ h) root

/-- A transaction makes the calls for these updates, after a prologue. -/
def Makes (addresses : Std.ExtTreeMap AccumulatorObjId AccumulatorAddress compare)
    (tx : ProgrammableTransaction) (updates : List (AccumulatorObjId × Update)) : Prop :=
  ∃ epoch checkpointHeight idx input output, tx.commands.mapM (·.resolve tx.inputs) =
    .ok (.prologue epoch checkpointHeight idx input output ::
      updates.flatMap (updateCalls addresses))

variable {addresses : Std.ExtTreeMap AccumulatorObjId AccumulatorAddress compare}

theorem Makes.execute {updates : List (AccumulatorObjId × Update)}
    (h : Makes addresses tx updates) (root : AccumulatorRoot) :
    tx.execute hashes root =
      (updates.flatMap (updateCalls addresses)).foldlM (SettlementCall.run hashes systemTx) root := by
  obtain ⟨epoch, checkpointHeight, idx, input, output, hcalls⟩ := h
  rw [execute_of_resolved hcalls]
  rfl

theorem foldlM_executeNext {transactions : List ProgrammableTransaction}
    {chunks : List (List (AccumulatorObjId × Update))}
    (hmakes : List.Forall₂ (Makes addresses) transactions chunks)
    (hupdates : ∀ entry ∈ chunks.flatten, ∃ address, BalanceEntry hashes addresses entry address)
    (hnodup : (chunks.flatten.map Prod.fst).Nodup) {root : AccumulatorRoot}
    (hpayable : ∀ entry ∈ chunks.flatten, Payable root entry) (effects : List ObjectChanges) :
    ∃ root' effects', transactions.foldlM (executeNext hashes) (root, effects) =
      .ok (root', effects') ∧ Applied root chunks.flatten root' := by
  induction hmakes generalizing root effects with
  | nil => exact ⟨root, effects, rfl, .nil root⟩
  | @cons tx updates transactions chunks htx _ ih =>
    rw [flatten_cons] at hupdates hnodup hpayable
    obtain ⟨root₁, hrun₁, happlied₁⟩ := run_updates
      (fun entry hentry => hupdates entry (mem_append_left _ hentry))
      (by rw [map_append] at hnodup; exact (nodup_append.mp hnodup).1)
      fun entry hentry => hpayable entry (mem_append_left _ hentry)
    have hdisjoint : ∀ entry ∈ chunks.flatten, entry.1 ∉ updates.map Prod.fst := by
      intro entry hentry hmem
      rw [map_append] at hnodup
      exact (nodup_append.mp hnodup).2.2 _ hmem _ (mem_map_of_mem hentry) rfl
    obtain ⟨root', effects', hrun, happlied⟩ := ih
      (fun entry hentry => hupdates entry (mem_append_right _ hentry))
      (by rw [map_append] at hnodup; exact (nodup_append.mp hnodup).2.1)
      (fun entry hentry => (hpayable entry (mem_append_right _ hentry)).of_applied happlied₁
        (hdisjoint entry hentry))
      (effects ++ [objectChanges root root₁])
    refine ⟨root', effects', foldlM_cons_eq_ok.mpr ⟨_, ?_, hrun⟩, happlied₁.append happlied hnodup⟩
    exact bind_eq_ok.mpr ⟨root₁, (htx.execute root).trans hrun₁, rfl⟩

end Execute

/-! ### Counting accumulators -/

section Count

variable {hashes : Hashes}

theorem countAccumulatorObjectChanges_eq (effects : List ObjectChanges) :
    countAccumulatorObjectChanges effects =
      (effects.flatten.countP fun change => change.2 = .created,
        effects.flatten.countP fun change => change.2 = .deleted) := by
  have hfold : ∀ (changes : ObjectChanges) (count : Nat × Nat), changes.foldl countChange count =
      (count.1 + changes.countP (fun change => change.2 = .created),
        count.2 + changes.countP fun change => change.2 = .deleted) := by
    intro changes
    induction changes with
    | nil => intro count; rfl
    | cons change changes ih =>
      intro count
      rw [foldl_cons, ih, countP_cons, countP_cons, countChange]
      cases change.2 with
      | none => simp
      | created => simp; omega
      | deleted => simp; omega
  rw [countAccumulatorObjectChanges, hfold]
  simp

variable (before after : Std.ExtTreeMap AccumulatorObjId FieldValue compare)

theorem size_inter_comm : (after ∩ before).size = (before ∩ after).size := by
  rw [← length_keys, ← length_keys]
  refine List.Perm.length_eq ((perm_ext_iff_of_nodup nodup_keys nodup_keys).mpr fun k => ?_)
  simp [and_comm]

theorem size_add_diff : after.size + (before \ after).size = before.size + (after \ before).size := by
  have hafter : (after \ before).size + (after ∩ before).size = after.size :=
    size_diff_add_size_inter_eq_size_left
  have hbefore : (before \ after).size + (before ∩ after).size = before.size :=
    size_diff_add_size_inter_eq_size_left
  have := size_inter_comm before after
  omega

theorem countP_objectChanges (root root' : AccumulatorRoot) :
    (objectChanges root root').countP (fun change => change.2 = .created) =
        (root'.accumulators \ root.accumulators).size ∧
      (objectChanges root root').countP (fun change => change.2 = .deleted) =
        (root.accumulators \ root'.accumulators).size := by
  have hall : ∀ (keys : List AccumulatorObjId) (op op' : IDOperation),
      (keys.map fun k => (k, op)).countP (fun change => change.2 = op') =
        if op = op' then keys.length else 0 := by
    intro keys op op'
    induction keys with
    | nil => simp
    | cons k keys ih =>
      rw [map_cons, countP_cons, ih]
      split_ifs <;> simp_all
  constructor
  · simp [objectChanges, countP_append, hall]
  · simp [objectChanges, countP_append, hall]

theorem foldlM_executeNext_count {transactions : List ProgrammableTransaction}
    {state state' : AccumulatorRoot × List ObjectChanges}
    (h : transactions.foldlM (executeNext hashes) state = .ok state') {start : Nat}
    (hstart : state.1.accumulators.size + (countAccumulatorObjectChanges state.2).2 =
      start + (countAccumulatorObjectChanges state.2).1) :
    state'.1.accumulators.size + (countAccumulatorObjectChanges state'.2).2 =
      start + (countAccumulatorObjectChanges state'.2).1 := by
  refine foldlM_keeps (fun s : AccumulatorRoot × List ObjectChanges =>
    s.1.accumulators.size + (countAccumulatorObjectChanges s.2).2 =
      start + (countAccumulatorObjectChanges s.2).1) (fun tx _ s _ hs hstep => ?_) hstart h
  obtain ⟨root₁, -, hpure⟩ := bind_eq_ok.mp hstep
  cases hpure
  have hsize := size_add_diff s.1.accumulators root₁.accumulators
  obtain ⟨hcreated, hdeleted⟩ := countP_objectChanges s.1 root₁
  simp only [countAccumulatorObjectChanges_eq, flatten_append, flatten_singleton,
    countP_append, hcreated, hdeleted] at hs ⊢
  omega

end Count

end Haneul.Accumulators
