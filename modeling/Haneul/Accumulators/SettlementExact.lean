import Haneul.Accumulators.SettlementRuns

/-!
# The accumulator root over the checkpoints

What holds of the accumulator root after any number of settled checkpoints, with any events
(`Reachable`), and from it the settlement of one more checkpoint of balance events.
-/

namespace Haneul.Accumulators

open List Tally

/-! ### The barrier -/

section Barrier

variable {hashes : Hashes}

theorem Denotes.record (hashes : Hashes) {b : ProgrammableTransactionBuilder}
    {calls : List SettlementCall} (h : Denotes b calls) (hlength : b.inputs.length ≤ 6)
    {created destroyed : UInt64} {r₁ r₂ : Argument × ProgrammableTransactionBuilder}
    (h₁ : Pushed b (u64Bytes created) r₁) (h₂ : Pushed r₁.2 (u64Bytes destroyed) r₂)
    (root : AccumulatorRoot) :
    (r₂.2.programmableMoveCall .recordAccumulatorObjectChanges []
        [.input 0, r₁.1, r₂.1]).finish.execute hashes root =
      (calls ++ [SettlementCall.record created.toNat destroyed.toNat]).foldlM
        (SettlementCall.run hashes systemTx) root := by
  refine execute_of_resolved (Denotes.resolved ?_ ?_) root
  · refine (h.grow (h₁.grows.trans h₂.grows) h₂.inv (h₂.commands.trans h₁.commands)).call
      fun hlength => ?_
    have n₁ := (h₁.names (Nat.le_trans h₂.grows.length_le hlength)).mono h₂.grows
    have n₂ := h₂.names hlength
    simp only [MoveCall.resolve, h₂.inv.rootArgument, n₁.u64Argument, n₂.u64Argument]
    rfl
  · have l₁ := h₁.length_le
    have l₂ := h₂.length_le
    change r₂.2.inputs.length ≤ 2 ^ 16
    omega

theorem barrier_eq (ctx : SettlementContext) (settlement : Settlement) :
    settlement.barrier hashes ctx = recordAccumulatorObjectChanges settlement.root
      (UInt64.ofNat (countAccumulatorObjectChanges settlement.effects).1).toNat
      (UInt64.ofNat (countAccumulatorObjectChanges settlement.effects).2).toNat := by
  generalize hcount : countAccumulatorObjectChanges settlement.effects = count
  obtain ⟨hroot, hstart⟩ := Denotes.root ctx .mutable
  obtain ⟨hprologue, hlength⟩ := hstart.prologue ctx.epoch ctx.checkpointHeight
    (UInt64.ofNat settlement.effects.length) 0 0
  have hpush := hprologue.inv.pure (u64Bytes (UInt64.ofNat count.1))
  have hexecute := Denotes.record hashes hprologue hlength hpush
    (hpush.inv.pure (u64Bytes (UInt64.ofNat count.2))) settlement.root
  rw [Settlement.barrier, buildAccumulatorBarrierTx, hcount]
  dsimp only
  rw [hroot, hexecute]
  rw [nil_append, foldlM_append]
  change (recordAccumulatorObjectChanges settlement.root _ _ >>= Except.ok) = _
  exact bind_pure _

end Barrier

/-! ### Accumulators of any settlement -/

section Fields

variable {hashes : Hashes} {root root' : AccumulatorRoot} {inputs : List CallArg}

/-- Balances are positive `u128`s, and event streams are kept under their own type. -/
structure FieldsInv (hashes : Hashes) (root : AccumulatorRoot) : Prop where
  u128 : ∀ (k : AccumulatorObjId) (value : Nat),
    root.accumulators[k]? = some (.u128 value) → 0 < value ∧ value < 2 ^ 128
  stream : ∀ (k : AccumulatorObjId) (head : EventStreamHead),
    root.accumulators[k]? = some (.eventStreamHead head) → ∃ streamId, k = hashes.fieldId ⟨streamId, eventStreamHeadType⟩

theorem FieldsInv.insert (h : FieldsInv hashes root) {name : AccumulatorObjId} {field : FieldValue}
    (hfield : (∃ value, field = .u128 value ∧ 0 < value ∧ value < 2 ^ 128) ∨
      ∃ head streamId, field = .eventStreamHead head ∧
        name = hashes.fieldId ⟨streamId, eventStreamHeadType⟩) {objectCount : Option Nat} :
    FieldsInv hashes ⟨root.accumulators.insert name field, objectCount⟩ := by
  constructor
  · intro k value hget
    rw [Map.get_insert] at hget
    split_ifs at hget with hkey
    · rcases hfield with ⟨value', rfl, hvalue⟩ | ⟨head, streamId, rfl, -⟩
      · cases hget
        exact hvalue
      · cases hget
    · exact h.u128 k value hget
  · intro k head hget
    rw [Map.get_insert] at hget
    split_ifs at hget with hkey
    · rcases hfield with ⟨value', rfl, hvalue⟩ | ⟨head', streamId, rfl, hname⟩
      · cases hget
      · exact ⟨streamId, hkey ▸ hname⟩
    · exact h.stream k head hget

theorem FieldsInv.erase (h : FieldsInv hashes root) (name : AccumulatorObjId)
    {objectCount : Option Nat} : FieldsInv hashes ⟨root.accumulators.erase name, objectCount⟩ := by
  constructor
  · intro k value hget
    rw [Map.get_erase] at hget
    split_ifs at hget with hkey
    exact h.u128 k value hget
  · intro k head hget
    rw [Map.get_erase] at hget
    split_ifs at hget with hkey
    exact h.stream k head hget

/-- The amounts of a call are those of a `u128`. -/
def SettlementCall.Fits : SettlementCall → Prop
  | .settleU128 _ _ merge _ => merge < 2 ^ 128
  | _ => True

inductive CallStep (hashes : Hashes) (root : AccumulatorRoot) : AccumulatorRoot → Prop
  | same : CallStep hashes root root
  | put {name : AccumulatorObjId} {field : FieldValue}
      (hfield : (∃ value, field = .u128 value ∧ 0 < value ∧ value < 2 ^ 128) ∨
        ∃ head streamId, field = .eventStreamHead head ∧
          name = hashes.fieldId ⟨streamId, eventStreamHeadType⟩) :
      CallStep hashes root { root with accumulators := root.accumulators.insert name field }
  | drop (name : AccumulatorObjId) :
      CallStep hashes root { root with accumulators := root.accumulators.erase name }

theorem addAccumulator_eq_ok {name : AccumulatorObjId} {field : FieldValue}
    (h : root.addAccumulator name field = .ok root') :
    root' = { root with accumulators := root.accumulators.insert name field } := by
  unfold AccumulatorRoot.addAccumulator at h
  split at h
  · cases h
  · cases h
    rfl

variable {ctx : TxContext}

theorem settleU128_step {ty : TypeTag} {owner : HaneulAddress} {merge split : Nat}
    (hmerge : merge < 2 ^ 128) (h : settleU128 hashes ctx root ty owner merge split = .ok root') :
    CallStep hashes root root' := by
  unfold settleU128 at h
  obtain ⟨-, -, hsettle⟩ := bind_eq_ok.mp h
  by_cases hnet : (merge = 0) = (split = 0)
  · rw [if_pos hnet] at hsettle
    cases hsettle
  rw [if_neg hnet] at hsettle
  dsimp only at hsettle
  split at hsettle
  · obtain ⟨value, hvalue, hpure⟩ := bind_eq_ok.mp hsettle
    unfold updateU128 at hvalue
    split_ifs at hvalue with hfits
    cases hvalue
    cases hpure
    split_ifs with hzero
    · exact .drop _
    · exact .put (.inl ⟨_, rfl, by omega, by omega⟩)
  · split_ifs at hsettle with hsplit
    rw [addAccumulator_eq_ok hsettle]
    refine .put (.inl ⟨merge, rfl, ?_, hmerge⟩)
    rcases Nat.eq_zero_or_pos merge with rfl | hpos
    · exact absurd (by simpa using hsplit) hnet
    · exact hpos

theorem settleEvents_step {streamId : HaneulAddress} {newRoot : Nat}
    {eventCountDelta checkpointSeq : UInt64}
    (h : settleEvents hashes ctx root streamId newRoot eventCountDelta checkpointSeq = .ok root') :
    CallStep hashes root root' := by
  unfold settleEvents at h
  obtain ⟨-, -, h⟩ := bind_eq_ok.mp h
  dsimp only at h
  split at h
  · split_ifs at h with hfits
    cases h
    exact .put (.inr ⟨_, streamId, rfl, rfl⟩)
  · rw [addAccumulator_eq_ok h]
    exact .put (.inr ⟨_, streamId, rfl, rfl⟩)

theorem run_step {call : SettlementCall} (hfits : call.Fits)
    (hrecord : ∀ created destroyed, call ≠ .record created destroyed)
    (h : call.run hashes ctx root = .ok root') : CallStep hashes root root' := by
  cases call with
  | prologue epoch checkpointHeight idx input output =>
    obtain ⟨-, -, hpure⟩ := bind_eq_ok.mp h
    cases hpure
    exact .same
  | settleU128 ty owner merge split => exact settleU128_step hfits h
  | settleEvents streamId newRoot eventCountDelta checkpointSeq => exact settleEvents_step h
  | record created destroyed => exact absurd rfl (hrecord created destroyed)

theorem CallStep.fieldsInv (h : CallStep hashes root root') (hinv : FieldsInv hashes root) :
    FieldsInv hashes root' := by
  cases h with
  | same => exact hinv
  | put hfield => exact hinv.insert hfield
  | drop name => exact hinv.erase name

theorem CallStep.objectCount (h : CallStep hashes root root') :
    root'.objectCount = root.objectCount := by
  cases h with
  | same => rfl
  | put _ => rfl
  | drop _ => rfl

theorem pureArgument_length {arg : Argument} {n : Nat} {bytes : List UInt8}
    (h : pureArgument inputs arg n = .ok bytes) : bytes.length = n := by
  obtain ⟨value, -, h⟩ := bind_eq_ok.mp h
  cases value with
  | object obj => cases h
  | pure found =>
    dsimp only at h
    split_ifs at h with hlength
    cases h
    exact hlength

theorem u128Argument_lt {arg : Argument} {value : Nat}
    (h : u128Argument inputs arg = .ok value) : value < 2 ^ 128 := by
  obtain ⟨bytes, hbytes, hpure⟩ := bind_eq_ok.mp h
  cases hpure
  have hlt := Codec.leNat_lt bytes
  rw [pureArgument_length hbytes] at hlt
  exact hlt

def SettlementCall.function : SettlementCall → SystemFunction
  | .prologue _ _ _ _ _ => .settlementPrologue
  | .settleU128 _ _ _ _ => .settleU128
  | .settleEvents _ _ _ _ => .settleEvents
  | .record _ _ => .recordAccumulatorObjectChanges

theorem resolve_ok {command : MoveCall} {call : SettlementCall}
    (h : command.resolve inputs = .ok call) : call.Fits ∧ command.function = call.function := by
  unfold MoveCall.resolve at h
  split at h
  · obtain ⟨_, _, _, _, _, _, _, _, h₄⟩ := bind₄_eq_ok.mp h
    obtain ⟨_, _, _, _, h₆⟩ := bind₂_eq_ok.mp h₄
    cases h₆
    exact ⟨trivial, by assumption⟩
  · obtain ⟨_, _, _, _, _, hmerge, _, _, h₄⟩ := bind₄_eq_ok.mp h
    cases h₄
    exact ⟨u128Argument_lt hmerge, by assumption⟩
  · obtain ⟨_, _, _, _, _, _, _, _, h₄⟩ := bind₄_eq_ok.mp h
    obtain ⟨_, _, h₅⟩ := bind_eq_ok.mp h₄
    cases h₅
    exact ⟨trivial, by assumption⟩
  · obtain ⟨_, _, _, _, _, _, h₃⟩ := bind₃_eq_ok.mp h
    cases h₃
    exact ⟨trivial, by assumption⟩
  · cases h

/-- A list of commands that records no counts. -/
def Unrecorded (commands : List MoveCall) : Prop :=
  ∀ command ∈ commands, command.function ≠ .recordAccumulatorObjectChanges

theorem runCommands_keep {commands : List MoveCall}
    (hcommands : Unrecorded commands) (hinv : FieldsInv hashes root)
    (h : commands.foldlM (runCommand hashes inputs) root = .ok root') :
    FieldsInv hashes root' ∧ root'.objectCount = root.objectCount := by
  refine foldlM_keeps (fun r => FieldsInv hashes r ∧ r.objectCount = root.objectCount)
    (fun command hmem _ _ hkept hstep => ?_) ⟨hinv, rfl⟩ h
  obtain ⟨call, hcall, hrun⟩ := bind_eq_ok.mp hstep
  obtain ⟨hfits, hfunction⟩ := resolve_ok hcall
  have hstep := run_step hfits (by
    rintro created destroyed rfl
    exact hcommands command hmem hfunction) hrun
  exact ⟨hstep.fieldsInv hkept.1, hstep.objectCount.trans hkept.2⟩

theorem Unrecorded.call {b : ProgrammableTransactionBuilder} (h : Unrecorded b.commands)
    {function : SystemFunction} (hfunction : function ≠ .recordAccumulatorObjectChanges)
    (typeArguments : List TypeTag) (arguments : List Argument) :
    Unrecorded (b.programmableMoveCall function typeArguments arguments).commands :=
  forall_mem_append.mpr ⟨h, forall_mem_singleton.mpr hfunction⟩

theorem addMoveCall_unrecorded {merge split : MergedValue} {address : AccumulatorAddress}
    {checkpointSeq : UInt64} {rootArg : Argument} {b b' : ProgrammableTransactionBuilder}
    (h : addMoveCall merge split rootArg address checkpointSeq b = .ok b')
    (hb : Unrecorded b.commands) : Unrecorded b'.commands := by
  unfold addMoveCall at h
  dsimp only at h
  split at h
  · split_ifs at h
    · cases h
      exact Unrecorded.call hb (by decide) _ _
    · cases h
      exact hb
  · cases h
  · cases h
    exact Unrecorded.call hb (by decide) _ _
  · cases h

theorem buildOneSettlementTxn_unrecorded
    {addresses : Std.ExtTreeMap AccumulatorObjId AccumulatorAddress compare}
    {ctx : SettlementContext} {idx : UInt64} {updates : List (AccumulatorObjId × Update)}
    {tx : ProgrammableTransaction}
    (h : buildOneSettlementTxn hashes addresses ctx idx updates = .ok tx) :
    Unrecorded tx.commands := by
  obtain ⟨b, hfold, hpure⟩ := bind_eq_ok.mp h
  cases hpure
  refine foldlM_keeps (fun b => Unrecorded b.commands) (fun entry _ b₁ b₂ hb hstep => ?_)
    (Unrecorded.call (fun _ hcommand => by cases hcommand) (by decide) _ _) hfold
  unfold addUpdate at hstep
  split at hstep
  · cases hstep
  · exact addMoveCall_unrecorded hstep hb

end Fields

/-! ### Reachable roots -/

section Reachable

variable {hashes : Hashes} {ctx : SettlementContext}

/-- What holds of the accumulator root after every checkpoint. -/
structure RootInv (hashes : Hashes) (root : AccumulatorRoot) : Prop where
  fields : FieldsInv hashes root
  count : root.objectCount.getD 0 = root.accumulators.size

/-- The roots that settlement leads to: the one that is created, and what follows a root when a
    checkpoint is settled and its barrier has run.  The number of accumulators is a `u64`. -/
inductive Reachable (hashes : Hashes) : AccumulatorRoot → Prop
  | create : Reachable hashes {}
  | settle {root root' : AccumulatorRoot} {config : ProtocolConfig} {ctx : SettlementContext}
      {txIndexOffset : UInt64} {txs : List (List AccumulatorEvent)} {settlement : Settlement}
      (hroot : Reachable hashes root)
      (hsettle : settle hashes config ctx txIndexOffset txs root = .ok settlement)
      (hfits : root.accumulators.size + (countAccumulatorObjectChanges settlement.effects).1 < 2 ^ 64)
      (hbarrier : settlement.barrier hashes ctx = .ok root') : Reachable hashes root'

variable {transactions : List ProgrammableTransaction}

theorem executeSettlements_keep (hcommands : ∀ tx ∈ transactions, Unrecorded tx.commands)
    {state state' : AccumulatorRoot × List ObjectChanges} (hinv : FieldsInv hashes state.1)
    (h : transactions.foldlM (executeNext hashes) state = .ok state') :
    FieldsInv hashes state'.1 ∧ state'.1.objectCount = state.1.objectCount := by
  refine foldlM_keeps (fun s : AccumulatorRoot × List ObjectChanges =>
    FieldsInv hashes s.1 ∧ s.1.objectCount = state.1.objectCount)
    (fun tx hmem _ _ hkept hstep => ?_) ⟨hinv, rfl⟩ h
  obtain ⟨root₁, hexecute, hpure⟩ := bind_eq_ok.mp hstep
  cases hpure
  obtain ⟨hinv₁, hcount₁⟩ := runCommands_keep (hcommands tx hmem) hkept.1 hexecute
  exact ⟨hinv₁, hcount₁.trans hkept.2⟩

variable {txs : List (List AccumulatorEvent)}

theorem prepare_unrecorded {config : ProtocolConfig} {txIndexOffset : UInt64}
    {b : AccumulatorSettlementTxBuilder}
    (h : prepare hashes config ctx txIndexOffset txs = .ok (b, transactions)) :
    ∀ tx ∈ transactions, Unrecorded tx.commands := by
  obtain ⟨effects, _, b', _, transactions', hbuild, hpure⟩ := bind₃_eq_ok.mp h
  cases hpure
  intro tx htx
  obtain ⟨chunk, -, hchunk⟩ := exists_of_mem_mapM hbuild htx
  exact buildOneSettlementTxn_unrecorded hchunk

theorem settle_keeps {config : ProtocolConfig} {txIndexOffset : UInt64} {root : AccumulatorRoot}
    {settlement : Settlement} (hinv : FieldsInv hashes root)
    (h : settle hashes config ctx txIndexOffset txs root = .ok settlement) :
    FieldsInv hashes settlement.root ∧ settlement.root.objectCount = root.objectCount ∧
      settlement.root.accumulators.size + (countAccumulatorObjectChanges settlement.effects).2 =
        root.accumulators.size + (countAccumulatorObjectChanges settlement.effects).1 := by
  obtain ⟨⟨b, transactions⟩, hprepare, ⟨root', effects⟩, hexecute, hpure⟩ := bind₂_eq_ok.mp h
  cases hpure
  obtain ⟨hinv', hcount⟩ := executeSettlements_keep (prepare_unrecorded hprepare) hinv hexecute
  exact ⟨hinv', hcount, foldlM_executeNext_count hexecute rfl⟩

theorem barrier_keeps {settlement : Settlement} {size : Nat}
    (hcount : settlement.root.objectCount.getD 0 = size)
    (hsize : settlement.root.accumulators.size +
      (countAccumulatorObjectChanges settlement.effects).2 =
        size + (countAccumulatorObjectChanges settlement.effects).1)
    (hfits : size + (countAccumulatorObjectChanges settlement.effects).1 < 2 ^ 64) :
    settlement.barrier hashes ctx = .ok { settlement.root with
      objectCount := some settlement.root.accumulators.size } := by
  have hlt : (countAccumulatorObjectChanges settlement.effects).1 < 2 ^ 64 := by omega
  have hlt' : (countAccumulatorObjectChanges settlement.effects).2 < 2 ^ 64 := by omega
  have hcreated : (UInt64.ofNat (countAccumulatorObjectChanges settlement.effects).1).toNat =
      (countAccumulatorObjectChanges settlement.effects).1 := UInt64.toNat_ofNat_of_lt hlt
  have hdestroyed : (UInt64.ofNat (countAccumulatorObjectChanges settlement.effects).2).toNat =
      (countAccumulatorObjectChanges settlement.effects).2 := UInt64.toNat_ofNat_of_lt hlt'
  rw [barrier_eq, hcreated, hdestroyed, recordAccumulatorObjectChanges]
  cases hstored : settlement.root.objectCount with
  | none =>
    rw [hstored] at hcount
    change 0 = size at hcount
    dsimp only
    rw [if_neg (by omega)]
    congr 3
    omega
  | some count =>
    rw [hstored] at hcount
    change count = size at hcount
    dsimp only
    rw [if_neg (by omega), if_neg (by omega)]
    congr 3
    omega

theorem Reachable.inv {root : AccumulatorRoot}
    (h : Reachable hashes root) : RootInv hashes root := by
  induction h with
  | create =>
    refine ⟨⟨?_, ?_⟩, rfl⟩
    · intro k value hget
      cases hget
    · intro k head hget
      cases hget
  | settle _ hsettle hfits hbarrier ih =>
    obtain ⟨hfields, hcount, hsize⟩ := settle_keeps ih.fields hsettle
    rw [barrier_keeps (by rw [hcount, ih.count]) hsize hfits] at hbarrier
    cases hbarrier
    exact ⟨⟨hfields.u128, hfields.stream⟩, rfl⟩

end Reachable

/-! ### A checkpoint of balance events -/

section Checkpoint

variable {hashes : Hashes} {config : ProtocolConfig} {ctx : SettlementContext}
  {txIndexOffset : UInt64} {txs : List (List AccumulatorEvent)} {root : AccumulatorRoot}
  {b : AccumulatorSettlementTxBuilder}

/-- The raw events of a checkpoint's transactions: writes to balances, under the ids of their
    accumulators, whose gross sums fit a `u64` for each transaction and accumulator.  The
    transactions are the elements of a slice. -/
structure BalanceCheckpoint (hashes : Hashes) (txs : List (List AccumulatorEvent)) : Prop where
  balance : ∀ tx ∈ txs, ∀ e ∈ tx, e.write.IsBalance
  keyed : ∀ tx ∈ txs, ∀ e ∈ tx, hashes.fieldId e.write.address = e.accumulatorObj
  merges_lt : ∀ tx ∈ txs, ∀ k, merges k tx < 2 ^ 64
  splits_lt : ∀ tx ∈ txs, ∀ k, splits k tx < 2 ^ 64
  length_lt : txs.length < 2 ^ 63

/-- No balance has the id of an event stream. -/
def Hashes.Separates (hashes : Hashes) : Prop :=
  ∀ address streamId, classify address.ty = .balance →
    hashes.fieldId address ≠ hashes.fieldId ⟨streamId, eventStreamHeadType⟩

theorem classify_eventStreamHeadType : classify eventStreamHeadType = .unknown := by
  have hmodule : ("accumulator_settlement" == "balance") = false := by decide
  simp [classify, eventStreamHeadType, hmodule]

/-- A hash without collisions keeps balances and event streams apart. -/
theorem Hashes.separates_of_injective (h : Function.Injective hashes.fieldId) :
    hashes.Separates := by
  intro address streamId hbalance heq
  rw [h heq, classify_eventStreamHeadType] at hbalance
  cases hbalance

theorem FieldsInv.balanceField (hinv : FieldsInv hashes root) (hhashes : hashes.Separates)
    {address : AccumulatorAddress} (hbalance : classify address.ty = .balance) :
    root.accumulators[hashes.fieldId address]? =
        Accumulators.balanceField (root.value (hashes.fieldId address)) ∧
      root.value (hashes.fieldId address) < 2 ^ 128 := by
  unfold AccumulatorRoot.value
  cases hget : root.accumulators[hashes.fieldId address]? with
  | none => exact ⟨rfl, Nat.two_pow_pos 128⟩
  | some field =>
    cases field with
    | u128 value =>
      obtain ⟨hpos, hlt⟩ := hinv.u128 _ _ hget
      exact ⟨(if_neg (Nat.pos_iff_ne_zero.mp hpos)).symm, hlt⟩
    | eventStreamHead head =>
      obtain ⟨streamId, hname⟩ := hinv.stream _ _ hget
      exact absurd hname (hhashes address streamId hbalance)

/-- What a checkpoint's effects keep of its raw events. -/
structure FoldedAll (txs effects : List (List AccumulatorEvent)) : Prop where
  source : ∀ e ∈ effects.flatten, (∃ v, e.write.value = .integer v) ∧
    ∃ e₀ ∈ txs.flatten, e₀.accumulatorObj = e.accumulatorObj ∧ e₀.write.address = e.write.address
  covers : ∀ e₀ ∈ txs.flatten, ∃ e ∈ effects.flatten, e.accumulatorObj = e₀.accumulatorObj
  net : ∀ k, merges k effects.flatten + splits k txs.flatten =
    splits k effects.flatten + merges k txs.flatten
  bound : ∀ k, merges k effects.flatten ≤ effects.length * (2 ^ 64 - 1) ∧
    splits k effects.flatten ≤ effects.length * (2 ^ 64 - 1)

theorem Folded.bound {raw merged : List AccumulatorEvent} (h : Folded raw merged)
    (k : AccumulatorObjId) : merges k merged ≤ 2 ^ 64 - 1 ∧ splits k merged ≤ 2 ^ 64 - 1 := by
  by_cases hseen : ∃ e ∈ merged, e.accumulatorObj = k
  · obtain ⟨e, he, hkey⟩ := hseen
    have hmerges : merges k merged = e.write.mergeAmount := total_of_pairwise h.nodup he hkey
    have hsplits : splits k merged = e.write.splitAmount := total_of_pairwise h.nodup he hkey
    have := e.write.mergeAmount_lt
    have := e.write.splitAmount_lt
    omega
  · have hnone : ∀ e ∈ merged, e.accumulatorObj ≠ k := fun e he hkey => hseen ⟨e, he, hkey⟩
    have hmerges : merges k merged = 0 := total_eq_zero hnone
    have hsplits : splits k merged = 0 := total_eq_zero hnone
    omega

theorem merges_append (k : AccumulatorObjId) (events events' : List AccumulatorEvent) :
    merges k (events ++ events') = merges k events + merges k events' :=
  total_append

theorem splits_append (k : AccumulatorObjId) (events events' : List AccumulatorEvent) :
    splits k (events ++ events') = splits k events + splits k events' :=
  total_append

theorem foldedAll {effects : List (List AccumulatorEvent)}
    (h : List.Forall₂ Folded txs effects) : FoldedAll txs effects := by
  induction h with
  | nil => exact ⟨nofun, nofun, fun k => rfl, fun k => ⟨Nat.zero_le _, Nat.zero_le _⟩⟩
  | @cons raw merged txs effects hfirst _ ih =>
    refine ⟨?_, ?_, ?_, ?_⟩
    · refine forall_mem_append.mpr ⟨fun e he => ?_, fun e he => ?_⟩
      · obtain ⟨hvalue, e₀, he₀, hkey⟩ := hfirst.source e he
        exact ⟨hvalue, e₀, mem_append_left _ he₀, hkey⟩
      · obtain ⟨hvalue, e₀, he₀, hkey⟩ := ih.source e he
        exact ⟨hvalue, e₀, mem_append_right _ he₀, hkey⟩
    · refine forall_mem_append.mpr ⟨fun e₀ he₀ => ?_, fun e₀ he₀ => ?_⟩
      · obtain ⟨e, he, hkey⟩ := hfirst.covers e₀ he₀
        exact ⟨e, mem_append_left _ he, hkey⟩
      · obtain ⟨e, he, hkey⟩ := ih.covers e₀ he₀
        exact ⟨e, mem_append_right _ he, hkey⟩
    · intro k
      have hnet := hfirst.net k
      have hnet' := ih.net k
      rw [flatten_cons, flatten_cons, merges_append, merges_append, splits_append, splits_append]
      omega
    · intro k
      have hbound := hfirst.bound k
      have hbound' := ih.bound k
      rw [flatten_cons, merges_append, splits_append, length_cons, Nat.succ_mul]
      omega

structure Prepared (hashes : Hashes) (config : ProtocolConfig) (txs : List (List AccumulatorEvent))
    (b : AccumulatorSettlementTxBuilder) (transactions : List ProgrammableTransaction) : Prop where
  entries : ∀ entry ∈ b.updates.toList, ∃ address, BalanceEntry hashes b.addresses entry address
  sums : ∀ entry ∈ b.updates.toList, entry.2.sums.1 < 2 ^ 127 ∧ entry.2.sums.2 < 2 ^ 127 ∧
    entry.2.sums.1 + splits entry.1 txs.flatten = entry.2.sums.2 + merges entry.1 txs.flatten
  written : ∀ e ∈ txs.flatten, ∃ update, b.updates[e.accumulatorObj]? = some update
  source : ∀ entry ∈ b.updates.toList, ∃ e ∈ txs.flatten, e.accumulatorObj = entry.1
  built : List.Forall₂ (fun tx chunk => tx.inputs.length ≤ 6 + 3 * chunk.length ∧
      (tx.inputs.length ≤ 2 ^ 16 → Makes b.addresses tx chunk))
    transactions (Tally.chunks config.chunkSize b.updates.toList)

theorem ProtocolConfig.chunkSize_pos (config : ProtocolConfig) : 0 < config.chunkSize := by
  unfold ProtocolConfig.chunkSize
  cases h : config.maxUpdatesPerSettlementTxn with
  | none => decide
  | some size =>
    refine Nat.pos_of_ne_zero fun hzero => config.positive ?_
    have hsize : size = 0 := UInt32.toNat_inj.mp hzero
    rw [h, hsize]

theorem Recorded.entry {events : List AccumulatorEvent} (h : Recorded hashes events b)
    (hmerges : ∀ k, merges k events < 2 ^ 127) (hsplits : ∀ k, splits k events < 2 ^ 127)
    {entry : AccumulatorObjId × Update} (hentry : entry ∈ b.updates.toList) :
    (∃ address, BalanceEntry hashes b.addresses entry address) ∧
      entry.2.sums = (merges entry.1 events, splits entry.1 events) ∧
      ∃ e ∈ events, e.accumulatorObj = entry.1 := by
  have hget : b.updates[entry.1]? = some entry.2 :=
    Std.ExtTreeMap.mem_toList_iff_getElem?_eq_some.mp hentry
  have hseen : ∃ e ∈ events, e.accumulatorObj = entry.1 := by
    by_contra hnone
    rw [h.unwritten entry.1 fun e he hkey => hnone ⟨e, he, hkey⟩] at hget
    cases hget
  obtain ⟨e, he, hkey⟩ := hseen
  obtain ⟨update, address, hupdate, hmerge, hsplit, hfound, hbalance, hfield⟩ := h.written e he
  rw [hkey] at hupdate hmerge hsplit hfound hfield
  cases hupdate.symm.trans hget
  have hsums : entry.2.sums = (merges entry.1 events, splits entry.1 events) := by
    rw [Update.sums, hmerge, hsplit]
  have := hmerges entry.1
  have := hsplits entry.1
  refine ⟨⟨address, hfound, hbalance, hfield, ?_, ?_, ?_, ?_⟩, hsums, e, he, hkey⟩
  · rw [hsums]
    exact hmerge
  · rw [hsums]
    exact hsplit
  · rw [hsums]
    dsimp only
    omega
  · rw [hsums]
    dsimp only
    omega

theorem prepare_spec (hcheckpoint : BalanceCheckpoint hashes txs) (config : ProtocolConfig)
    (ctx : SettlementContext) (txIndexOffset : UInt64) :
    ∃ b transactions, prepare hashes config ctx txIndexOffset txs = .ok (b, transactions) ∧
      Prepared hashes config txs b transactions := by
  -- the fold of each transaction
  obtain ⟨effects, heffects⟩ := mapM_total fun tx htx =>
    mergeAccumulatorEvents_total (fun e he => (hcheckpoint.balance tx htx e he).integer)
      (hcheckpoint.merges_lt tx htx) (hcheckpoint.splits_lt tx htx)
  have hfolded : List.Forall₂ Folded txs effects := by
    have hpairs := List.forall₂_iff_zip.mp (mapM_forall₂ heffects)
    refine List.forall₂_iff_zip.mpr ⟨hpairs.1, fun {tx merged} hzip => ?_⟩
    have htx := (of_mem_zip hzip).1
    exact .of_ok (fun e he => (hcheckpoint.balance tx htx e he).integer) (hpairs.2 hzip)
  have hall := foldedAll hfolded
  have hlength : effects.length < 2 ^ 63 := hfolded.length_eq ▸ hcheckpoint.length_lt
  have hsmall : effects.length * (2 ^ 64 - 1) < 2 ^ 127 := by omega
  have hmerges : ∀ k, merges k effects.flatten < 2 ^ 127 :=
    fun k => Nat.lt_of_le_of_lt (hall.bound k).1 hsmall
  have hsplits : ∀ k, splits k effects.flatten < 2 ^ 127 :=
    fun k => Nat.lt_of_le_of_lt (hall.bound k).2 hsmall
  have hevents : ∀ e ∈ effects.flatten, BalanceEvent hashes e := by
    intro e he
    obtain ⟨hvalue, e₀, he₀, hkey, haddress⟩ := hall.source e he
    obtain ⟨tx, htx, he₀⟩ := mem_flatten.mp he₀
    refine ⟨haddress ▸ (hcheckpoint.balance tx htx e₀ he₀).balance, hvalue, ?_⟩
    rw [← haddress, hcheckpoint.keyed tx htx e₀ he₀, hkey]
  -- the sums of the checkpoint
  obtain ⟨b, hb, hrecorded⟩ := new_spec hevents
    (fun k => Nat.lt_trans (hmerges k) (by norm_num)) (fun k => Nat.lt_trans (hsplits k) (by norm_num))
    ctx.checkpointSeq txIndexOffset
  have hentries : ∀ entry ∈ b.updates.toList, ∃ address,
      BalanceEntry hashes b.addresses entry address :=
    fun entry hentry => (hrecorded.entry hmerges hsplits hentry).1
  -- the transactions
  have hchunk : ∀ chunk ∈ (chunks config.chunkSize b.updates.toList).zipIdx, ∀ entry ∈ chunk.1,
      ∃ address, BalanceEntry hashes b.addresses entry address := by
    intro chunk hchunk entry hentry
    have hmem : chunk.1 ∈ chunks config.chunkSize b.updates.toList := fst_mem_of_mem_zipIdx hchunk
    refine hentries entry ?_
    rw [← flatten_chunks config.chunkSize_pos b.updates.toList]
    exact mem_flatten.mpr ⟨chunk.1, hmem, hentry⟩
  obtain ⟨transactions, htransactions⟩ := mapM_total fun chunk hmem => by
    obtain ⟨tx, _, _, htx, -⟩ :=
      buildOneSettlementTxn_spec (hchunk chunk hmem) ctx (UInt64.ofNat chunk.2)
    exact ⟨tx, htx⟩
  refine ⟨b, transactions, ?_, hentries, ?_, ?_, ?_, ?_⟩
  · exact bind₃_eq_ok.mpr ⟨effects, heffects, b, hb, transactions, htransactions, rfl⟩
  · intro entry hentry
    rw [(hrecorded.entry hmerges hsplits hentry).2.1]
    exact ⟨hmerges _, hsplits _, hall.net entry.1⟩
  · intro e he
    obtain ⟨e', he', hkey⟩ := hall.covers e he
    obtain ⟨update, -, hupdate, -⟩ := hrecorded.written e' he'
    exact ⟨update, hkey ▸ hupdate⟩
  · intro entry hentry
    obtain ⟨e, he, hkey⟩ := (hrecorded.entry hmerges hsplits hentry).2.2
    obtain ⟨-, e₀, he₀, hkey₀, -⟩ := hall.source e he
    exact ⟨e₀, he₀, hkey₀.trans hkey⟩
  · rw [← zipIdx_map_fst 0 (chunks config.chunkSize b.updates.toList), List.forall₂_map_right_iff]
    have hpairs := List.forall₂_iff_zip.mp (mapM_forall₂ htransactions)
    refine (List.forall₂_iff_zip.mpr ⟨hpairs.1, fun {chunk tx} hzip => ?_⟩ :
      List.Forall₂ (fun chunk tx => _) _ transactions).flip
    obtain ⟨tx', input, output, htx', hlength, hresolved⟩ :=
      buildOneSettlementTxn_spec (hchunk chunk (of_mem_zip hzip).1) ctx (UInt64.ofNat chunk.2)
    cases htx'.symm.trans (hpairs.2 hzip)
    exact ⟨hlength, fun hle => ⟨_, _, _, input, output, hresolved hle⟩⟩

/-- Chunks of this size keep the inputs of a settlement transaction within reach. -/
theorem prepare_inputs_le (hcheckpoint : BalanceCheckpoint hashes txs)
    (hchunk : config.chunkSize ≤ 21843) {transactions : List ProgrammableTransaction}
    (h : prepare hashes config ctx txIndexOffset txs = .ok (b, transactions)) :
    ∀ tx ∈ transactions, tx.inputs.length ≤ 2 ^ 16 := by
  obtain ⟨b', transactions', hprepare, hprepared⟩ :=
    prepare_spec hcheckpoint config ctx txIndexOffset
  cases hprepare.symm.trans h
  intro tx htx
  obtain ⟨i, hi, rfl⟩ := getElem_of_mem htx
  have hbuilt := List.forall₂_iff_get.mp hprepared.built
  have hi' := hi
  rw [hbuilt.1] at hi'
  have hlength := (hbuilt.2 i hi hi').1
  have hsize : (chunks config.chunkSize b.updates.toList)[i].length ≤ config.chunkSize :=
    length_le_of_mem_chunks (getElem_mem hi')
  simp only [get_eq_getElem] at hlength
  omega

theorem merges_eq_zero_of_unwritten {k : AccumulatorObjId}
    (h : ∀ e ∈ txs.flatten, e.accumulatorObj ≠ k) :
    merges k txs.flatten = 0 ∧ splits k txs.flatten = 0 :=
  ⟨total_eq_zero h, total_eq_zero h⟩

theorem bmod_of_lt {n : Nat} (h : n < 2 ^ 127) : Int.bmod (n : Int) (2 ^ 128) = n := by
  rw [Int.bmod_eq_of_le]
  · omega
  · omega

theorem collectFundsChanges_get {k : AccumulatorObjId}
    {update : Update} (hget : b.updates[k]? = some update) {merge split : Nat}
    (hmerge : update.merge = .sumU128 merge) (hsplit : update.split = .sumU128 split)
    (hmergeLt : merge < 2 ^ 127) (hsplitLt : split < 2 ^ 127) :
    b.collectFundsChanges[k]? = some ((merge : Int) - split) := by
  have hdiff : ((merge : Int) - split).bmod (2 ^ 128) = merge - split := by
    rw [Int.bmod_eq_of_le]
    · omega
    · omega
  rw [AccumulatorSettlementTxBuilder.collectFundsChanges, Std.ExtTreeMap.getElem?_filterMap', hget]
  simp only [Option.bind_some, hmerge, hsplit, bmod_of_lt hmergeLt, bmod_of_lt hsplitLt, hdiff]

/-- **Balance settlement is exact.**  A checkpoint of balance events is settled on any root that
    settlement can lead to, if no balance would become negative or leave `u128`, and no
    settlement transaction has more inputs than a position can name.  Every balance is then what
    it was, plus all merges, minus all splits; an accumulator is there exactly for a balance that
    is not zero; what changes is what was reported to the withdraw scheduler; and the barrier
    stores the number of accumulators. -/
theorem balance_settlement_exact (hroot : Reachable hashes root) (hhashes : hashes.Separates)
    (hcheckpoint : BalanceCheckpoint hashes txs)
    (hcovered : ∀ k, splits k txs.flatten ≤ root.value k + merges k txs.flatten)
    (hfits : ∀ k, root.value k + merges k txs.flatten - splits k txs.flatten < 2 ^ 128)
    (hinputs : ∀ b transactions, prepare hashes config ctx txIndexOffset txs = .ok (b, transactions) →
      ∀ tx ∈ transactions, tx.inputs.length ≤ 2 ^ 16) :
    ∃ settlement, settle hashes config ctx txIndexOffset txs root = .ok settlement ∧
      (∀ k, settlement.root.value k + splits k txs.flatten = root.value k + merges k txs.flatten) ∧
      (∀ address, classify address.ty = .balance →
        (hashes.fieldId address ∈ settlement.root.accumulators ↔
          settlement.root.value (hashes.fieldId address) ≠ 0)) ∧
      (∀ k, (settlement.root.value k : Int) - root.value k =
        settlement.builder.collectFundsChanges.getD k 0) ∧
      settlement.root.accumulators.size + (countAccumulatorObjectChanges settlement.effects).2 =
        root.accumulators.size + (countAccumulatorObjectChanges settlement.effects).1 ∧
      (root.accumulators.size + (countAccumulatorObjectChanges settlement.effects).1 < 2 ^ 64 →
        ∃ root', settlement.barrier hashes ctx = .ok root' ∧
          root'.accumulators = settlement.root.accumulators ∧
          root'.objectCount = some settlement.root.accumulators.size) := by
  have hinv := hroot.inv
  obtain ⟨b, transactions, hprepare, hprepared⟩ := prepare_spec hcheckpoint config ctx txIndexOffset
  have hmakes : List.Forall₂ (Makes b.addresses) transactions
      (chunks config.chunkSize b.updates.toList) := by
    have hbuilt := List.forall₂_iff_zip.mp hprepared.built
    refine List.forall₂_iff_zip.mpr ⟨hbuilt.1, fun {tx chunk} hzip => ?_⟩
    exact (hbuilt.2 hzip).2 (hinputs b transactions hprepare tx (of_mem_zip hzip).1)
  have hflatten := flatten_chunks config.chunkSize_pos b.updates.toList
  have hpayable : ∀ entry ∈ b.updates.toList, Payable root entry := by
    intro entry hentry
    obtain ⟨address, haddress⟩ := hprepared.entries entry hentry
    obtain ⟨hfield, hvalue⟩ := hinv.fields.balanceField hhashes haddress.balance
    rw [haddress.fieldId] at hfield hvalue
    obtain ⟨-, -, hnet⟩ := hprepared.sums entry hentry
    have := hcovered entry.1
    have := hfits entry.1
    exact ⟨hfield, hvalue, by omega, by omega⟩
  obtain ⟨root', effects, hexecute, happlied⟩ := foldlM_executeNext hmakes
    (fun entry hentry => hprepared.entries entry (hflatten ▸ hentry))
    (by rw [hflatten]; exact nodup_map_fst_toList _)
    (fun entry hentry => hpayable entry (hflatten ▸ hentry)) []
  rw [hflatten] at happlied
  have hsettle : settle hashes config ctx txIndexOffset txs root = .ok ⟨b, root', effects⟩ :=
    bind₂_eq_ok.mpr ⟨(b, transactions), hprepare, (root', effects), hexecute, rfl⟩
  obtain ⟨hfields, hcount, hsize⟩ := settle_keeps hinv.fields hsettle
  -- one accumulator: with an update, or untouched
  have hkey : ∀ k, root'.value k + splits k txs.flatten = root.value k + merges k txs.flatten ∧
      (root'.value k : Int) - root.value k = b.collectFundsChanges.getD k 0 := by
    intro k
    rw [Std.ExtTreeMap.getD_eq_getD_getElem?]
    cases hget : b.updates[k]? with
    | some update =>
      have hentry : (k, update) ∈ b.updates.toList :=
        Std.ExtTreeMap.mem_toList_iff_getElem?_eq_some.mpr hget
      obtain ⟨address, haddress⟩ := hprepared.entries _ hentry
      obtain ⟨hmergeLt, hsplitLt, hnet⟩ := hprepared.sums _ hentry
      have hvalue := value_of_field (happlied.updated _ hentry)
      rw [collectFundsChanges_get hget haddress.merge haddress.split hmergeLt hsplitLt]
      have := hcovered k
      have := (hpayable _ hentry).covered
      dsimp only [Option.getD_some] at *
      omega
    | none =>
      have hnotin : k ∉ b.updates.toList.map Prod.fst := by
        intro hmem
        obtain ⟨entry, hentry, rfl⟩ := mem_map.mp hmem
        rw [Std.ExtTreeMap.mem_toList_iff_getElem?_eq_some.mp hentry] at hget
        cases hget
      have hunwritten : ∀ e ∈ txs.flatten, e.accumulatorObj ≠ k := by
        rintro e he rfl
        obtain ⟨update, hupdate⟩ := hprepared.written e he
        rw [hupdate] at hget
        cases hget
      obtain ⟨hmerges, hsplits⟩ := merges_eq_zero_of_unwritten hunwritten
      have hvalue := value_congr (happlied.other k hnotin)
      rw [AccumulatorSettlementTxBuilder.collectFundsChanges, Std.ExtTreeMap.getElem?_filterMap',
        hget]
      simp [hvalue, hmerges, hsplits]
  refine ⟨⟨b, root', effects⟩, hsettle, fun k => (hkey k).1, ?_, fun k => (hkey k).2, hsize, ?_⟩
  · intro address hbalance
    exact mem_of_field (hfields.balanceField hhashes hbalance).1
  · intro hlt
    refine ⟨_, barrier_keeps ?_ hsize hlt, rfl, rfl⟩
    rw [hcount, hinv.count]

end Checkpoint

/-! ### Samples -/

/-- A hash that tells balances from event streams by the lowest bit. -/
def sampleHashes : Hashes where
  fieldId address :=
    2 * Codec.leNat address.address.toList + if classify address.ty = .balance then 0 else 1
  buildEventMerkleRoot _ := Vector.replicate 32 0
  hashTwoToOneU256 v w := v + w

theorem sampleHashes_separates : sampleHashes.Separates := by
  intro address streamId hbalance heq
  have hstream : ¬classify eventStreamHeadType = .balance := by
    rw [classify_eventStreamHeadType]
    decide
  simp only [sampleHashes, if_pos hbalance, if_neg hstream] at heq
  change (2 * _ + 0 : Nat) = 2 * _ + 1 at heq
  omega

/-- `0x2::balance::Balance<0x7::coin::COIN>` -/
def sampleBalance : TypeTag :=
  .struct frameworkAddress "balance" "Balance"
    [.struct ((Vector.replicate 31 0).push 7) "coin" "COIN" []]

theorem classify_sampleBalance : classify sampleBalance = .balance := by
  simp [classify, sampleBalance]

def sampleAccount (n : Nat) : AccumulatorAddress :=
  ⟨⟨(Codec.leBytes 32 n).toArray, by simp⟩, sampleBalance⟩

def sampleEvent (n : Nat) (operation : AccumulatorOperation) (amount : UInt64) : AccumulatorEvent :=
  ⟨sampleHashes.fieldId (sampleAccount n), sampleAccount n, operation, .integer amount⟩

theorem sampleEvent_isBalance (n : Nat) (operation : AccumulatorOperation) (amount : UInt64) :
    (sampleEvent n operation amount).write.IsBalance :=
  ⟨classify_sampleBalance, amount, rfl⟩

variable {n : Nat}

theorem leNat_sampleAccount (h : n < 2 ^ 256) :
    Codec.leNat (sampleAccount n).address.toList = n := by
  have hlt : n < 256 ^ 32 := h
  change Codec.leNat (Codec.leBytes 32 n) = n
  rw [Codec.leNat_leBytes, Nat.mod_eq_of_lt hlt]

theorem fieldId_sampleAccount (h : n < 2 ^ 256) :
    sampleHashes.fieldId (sampleAccount n) = 2 * n := by
  change 2 * Codec.leNat (sampleAccount n).address.toList +
    (if classify sampleBalance = .balance then 0 else 1) = 2 * n
  rw [leNat_sampleAccount h, if_pos classify_sampleBalance]
  rfl

theorem sampleAccount_inj {n m : Nat} (hn : n < 2 ^ 256) (hm : m < 2 ^ 256)
    (h : (sampleAccount n).address = (sampleAccount m).address) : n = m := by
  rw [← leNat_sampleAccount hn, h, leNat_sampleAccount hm]

theorem address_of_fieldId {address : AccumulatorAddress}
    (hbalance : classify address.ty = .balance)
    (h : sampleHashes.fieldId address = sampleHashes.fieldId (sampleAccount n)) :
    address.address = (sampleAccount n).address := by
  change (2 * Codec.leNat address.address.toList + if classify address.ty = .balance then 0 else 1) =
    2 * Codec.leNat (sampleAccount n).address.toList +
      if classify sampleBalance = .balance then 0 else 1 at h
  rw [if_pos hbalance, if_pos classify_sampleBalance] at h
  refine Vector.toList_inj.mp (Codec.leNat_injective ?_ ?_)
  · rw [Vector.length_toList, Vector.length_toList]
  · omega

theorem accumulatorObj_sampleEvent (h : n < 2 ^ 256) (operation : AccumulatorOperation)
    (amount : UInt64) : (sampleEvent n operation amount).accumulatorObj = 2 * n :=
  fieldId_sampleAccount h

def sampleContext : SettlementContext := ⟨1, 1, 2, 2⟩

/-- Two accounts are paid into, and one of them pays everything out again. -/
def sampleTxs : List (List AccumulatorEvent) :=
  [[sampleEvent 1 .merge 5, sampleEvent 2 .merge 3, sampleEvent 1 .split 1],
    [sampleEvent 1 .split 4]]

variable (k : AccumulatorObjId)

theorem sums_sampleTxs :
    merges k sampleTxs.flatten = (if 2 = k then 5 else 0) + (if 4 = k then 3 else 0) ∧
      splits k sampleTxs.flatten = if 2 = k then 5 else 0 := by
  have h₁ := fun op a => accumulatorObj_sampleEvent (n := 1) (by norm_num) op a
  have h₂ := fun op a => accumulatorObj_sampleEvent (n := 2) (by norm_num) op a
  simp only [merges, splits, sampleTxs, flatten_cons, flatten_nil, cons_append,
    nil_append, append_nil, total_cons, total_nil, h₁, h₂]
  constructor <;> split_ifs <;> rfl

theorem sampleTxs_checkpoint : BalanceCheckpoint sampleHashes sampleTxs := by
  have hevents : ∀ tx ∈ sampleTxs, ∀ e ∈ tx,
      ∃ n operation amount, e = sampleEvent n operation amount := by
    intro tx htx e he
    simp only [sampleTxs, mem_cons, not_mem_nil, or_false] at htx
    rcases htx with rfl | rfl
    · simp only [mem_cons, not_mem_nil, or_false] at he
      rcases he with rfl | rfl | rfl
      · exact ⟨1, .merge, 5, rfl⟩
      · exact ⟨2, .merge, 3, rfl⟩
      · exact ⟨1, .split, 1, rfl⟩
    · exact ⟨1, .split, 4, mem_singleton.mp he⟩
  refine ⟨?_, ?_, ?_, ?_, by decide⟩
  · intro tx htx e he
    obtain ⟨n, operation, amount, rfl⟩ := hevents tx htx e he
    exact sampleEvent_isBalance n operation amount
  · intro tx htx e he
    obtain ⟨n, operation, amount, rfl⟩ := hevents tx htx e he
    rfl
  · intro tx htx k
    refine Nat.lt_of_le_of_lt (total_le_of_sublist (sublist_flatten_of_mem htx)) ?_
    change merges k sampleTxs.flatten < 2 ^ 64
    rw [(sums_sampleTxs _).1]
    split_ifs <;> norm_num
  · intro tx htx k
    refine Nat.lt_of_le_of_lt (total_le_of_sublist (sublist_flatten_of_mem htx)) ?_
    change splits k sampleTxs.flatten < 2 ^ 64
    rw [(sums_sampleTxs _).2]
    split_ifs <;> norm_num

theorem balance_settlement_exact_sample : ∃ settlement,
    settle sampleHashes ⟨some 100, by decide⟩ sampleContext 0 sampleTxs {} = .ok settlement ∧
      settlement.root.value 4 = 3 ∧
      sampleHashes.fieldId (sampleAccount 1) ∉ settlement.root.accumulators := by
  have hempty : ∀ k, AccumulatorRoot.value {} k = 0 := fun _ => rfl
  have hinputs : ∀ b transactions,
      prepare sampleHashes ⟨some 100, by decide⟩ sampleContext 0 sampleTxs = .ok (b, transactions) →
      ∀ tx ∈ transactions, tx.inputs.length ≤ 2 ^ 16 :=
    fun b transactions h => prepare_inputs_le sampleTxs_checkpoint (by decide) h
  obtain ⟨settlement, hsettle, hvalue, hfield, -⟩ := balance_settlement_exact .create
    sampleHashes_separates sampleTxs_checkpoint
    (by
      intro k
      rw [(sums_sampleTxs _).1, (sums_sampleTxs _).2]
      split_ifs <;> omega)
    (by
      intro k
      rw [hempty, (sums_sampleTxs _).1, (sums_sampleTxs _).2]
      split_ifs <;> norm_num)
    hinputs
  refine ⟨settlement, hsettle, ?_, ?_⟩
  · have h := hvalue 4
    rw [hempty, (sums_sampleTxs _).1, (sums_sampleTxs _).2] at h
    simpa using h
  · rw [hfield _ classify_sampleBalance, fieldId_sampleAccount (by norm_num)]
    have h := hvalue 2
    rw [hempty, (sums_sampleTxs _).1, (sums_sampleTxs _).2] at h
    simpa using h

/-- More accounts than inputs can be named, each of which is paid into. -/
def manyTxs : List (List AccumulatorEvent) :=
  [(List.range (2 ^ 16 + 1)).map fun n => sampleEvent n .merge 1]

theorem mem_manyTxs {e : AccumulatorEvent} :
    e ∈ manyTxs.flatten ↔ ∃ n ≤ 2 ^ 16, e = sampleEvent n .merge 1 := by
  simp [manyTxs, Nat.lt_succ_iff, eq_comm]

theorem nodup_manyTxs : (manyTxs.flatten.map AccumulatorEvent.accumulatorObj).Nodup := by
  rw [manyTxs, flatten_singleton, map_map]
  refine List.Nodup.map_on ?_ nodup_range
  intro n hn m hm heq
  rw [mem_range] at hn hm
  have hn' := accumulatorObj_sampleEvent (n := n) (by omega) .merge 1
  have hm' := accumulatorObj_sampleEvent (n := m) (by omega) .merge 1
  have hdouble : 2 * n = 2 * m := hn'.symm.trans (heq.trans hm')
  omega

theorem merges_manyTxs (h : n ≤ 2 ^ 16) :
    merges (sampleEvent n .merge 1).accumulatorObj manyTxs.flatten = 1 :=
  total_of_pairwise nodup_manyTxs (mem_manyTxs.mpr ⟨n, h, rfl⟩) rfl

theorem merges_manyTxs_le : merges k manyTxs.flatten ≤ 1 := by
  by_cases hseen : ∃ e ∈ manyTxs.flatten, e.accumulatorObj = k
  · obtain ⟨e, he, rfl⟩ := hseen
    obtain ⟨n, hn, rfl⟩ := mem_manyTxs.mp he
    exact Nat.le_of_eq (merges_manyTxs hn)
  · exact Nat.le_trans (Nat.le_of_eq (total_eq_zero fun e he hkey => hseen ⟨e, he, hkey⟩))
      (Nat.zero_le 1)

theorem splits_manyTxs : splits k manyTxs.flatten = 0 := by
  have hle : splits k manyTxs.flatten ≤ manyTxs.flatten.length * 0 := by
    refine total_le_mul fun e he => ?_
    obtain ⟨n, -, rfl⟩ := mem_manyTxs.mp he
    exact Nat.le_refl 0
  omega

theorem manyTxs_checkpoint : BalanceCheckpoint sampleHashes manyTxs := by
  have hevents : ∀ tx ∈ manyTxs, ∀ e ∈ tx, ∃ n, e = sampleEvent n .merge 1 := by
    intro tx htx e he
    obtain ⟨n, -, he⟩ := mem_manyTxs.mp (mem_flatten.mpr ⟨tx, htx, he⟩)
    exact ⟨n, he⟩
  refine ⟨?_, ?_, ?_, ?_, ?_⟩
  · intro tx htx e he
    obtain ⟨n, rfl⟩ := hevents tx htx e he
    exact sampleEvent_isBalance n .merge 1
  · intro tx htx e he
    obtain ⟨n, rfl⟩ := hevents tx htx e he
    rfl
  · intro tx htx k
    have hle : merges k tx ≤ merges k manyTxs.flatten :=
      total_le_of_sublist (sublist_flatten_of_mem htx)
    have := merges_manyTxs_le k
    omega
  · intro tx htx k
    have hle : splits k tx ≤ splits k manyTxs.flatten :=
      total_le_of_sublist (sublist_flatten_of_mem htx)
    rw [splits_manyTxs] at hle
    omega
  · rw [manyTxs, length_singleton]
    norm_num

def manyConfig : ProtocolConfig := ⟨none, by decide⟩

section Many

variable {b : AccumulatorSettlementTxBuilder} {transactions : List ProgrammableTransaction}

section

variable (hprepared : Prepared sampleHashes manyConfig manyTxs b transactions)
include hprepared

theorem manyTxs_entry {n : Nat} (hn : n ≤ 2 ^ 16) : ∃ entry ∈ b.updates.toList, ∃ address,
      b.addresses[entry.1]? = some address ∧ address.address = (sampleAccount n).address := by
  obtain ⟨update, hupdate⟩ := hprepared.written _ (mem_manyTxs.mpr ⟨n, hn, rfl⟩)
  have hmem := Std.ExtTreeMap.mem_toList_iff_getElem?_eq_some.mpr hupdate
  obtain ⟨address, haddress⟩ := hprepared.entries _ hmem
  exact ⟨_, hmem, address, haddress.found, address_of_fieldId haddress.balance haddress.fieldId⟩

theorem manyTxs_chunks :
    chunks manyConfig.chunkSize b.updates.toList = [b.updates.toList] := by
  have hsubset : b.updates.toList.map Prod.fst ⊆
      manyTxs.flatten.map AccumulatorEvent.accumulatorObj := by
    intro k hk
    obtain ⟨entry, hentry, rfl⟩ := mem_map.mp hk
    obtain ⟨e, he, hkey⟩ := hprepared.source entry hentry
    exact mem_map.mpr ⟨e, he, hkey⟩
  have hlength := ((nodup_map_fst_toList b.updates).subperm hsubset).length_le
  rw [length_map, length_map, manyTxs, flatten_singleton, length_map, length_range] at hlength
  obtain ⟨entry, hmem, -⟩ := manyTxs_entry hprepared (Nat.zero_le _)
  refine chunks_of_length_le (ne_nil_of_mem hmem) (Nat.le_trans hlength ?_)
  decide

theorem manyTxs_nonzero {entry : AccumulatorObjId × Update} (hentry : entry ∈ b.updates.toList) :
    (netOut entry.2.sums.1 entry.2.sums.2).1 ≠ 0 := by
  obtain ⟨e, he, hkey⟩ := hprepared.source entry hentry
  obtain ⟨n, hn, rfl⟩ := mem_manyTxs.mp he
  obtain ⟨-, -, hnet⟩ := hprepared.sums entry hentry
  rw [splits_manyTxs, ← hkey, merges_manyTxs hn] at hnet
  rw [netOut, if_pos (by omega)]
  dsimp only
  omega

end

end Many

/-- With one settlement transaction for all accounts, the settlement of a checkpoint that every
    account can take fails: the transaction has more inputs than it can name. -/
theorem oversized_settlement_fails :
    Reachable sampleHashes {} ∧ sampleHashes.Separates ∧ BalanceCheckpoint sampleHashes manyTxs ∧
      (∀ k, splits k manyTxs.flatten ≤ AccumulatorRoot.value {} k + merges k manyTxs.flatten) ∧
      (∀ k, AccumulatorRoot.value {} k + merges k manyTxs.flatten - splits k manyTxs.flatten <
        2 ^ 128) ∧
      ∀ settlement, settle sampleHashes manyConfig sampleContext 0 manyTxs {} ≠ .ok settlement := by
  have hempty : ∀ k, AccumulatorRoot.value {} k = 0 := fun _ => rfl
  refine ⟨.create, sampleHashes_separates, manyTxs_checkpoint, ?_, ?_, ?_⟩
  · intro k
    rw [splits_manyTxs]
    exact Nat.zero_le _
  · intro k
    have := merges_manyTxs_le k
    rw [hempty, splits_manyTxs]
    omega
  intro settlement hsettle
  obtain ⟨b, transactions, hprepare, hprepared⟩ :=
    prepare_spec manyTxs_checkpoint manyConfig sampleContext 0
  obtain ⟨prepared, hprepare', hrest⟩ := bind_eq_ok.mp hsettle
  cases hprepare.symm.trans hprepare'
  obtain ⟨executed, hexecute, -⟩ := bind_eq_ok.mp hrest
  have hupdates : ∀ entry ∈ b.updates.toList, ∃ address,
      BalanceEntry sampleHashes b.addresses entry address ∧
        ((netOut entry.2.sums.1 entry.2.sums.2).1 ≠ 0 ∨
          (netOut entry.2.sums.1 entry.2.sums.2).2 ≠ 0) := by
    intro entry hmem
    obtain ⟨address, haddress⟩ := hprepared.entries entry hmem
    exact ⟨address, haddress, .inl (manyTxs_nonzero hprepared hmem)⟩
  have hnodup : ((List.range (2 ^ 16 + 1)).map fun n => (sampleAccount n).address).Nodup := by
    refine List.Nodup.map_on ?_ nodup_range
    intro n hn m hm heq
    rw [mem_range] at hn hm
    exact sampleAccount_inj (by omega) (by omega) heq
  obtain ⟨tx, htx, hbroken⟩ := buildOneSettlementTxn_broken hupdates hnodup
    (by rw [length_map, length_range]; omega)
    (by
      intro account haccount
      obtain ⟨n, hn, rfl⟩ := mem_map.mp haccount
      exact manyTxs_entry hprepared (Nat.lt_succ_iff.mp (mem_range.mp hn)))
    sampleContext 0
  obtain ⟨_, _, _, _, _, hbuild, hpure⟩ := bind₃_eq_ok.mp hprepare
  cases hpure
  rw [AccumulatorSettlementTxBuilder.buildTx, manyTxs_chunks hprepared] at hbuild
  obtain ⟨tx', htx', hnil⟩ := bind_eq_ok.mp ((mapM_cons ..).symm.trans hbuild)
  cases hnil
  cases htx.symm.trans htx'
  obtain ⟨state, hstep, -⟩ := foldlM_cons_eq_ok.mp hexecute
  obtain ⟨root', hroot', -⟩ := bind_eq_ok.mp hstep
  exact hbroken _ _ hroot'

end Haneul.Accumulators
