import Haneul.Accumulators.SettlementTx

/-!
# Executing the settlement of a checkpoint

The accumulator root and the functions of the framework that settlement transactions call
(`accumulator.move`, `accumulator_settlement.move`, `accumulator_metadata.move`), the run of the
settlement transactions in order, and the barrier transaction that follows them and records how
many accumulators were created and destroyed.

Accumulators are dynamic fields of the root, found under the hash of their type and address.
-/

namespace Haneul.Accumulators

open Authority (ObjectID)
open Codec (leNat)

/-! ### The accumulator root -/

structure EventStreamHead where
  mmr : List Nat
  checkpointSeq : UInt64
  numEvents : UInt64
deriving DecidableEq, Repr

inductive FieldValue where
  | u128 (value : Nat)
  | eventStreamHead (head : EventStreamHead)
deriving DecidableEq, Repr

structure AccumulatorRoot where
  accumulators : Std.ExtTreeMap AccumulatorObjId FieldValue compare := ∅
  /-- The field under `AccumulatorObjectCountKey`. -/
  objectCount : Option Nat := none

structure TxContext where
  sender : HaneulAddress
deriving DecidableEq, Repr

/-- System transactions are sent by `0x0`. -/
def systemTx : TxContext := ⟨Vector.replicate 32 0⟩

def TxContext.assertSystem (ctx : TxContext) : Except Failure Unit :=
  if ctx.sender = Vector.replicate 32 0 then .ok () else .error (.abort .notSystemAddress)

def AccumulatorRoot.addAccumulator (root : AccumulatorRoot) (name : AccumulatorObjId)
    (value : FieldValue) : Except Failure AccumulatorRoot :=
  match root.accumulators[name]? with
  | some _ => .error (.abort .fieldAlreadyExists)
  | none => .ok { root with accumulators := root.accumulators.insert name value }

def updateU128 (value merge split : Nat) : Except Failure Nat :=
  if 2 ^ 128 ≤ value + merge ∨ value + merge < split then .error (.abort .arithmeticError)
  else .ok (value + merge - split)

/-! ### Settlement -/

/-- The branch of `settle_u128` for a field that exists. -/
def AccumulatorRoot.updateAccumulator (root : AccumulatorRoot) (name : AccumulatorObjId)
    (value merge split : Nat) : Except Failure AccumulatorRoot := do
  let value ← updateU128 value merge split
  return { root with accumulators :=
    if value = 0 then root.accumulators.erase name
    else root.accumulators.insert name (.u128 value) }

def settleU128 (hashes : Hashes) (ctx : TxContext) (root : AccumulatorRoot) (ty : TypeTag)
    (owner : HaneulAddress) (merge split : Nat) : Except Failure AccumulatorRoot := do
  ctx.assertSystem
  if (merge = 0) = (split = 0) then .error (.abort .invalidSplitAmount)
  else
    let name := hashes.fieldId ⟨owner, ty⟩
    match root.accumulators[name]? with
    | some (.u128 value) => root.updateAccumulator name value merge split
    | _ =>
      -- cannot split if the field does not yet exist
      if split ≠ 0 then .error (.abort .invalidSplitAmount)
      else root.addAccumulator name (.u128 merge)

/-- `add_to_mmr`: the new value is combined with the peaks of full subtrees. -/
def addToMmr (hashes : Hashes) (cur : Nat) : List Nat → List Nat
  | [] => [cur]
  | peak :: peaks =>
    if peak = 0 then cur :: peaks else 0 :: addToMmr hashes (hashes.hashTwoToOneU256 peak cur) peaks

def eventStreamHeadType : TypeTag :=
  .struct frameworkAddress "accumulator_settlement" "EventStreamHead" []

def settleEvents (hashes : Hashes) (ctx : TxContext) (root : AccumulatorRoot)
    (streamId : HaneulAddress) (newRoot : Nat) (eventCountDelta checkpointSeq : UInt64) :
    Except Failure AccumulatorRoot := do
  ctx.assertSystem
  let name := hashes.fieldId ⟨streamId, eventStreamHeadType⟩
  match root.accumulators[name]? with
  | some (.eventStreamHead head) =>
    if head.numEvents.toNat + eventCountDelta.toNat < 2 ^ 64 then
      return { root with accumulators := root.accumulators.insert name (.eventStreamHead
        ⟨addToMmr hashes newRoot head.mmr, checkpointSeq, head.numEvents + eventCountDelta⟩) }
    else .error (.abort .arithmeticError)
  | _ =>
    root.addAccumulator name
      (.eventStreamHead ⟨addToMmr hashes newRoot [], checkpointSeq, eventCountDelta⟩)

/-- `record_accumulator_object_changes`; the count is a `u64`. -/
def recordAccumulatorObjectChanges (root : AccumulatorRoot)
    (objectsCreated objectsDestroyed : Nat) :
    Except Failure AccumulatorRoot :=
  match root.objectCount with
  | some currentCount =>
    if 2 ^ 64 ≤ currentCount + objectsCreated then .error (.abort .arithmeticError)
    else if currentCount + objectsCreated < objectsDestroyed then
      .error (.abort .invariantViolation)
    else .ok { root with objectCount := some (currentCount + objectsCreated - objectsDestroyed) }
  | none =>
    if objectsCreated < objectsDestroyed then .error (.abort .invariantViolation)
    else .ok { root with objectCount := some (objectsCreated - objectsDestroyed) }

/-! ### Calls of a transaction -/

inductive SettlementCall where
  | prologue (epoch checkpointHeight idx inputHaneul outputHaneul : UInt64)
  | settleU128 (ty : TypeTag) (owner : HaneulAddress) (merge split : Nat)
  | settleEvents (streamId : HaneulAddress) (newRoot : Nat) (eventCountDelta checkpointSeq : UInt64)
  | record (objectsCreated objectsDestroyed : Nat)

def argument (inputs : List CallArg) : Argument → Except Failure CallArg
  | .input index =>
    match inputs[index.toNat]? with
    | some arg => .ok arg
    | none => .error .invalidArgument

def rootArgument (inputs : List CallArg) (arg : Argument) : Except Failure Unit := do
  match ← argument inputs arg with
  | .object obj => if obj.id = accumulatorRootObjectId then return () else .error .invalidArgument
  | .pure _ => .error .invalidArgument

def pureArgument (inputs : List CallArg) (arg : Argument) (length : Nat) :
    Except Failure (List UInt8) := do
  match ← argument inputs arg with
  | .pure bytes => if bytes.length = length then return bytes else .error .invalidArgument
  | .object _ => .error .invalidArgument

def addressOfBytes (bytes : List UInt8) : Except Failure HaneulAddress :=
  if h : bytes.length = 32 then .ok ⟨bytes.toArray, h⟩ else .error .invalidArgument

def addressArgument (inputs : List CallArg) (arg : Argument) : Except Failure HaneulAddress := do
  addressOfBytes (← pureArgument inputs arg 32)

def u64Argument (inputs : List CallArg) (arg : Argument) : Except Failure UInt64 := do
  return UInt64.ofNat (leNat (← pureArgument inputs arg 8))

def u128Argument (inputs : List CallArg) (arg : Argument) : Except Failure Nat := do
  return leNat (← pureArgument inputs arg 16)

def u256Argument (inputs : List CallArg) (arg : Argument) : Except Failure Nat := do
  return leNat (← pureArgument inputs arg 32)

/-- The arguments of a call are read at the types of the parameters. -/
def MoveCall.resolve (inputs : List CallArg) (call : MoveCall) : Except Failure SettlementCall :=
  match call.function, call.typeArguments, call.arguments with
  | .settlementPrologue, [], [root, epoch, checkpointHeight, idx, inputHaneul, outputHaneul] => do
    rootArgument inputs root
    return .prologue (← u64Argument inputs epoch) (← u64Argument inputs checkpointHeight)
      (← u64Argument inputs idx) (← u64Argument inputs inputHaneul)
      (← u64Argument inputs outputHaneul)
  | .settleU128, [ty], [root, owner, merge, split] => do
    rootArgument inputs root
    return .settleU128 ty (← addressArgument inputs owner) (← u128Argument inputs merge)
      (← u128Argument inputs split)
  | .settleEvents, [], [root, streamId, newRoot, eventCountDelta, checkpointSeq] => do
    rootArgument inputs root
    return .settleEvents (← addressArgument inputs streamId) (← u256Argument inputs newRoot)
      (← u64Argument inputs eventCountDelta) (← u64Argument inputs checkpointSeq)
  | .recordAccumulatorObjectChanges, [], [root, objectsCreated, objectsDestroyed] => do
    rootArgument inputs root
    return .record (← u64Argument inputs objectsCreated).toNat
      (← u64Argument inputs objectsDestroyed).toNat
  | _, _, _ => .error .invalidArgument

/-- The call in the framework.  The prologue only reports the flows of HANEUL. -/
def SettlementCall.run (hashes : Hashes) (ctx : TxContext) (root : AccumulatorRoot) :
    SettlementCall → Except Failure AccumulatorRoot
  | .prologue _ _ _ _ _ => do
    ctx.assertSystem
    return root
  | .settleU128 ty owner merge split => Accumulators.settleU128 hashes ctx root ty owner merge split
  | .settleEvents streamId newRoot eventCountDelta checkpointSeq =>
    Accumulators.settleEvents hashes ctx root streamId newRoot eventCountDelta checkpointSeq
  | .record objectsCreated objectsDestroyed =>
    recordAccumulatorObjectChanges root objectsCreated objectsDestroyed

def runCommand (hashes : Hashes) (inputs : List CallArg) (root : AccumulatorRoot)
    (call : MoveCall) :
    Except Failure AccumulatorRoot := do
  (← call.resolve inputs).run hashes systemTx root

def ProgrammableTransaction.execute (hashes : Hashes) (tx : ProgrammableTransaction)
    (root : AccumulatorRoot) : Except Failure AccumulatorRoot :=
  tx.commands.foldlM (runCommand hashes tx.inputs) root

/-! ### Effects and the barrier transaction -/

inductive IDOperation where
  | none
  | created
  | deleted
deriving DecidableEq, Repr

abbrev ObjectChanges := List (ObjectID × IDOperation)

def objectChanges (before after : AccumulatorRoot) : ObjectChanges :=
  (after.accumulators \ before.accumulators).keys.map (·, .created) ++
    (before.accumulators \ after.accumulators).keys.map (·, .deleted) ++
    (after.accumulators ∩ before.accumulators).keys.map (·, .none)

def executeNext (hashes : Hashes) (state : AccumulatorRoot × List ObjectChanges)
    (tx : ProgrammableTransaction) : Except Failure (AccumulatorRoot × List ObjectChanges) := do
  let root ← tx.execute hashes state.1
  return (root, state.2 ++ [objectChanges state.1 root])

def executeSettlements (hashes : Hashes) (settlements : List ProgrammableTransaction)
    (root : AccumulatorRoot) : Except Failure (AccumulatorRoot × List ObjectChanges) :=
  settlements.foldlM (executeNext hashes) (root, [])

def countChange (count : Nat × Nat) (change : ObjectID × IDOperation) : Nat × Nat :=
  match change.2 with
  | .created => (count.1 + 1, count.2)
  | .deleted => (count.1, count.2 + 1)
  | .none => count

def countAccumulatorObjectChanges (settlementEffects : List ObjectChanges) : Nat × Nat :=
  settlementEffects.flatten.foldl countChange (0, 0)

/-- `build_accumulator_barrier_tx`; counts that a `u64` cannot hold are cut off. -/
def buildAccumulatorBarrierTx (ctx : SettlementContext) (settlementEffects : List ObjectChanges) :
    ProgrammableTransaction :=
  let (objectsCreated, objectsDestroyed) := countAccumulatorObjectChanges settlementEffects
  let (root, b) := rootBuilder ctx .mutable
  let b := addPrologue b root ctx.epoch ctx.checkpointHeight
    (UInt64.ofNat settlementEffects.length) 0 0
  let (createdArg, b) := b.pure (u64Bytes (UInt64.ofNat objectsCreated))
  let (destroyedArg, b) := b.pure (u64Bytes (UInt64.ofNat objectsDestroyed))
  (b.programmableMoveCall .recordAccumulatorObjectChanges [] [root, createdArg, destroyedArg]).finish

/-! ### A checkpoint -/

def prepare (hashes : Hashes) (config : ProtocolConfig) (ctx : SettlementContext)
    (txIndexOffset : UInt64) (txs : List (List AccumulatorEvent)) :
    Except Failure (AccumulatorSettlementTxBuilder × List ProgrammableTransaction) := do
  let ckptEffects ← txs.mapM mergeAccumulatorEvents
  let builder ← AccumulatorSettlementTxBuilder.new ckptEffects ctx.checkpointSeq txIndexOffset
  let transactions ← builder.buildTx hashes config ctx
  return (builder, transactions)

/-- What the settlement of a checkpoint gives, up to its barrier. -/
structure Settlement where
  builder : AccumulatorSettlementTxBuilder
  root : AccumulatorRoot
  effects : List ObjectChanges

def settle (hashes : Hashes) (config : ProtocolConfig) (ctx : SettlementContext)
    (txIndexOffset : UInt64) (txs : List (List AccumulatorEvent)) (root : AccumulatorRoot) :
    Except Failure Settlement := do
  let (builder, transactions) ← prepare hashes config ctx txIndexOffset txs
  let (root, effects) ← executeSettlements hashes transactions root
  return { builder, root, effects }

def Settlement.barrier (hashes : Hashes) (ctx : SettlementContext) (settlement : Settlement) :
    Except Failure AccumulatorRoot :=
  (buildAccumulatorBarrierTx ctx settlement.effects).execute hashes settlement.root

end Haneul.Accumulators
