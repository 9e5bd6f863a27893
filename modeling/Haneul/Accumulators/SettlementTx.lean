import Haneul.Lib.Codec
import Haneul.Accumulators.Write

/-!
# Building the settlement transactions of a checkpoint

`accumulators/mod.rs` of `haneul-core`: the events of a checkpoint's transactions are added up
for each accumulator, and the updates are put, in chunks, into programmable transactions that
call the framework.

A programmable transaction names its inputs by their positions.  The builder
(`programmable_transaction_builder.rs`) keeps equal inputs once and writes a position as `u16`,
without a check, so that a transaction with more inputs than that names the wrong ones.

The sums of HANEUL that a settlement transaction reports are `u64` and wrap, as in a build
without overflow checks.
-/

namespace Haneul.Accumulators

open Authority (ObjectID SequenceNumber SharedInputObject)
open Codec (leBytes)

/-! ### Programmable transactions -/

def accumulatorRootObjectId : ObjectID := 0xacc

inductive BuilderArg where
  | object (id : ObjectID)
  | pure (bytes : List UInt8)
deriving DecidableEq, Repr

inductive CallArg where
  | pure (bytes : List UInt8)
  | object (arg : SharedInputObject)
deriving DecidableEq, Repr

inductive Argument where
  | input (index : UInt16)
deriving DecidableEq, Repr

inductive SystemFunction where
  | settlementPrologue
  | settleU128
  | settleEvents
  | recordAccumulatorObjectChanges
deriving DecidableEq, Repr

structure MoveCall where
  function : SystemFunction
  typeArguments : List TypeTag
  arguments : List Argument

structure ProgrammableTransaction where
  inputs : List CallArg
  commands : List MoveCall

structure ProgrammableTransactionBuilder where
  inputs : List (BuilderArg × CallArg) := []
  commands : List MoveCall := []

/-- `IndexMap::insert_full`: the position of the key, which keeps the place it has. -/
def insertFull (inputs : List (BuilderArg × CallArg)) (key : BuilderArg) (value : CallArg) :
    Nat × List (BuilderArg × CallArg) :=
  match inputs.findIdx? fun entry => entry.1 = key with
  | some i => (i, inputs.set i (key, value))
  | none => (inputs.length, inputs ++ [(key, value)])

namespace ProgrammableTransactionBuilder

variable (b : ProgrammableTransactionBuilder)

/-- `pure`, of a value that is given as its BCS bytes. -/
def pure (bytes : List UInt8) :
    Argument × ProgrammableTransactionBuilder :=
  let (i, inputs) := insertFull b.inputs (.pure bytes) (.pure bytes)
  (.input (UInt16.ofNat i), { b with inputs })

/-- `obj`, of an object that is not an input yet. -/
def obj (arg : SharedInputObject) :
    Argument × ProgrammableTransactionBuilder :=
  let (i, inputs) := insertFull b.inputs (.object arg.id) (.object arg)
  (.input (UInt16.ofNat i), { b with inputs })

def programmableMoveCall (function : SystemFunction)
    (typeArguments : List TypeTag) (arguments : List Argument) : ProgrammableTransactionBuilder :=
  { b with commands := b.commands ++ [⟨function, typeArguments, arguments⟩] }

def finish : ProgrammableTransaction := ⟨b.inputs.map Prod.snd, b.commands⟩

end ProgrammableTransactionBuilder

def u64Bytes (v : UInt64) : List UInt8 := leBytes 8 v.toNat

def u128Bytes (v : Nat) : List UInt8 := leBytes 16 v

/-! ### Merged values -/

structure EventCommitment where
  checkpointSeq : UInt64
  transactionIdx : UInt64
  eventIdx : UInt64
  digest : Digest
deriving DecidableEq, Repr

structure Hashes where
  /-- `hash_type_and_key`: the id of the field of an accumulator. -/
  fieldId : AccumulatorAddress → AccumulatorObjId
  buildEventMerkleRoot : List EventCommitment → Digest
  hashTwoToOneU256 : Nat → Nat → Nat

inductive MergedValue where
  | sumU128 (v : Nat)
  | sumU128U128 (v w : Nat)
  | eventDigest (root : Digest) (eventCount : UInt64)

inductive MergedValueIntermediate where
  | sumU128 (v : Nat)
  | sumU128U128 (v w : Nat)
  | events (commitments : List EventCommitment)

def MergedValue.ofIntermediate (hashes : Hashes) : MergedValueIntermediate → MergedValue
  | .sumU128 v => .sumU128 v
  | .sumU128U128 v w => .sumU128U128 v w
  | .events events => .eventDigest (hashes.buildEventMerkleRoot events) (UInt64.ofNat events.length)

def MergedValueIntermediate.zero : AccumulatorValue → MergedValueIntermediate
  | .integer _ => .sumU128 0
  | .integerTuple _ _ => .sumU128U128 0 0
  | .eventDigest _ _ => .events []

/-- `accumulate_into`; sums are `u128` and wrap. -/
def MergedValueIntermediate.accumulateInto (checkpointSeq transactionIdx : UInt64) :
    MergedValueIntermediate → AccumulatorValue → Except Failure MergedValueIntermediate
  | .sumU128 v, .integer v' => .ok (.sumU128 ((v + v'.toNat) % 2 ^ 128))
  | .sumU128U128 v w, .integerTuple v' w' =>
    .ok (.sumU128U128 ((v + v'.toNat) % 2 ^ 128) ((w + w'.toNat) % 2 ^ 128))
  | .events commitments, .eventDigest first rest =>
    .ok (.events (commitments ++ (first :: rest).map fun event =>
      ⟨checkpointSeq, transactionIdx, event.1, event.2⟩))
  | _, _ => .error .invalidMerge

/-- Merges and splits netted out: what is to be merged, and what is to be split. -/
def netOut (merge split : Nat) : Nat × Nat :=
  if split ≤ merge then (merge - split, 0) else (0, split - merge)

variable (b : ProgrammableTransactionBuilder)

def addSettleCall (root addressArg : Argument) (ty : TypeTag)
    (merge split : Nat) : ProgrammableTransactionBuilder :=
  let (mergeArg, b) := b.pure (u128Bytes merge)
  let (splitArg, b) := b.pure (u128Bytes split)
  b.programmableMoveCall .settleU128 [ty] [root, addressArg, mergeArg, splitArg]

def addEventsCall (root : Argument) (stream : HaneulAddress)
    (digest : Digest) (eventCount checkpointSeq : UInt64) : ProgrammableTransactionBuilder :=
  let (streamArg, b) := b.pure stream.toList
  let (digestArg, b) := b.pure digest.toList
  let (countArg, b) := b.pure (u64Bytes eventCount)
  let (seqArg, b) := b.pure (u64Bytes checkpointSeq)
  b.programmableMoveCall .settleEvents [] [root, streamArg, digestArg, countArg, seqArg]

/-- `MergedValue::add_move_call`.  The address is an input also where no call follows. -/
def addMoveCall (merge split : MergedValue) (root : Argument) (address : AccumulatorAddress)
    (checkpointSeq : UInt64) (b : ProgrammableTransactionBuilder) :
    Except Failure ProgrammableTransactionBuilder :=
  let (addressArg, b) := b.pure address.address.toList
  match classify address.ty, merge, split with
  | .balance, .sumU128 mergeAmount, .sumU128 splitAmount =>
    let net := netOut mergeAmount splitAmount
    if net.1 ≠ 0 ∨ net.2 ≠ 0 then .ok (addSettleCall b root addressArg address.ty net.1 net.2)
    else .ok b
  | _, .sumU128U128 _ _, .sumU128U128 _ _ => .error .notImplemented
  | _, .eventDigest digest eventCount, .eventDigest _ _ =>
    .ok (addEventsCall b root address.address digest eventCount checkpointSeq)
  | _, _, _ => .error .invalidMerge

/-! ### The updates of a checkpoint -/

structure Update where
  merge : MergedValueIntermediate
  split : MergedValueIntermediate
  inputHaneul : UInt64
  outputHaneul : UInt64

def Update.start (value : AccumulatorValue) : Update := ⟨.zero value, .zero value, 0, 0⟩

def Update.add (checkpointSeq transactionIdx : UInt64) (update : Update)
    (event : AccumulatorEvent) :
    Except Failure Update := do
  let (eventInput, eventOutput) ← event.totalHaneulInEvent
  -- the output of the event is the input of the settlement, and vice versa
  let update := { update with
    inputHaneul := update.inputHaneul + eventOutput
    outputHaneul := update.outputHaneul + eventInput }
  match event.write.operation with
  | .merge =>
    return { update with
      merge := ← update.merge.accumulateInto checkpointSeq transactionIdx event.write.value }
  | .split =>
    return { update with
      split := ← update.split.accumulateInto checkpointSeq transactionIdx event.write.value }

structure AccumulatorSettlementTxBuilder where
  updates : Std.ExtTreeMap AccumulatorObjId Update compare := ∅
  addresses : Std.ExtTreeMap AccumulatorObjId AccumulatorAddress compare := ∅
  numDeposits : UInt64 := 0
  numWithdrawals : UInt64 := 0

namespace AccumulatorSettlementTxBuilder

def addEvent (checkpointSeq txIndexOffset : UInt64) (b : AccumulatorSettlementTxBuilder)
    (entry : AccumulatorEvent × Nat) : Except Failure AccumulatorSettlementTxBuilder := do
  let (event, txIndex) := entry
  let update := b.updates.getD event.accumulatorObj (.start event.write.value)
  let update ← update.add checkpointSeq (UInt64.ofNat txIndex + txIndexOffset) event
  return {
    updates := b.updates.insert event.accumulatorObj update
    addresses := b.addresses.insert event.accumulatorObj event.write.address
    numDeposits := b.numDeposits + if event.write.operation = .merge then 1 else 0
    numWithdrawals := b.numWithdrawals + if event.write.operation = .split then 1 else 0 }

def indexed (ckptEffects : List (List AccumulatorEvent)) : List (AccumulatorEvent × Nat) :=
  ckptEffects.zipIdx.flatMap fun effect => effect.1.map fun event => (event, effect.2)

def new (ckptEffects : List (List AccumulatorEvent)) (checkpointSeq txIndexOffset : UInt64) :
    Except Failure AccumulatorSettlementTxBuilder :=
  (indexed ckptEffects).foldlM (addEvent checkpointSeq txIndexOffset) {}

/-- `collect_funds_changes`, with the values cast to `i128`. -/
def collectFundsChanges (b : AccumulatorSettlementTxBuilder) :
    Std.ExtTreeMap AccumulatorObjId Int compare :=
  b.updates.filterMap fun _ update =>
    match update.merge, update.split with
    | .sumU128 merge, .sumU128 split =>
      some ((Int.bmod merge (2 ^ 128) - Int.bmod split (2 ^ 128)).bmod (2 ^ 128))
    | _, _ => none

end AccumulatorSettlementTxBuilder

/-! ### Settlement transactions -/

structure ProtocolConfig where
  maxUpdatesPerSettlementTxn : Option UInt32
  /-- A chunk has room for an update: `chunks(0)` is not a call of the iterator. -/
  positive : maxUpdatesPerSettlementTxn ≠ some 0

def ProtocolConfig.chunkSize (config : ProtocolConfig) : Nat :=
  (config.maxUpdatesPerSettlementTxn.getD (UInt32.ofNat (2 ^ 32 - 1))).toNat

structure SettlementContext where
  epoch : UInt64
  rootInitialSharedVersion : SequenceNumber
  checkpointHeight : UInt64
  checkpointSeq : UInt64

def addPrologue (root : Argument)
    (epoch checkpointHeight idx totalInputHaneul totalOutputHaneul : UInt64) :
    ProgrammableTransactionBuilder :=
  let (epochArg, b) := b.pure (u64Bytes epoch)
  let (checkpointHeightArg, b) := b.pure (u64Bytes checkpointHeight)
  let (idxArg, b) := b.pure (u64Bytes idx)
  let (inputArg, b) := b.pure (u64Bytes totalInputHaneul)
  let (outputArg, b) := b.pure (u64Bytes totalOutputHaneul)
  b.programmableMoveCall .settlementPrologue []
    [root, epochArg, checkpointHeightArg, idxArg, inputArg, outputArg]

def addUpdate (hashes : Hashes)
    (addresses : Std.ExtTreeMap AccumulatorObjId AccumulatorAddress compare) (root : Argument)
    (checkpointSeq : UInt64) (b : ProgrammableTransactionBuilder)
    (entry : AccumulatorObjId × Update) : Except Failure ProgrammableTransactionBuilder :=
  match addresses[entry.1]? with
  | none => .error .missingAddress
  | some address =>
    addMoveCall (.ofIntermediate hashes entry.2.merge) (.ofIntermediate hashes entry.2.split) root
      address checkpointSeq b

def rootBuilder (ctx : SettlementContext) (mutability : Authority.SharedObjectMutability) :
    Argument × ProgrammableTransactionBuilder :=
  ProgrammableTransactionBuilder.obj {}
    ⟨accumulatorRootObjectId, ctx.rootInitialSharedVersion, mutability⟩

/-- `build_one_settlement_txn`, with the totals that its caller takes. -/
def buildOneSettlementTxn (hashes : Hashes)
    (addresses : Std.ExtTreeMap AccumulatorObjId AccumulatorAddress compare)
    (ctx : SettlementContext) (idx : UInt64) (updates : List (AccumulatorObjId × Update)) :
    Except Failure ProgrammableTransaction := do
  let totals := updates.foldl
    (fun acc entry => (acc.1 + entry.2.inputHaneul, acc.2 + entry.2.outputHaneul)) (0, 0)
  let (root, b) := rootBuilder ctx .nonExclusiveWrite
  let b := addPrologue b root ctx.epoch ctx.checkpointHeight idx totals.1 totals.2
  let b ← updates.foldlM (addUpdate hashes addresses root ctx.checkpointSeq) b
  return b.finish

def AccumulatorSettlementTxBuilder.buildTx (b : AccumulatorSettlementTxBuilder) (hashes : Hashes)
    (config : ProtocolConfig) (ctx : SettlementContext) :
    Except Failure (List ProgrammableTransaction) :=
  (Tally.chunks config.chunkSize b.updates.toList).zipIdx.mapM fun chunk =>
    buildOneSettlementTxn hashes b.addresses ctx (UInt64.ofNat chunk.2) chunk.1

end Haneul.Accumulators
