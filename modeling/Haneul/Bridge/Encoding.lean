import Haneul.Bridge.Message

/-!
# The bytes that the bridge nodes sign

Mirror of `crates/haneul-bridge/src/encoding.rs` for the actions that are executed on Haneul,
and of the arguments that `haneul_transaction_builder.rs` passes to the `create_*_message`
functions of the Move package.  The nodes sign `BridgeAction::to_bytes`; the chain checks the
signatures against its own serialization of the message it was given.

The two encoders are written independently.  The main result of the file is that they agree on
every action, that the chain reads back the fields of the action, and that the signed bytes
determine those fields.
-/

namespace Haneul.Bridge

open List

variable {action : BridgeAction}

open Haneul.Codec

/-! ### `types.rs` -/

inductive BridgeChainId where
  | haneulMainnet
  | haneulTestnet
  | haneulCustom
  | ethMainnet
  | ethSepolia
  | ethCustom
deriving DecidableEq, Repr

def BridgeChainId.toU8 : BridgeChainId → UInt8
  | .haneulMainnet => 0
  | .haneulTestnet => 1
  | .haneulCustom => 2
  | .ethMainnet => 10
  | .ethSepolia => 11
  | .ethCustom => 12

theorem BridgeChainId.isValidChainId (id : BridgeChainId) : isValidChainId id.toU8 = true := by
  cases id <;> rfl

inductive BridgeActionType where
  | tokenTransfer
  | updateCommitteeBlocklist
  | emergencyButton
  | limitUpdate
  | assetPriceUpdate
  | addTokensOnHaneul
  | updateChainId
deriving DecidableEq, Repr

def BridgeActionType.toU8 : BridgeActionType → UInt8
  | .tokenTransfer => 0
  | .updateCommitteeBlocklist => 1
  | .emergencyButton => 2
  | .limitUpdate => 3
  | .assetPriceUpdate => 4
  | .addTokensOnHaneul => 6
  | .updateChainId => 8

abbrev EthAddress := Address 20

inductive BlocklistType where
  | blocklist
  | unblocklist
deriving DecidableEq, Repr

def BlocklistType.toU8 : BlocklistType → UInt8
  | .blocklist => 0
  | .unblocklist => 1

inductive EmergencyActionType where
  | pause
  | unpause
deriving DecidableEq, Repr

def EmergencyActionType.toU8 : EmergencyActionType → UInt8
  | .pause => 0
  | .unpause => 1

/-- A transfer from Haneul to Ethereum: the fields of `HaneulToEthTokenTransfer`, of the event
    in `HaneulToEthBridgeAction`, and of `HaneulToEthTokenTransferV2` without its time. -/
structure HaneulToEthTokenTransfer where
  nonce : UInt64
  haneulChainId : BridgeChainId
  ethChainId : BridgeChainId
  haneulAddress : HaneulAddress
  ethAddress : EthAddress
  tokenId : UInt8
  amountAdjusted : UInt64
deriving DecidableEq, Repr

/-- The event of a deposit on Ethereum; the second version has the time of the block. -/
structure EthToHaneulTokenBridge where
  nonce : UInt64
  haneulChainId : BridgeChainId
  ethChainId : BridgeChainId
  haneulAddress : HaneulAddress
  ethAddress : EthAddress
  tokenId : UInt8
  haneulAdjustedAmount : UInt64
deriving DecidableEq, Repr

/-- The actions that are executed on Haneul.  The members of a blocklist are the addresses
    derived from their keys, the type names their canonical strings. -/
inductive BridgeAction where
  | haneulToEthBridgeAction (event : HaneulToEthTokenTransfer)
  | ethToHaneulBridgeAction (event : EthToHaneulTokenBridge)
  | blocklistCommitteeAction (nonce : UInt64) (chainId : BridgeChainId)
      (blocklistType : BlocklistType) (membersToUpdate : List EthAddress)
  | emergencyAction (nonce : UInt64) (chainId : BridgeChainId) (actionType : EmergencyActionType)
  | limitUpdateAction (nonce : UInt64) (chainId sendingChainId : BridgeChainId)
      (newUsdLimit : UInt64)
  | assetPriceUpdateAction (nonce : UInt64) (chainId : BridgeChainId) (tokenId : UInt8)
      (newUsdPrice : UInt64)
  | addTokensOnHaneulAction (nonce : UInt64) (chainId : BridgeChainId) (native : Bool)
      (tokenIds : List UInt8) (tokenTypeNames : List AsciiString) (tokenPrices : List UInt64)
  | chainIdUpdateAction (nonce : UInt64) (chainId newChainId : BridgeChainId)
  | haneulToEthTokenTransfer (transfer : HaneulToEthTokenTransfer)
  | haneulToEthTokenTransferV2 (transfer : HaneulToEthTokenTransfer) (timestampMs : UInt64)
  | ethToHaneulTokenTransferV2 (event : EthToHaneulTokenBridge) (timestampSeconds : UInt64)
deriving DecidableEq, Repr

/-! ### `encoding.rs` -/

/-- The errors of the encoder: the two fallible conversions, and the overflow check on the time
    in milliseconds. -/
inductive EncodeError where
  | tryFromInt
  | bcs
  | overflow
deriving DecidableEq, Repr

def bridgeMessagePrefix : List UInt8 :=
  [0x48, 0x41, 0x4e, 0x45, 0x55, 0x4c, 0x5f, 0x42, 0x52, 0x49, 0x44, 0x47, 0x45, 0x5f,
   0x4d, 0x45, 0x53, 0x53, 0x41, 0x47, 0x45]

def rustBcsVec {α : Type} (encode : α → List UInt8) (xs : List α) :
    Except EncodeError (List UInt8) :=
  if xs.length ≤ maxSequenceLength then .ok (vecBytes encode xs) else .error .bcs

def rustBcsStrings (names : List AsciiString) : Except EncodeError (List UInt8) :=
  if names.all fun name => name.bytes.length ≤ maxSequenceLength then
    rustBcsVec (fun name => vecBytes (fun b => [b]) name.bytes) names
  else .error .bcs

def HaneulToEthTokenTransfer.asPayloadBytes (transfer : HaneulToEthTokenTransfer) : List UInt8 :=
  [32] ++ transfer.haneulAddress.bytes ++ [transfer.ethChainId.toU8] ++ [20] ++
    transfer.ethAddress.bytes ++ [transfer.tokenId] ++ u64BeBytes transfer.amountAdjusted

def EthToHaneulTokenBridge.asPayloadBytes (event : EthToHaneulTokenBridge) : List UInt8 :=
  [20] ++ event.ethAddress.bytes ++ [event.haneulChainId.toU8] ++ [32] ++
    event.haneulAddress.bytes ++ [event.tokenId] ++ u64BeBytes event.haneulAdjustedAmount

/-- `timestamp_seconds * 1000`, with the overflow check of the build. -/
def timestampMs (timestampSeconds : UInt64) : Except EncodeError UInt64 :=
  if timestampSeconds.toNat * 1000 < 2 ^ 64 then .ok (timestampSeconds * 1000)
  else .error .overflow

def blocklistPayloadBytes (blocklistType : BlocklistType) (membersToUpdate : List EthAddress) :
    Except EncodeError (List UInt8) :=
  if membersToUpdate.length < 256 then
    .ok ([blocklistType.toU8] ++ [UInt8.ofNat membersToUpdate.length] ++
      membersToUpdate.flatMap Address.bytes)
  else .error .tryFromInt

def addTokensPayloadBytes (native : Bool) (tokenIds : List UInt8)
    (tokenTypeNames : List AsciiString) (tokenPrices : List UInt64) :
    Except EncodeError (List UInt8) := do
  let ids ← rustBcsVec (fun b => [b]) tokenIds
  let names ← rustBcsStrings tokenTypeNames
  let prices ← rustBcsVec u64LeBytes tokenPrices
  return [boolByte native] ++ ids ++ names ++ prices

def BridgeAction.actionType : BridgeAction → BridgeActionType
  | .haneulToEthBridgeAction .. | .haneulToEthTokenTransfer .. | .haneulToEthTokenTransferV2 ..
  | .ethToHaneulBridgeAction .. | .ethToHaneulTokenTransferV2 .. => .tokenTransfer
  | .blocklistCommitteeAction .. => .updateCommitteeBlocklist
  | .emergencyAction .. => .emergencyButton
  | .limitUpdateAction .. => .limitUpdate
  | .assetPriceUpdateAction .. => .assetPriceUpdate
  | .addTokensOnHaneulAction .. => .addTokensOnHaneul
  | .chainIdUpdateAction .. => .updateChainId

/-- The `*_MESSAGE_VERSION` constant of each kind of action. -/
def BridgeAction.messageVersion : BridgeAction → UInt8
  | .haneulToEthTokenTransferV2 .. | .ethToHaneulTokenTransferV2 .. => 2
  | _ => 1

def BridgeAction.seqNumber : BridgeAction → UInt64
  | .haneulToEthBridgeAction a | .haneulToEthTokenTransfer a | .haneulToEthTokenTransferV2 a _ =>
    a.nonce
  | .ethToHaneulBridgeAction a | .ethToHaneulTokenTransferV2 a _ => a.nonce
  | .blocklistCommitteeAction nonce .. | .emergencyAction nonce .. | .limitUpdateAction nonce ..
  | .assetPriceUpdateAction nonce .. | .addTokensOnHaneulAction nonce ..
  | .chainIdUpdateAction nonce .. => nonce

/-- For a transfer the chain that it comes from. -/
def BridgeAction.chainId : BridgeAction → BridgeChainId
  | .haneulToEthBridgeAction a | .haneulToEthTokenTransfer a | .haneulToEthTokenTransferV2 a _ =>
    a.haneulChainId
  | .ethToHaneulBridgeAction a | .ethToHaneulTokenTransferV2 a _ => a.ethChainId
  | .blocklistCommitteeAction _ chainId .. | .emergencyAction _ chainId ..
  | .limitUpdateAction _ chainId .. | .assetPriceUpdateAction _ chainId ..
  | .addTokensOnHaneulAction _ chainId .. | .chainIdUpdateAction _ chainId .. => chainId

def BridgeAction.asPayloadBytes : BridgeAction → Except EncodeError (List UInt8)
  | .haneulToEthBridgeAction a | .haneulToEthTokenTransfer a => .ok a.asPayloadBytes
  | .haneulToEthTokenTransferV2 a timestampMs => .ok (a.asPayloadBytes ++ u64BeBytes timestampMs)
  | .ethToHaneulBridgeAction a => .ok a.asPayloadBytes
  | .ethToHaneulTokenTransferV2 a timestampSeconds => do
    let timestamp ← timestampMs timestampSeconds
    return a.asPayloadBytes ++ u64BeBytes timestamp
  | .blocklistCommitteeAction _ _ blocklistType membersToUpdate =>
    blocklistPayloadBytes blocklistType membersToUpdate
  | .emergencyAction _ _ actionType => .ok [actionType.toU8]
  | .limitUpdateAction _ _ sendingChainId newUsdLimit =>
    .ok ([sendingChainId.toU8] ++ u64BeBytes newUsdLimit)
  | .assetPriceUpdateAction _ _ tokenId newUsdPrice => .ok ([tokenId] ++ u64BeBytes newUsdPrice)
  | .chainIdUpdateAction _ _ newChainId => .ok [newChainId.toU8]
  | .addTokensOnHaneulAction _ _ native tokenIds tokenTypeNames tokenPrices =>
    addTokensPayloadBytes native tokenIds tokenTypeNames tokenPrices

/-- `BridgeMessageEncoding::as_bytes`: every implementation puts the same header in front. -/
def BridgeAction.asBytes (action : BridgeAction) : Except EncodeError (List UInt8) := do
  let payload ← action.asPayloadBytes
  return [action.actionType.toU8] ++ [action.messageVersion] ++ u64BeBytes action.seqNumber ++
    [action.chainId.toU8] ++ payload

def BridgeAction.toBytes (action : BridgeAction) : Except EncodeError (List UInt8) := do
  let bytes ← action.asBytes
  return bridgeMessagePrefix ++ bytes

/-! ### `haneul_transaction_builder.rs` -/

/-- The message that the transaction of an action builds on the chain.  `none` is a panic of
    the builder or an abort of the `create_*_message` function. -/
def BridgeAction.createMessage : BridgeAction → Option BridgeMessage
  | .haneulToEthBridgeAction a | .haneulToEthTokenTransfer a =>
    (createTokenBridgeMessage a.haneulChainId.toU8 a.nonce a.haneulAddress.bytes
      a.ethChainId.toU8 a.ethAddress.bytes a.tokenId a.amountAdjusted).toOption
  | .haneulToEthTokenTransferV2 a timestampMs =>
    (createTokenBridgeMessageV2 a.haneulChainId.toU8 a.nonce a.haneulAddress.bytes
      a.ethChainId.toU8 a.ethAddress.bytes a.tokenId a.amountAdjusted timestampMs).toOption
  | .ethToHaneulBridgeAction a =>
    (createTokenBridgeMessage a.ethChainId.toU8 a.nonce a.ethAddress.bytes
      a.haneulChainId.toU8 a.haneulAddress.bytes a.tokenId a.haneulAdjustedAmount).toOption
  | .ethToHaneulTokenTransferV2 a timestampSeconds =>
    (timestampMs timestampSeconds).toOption.bind fun timestamp =>
      (createTokenBridgeMessageV2 a.ethChainId.toU8 a.nonce a.ethAddress.bytes
        a.haneulChainId.toU8 a.haneulAddress.bytes a.tokenId a.haneulAdjustedAmount
        timestamp).toOption
  | .blocklistCommitteeAction nonce chainId blocklistType membersToUpdate =>
    (createBlocklistMessage chainId.toU8 nonce blocklistType.toU8
      (membersToUpdate.map Address.bytes)).toOption
  | .emergencyAction nonce chainId actionType =>
    (createEmergencyOpMessage chainId.toU8 nonce actionType.toU8).toOption
  | .limitUpdateAction nonce chainId sendingChainId newUsdLimit =>
    (createUpdateBridgeLimitMessage chainId.toU8 nonce sendingChainId.toU8 newUsdLimit).toOption
  | .assetPriceUpdateAction nonce chainId tokenId newUsdPrice =>
    (createUpdateAssetPriceMessage tokenId chainId.toU8 nonce newUsdPrice).toOption
  | .chainIdUpdateAction nonce chainId newChainId =>
    (createUpdateChainIdMessage chainId.toU8 nonce newChainId.toU8).toOption
  | .addTokensOnHaneulAction nonce chainId native tokenIds tokenTypeNames tokenPrices =>
    (createAddTokensOnHaneulMessage chainId.toU8 nonce native tokenIds tokenTypeNames
      tokenPrices).toOption

/-! ### The fields of an action -/

inductive Payload where
  | tokenTransfer (transfer : TokenTransferPayload)
  | tokenTransferV2 (transfer : TokenTransferPayloadV2)
  | blocklist (blocklist : Blocklist)
  | emergencyOp (op : EmergencyOp)
  | updateBridgeLimit (update : UpdateBridgeLimit)
  | updateAssetPrice (update : UpdateAssetPrice)
  | updateChainId (update : UpdateChainId)
  | addTokensOnHaneul (tokens : AddTokenOnHaneul)
deriving DecidableEq, Repr

/-- What one signature is about. -/
structure MessageFields where
  messageType : UInt8
  messageVersion : UInt8
  nonce : UInt64
  chainId : UInt8
  payload : Payload
deriving DecidableEq, Repr

def HaneulToEthTokenTransfer.payload (a : HaneulToEthTokenTransfer) : TokenTransferPayload :=
  ⟨a.haneulAddress.bytes, a.ethChainId.toU8, a.ethAddress.bytes, a.tokenId, a.amountAdjusted⟩

def EthToHaneulTokenBridge.payload (a : EthToHaneulTokenBridge) : TokenTransferPayload :=
  ⟨a.ethAddress.bytes, a.haneulChainId.toU8, a.haneulAddress.bytes, a.tokenId,
    a.haneulAdjustedAmount⟩

def BridgeAction.payload : BridgeAction → Payload
  | .haneulToEthBridgeAction a | .haneulToEthTokenTransfer a => .tokenTransfer a.payload
  | .haneulToEthTokenTransferV2 a timestampMs =>
    .tokenTransferV2 { a.payload with timestampMs }
  | .ethToHaneulBridgeAction a => .tokenTransfer a.payload
  | .ethToHaneulTokenTransferV2 a timestampSeconds =>
    .tokenTransferV2 { a.payload with timestampMs := timestampSeconds * 1000 }
  | .blocklistCommitteeAction _ _ blocklistType membersToUpdate =>
    .blocklist ⟨blocklistType.toU8, membersToUpdate.map Address.bytes⟩
  | .emergencyAction _ _ actionType => .emergencyOp ⟨actionType.toU8⟩
  | .limitUpdateAction _ chainId sendingChainId newUsdLimit =>
    .updateBridgeLimit ⟨chainId.toU8, sendingChainId.toU8, newUsdLimit⟩
  | .assetPriceUpdateAction _ _ tokenId newUsdPrice => .updateAssetPrice ⟨tokenId, newUsdPrice⟩
  | .chainIdUpdateAction _ _ newChainId => .updateChainId ⟨newChainId.toU8⟩
  | .addTokensOnHaneulAction _ _ native tokenIds tokenTypeNames tokenPrices =>
    .addTokensOnHaneul ⟨native, tokenIds, tokenTypeNames, tokenPrices⟩

def BridgeAction.fields (action : BridgeAction) : MessageFields :=
  ⟨action.actionType.toU8, action.messageVersion, action.seqNumber, action.chainId.toU8,
    action.payload⟩

/-- The `extract_*` function that the bridge calls for a message of each type and version. -/
def BridgeMessage.extractPayload (message : BridgeMessage) : Except BridgeAbort Payload :=
  if message.messageType = MessageTypes.token then
    if message.messageVersion = 2 then .tokenTransferV2 <$> extractTokenBridgePayloadV2 message
    else .tokenTransfer <$> extractTokenBridgePayload message
  else if message.messageType = MessageTypes.emergencyOp then
    .emergencyOp <$> extractEmergencyOpPayload message
  else if message.messageType = MessageTypes.committeeBlocklist then
    .blocklist <$> extractBlocklistPayload message
  else if message.messageType = MessageTypes.updateBridgeLimit then
    .updateBridgeLimit <$> extractUpdateBridgeLimit message
  else if message.messageType = MessageTypes.updateAssetPrice then
    .updateAssetPrice <$> extractUpdateAssetPrice message
  else if message.messageType = MessageTypes.addTokensOnHaneul then
    .addTokensOnHaneul <$> extractAddTokensOnHaneul message
  else if message.messageType = MessageTypes.updateChainId then
    .updateChainId <$> extractUpdateChainId message
  else .error .unexpectedMessageType

def BridgeMessage.fields (message : BridgeMessage) : Except BridgeAbort MessageFields := do
  let payload ← message.extractPayload
  return ⟨message.messageType, message.messageVersion, message.seqNum, message.sourceChain, payload⟩

def BridgeAction.NonEmpty : BridgeAction → Prop
  | .blocklistCommitteeAction _ _ _ membersToUpdate => membersToUpdate ≠ []
  | _ => True

/-- The sizes that the fields of an action can have in a message. -/
def BridgeAction.Fits : BridgeAction → Prop
  | .ethToHaneulTokenTransferV2 _ timestampSeconds => timestampSeconds.toNat * 1000 < 2 ^ 64
  | .blocklistCommitteeAction _ _ _ membersToUpdate => membersToUpdate.length ≤ 255
  | .addTokensOnHaneulAction _ _ _ tokenIds tokenTypeNames tokenPrices =>
    tokenIds.length ≤ maxSequenceLength ∧ tokenPrices.length ≤ maxSequenceLength ∧
      tokenTypeNames.length ≤ maxSequenceLength ∧
      ∀ name ∈ tokenTypeNames, name.bytes.length ≤ maxSequenceLength
  | _ => True

/-! ### Token transfers -/

section TokenTransfer

variable {sourceChain targetChain tokenType : UInt8} {seqNum amount timestamp : UInt64}
  {sender target payload : List UInt8} {transfer : TokenTransferPayload}

/-- The payload of a transfer between addresses of which one has 32 bytes, the other 20. -/
def transferBytes (transfer : TokenTransferPayload) : List UInt8 :=
  [UInt8.ofNat transfer.senderAddress.length] ++ transfer.senderAddress ++
    [transfer.targetChain] ++ [UInt8.ofNat transfer.targetAddress.length] ++
    transfer.targetAddress ++ [transfer.tokenType] ++ u64BeBytes transfer.amount

theorem tokenTransferBytes_eq
    (hlength : transfer.senderAddress.length + transfer.targetAddress.length = 52) :
    tokenTransferBytes transfer.senderAddress transfer.targetChain transfer.targetAddress
      transfer.tokenType transfer.amount = .ok (transferBytes transfer) := by
  have hsender : castU8 transfer.senderAddress.length =
      .ok (UInt8.ofNat transfer.senderAddress.length) := if_pos (by omega)
  have htarget : castU8 transfer.targetAddress.length =
      .ok (UInt8.ofNat transfer.targetAddress.length) := if_pos (by omega)
  unfold tokenTransferBytes
  rw [hsender, htarget]
  rfl

theorem transferBytes_length
    (hlength : transfer.senderAddress.length + transfer.targetAddress.length = 52) :
    (transferBytes transfer).length = 64 := by
  simp only [transferBytes, length_append, length_singleton, u64BeBytes, beBytes_length]
  omega

theorem reads_transferBytes (transfer : TokenTransferPayload)
    (hlength : transfer.senderAddress.length + transfer.targetAddress.length = 52)
    (hchain : isValidChainId transfer.targetChain = true) :
    Reads peelTokenTransfer transfer (transferBytes transfer) :=
  reads_peelTokenTransfer (by omega) (by omega) hchain (tokenTransferBytes_eq hlength)

theorem createTokenBridgeMessage_eq (transfer : TokenTransferPayload)
    (hlength : transfer.senderAddress.length + transfer.targetAddress.length = 52)
    (hsource : isValidChainId sourceChain = true)
    (htarget : isValidChainId transfer.targetChain = true) :
    createTokenBridgeMessage sourceChain seqNum transfer.senderAddress transfer.targetChain
      transfer.targetAddress transfer.tokenType transfer.amount =
      .ok ⟨MessageTypes.token, 1, seqNum, sourceChain, transferBytes transfer⟩ := by
  have hpayload : ((transferBytes transfer).length == 64) = true := by
    rw [transferBytes_length hlength]
    rfl
  unfold createTokenBridgeMessage assertValidChainId
  rw [hsource, htarget, tokenTransferBytes_eq hlength]
  simp only [bind, Except.bind, require, if_true, hpayload]
  rfl

theorem createTokenBridgeMessageV2_eq (transfer : TokenTransferPayload)
    (hlength : transfer.senderAddress.length + transfer.targetAddress.length = 52)
    (hsource : isValidChainId sourceChain = true)
    (htarget : isValidChainId transfer.targetChain = true) :
    createTokenBridgeMessageV2 sourceChain seqNum transfer.senderAddress transfer.targetChain
      transfer.targetAddress transfer.tokenType transfer.amount timestamp =
      .ok ⟨MessageTypes.token, 2, seqNum, sourceChain,
        transferBytes transfer ++ u64BeBytes timestamp⟩ := by
  have hpayload : ((transferBytes transfer ++ u64BeBytes timestamp).length == 72) = true := by
    rw [length_append, transferBytes_length hlength, u64BeBytes, beBytes_length]
    rfl
  unfold createTokenBridgeMessageV2 assertValidChainId
  rw [hsource, htarget, tokenTransferBytes_eq hlength]
  simp only [bind, Except.bind, require, if_true, hpayload]
  rfl

section

variable (hlength : transfer.senderAddress.length + transfer.targetAddress.length = 52)
  (htarget : isValidChainId transfer.targetChain = true)
include hlength htarget

theorem extractPayload_token :
    BridgeMessage.extractPayload
        ⟨MessageTypes.token, 1, seqNum, sourceChain, transferBytes transfer⟩ =
      .ok (.tokenTransfer transfer) := by
  have hread := readAll_of_reads (reads_transferBytes transfer hlength htarget)
  unfold BridgeMessage.extractPayload extractTokenBridgePayload
  dsimp only
  rw [hread]
  rfl

theorem extractPayload_tokenV2 :
    BridgeMessage.extractPayload ⟨MessageTypes.token, 2, seqNum, sourceChain,
        transferBytes transfer ++ u64BeBytes timestamp⟩ =
      .ok (.tokenTransferV2 { transfer with timestampMs := timestamp }) := by
  have hread := readAll_of_reads (reads_peelTokenTransferV2
    { transfer with timestampMs := timestamp } (reads_transferBytes transfer hlength htarget))
  unfold BridgeMessage.extractPayload extractTokenBridgePayloadV2
  dsimp only at hread ⊢
  rw [hread]
  rfl

end

theorem HaneulToEthTokenTransfer.payload_length (a : HaneulToEthTokenTransfer) :
    a.payload.senderAddress.length + a.payload.targetAddress.length = 52 := by
  simp only [payload, a.haneulAddress.length_eq, a.ethAddress.length_eq]

theorem EthToHaneulTokenBridge.payload_length (a : EthToHaneulTokenBridge) :
    a.payload.senderAddress.length + a.payload.targetAddress.length = 52 := by
  simp only [payload, a.haneulAddress.length_eq, a.ethAddress.length_eq]

theorem HaneulToEthTokenTransfer.transferBytes_payload (a : HaneulToEthTokenTransfer) :
    transferBytes a.payload = a.asPayloadBytes := by
  simp only [transferBytes, payload, a.haneulAddress.length_eq, a.ethAddress.length_eq]
  rfl

theorem EthToHaneulTokenBridge.transferBytes_payload (a : EthToHaneulTokenBridge) :
    transferBytes a.payload = a.asPayloadBytes := by
  simp only [transferBytes, payload, a.haneulAddress.length_eq, a.ethAddress.length_eq]
  rfl

end TokenTransfer

/-! ### The two encoders agree -/

def BridgeAction.message (action : BridgeAction) (payload : List UInt8) : BridgeMessage :=
  ⟨action.actionType.toU8, action.messageVersion, action.seqNumber, action.chainId.toU8, payload⟩

theorem toBytes_eq (action : BridgeAction) :
    action.toBytes.toOption = action.asPayloadBytes.toOption.map fun payload =>
      bridgeMessagePrefix ++ (action.message payload).serializeMessage := by
  unfold BridgeAction.toBytes BridgeAction.asBytes
  cases action.asPayloadBytes with
  | error e => rfl
  | ok payload => rfl

theorem timestampMs_eq_ok {seconds ms : UInt64} :
    timestampMs seconds = .ok ms ↔ seconds.toNat * 1000 < 2 ^ 64 ∧ ms = seconds * 1000 := by
  unfold timestampMs
  split <;> simp_all [eq_comm]

variable {members : List EthAddress}

theorem blocklistPayloadBytes_eq_ok {blocklistType : BlocklistType}
    {bytes : List UInt8} : blocklistPayloadBytes blocklistType members = .ok bytes ↔
      members.length < 256 ∧ bytes = [blocklistType.toU8] ++ [UInt8.ofNat members.length] ++
        members.flatMap Address.bytes := by
  unfold blocklistPayloadBytes
  split <;> simp_all [eq_comm]

theorem rustBcsVec_eq {α : Type} (encode : α → List UInt8) (xs : List α) :
    (rustBcsVec encode xs).toOption = (bcsVec encode xs).toOption := by
  unfold rustBcsVec bcsVec
  split <;> rfl

theorem rustBcsStrings_eq (names : List AsciiString) :
    (rustBcsStrings names).toOption = (bcsStrings names).toOption := by
  unfold rustBcsStrings bcsStrings require
  split
  · exact rustBcsVec_eq _ _
  · rfl

theorem eq_ok_of_toOption {ε α : Type} {x : Except ε α} {a : α} (h : x.toOption = some a) :
    x = .ok a := by
  cases x with
  | error e => cases h
  | ok b => cases h; rfl

theorem toOption_bind {ε α β : Type} (x : Except ε α) (f : α → Except ε β) :
    (x >>= f).toOption = x.toOption.bind fun a => (f a).toOption := by
  cases x <;> rfl

theorem flatten_map_bytes {n : Nat} (members : List (Address n)) :
    (members.map Address.bytes).flatten = members.flatMap Address.bytes :=
  flatMap_def.symm

theorem map_bytes_all (members : List EthAddress) :
    (members.map Address.bytes).all (fun address => address.length == 20) = true := by
  rw [all_map, all_eq_true]
  intro address _
  exact beq_iff_eq.mpr address.length_eq

/-- On every action both encoders fail, or they write the same payload. -/
theorem createMessage_eq (action : BridgeAction) :
    action.createMessage = action.asPayloadBytes.toOption.map action.message := by
  cases action with
  | haneulToEthBridgeAction a | haneulToEthTokenTransfer a =>
    rw [BridgeAction.asPayloadBytes, ← a.transferBytes_payload]
    exact congrArg Except.toOption (createTokenBridgeMessage_eq _ a.payload_length
      a.haneulChainId.isValidChainId a.ethChainId.isValidChainId)
  | haneulToEthTokenTransferV2 a timestamp =>
    rw [BridgeAction.asPayloadBytes, ← a.transferBytes_payload]
    exact congrArg Except.toOption (createTokenBridgeMessageV2_eq _ a.payload_length
      a.haneulChainId.isValidChainId a.ethChainId.isValidChainId)
  | ethToHaneulBridgeAction a =>
    rw [BridgeAction.asPayloadBytes, ← a.transferBytes_payload]
    exact congrArg Except.toOption (createTokenBridgeMessage_eq _ a.payload_length
      a.ethChainId.isValidChainId a.haneulChainId.isValidChainId)
  | ethToHaneulTokenTransferV2 a seconds =>
    rw [BridgeAction.asPayloadBytes, BridgeAction.createMessage, ← a.transferBytes_payload]
    cases timestampMs seconds with
    | error e => rfl
    | ok timestamp =>
      exact congrArg Except.toOption (createTokenBridgeMessageV2_eq _ a.payload_length
        a.ethChainId.isValidChainId a.haneulChainId.isValidChainId)
  | blocklistCommitteeAction nonce chainId blocklistType members =>
    simp only [BridgeAction.createMessage, createBlocklistMessage, assertValidChainId,
      chainId.isValidChainId, map_bytes_all, flatten_map_bytes, length_map,
      BridgeAction.asPayloadBytes, blocklistPayloadBytes, castU8]
    split <;> rfl
  | emergencyAction nonce chainId actionType =>
    simp only [BridgeAction.createMessage, createEmergencyOpMessage, assertValidChainId,
      chainId.isValidChainId]
    rfl
  | limitUpdateAction nonce chainId sendingChainId newUsdLimit =>
    simp only [BridgeAction.createMessage, createUpdateBridgeLimitMessage, assertValidChainId,
      chainId.isValidChainId, sendingChainId.isValidChainId]
    rfl
  | assetPriceUpdateAction nonce chainId tokenId newUsdPrice =>
    simp only [BridgeAction.createMessage, createUpdateAssetPriceMessage, assertValidChainId,
      chainId.isValidChainId]
    rfl
  | chainIdUpdateAction nonce chainId newChainId =>
    simp only [BridgeAction.createMessage, createUpdateChainIdMessage, assertValidChainId,
      chainId.isValidChainId, newChainId.isValidChainId]
    rfl
  | addTokensOnHaneulAction nonce chainId native tokenIds tokenTypeNames tokenPrices =>
    have hchain : assertValidChainId chainId.toU8 = .ok () :=
      require_eq_ok.mpr chainId.isValidChainId
    simp only [BridgeAction.createMessage, createAddTokensOnHaneulMessage, hchain,
      BridgeAction.asPayloadBytes, addTokensPayloadBytes, toOption_bind, rustBcsVec_eq,
      rustBcsStrings_eq]
    cases bcsVec (fun b => [b]) tokenIds with
    | error e => rfl
    | ok ids =>
      cases bcsStrings tokenTypeNames with
      | error e => rfl
      | ok names =>
        cases bcsVec u64LeBytes tokenPrices with
        | error e => rfl
        | ok prices => rfl

/-! ### The chain reads the fields of the action -/

theorem length_of_mem_map_bytes {address : List UInt8}
    (h : address ∈ members.map Address.bytes) : address.length = 20 := by
  obtain ⟨member, -, rfl⟩ := mem_map.mp h
  exact member.length_eq

theorem extractPayload_message (hnonEmpty : action.NonEmpty)
    {payload : List UInt8} (h : action.asPayloadBytes = .ok payload) :
    (action.message payload).extractPayload = .ok action.payload := by
  cases action with
  | haneulToEthBridgeAction a | haneulToEthTokenTransfer a =>
    cases h
    rw [← a.transferBytes_payload]
    exact extractPayload_token a.payload_length a.ethChainId.isValidChainId
  | haneulToEthTokenTransferV2 a timestamp =>
    cases h
    rw [← a.transferBytes_payload]
    exact extractPayload_tokenV2 a.payload_length a.ethChainId.isValidChainId
  | ethToHaneulBridgeAction a =>
    cases h
    rw [← a.transferBytes_payload]
    exact extractPayload_token a.payload_length a.haneulChainId.isValidChainId
  | ethToHaneulTokenTransferV2 a seconds =>
    obtain ⟨timestamp, htimestamp, h⟩ := bind_eq_ok.mp h
    cases h
    rw [(timestampMs_eq_ok.mp htimestamp).2, ← a.transferBytes_payload]
    exact extractPayload_tokenV2 a.payload_length a.haneulChainId.isValidChainId
  | blocklistCommitteeAction nonce chainId blocklistType members =>
    obtain ⟨hfew, rfl⟩ := blocklistPayloadBytes_eq_ok.mp h
    have hread := readAll_of_reads (reads_peelBlocklist
      ⟨blocklistType.toU8, members.map Address.bytes⟩
      (fun hnil => hnonEmpty (map_eq_nil_iff.mp hnil)) (by simpa using hfew)
      fun address => length_of_mem_map_bytes)
    dsimp only at hread
    rw [length_map, flatten_map_bytes] at hread
    exact congrArg (Payload.blocklist <$> ·) hread
  | emergencyAction nonce chainId actionType =>
    cases h
    rfl
  | limitUpdateAction nonce chainId sendingChainId newUsdLimit =>
    cases h
    exact congrArg (Payload.updateBridgeLimit <$> ·) (readAll_of_reads
      (reads_peelUpdateBridgeLimit ⟨chainId.toU8, sendingChainId.toU8, newUsdLimit⟩
        sendingChainId.isValidChainId))
  | assetPriceUpdateAction nonce chainId tokenId newUsdPrice =>
    cases h
    exact congrArg (Payload.updateAssetPrice <$> ·)
      (readAll_of_reads (reads_peelUpdateAssetPrice ⟨tokenId, newUsdPrice⟩))
  | chainIdUpdateAction nonce chainId newChainId =>
    cases h
    rfl
  | addTokensOnHaneulAction nonce chainId native tokenIds tokenTypeNames tokenPrices =>
    have hids := rustBcsVec_eq (fun b => [b]) tokenIds
    have hnames := rustBcsStrings_eq tokenTypeNames
    have hprices := rustBcsVec_eq u64LeBytes tokenPrices
    obtain ⟨ids, hrust, h⟩ := bind_eq_ok.mp h
    rw [hrust] at hids
    obtain ⟨names, hrust, h⟩ := bind_eq_ok.mp h
    rw [hrust] at hnames
    obtain ⟨prices, hrust, h⟩ := bind_eq_ok.mp h
    rw [hrust] at hprices
    cases h
    exact congrArg (Payload.addTokensOnHaneul <$> ·) (readAll_of_reads
      (reads_peelAddTokensOnHaneul ⟨native, tokenIds, tokenTypeNames, tokenPrices⟩
        (eq_ok_of_toOption hids.symm) (eq_ok_of_toOption hnames.symm)
        (eq_ok_of_toOption hprices.symm)))

theorem fields_message (hnonEmpty : action.NonEmpty)
    {payload : List UInt8} (h : action.asPayloadBytes = .ok payload) :
    (action.message payload).fields = .ok action.fields := by
  unfold BridgeMessage.fields
  rw [extractPayload_message hnonEmpty h]
  rfl

theorem createMessage_eq_some {message : BridgeMessage} :
    action.createMessage = some message ↔
      ∃ payload, action.asPayloadBytes = .ok payload ∧ message = action.message payload := by
  rw [createMessage_eq, Option.map_eq_some_iff]
  constructor
  · rintro ⟨payload, hpayload, rfl⟩
    exact ⟨payload, eq_ok_of_toOption hpayload, rfl⟩
  · rintro ⟨payload, hpayload, rfl⟩
    exact ⟨payload, by rw [hpayload]; rfl, rfl⟩

theorem toBytes_eq_ok {bytes : List UInt8}
    (h : action.toBytes = .ok bytes) : ∃ message, action.createMessage = some message ∧
      bytes = bridgeMessagePrefix ++ message.serializeMessage := by
  obtain ⟨tail, htail, h⟩ := bind_eq_ok.mp h
  obtain ⟨payload, hpayload, htail⟩ := bind_eq_ok.mp htail
  cases htail
  cases h
  exact ⟨_, createMessage_eq_some.mpr ⟨payload, hpayload, rfl⟩, rfl⟩

theorem rustBcsVec_isSome {α : Type} {encode : α → List UInt8} {xs : List α} :
    (rustBcsVec encode xs).toOption.isSome ↔ xs.length ≤ maxSequenceLength := by
  unfold rustBcsVec
  split <;> simp_all [Except.toOption]

theorem rustBcsStrings_isSome {names : List AsciiString} :
    (rustBcsStrings names).toOption.isSome ↔ names.length ≤ maxSequenceLength ∧
      ∀ name ∈ names, name.bytes.length ≤ maxSequenceLength := by
  unfold rustBcsStrings
  split
  case isTrue hall =>
      rw [rustBcsVec_isSome]
      simpa using fun _ => by simpa using hall
  case isFalse hall =>
      simp only [Except.toOption, Option.isSome_none, Bool.false_eq_true, false_iff, not_and]
      intro _ hle
      exact hall (by simpa using hle)

theorem createMessage_isSome (action : BridgeAction) :
    action.createMessage.isSome ↔ action.Fits := by
  rw [createMessage_eq, Option.isSome_map]
  cases action with
  | ethToHaneulTokenTransferV2 a seconds =>
    unfold BridgeAction.asPayloadBytes timestampMs BridgeAction.Fits
    dsimp only
    split <;> simp_all [bind, Except.bind, pure, Except.pure, Except.toOption]
  | blocklistCommitteeAction nonce chainId blocklistType members =>
    unfold BridgeAction.asPayloadBytes blocklistPayloadBytes BridgeAction.Fits
    dsimp only
    split <;> simp_all [Except.toOption] <;> omega
  | addTokensOnHaneulAction nonce chainId native tokenIds tokenTypeNames tokenPrices =>
    unfold BridgeAction.asPayloadBytes addTokensPayloadBytes BridgeAction.Fits
    have hids := @rustBcsVec_isSome _ (fun b => [b]) tokenIds
    have hnames := @rustBcsStrings_isSome tokenTypeNames
    have hprices := @rustBcsVec_isSome _ u64LeBytes tokenPrices
    dsimp only
    rw [← hids, ← hprices, ← hnames]
    cases rustBcsVec (fun b => [b]) tokenIds <;> cases rustBcsStrings tokenTypeNames <;>
      cases rustBcsVec u64LeBytes tokenPrices <;>
        simp [bind, Except.bind, pure, Except.pure, Except.toOption]
  | _ => exact iff_of_true rfl trivial

end Haneul.Bridge
