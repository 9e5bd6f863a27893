import Haneul.Bridge.Committee
import Haneul.Bridge.Treasury

/-!
# The bridge

Mirror of `bridge/sources/bridge.move`.  A transfer to Ethereum burns its coins and leaves a
record; the committee approves it there.  A transfer from Ethereum is recorded when it is
approved, and its coins are minted when it is claimed.  System messages change the bridge
itself: they pause it, change the committee, the limits and the tokens, and they can give the
bridge another Haneul chain id.

A call returns the next state together with what it did to coins and messages; a call that
aborts leaves the bridge as it is.
-/

namespace Haneul.Bridge

structure BridgeRecord where
  message : BridgeMessage
  verifiedSignatures : Option (List (List UInt8))
  claimed : Bool
deriving DecidableEq, Repr

structure BridgeInner where
  chainId : UInt8
  sequenceNums : UInt8 → Option UInt64
  committee : BridgeCommittee
  treasury : BridgeTreasury
  tokenTransferRecords : BridgeMessageKey → Option BridgeRecord
  limiter : TransferLimiter
  paused : Bool

structure Coin where
  coinType : TypeName
  value : Nat
deriving DecidableEq, Repr

def tokenPayload (message : BridgeMessage) : Except BridgeAbort TokenTransferPayload :=
  if message.messageVersion = 2 then do
    let payload ← extractTokenBridgePayloadV2 message
    return payload.toTokenTransferPayload
  else extractTokenBridgePayload message

/-- The payload of an approved message, and whether it is old enough to bypass the limiter. -/
def claimPayload (clockMs : Nat) (message : BridgeMessage) :
    Except BridgeAbort (TokenTransferPayload × Bool) :=
  if message.messageVersion = 2 then do
    let payload ← extractTokenBridgePayloadV2 message
    let mature ← addU64 payload.timestampMs.toNat (48 * 3600000)
    return (payload.toTokenTransferPayload, decide (mature < clockMs))
  else do
    let payload ← extractTokenBridgePayload message
    return (payload, false)

namespace BridgeInner

/-- `create`, called once by the system with the id of its chain. -/
def create (chainId : UInt8) : BridgeInner where
  chainId := chainId
  sequenceNums := fun _ => none
  committee := BridgeCommittee.create
  treasury := BridgeTreasury.create
  tokenTransferRecords := fun _ => none
  limiter := TransferLimiter.new
  paused := false

/-! ### Sequence numbers and records -/

variable (inner : BridgeInner)

def getCurrentSeqNumAndIncrement (msgType : UInt8) :
    Except BridgeAbort (BridgeInner × UInt64) :=
  match inner.sequenceNums msgType with
  | none =>
    .ok ({ inner with sequenceNums := Function.update inner.sequenceNums msgType (some 1) }, 0)
  | some seqNum =>
    if seqNum.toNat + 1 ≤ u64Max then
      .ok ({ inner with
        sequenceNums := Function.update inner.sequenceNums msgType (some (seqNum + 1)) }, seqNum)
    else .error .arithmeticError

def pushRecord (key : BridgeMessageKey) (record : BridgeRecord) :
    Except BridgeAbort BridgeInner := do
  require (inner.tokenTransferRecords key).isNone .fieldAlreadyExists
  return { inner with
    tokenTransferRecords := Function.update inner.tokenTransferRecords key (some record) }

def setRecord (key : BridgeMessageKey) (record : BridgeRecord) :
    BridgeInner :=
  { inner with
    tokenTransferRecords := Function.update inner.tokenTransferRecords key (some record) }

/-! ### Sending -/

def sendTokenInternal (targetChain : UInt8) (token : Coin)
    (message : BridgeMessage) : Except BridgeAbort BridgeInner := do
  require (!inner.paused) .bridgeUnavailable
  require (isValidRoute inner.chainId targetChain) .invalidBridgeRoute
  let treasury ← inner.treasury.burn token.coinType token.value
  { inner with treasury }.pushRecord message.key ⟨message, none, false⟩

/-- The checks of `send_token` and `send_token_v2` before the message is made. -/
def checkSend (targetAddress : List UInt8) (token : Coin) :
    Except BridgeAbort UInt8 := do
  let tokenId ← inner.treasury.tokenId token.coinType
  require (targetAddress.length == 20) .invalidEvmAddress
  require (0 < token.value) .tokenValueIsZero
  return tokenId

def sendToken (targetChain : UInt8) (targetAddress : List UInt8)
    (token : Coin) (sender : HaneulAddress) : Except BridgeAbort (BridgeInner × BridgeMessage) := do
  let (inner, bridgeSeqNum) ← inner.getCurrentSeqNumAndIncrement MessageTypes.token
  let tokenId ← inner.checkSend targetAddress token
  let message ← createTokenBridgeMessage inner.chainId bridgeSeqNum sender.bytes targetChain
    targetAddress tokenId (UInt64.ofNat token.value)
  let inner ← inner.sendTokenInternal targetChain token message
  return (inner, message)

def sendTokenV2 (targetChain : UInt8) (targetAddress : List UInt8)
    (token : Coin) (clockMs : UInt64) (sender : HaneulAddress) :
    Except BridgeAbort (BridgeInner × BridgeMessage) := do
  let (inner, bridgeSeqNum) ← inner.getCurrentSeqNumAndIncrement MessageTypes.token
  let tokenId ← inner.checkSend targetAddress token
  let message ← createTokenBridgeMessageV2 inner.chainId bridgeSeqNum sender.bytes targetChain
    targetAddress tokenId (UInt64.ofNat token.value) clockMs
  let inner ← inner.sendTokenInternal targetChain token message
  return (inner, message)

/-! ### Approving -/

/-- A message of this chain must be on record; it is approved there. -/
def approveOutgoing (message : BridgeMessage)
    (signatures : List (List UInt8)) : Except BridgeAbort (BridgeInner × Bool) :=
  match inner.tokenTransferRecords message.key with
  | none => .error .fieldDoesNotExist
  | some record => do
    require (record.message == message) .malformedMessageError
    require (!record.claimed) .haneulInitializedTokenTransferShouldNotBeClaimed
    return if record.verifiedSignatures.isSome then (inner, false)
      else (inner.setRecord message.key { record with verifiedSignatures := some signatures }, true)

/-- A message of another chain is put on record when it is approved. -/
def approveIncoming (message : BridgeMessage)
    (signatures : List (List UInt8)) : BridgeInner × Bool :=
  if (inner.tokenTransferRecords message.key).isSome then (inner, false)
  else (inner.setRecord message.key ⟨message, some signatures, false⟩, true)

variable (crypto : Crypto)

/-- The flag tells whether the approval is new. -/
def approveTokenTransfer (inner : BridgeInner) (message : BridgeMessage)
    (signatures : List (List UInt8)) : Except BridgeAbort (BridgeInner × Bool) := do
  require (!inner.paused) .bridgeUnavailable
  inner.committee.verifySignatures crypto message signatures
  require (message.messageType == MessageTypes.token) .mustBeTokenMessage
  require (message.messageVersion ≤ 2) .unexpectedMessageVersion
  let payload ← tokenPayload message
  require (message.sourceChain == inner.chainId || payload.targetChain == inner.chainId)
    .unexpectedChainID
  if message.sourceChain = inner.chainId then inner.approveOutgoing message signatures
  else return inner.approveIncoming message signatures

/-! ### Claiming -/

/-- Whether the limiter lets a transfer through, and the limiter after it. -/
def admitted (bypassLimiter : Bool) (coinType : TypeName) (clockMs : Nat)
    (route : BridgeRoute) (amount : Nat) : Except BridgeAbort (TransferLimiter × Bool) :=
  if bypassLimiter then .ok (inner.limiter, true)
  else inner.limiter.checkAndRecordSendingTransfer inner.treasury coinType clockMs route amount

/-- What follows the answer of the limiter: the coin is minted and the record is closed. -/
def payOut (key : BridgeMessageKey) (record : BridgeRecord)
    (coin : Coin) (answer : TransferLimiter × Bool) :
    Except BridgeAbort (BridgeInner × Option Coin) :=
  if answer.2 then do
    let treasury ← inner.treasury.mint coin.coinType coin.value
    return ({ inner with treasury, limiter := answer.1 }.setRecord key
      { record with claimed := true }, some coin)
  else return ({ inner with limiter := answer.1 }, none)

/-- The claim of a record that is not claimed yet. -/
def claimOpen (key : BridgeMessageKey) (record : BridgeRecord)
    (payload : TokenTransferPayload) (bypassLimiter : Bool) (coinType : TypeName)
    (clockMs : Nat) : Except BridgeAbort (BridgeInner × Option Coin) := do
  require (payload.targetChain == inner.chainId) .unexpectedChainID
  let route ← getRoute key.sourceChain payload.targetChain
  let tokenId ← inner.treasury.tokenId coinType
  require (tokenId == payload.tokenType) .unexpectedTokenType
  let answer ← inner.admitted bypassLimiter coinType clockMs route payload.amount.toNat
  inner.payOut key record ⟨coinType, payload.amount.toNat⟩ answer

/-- A record that is claimed already gives no coin. -/
def claimRecord (key : BridgeMessageKey) (record : BridgeRecord)
    (coinType : TypeName) (clockMs : Nat) :
    Except BridgeAbort (BridgeInner × Option Coin × HaneulAddress) := do
  require (record.message.messageType == MessageTypes.token) .unexpectedMessageType
  require record.verifiedSignatures.isSome .unauthorisedClaim
  let (payload, bypassLimiter) ← claimPayload clockMs record.message
  let owner ← addressFromBytes payload.targetAddress
  if record.claimed then return (inner, none, owner)
  else do
    let (inner, coin) ← inner.claimOpen key record payload bypassLimiter coinType clockMs
    return (inner, coin, owner)

def claimTokenInternal (coinType : TypeName) (clockMs : Nat)
    (sourceChain : UInt8) (bridgeSeqNum : UInt64) :
    Except BridgeAbort (BridgeInner × Option Coin × HaneulAddress) := do
  require (!inner.paused) .bridgeUnavailable
  match inner.tokenTransferRecords ⟨sourceChain, MessageTypes.token, bridgeSeqNum⟩ with
  | none => .error .messageNotFoundInRecords
  | some record =>
    inner.claimRecord ⟨sourceChain, MessageTypes.token, bridgeSeqNum⟩ record coinType clockMs

def claimToken (coinType : TypeName) (clockMs : Nat) (sourceChain : UInt8)
    (bridgeSeqNum : UInt64) (sender : HaneulAddress) :
    Except BridgeAbort (BridgeInner × Coin × HaneulAddress) := do
  let (inner, maybeToken, owner) ← inner.claimTokenInternal coinType clockMs sourceChain bridgeSeqNum
  require (sender == owner) .unauthorisedClaim
  match maybeToken with
  | none => .error .tokenAlreadyClaimedOrHitLimit
  | some token => return (inner, token, owner)

def claimAndTransferToken (coinType : TypeName) (clockMs : Nat)
    (sourceChain : UInt8) (bridgeSeqNum : UInt64) :
    Except BridgeAbort (BridgeInner × Option Coin × HaneulAddress) :=
  inner.claimTokenInternal coinType clockMs sourceChain bridgeSeqNum

/-! ### System messages -/

def executeEmergencyOp (payload : EmergencyOp) :
    Except BridgeAbort BridgeInner :=
  if payload.opType = emergencyOpPause then do
    require (!inner.paused) .bridgeAlreadyPaused
    return { inner with paused := true }
  else if payload.opType = emergencyOpUnpause then do
    require inner.paused .bridgeNotPaused
    return { inner with paused := false }
  else .error .unexpectedOperation

def executeUpdateBridgeLimit (payload : UpdateBridgeLimit) :
    Except BridgeAbort BridgeInner := do
  require (payload.receivingChain == inner.chainId) .unexpectedChainID
  let route ← getRoute payload.sendingChain payload.receivingChain
  return { inner with limiter := inner.limiter.updateRouteLimit route payload.limit.toNat }

def executeUpdateAssetPrice (payload : UpdateAssetPrice) :
    Except BridgeAbort BridgeInner := do
  let treasury ← inner.treasury.updateAssetNotionalPrice payload.tokenId payload.newPrice.toNat
  return { inner with treasury }

/-- Only the id changes: sequence numbers, records, committee, treasury and limiter are kept. -/
def executeUpdateChainId (payload : UpdateChainId) :
    Except BridgeAbort BridgeInner := do
  require (isHaneulChain payload.newChainId) .invalidChainId
  require (payload.newChainId != inner.chainId) .invalidChainId
  return { inner with chainId := payload.newChainId }

/-- The tokens are added from the last to the first. -/
def executeAddTokensOnHaneul (payload : AddTokenOnHaneul) :
    Except BridgeAbort BridgeInner := do
  require (payload.tokenIds.length == payload.tokenTypeNames.length) .malformedMessageError
  require (payload.tokenIds.length == payload.tokenPrices.length) .malformedMessageError
  let tokens := payload.tokenIds.zip (payload.tokenTypeNames.zip payload.tokenPrices)
  let treasury ← tokens.reverse.foldlM (fun treasury token =>
    treasury.addNewToken token.2.1 token.1 payload.nativeToken token.2.2.toNat) inner.treasury
  return { inner with treasury }

def executeBlocklist (inner : BridgeInner) (payload : Blocklist) :
    Except BridgeAbort BridgeInner := do
  let committee ← inner.committee.executeBlocklist crypto payload
  return { inner with committee }

def executePayload (inner : BridgeInner) (message : BridgeMessage) :
    Except BridgeAbort BridgeInner :=
  if message.messageType = MessageTypes.emergencyOp then
    extractEmergencyOpPayload message >>= inner.executeEmergencyOp
  else if message.messageType = MessageTypes.committeeBlocklist then
    extractBlocklistPayload message >>= inner.executeBlocklist crypto
  else if message.messageType = MessageTypes.updateBridgeLimit then
    extractUpdateBridgeLimit message >>= inner.executeUpdateBridgeLimit
  else if message.messageType = MessageTypes.updateAssetPrice then
    extractUpdateAssetPrice message >>= inner.executeUpdateAssetPrice
  else if message.messageType = MessageTypes.addTokensOnHaneul then
    extractAddTokensOnHaneul message >>= inner.executeAddTokensOnHaneul
  else if message.messageType = MessageTypes.updateChainId then
    extractUpdateChainId message >>= inner.executeUpdateChainId
  else .error .unexpectedMessageType

def executeSystemMessage (inner : BridgeInner) (message : BridgeMessage)
    (signatures : List (List UInt8)) : Except BridgeAbort BridgeInner := do
  require (message.messageVersion == 1) .unexpectedMessageVersion
  require (message.sourceChain == inner.chainId) .unexpectedChainID
  let (inner, expectedSeqNum) ← inner.getCurrentSeqNumAndIncrement message.messageType
  require (message.seqNum == expectedSeqNum) .unexpectedSeqNum
  inner.committee.verifySignatures crypto message signatures
  inner.executePayload crypto message

/-! ### Committee and tokens -/

def initBridgeCommittee (activeValidatorVotingPower : List (HaneulAddress × Nat))
    (minStakeParticipationPercentage epoch : Nat) : Except BridgeAbort BridgeInner :=
  if inner.committee.members.isEmpty then do
    let committee ← inner.committee.tryCreateNextCommittee activeValidatorVotingPower
      minStakeParticipationPercentage epoch
    return { inner with committee }
  else return inner

def committeeRegistration (activeValidators : List HaneulAddress)
    (bridgePubkeyBytes httpRestUrl : List UInt8) (sender : HaneulAddress) :
    Except BridgeAbort BridgeInner := do
  let committee ← inner.committee.register activeValidators bridgePubkeyBytes httpRestUrl sender
  return { inner with committee }

def updateNodeUrl (newUrl : List UInt8) (sender : HaneulAddress) :
    Except BridgeAbort BridgeInner := do
  let committee ← inner.committee.updateNodeUrl newUrl sender
  return { inner with committee }

def registerForeignToken (coinType : TypeName) (totalSupply : Nat)
    (isUpgradeCapOfCoin : Bool) (decimal : Nat) : Except BridgeAbort BridgeInner := do
  let treasury ← inner.treasury.registerForeignToken coinType totalSupply isUpgradeCapOfCoin decimal
  return { inner with treasury }

end BridgeInner

/-! ### Calls -/

inductive BridgeCall where
  | sendToken (targetChain : UInt8) (targetAddress : List UInt8) (coinType : TypeName)
      (value : UInt64) (sender : HaneulAddress)
  | sendTokenV2 (targetChain : UInt8) (targetAddress : List UInt8) (coinType : TypeName)
      (value clockMs : UInt64) (sender : HaneulAddress)
  | approveTokenTransfer (message : BridgeMessage) (signatures : List (List UInt8))
  | claimToken (coinType : TypeName) (clockMs : UInt64) (sourceChain : UInt8)
      (bridgeSeqNum : UInt64) (sender : HaneulAddress)
  | claimAndTransferToken (coinType : TypeName) (clockMs : UInt64) (sourceChain : UInt8)
      (bridgeSeqNum : UInt64)
  | executeSystemMessage (message : BridgeMessage) (signatures : List (List UInt8))
  | initBridgeCommittee (activeValidatorVotingPower : List (HaneulAddress × Nat))
      (minStakeParticipationPercentage epoch : Nat)
  | committeeRegistration (activeValidators : List HaneulAddress)
      (bridgePubkeyBytes httpRestUrl : List UInt8) (sender : HaneulAddress)
  | updateNodeUrl (newUrl : List UInt8) (sender : HaneulAddress)
  | registerForeignToken (coinType : TypeName) (totalSupply : Nat) (isUpgradeCapOfCoin : Bool)
      (decimal : Nat)

/-- What a call did to coins and messages.  An approval and a system message come with the
    committee that was in office. -/
inductive BridgeEffect where
  | none
  | burned (message : BridgeMessage) (coin : Coin)
  | approved (message : BridgeMessage) (signatures : List (List UInt8))
      (committee : BridgeCommittee)
  | minted (key : BridgeMessageKey) (coin : Coin) (recipient : HaneulAddress)
  | executed (message : BridgeMessage) (signatures : List (List UInt8))
      (committee : BridgeCommittee)
deriving DecidableEq

/-- A claim that gives no coin has no effect on coins. -/
def claimEffect (key : BridgeMessageKey) (recipient : HaneulAddress) : Option Coin → BridgeEffect
  | .none => .none
  | some coin => .minted key coin recipient

def BridgeCall.run (crypto : Crypto) (inner : BridgeInner) :
    BridgeCall → Except BridgeAbort (BridgeInner × BridgeEffect)
  | .sendToken targetChain targetAddress coinType value sender => do
    let (inner', message) ← inner.sendToken targetChain targetAddress ⟨coinType, value.toNat⟩ sender
    return (inner', .burned message ⟨coinType, value.toNat⟩)
  | .sendTokenV2 targetChain targetAddress coinType value clockMs sender => do
    let (inner', message) ← inner.sendTokenV2 targetChain targetAddress ⟨coinType, value.toNat⟩
      clockMs sender
    return (inner', .burned message ⟨coinType, value.toNat⟩)
  | .approveTokenTransfer message signatures => do
    let (inner', isNew) ← inner.approveTokenTransfer crypto message signatures
    return (inner', if isNew then .approved message signatures inner.committee else .none)
  | .claimToken coinType clockMs sourceChain bridgeSeqNum sender => do
    let (inner', coin, owner) ← inner.claimToken coinType clockMs.toNat sourceChain bridgeSeqNum
      sender
    return (inner', .minted ⟨sourceChain, MessageTypes.token, bridgeSeqNum⟩ coin owner)
  | .claimAndTransferToken coinType clockMs sourceChain bridgeSeqNum => do
    let (inner', coin, owner) ← inner.claimAndTransferToken coinType clockMs.toNat sourceChain
      bridgeSeqNum
    return (inner', claimEffect ⟨sourceChain, MessageTypes.token, bridgeSeqNum⟩ owner coin)
  | .executeSystemMessage message signatures => do
    let inner' ← inner.executeSystemMessage crypto message signatures
    return (inner', .executed message signatures inner.committee)
  | .initBridgeCommittee activeValidatorVotingPower minStakeParticipationPercentage epoch => do
    let inner' ← inner.initBridgeCommittee activeValidatorVotingPower
      minStakeParticipationPercentage epoch
    return (inner', .none)
  | .committeeRegistration activeValidators bridgePubkeyBytes httpRestUrl sender => do
    let inner' ← inner.committeeRegistration activeValidators bridgePubkeyBytes httpRestUrl sender
    return (inner', .none)
  | .updateNodeUrl newUrl sender => do
    let inner' ← inner.updateNodeUrl newUrl sender
    return (inner', .none)
  | .registerForeignToken coinType totalSupply isUpgradeCapOfCoin decimal => do
    let inner' ← inner.registerForeignToken coinType totalSupply isUpgradeCapOfCoin decimal
    return (inner', .none)

end Haneul.Bridge
