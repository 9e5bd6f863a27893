import Haneul.Bridge.Message

/-!
# The bridge on Ethereum

Mirror of `bridge/evm/contracts`: `HaneulBridge` and `HaneulBridgeV2`, with what they use of the
committee, the configuration, the limiter and the vault.  A transfer from Haneul is paid out of
the vault for a message that the committee signed; a deposit goes into the vault and is
announced by an event.

The contracts call each other, and they call tokens and recipients, which can call back.  What
a token or a recipient does while it has control is a list of further calls; they run inside
the call that pays it, on the state in the middle of that call.

Words of 256 bits are natural numbers with a check where the code computes with them.  Given are
the recovery of a signer, the decimals of each token, and the address of the wrapped Ether.
-/

namespace Haneul.Bridge.Evm

inductive Revert where
  -- `MessageVerifier`
  | messageDoesNotMatchType
  | invalidChainID
  | invalidNonce
  -- `BridgeCommittee`
  | invalidSignatureLength
  | signerIsBlocklisted
  | signerHasNoStake
  | duplicateSignatureProvided
  | insufficientStakeAmount
  -- `HaneulBridge`
  | targetChainNotSupported
  | messageAlreadyProcessed
  | invalidMessageVersion
  | invalidTargetChain
  | amountExceedsBridgeLimit
  | unsupportedToken
  | invalidRecipientAddressLength
  | insufficientAllowance
  -- `BridgeUtils`
  | invalidMessageType
  | invalidPayloadLength
  | invalidSenderAddressLength
  | invalidTargetAddressLength
  | invalidOpCode
  | invalidHaneulDecimal
  | insufficientAmountProvided
  | amountTooLargeForUint64
  -- `BridgeLimiter`
  | amountMustBeGreaterThanZero
  | amountExceedsRollingWindowLimit
  -- `Pausable`, `ReentrancyGuard`, the arithmetic of the compiler, and calls that fail
  | enforcedPause
  | expectedPause
  | reentrantCall
  | panic
  | callFailed
deriving DecidableEq, Repr

def require (condition : Bool) (reason : Revert) : Except Revert Unit :=
  if condition then .ok () else .error reason

@[simp] theorem require_eq_ok {condition : Bool} {reason : Revert} {u : Unit} :
    require condition reason = .ok u ↔ condition = true := by
  cases condition <;> simp [require]

/-! ### Words -/

def uint256Max : Nat := 2 ^ 256 - 1

/-- The result of an operation, if it fits in a word of some size. -/
def fits (max n : Nat) : Except Revert Nat :=
  if n ≤ max then .ok n else .error .panic

theorem fits_eq_ok {max n m : Nat} : fits max n = .ok m ↔ n ≤ max ∧ m = n := by
  unfold fits
  split <;> simp [*, eq_comm]

def checkedSub (a b : Nat) : Except Revert Nat :=
  if b ≤ a then .ok (a - b) else .error .panic

abbrev EthAddress := Address 20

def zeroAddress : EthAddress := ⟨List.replicate 20 0, rfl⟩

/-! ### `BridgeUtils` and `BridgeUtilsV2` -/

structure Message where
  messageType : UInt8
  version : UInt8
  nonce : UInt64
  chainID : UInt8
  payload : List UInt8
deriving DecidableEq, Repr

structure TokenTransferPayload where
  senderAddress : List UInt8
  targetChain : UInt8
  recipientAddress : EthAddress
  tokenID : UInt8
  amount : UInt64
deriving DecidableEq, Repr

def tokenTransfer : UInt8 := 0
def blocklistUpdate : UInt8 := 1
def emergencyOp : UInt8 := 2
def updateBridgeLimit : UInt8 := 3
def updateTokenPrice : UInt8 := 4
def upgrade : UInt8 := 5
def addEvmTokens : UInt8 := 7

def eth : UInt8 := 2

def messagePrefix : List UInt8 :=
  [0x48, 0x41, 0x4e, 0x45, 0x55, 0x4c, 0x5f, 0x42, 0x52, 0x49, 0x44, 0x47, 0x45, 0x5f,
   0x4d, 0x45, 0x53, 0x53, 0x41, 0x47, 0x45]

variable (message : Message)

def encodeMessage : List UInt8 :=
  messagePrefix ++ [message.messageType, message.version] ++
    u64BeBytes message.nonce ++ [message.chainID] ++ message.payload

variable (payload : List UInt8)

def decodeEmergencyOpPayload : Except Revert Bool :=
  match payload with
  | [emergencyOpCode] => do
    require (emergencyOpCode ≤ 1) .invalidOpCode
    return emergencyOpCode == 0
  | _ => .error .invalidPayloadLength

def requiredStake : Except Revert Nat :=
  if message.messageType = tokenTransfer then .ok 3334
  else if message.messageType = blocklistUpdate then .ok 5001
  else if message.messageType = emergencyOp then do
    let isFreezing ← decodeEmergencyOpPayload message.payload
    return if isFreezing then 450 else 5001
  else if message.messageType = updateBridgeLimit then .ok 5001
  else if message.messageType = updateTokenPrice then .ok 5001
  else if message.messageType = upgrade then .ok 5001
  else if message.messageType = addEvmTokens then .ok 5001
  else .error .invalidMessageType

def decimalFactor (erc20Decimal haneulDecimal : UInt8) : Except Revert Nat := do
  require (haneulDecimal < erc20Decimal) .invalidHaneulDecimal
  fits uint256Max (10 ^ (erc20Decimal.toNat - haneulDecimal.toNat))

def convertERC20ToHaneulDecimal (erc20Decimal haneulDecimal : UInt8) (amount : Nat) :
    Except Revert UInt64 :=
  if erc20Decimal = haneulDecimal then do
    require (0 < amount) .insufficientAmountProvided
    require (amount ≤ u64Max) .amountTooLargeForUint64
    return UInt64.ofNat amount
  else do
    let factor ← decimalFactor erc20Decimal haneulDecimal
    require (amount / factor ≤ u64Max) .amountTooLargeForUint64
    require (0 < amount / factor) .insufficientAmountProvided
    return UInt64.ofNat (amount / factor)

def convertHaneulToERC20Decimal (erc20Decimal haneulDecimal : UInt8) (amount : UInt64) :
    Except Revert Nat :=
  if haneulDecimal = erc20Decimal then .ok amount.toNat
  else do
    let factor ← decimalFactor erc20Decimal haneulDecimal
    fits uint256Max (amount.toNat * factor)

def uintAt (offset length : Nat) : Nat :=
  ((payload.drop offset).take length).foldl (fun n b => 256 * n + b.toNat) 0

def addressAt (offset : Nat) (h : offset + 20 ≤ payload.length) : EthAddress :=
  ⟨(payload.drop offset).take 20, by rw [List.length_take, List.length_drop]; omega⟩

/-- The part of a token transfer that both versions have, of a payload that is long enough. -/
def decodeTransfer (h : 64 ≤ payload.length) :
    Except Revert TokenTransferPayload := do
  require (uintAt payload 0 1 == 32) .invalidSenderAddressLength
  require (uintAt payload 34 1 == 20) .invalidTargetAddressLength
  return {
    senderAddress := (payload.drop 1).take 32
    targetChain := UInt8.ofNat (uintAt payload 33 1)
    recipientAddress := addressAt payload 35 (by omega)
    tokenID := UInt8.ofNat (uintAt payload 55 1)
    amount := UInt64.ofNat (uintAt payload 56 8) }

def decodeTokenTransferPayload : Except Revert TokenTransferPayload :=
  if h : payload.length = 64 then decodeTransfer payload (by omega)
  else .error .invalidPayloadLength

/-- The transfer, and its time in milliseconds. -/
def decodeTokenTransferPayloadV2 :
    Except Revert (TokenTransferPayload × Nat) :=
  if h : payload.length = 72 then do
    let transfer ← decodeTransfer payload (by omega)
    return (transfer, uintAt payload 64 8)
  else .error .invalidPayloadLength

def isMatureMessage (messageTimestamp currentTimestamp : Nat) : Bool :=
  messageTimestamp + 48 * 3600 < currentTimestamp

/-! ### The state of the contracts -/

/-- What the contracts rely on: `ECDSA.tryRecover` on the hash of some bytes and the parts of a
    signature, `decimals` of a token if there is one at the address, and the vault's `wETH`. -/
structure World where
  tryRecover : List UInt8 → List UInt8 → List UInt8 → UInt8 → EthAddress
  decimals : EthAddress → Option UInt8
  wETH : EthAddress

structure Committee where
  committeeStake : EthAddress → UInt16
  committeeIndex : EthAddress → UInt8
  blocklist : EthAddress → Bool

structure Token where
  tokenAddress : EthAddress
  haneulDecimal : UInt8

structure Config where
  chainID : UInt8
  supportedTokens : UInt8 → Token
  tokenPrices : UInt8 → UInt64
  supportedChains : UInt8 → Bool

structure Limiter where
  chainHourlyTransferAmount : Nat → Nat
  chainLimits : UInt8 → UInt64

structure Payment where
  token : EthAddress
  recipient : EthAddress
  amount : Nat
deriving DecidableEq, Repr

inductive Event where
  | tokensClaimed (sourceChainID : UInt8) (nonce : UInt64) (targetChainID tokenID : UInt8)
      (erc20AdjustedAmount : Nat) (senderAddress : List UInt8) (recipientAddress : EthAddress)
  | tokensDeposited (sourceChainID : UInt8) (nonce : UInt64) (destinationChainID tokenID : UInt8)
      (haneulAdjustedAmount : UInt64) (senderAddress : EthAddress) (recipientAddress : List UInt8)
  | tokensDepositedV2 (sourceChainID : UInt8) (nonce : UInt64) (destinationChainID tokenID : UInt8)
      (haneulAdjustedAmount : UInt64) (senderAddress : EthAddress) (recipientAddress : List UInt8)
      (timestampSeconds : Nat)
  | emergencyOperation (nonce : UInt64) (isFreezing : Bool)
deriving DecidableEq, Repr

/-- The bridge with the contracts it calls; `vault` is what the vault has of each token. -/
structure State where
  isTransferProcessed : UInt64 → Bool
  nonces : UInt8 → UInt64
  paused : Bool
  entered : Bool
  committee : Committee
  config : Config
  limiter : Limiter
  vault : EthAddress → Nat
  payments : List Payment
  events : List Event

namespace State

def emit (s : State) (event : Event) : State := { s with events := s.events ++ [event] }

def tokenAddressOf (s : State) (tokenID : UInt8) : EthAddress :=
  (s.config.supportedTokens tokenID).tokenAddress

def tokenHaneulDecimalOf (s : State) (tokenID : UInt8) : UInt8 :=
  (s.config.supportedTokens tokenID).haneulDecimal

def isTokenSupported (s : State) (tokenID : UInt8) : Bool := s.tokenAddressOf tokenID != zeroAddress

end State

variable (world : World)

def World.decimalsOf (token : EthAddress) : Except Revert UInt8 :=
  match world.decimals token with
  | none => .error .callFailed
  | some decimals => .ok decimals

/-! ### `BridgeCommittee` and `MessageVerifier` -/

def splitSignature (sig : List UInt8) : Except Revert (List UInt8 × List UInt8 × UInt8) := do
  require (sig.length == 65) .invalidSignatureLength
  let v := UInt8.ofNat (uintAt sig 64 1)
  return (sig.take 32, (sig.drop 32).take 32, if v < 27 then v + 27 else v)

/-- One turn of the loop: the bitmap of the signers so far, and their stake. -/
def countSignature (committee : Committee) (message : Message)
    (counted : Nat × Nat) (signature : List UInt8) : Except Revert (Nat × Nat) := do
  let (r, s, v) ← splitSignature signature
  let signer := world.tryRecover (encodeMessage message) r s v
  require (!committee.blocklist signer) .signerIsBlocklisted
  require (0 < committee.committeeStake signer) .signerHasNoStake
  let mask := 1 <<< (committee.committeeIndex signer).toNat
  require (counted.1 &&& mask == 0) .duplicateSignatureProvided
  let approvalStake ← fits (2 ^ 16 - 1) (counted.2 + (committee.committeeStake signer).toNat)
  return (counted.1 ||| mask, approvalStake)

def verifySignatures (committee : Committee) (signatures : List (List UInt8))
    (message : Message) : Except Revert Unit := do
  let required ← requiredStake message
  let counted ← signatures.foldlM (countSignature world committee message) (0, 0)
  require (required ≤ counted.2) .insufficientStakeAmount

variable (s : State)

/-- The nonces of all message types but token transfers are checked and counted here. -/
def takeNonce (message : Message) : Except Revert State := do
  require (message.chainID == s.config.chainID) .invalidChainID
  require (message.nonce == s.nonces message.messageType) .invalidNonce
  let _ ← fits u64Max (message.nonce.toNat + 1)
  return { s with nonces := Function.update s.nonces message.messageType (message.nonce + 1) }

def verifyMessageAndSignatures (s : State) (message : Message)
    (signatures : List (List UInt8)) (messageType : UInt8) : Except Revert State := do
  require (message.messageType == messageType) .messageDoesNotMatchType
  verifySignatures world s.committee signatures message
  if messageType = tokenTransfer then return s else takeNonce s message

/-! ### `BridgeLimiter` -/

def currentHour (now : Nat) : Nat := now / 3600 % 2 ^ 32

def getChainHourTimestampKey (chainID : UInt8) (hourTimestamp : Nat) : Nat :=
  chainID.toNat <<< 32 ||| hourTimestamp

def calculateWindowAmount (limiter : Limiter) (now : Nat) (chainID : UInt8) : Except Revert Nat :=
  (List.range 24).foldlM (fun total i => do
    let hour ← checkedSub (currentHour now) i
    fits uint256Max
      (total + limiter.chainHourlyTransferAmount (getChainHourTimestampKey chainID hour))) 0

def calculateAmountInUSD (s : State) (tokenID : UInt8) (amount : Nat) :
    Except Revert Nat := do
  let decimals ← world.decimalsOf (s.tokenAddressOf tokenID)
  let value ← fits uint256Max (amount * (s.config.tokenPrices tokenID).toNat)
  let unit ← fits uint256Max (10 ^ decimals.toNat)
  return value / unit

def willUSDAmountExceedLimit (limiter : Limiter) (now : Nat) (chainID : UInt8) (amount : Nat) :
    Except Revert Bool := do
  let windowAmount ← calculateWindowAmount limiter now chainID
  let total ← fits uint256Max (windowAmount + amount)
  return (limiter.chainLimits chainID).toNat < total

def willAmountExceedLimit (s : State) (now : Nat) (chainID tokenID : UInt8)
    (amount : Nat) : Except Revert Bool := do
  let windowAmount ← calculateWindowAmount s.limiter now chainID
  let usdAmount ← calculateAmountInUSD world s tokenID amount
  let total ← fits uint256Max (windowAmount + usdAmount)
  return (s.limiter.chainLimits chainID).toNat < total

def recordBridgeTransfers (s : State) (now : Nat) (chainID tokenID : UInt8)
    (amount : Nat) : Except Revert State := do
  require (0 < amount) .amountMustBeGreaterThanZero
  let usdAmount ← calculateAmountInUSD world s tokenID amount
  let exceeds ← willUSDAmountExceedLimit s.limiter now chainID usdAmount
  require (!exceeds) .amountExceedsRollingWindowLimit
  let expired ← checkedSub (currentHour now) 25
  let amounts := Function.update s.limiter.chainHourlyTransferAmount
    (getChainHourTimestampKey chainID expired) 0
  let key := getChainHourTimestampKey chainID (currentHour now)
  let total ← fits uint256Max (amounts key + usdAmount)
  return { s with
    limiter := { s.limiter with chainHourlyTransferAmount := Function.update amounts key total } }

/-! ### `HaneulBridge` and `HaneulBridgeV2` -/

def whenNotPaused : Except Revert Unit := require (!s.paused) .enforcedPause

/-- `nonReentrant`: the guard is set while the body runs. -/
def nonReentrant (body : State → Except Revert State) (s : State) : Except Revert State := do
  require (!s.entered) .reentrantCall
  let s ← body { s with entered := true }
  return { s with entered := false }

def onlySupportedChain (chainID : UInt8) : Except Revert Unit :=
  require (s.config.supportedChains chainID) .targetChainNotSupported

/-- What happens outside while a token or a recipient has control: whether it agrees, and the
    state it leaves. -/
structure Outside where
  accepts : Bool
  during : State → State

/-- `vault.transferERC20` and `vault.transferETH`, which unwraps first. -/
def payFromVault (token recipient : EthAddress) (amount : Nat) (outside : Outside) :
    Except Revert State := do
  require (amount ≤ s.vault token && outside.accepts) .callFailed
  return outside.during { s with
    vault := Function.update s.vault token (s.vault token - amount)
    payments := s.payments ++ [⟨token, recipient, amount⟩] }

/-- The body of both `_transferTokensFromVault`, up to the limiter. -/
def payToken (s : State) (tokenID : UInt8) (recipientAddress : EthAddress)
    (amount : Nat) (outside : Outside) : Except Revert State := do
  require (s.tokenAddressOf tokenID != zeroAddress) .unsupportedToken
  payFromVault s (if tokenID = eth then world.wETH else s.tokenAddressOf tokenID) recipientAddress
    amount outside

def limitNotExceeded (s : State) (now : Nat) (chainID tokenID : UInt8)
    (amount : Nat) : Except Revert Unit := do
  let exceeds ← willAmountExceedLimit world s now chainID tokenID amount
  require (!exceeds) .amountExceedsBridgeLimit

def transferTokensFromVault (now : Nat) (outside : Outside) (sendingChainID : UInt8)
    (transfer : TokenTransferPayload) (_ : Unit) (amount : Nat) (s : State) :
    Except Revert State := do
  whenNotPaused s
  limitNotExceeded world s now sendingChainID transfer.tokenID amount
  let s ← payToken world s transfer.tokenID transfer.recipientAddress amount outside
  recordBridgeTransfers world s now sendingChainID transfer.tokenID amount

/-- `limitNotExceededV2`: mature messages bypass the limiter, others are recorded at once. -/
def limitNotExceededV2 (s : State) (now : Nat) (chainID tokenID : UInt8)
    (amount timestampSeconds : Nat) : Except Revert State :=
  if isMatureMessage timestampSeconds now then .ok s
  else do
    limitNotExceeded world s now chainID tokenID amount
    recordBridgeTransfers world s now chainID tokenID amount

def transferTokensFromVaultV2 (now : Nat) (outside : Outside)
    (sendingChainID : UInt8) (transfer : TokenTransferPayload) (timestampMs amount : Nat)
    (s : State) : Except Revert State := do
  whenNotPaused s
  let s ← limitNotExceededV2 world s now sendingChainID transfer.tokenID amount (timestampMs / 1000)
  payToken world s transfer.tokenID transfer.recipientAddress amount outside

/-- The body of both transfers: how a payload is decoded, and how it is paid. -/
def transferBody {α : Type} (world : World) (signatures : List (List UInt8)) (message : Message)
    (decode : Message → Except Revert (TokenTransferPayload × α))
    (pay : UInt8 → TokenTransferPayload → α → Nat → State → Except Revert State) (s : State) :
    Except Revert State := do
  let s ← verifyMessageAndSignatures world s message signatures tokenTransfer
  onlySupportedChain s message.chainID
  require (!s.isTransferProcessed message.nonce) .messageAlreadyProcessed
  let (transfer, time) ← decode message
  require (transfer.targetChain == s.config.chainID) .invalidTargetChain
  let decimals ← world.decimalsOf (s.tokenAddressOf transfer.tokenID)
  let erc20AdjustedAmount ← convertHaneulToERC20Decimal decimals
    (s.tokenHaneulDecimalOf transfer.tokenID) transfer.amount
  let s ← pay message.chainID transfer time erc20AdjustedAmount s
  return { s with
    isTransferProcessed := Function.update s.isTransferProcessed message.nonce true }.emit
      (.tokensClaimed message.chainID message.nonce s.config.chainID transfer.tokenID
        erc20AdjustedAmount transfer.senderAddress transfer.recipientAddress)

/-- Any version is accepted here; a payload of 64 bytes is asked for. -/
def decodeV1 : Except Revert (TokenTransferPayload × Unit) := do
  let transfer ← decodeTokenTransferPayload message.payload
  return (transfer, ())

def decodeV2 : Except Revert (TokenTransferPayload × Nat) := do
  require (message.version == 2) .invalidMessageVersion
  decodeTokenTransferPayloadV2 message.payload

def transferBridgedTokensWithSignatures (now : Nat)
    (signatures : List (List UInt8)) (message : Message) (outside : Outside) :
    State → Except Revert State :=
  nonReentrant (transferBody world signatures message decodeV1
    (transferTokensFromVault world now outside))

def transferBridgedTokensWithSignaturesV2 (now : Nat)
    (signatures : List (List UInt8)) (message : Message) (outside : Outside) :
    State → Except Revert State :=
  nonReentrant (transferBody world signatures message decodeV2
    (transferTokensFromVaultV2 world now outside))

def setPaused (isFreezing : Bool) : Except Revert State :=
  if isFreezing then do
    require (!s.paused) .enforcedPause
    return { s with paused := true }
  else do
    require s.paused .expectedPause
    return { s with paused := false }

def executeEmergencyOpWithSignatures (signatures : List (List UInt8))
    (message : Message) : State → Except Revert State :=
  nonReentrant fun s => do
    let s ← verifyMessageAndSignatures world s message signatures emergencyOp
    let isFreezing ← decodeEmergencyOpPayload message.payload
    let s ← setPaused s isFreezing
    return s.emit (.emergencyOperation message.nonce isFreezing)

abbrev DepositEvent := UInt8 → UInt64 → UInt8 → UInt8 → UInt64 → EthAddress → List UInt8 → Event

/-- The end of all deposits: the amount is converted and announced under the next nonce. -/
def announce (s : State) (event : DepositEvent) (tokenID : UInt8)
    (tokenAddress : EthAddress) (amount : Nat) (sender : EthAddress) (recipientAddress : List UInt8)
    (destinationChainID : UInt8) : Except Revert State := do
  let decimals ← world.decimalsOf tokenAddress
  let haneulAdjustedAmount ← convertERC20ToHaneulDecimal decimals (s.tokenHaneulDecimalOf tokenID)
    amount
  let nonce := s.nonces tokenTransfer
  let _ ← fits u64Max (nonce.toNat + 1)
  return { s.emit (event s.config.chainID nonce destinationChainID tokenID haneulAdjustedAmount
      sender recipientAddress) with
    nonces := Function.update s.nonces tokenTransfer (nonce + 1) }

def receiveToken (token : EthAddress) (received : Nat) (outside : Outside) :
    Except Revert State := do
  require outside.accepts .callFailed
  let balance ← fits uint256Max (s.vault token + received)
  return outside.during { s with vault := Function.update s.vault token balance }

/-- A deposit of a token.  A token can charge a fee, so what is received is its own affair. -/
def depositERC20 (event : DepositEvent) (tokenID : UInt8) (amount : Nat)
    (recipientAddress : List UInt8) (destinationChainID : UInt8) (sender : EthAddress)
    (allowance received : Nat) (outside : Outside) (s : State) : Except Revert State := do
  whenNotPaused s
  nonReentrant (fun s => do
    onlySupportedChain s destinationChainID
    require (recipientAddress.length == 32) .invalidRecipientAddressLength
    require (s.isTokenSupported tokenID) .unsupportedToken
    let tokenAddress := s.tokenAddressOf tokenID
    require (amount ≤ allowance) .insufficientAllowance
    let oldBalance := s.vault tokenAddress
    let s ← receiveToken s tokenAddress received outside
    let amountTransfered ← checkedSub (s.vault tokenAddress) oldBalance
    announce world s event tokenID tokenAddress amountTransfered sender recipientAddress
      destinationChainID) s

/-- A deposit of Ether, which the vault wraps. -/
def depositETH (event : DepositEvent) (recipientAddress : List UInt8)
    (destinationChainID : UInt8) (sender : EthAddress) (value : Nat) (s : State) :
    Except Revert State := do
  whenNotPaused s
  nonReentrant (fun s => do
    onlySupportedChain s destinationChainID
    require (recipientAddress.length == 32) .invalidRecipientAddressLength
    let s ← receiveToken s world.wETH value ⟨true, id⟩
    announce world s event eth (s.tokenAddressOf eth) value sender recipientAddress
      destinationChainID) s

def bridgeERC20 (tokenID : UInt8) (amount : Nat) (recipientAddress : List UInt8)
    (destinationChainID : UInt8) (sender : EthAddress) (allowance received : Nat)
    (outside : Outside) : State → Except Revert State :=
  depositERC20 world .tokensDeposited tokenID amount recipientAddress destinationChainID sender
    allowance received outside

def bridgeERC20V2 (now : Nat) (tokenID : UInt8) (amount : Nat)
    (recipientAddress : List UInt8) (destinationChainID : UInt8) (sender : EthAddress)
    (allowance received : Nat) (outside : Outside) : State → Except Revert State :=
  depositERC20 world (fun c n d t a s r => .tokensDepositedV2 c n d t a s r now) tokenID amount
    recipientAddress destinationChainID sender allowance received outside

def bridgeETH (recipientAddress : List UInt8) (destinationChainID : UInt8)
    (sender : EthAddress) (value : Nat) : State → Except Revert State :=
  depositETH world .tokensDeposited recipientAddress destinationChainID sender value

def bridgeETHV2 (now : Nat) (recipientAddress : List UInt8)
    (destinationChainID : UInt8) (sender : EthAddress) (value : Nat) :
    State → Except Revert State :=
  depositETH world (fun c n d t a s r => .tokensDepositedV2 c n d t a s r now) recipientAddress
    destinationChainID sender value

/-! ### Calls -/

/-- The calls of the bridge, with what is called while tokens and recipients have control.
    `update` is any call of the committee, the configuration and the limiter, and `donate` sends
    a token to the vault. -/
inductive Call where
  | transferBridgedTokensWithSignatures (signatures : List (List UInt8)) (message : Message)
      (accepts : Bool) (during : List Call)
  | transferBridgedTokensWithSignaturesV2 (signatures : List (List UInt8)) (message : Message)
      (accepts : Bool) (during : List Call)
  | executeEmergencyOpWithSignatures (signatures : List (List UInt8)) (message : Message)
  | bridgeERC20 (tokenID : UInt8) (amount : Nat) (recipientAddress : List UInt8)
      (destinationChainID : UInt8) (sender : EthAddress) (allowance received : Nat)
      (accepts : Bool) (during : List Call)
  | bridgeERC20V2 (tokenID : UInt8) (amount : Nat) (recipientAddress : List UInt8)
      (destinationChainID : UInt8) (sender : EthAddress) (allowance received : Nat)
      (accepts : Bool) (during : List Call)
  | bridgeETH (recipientAddress : List UInt8) (destinationChainID : UInt8) (sender : EthAddress)
      (value : Nat)
  | bridgeETHV2 (recipientAddress : List UInt8) (destinationChainID : UInt8) (sender : EthAddress)
      (value : Nat)
  | update (committee : Committee) (config : Config) (limiter : Limiter)
  | donate (token : EthAddress) (amount : Nat)

/-- A call that reverts changes nothing. -/
def State.orElse (result : Except Revert State) : State :=
  match result with
  | .ok s' => s'
  | .error _ => s

mutual

def Call.run (world : World) (now : Nat) : Call → State → Except Revert State
  | .transferBridgedTokensWithSignatures signatures message accepts during, s =>
    Evm.transferBridgedTokensWithSignatures world now signatures message
      ⟨accepts, Call.runAll world now during⟩ s
  | .transferBridgedTokensWithSignaturesV2 signatures message accepts during, s =>
    Evm.transferBridgedTokensWithSignaturesV2 world now signatures message
      ⟨accepts, Call.runAll world now during⟩ s
  | .executeEmergencyOpWithSignatures signatures message, s =>
    Evm.executeEmergencyOpWithSignatures world signatures message s
  | .bridgeERC20 tokenID amount recipient destination sender allowance received accepts during, s =>
    Evm.bridgeERC20 world tokenID amount recipient destination sender allowance received
      ⟨accepts, Call.runAll world now during⟩ s
  | .bridgeERC20V2 tokenID amount recipient destination sender allowance received accepts during, s =>
    Evm.bridgeERC20V2 world now tokenID amount recipient destination sender allowance received
      ⟨accepts, Call.runAll world now during⟩ s
  | .bridgeETH recipient destination sender value, s =>
    Evm.bridgeETH world recipient destination sender value s
  | .bridgeETHV2 recipient destination sender value, s =>
    Evm.bridgeETHV2 world now recipient destination sender value s
  | .update committee config limiter, s => .ok { s with committee, config, limiter }
  | .donate token amount, s => receiveToken s token amount ⟨true, id⟩

def Call.runAll (world : World) (now : Nat) : List Call → State → State
  | [], s => s
  | call :: calls, s => Call.runAll world now calls (s.orElse (call.run world now s))

end

mutual

/-- Every new configuration that a call brings about satisfies a predicate. -/
def Call.Updates (P : Config → Prop) : Call → Prop
  | .transferBridgedTokensWithSignatures _ _ _ during => Call.AllUpdate P during
  | .transferBridgedTokensWithSignaturesV2 _ _ _ during => Call.AllUpdate P during
  | .bridgeERC20 _ _ _ _ _ _ _ _ during => Call.AllUpdate P during
  | .bridgeERC20V2 _ _ _ _ _ _ _ _ during => Call.AllUpdate P during
  | .update _ config _ => P config
  | _ => True

def Call.AllUpdate (P : Config → Prop) : List Call → Prop
  | [] => True
  | call :: calls => call.Updates P ∧ Call.AllUpdate P calls

end

mutual

theorem Call.updates_true : ∀ call : Call, call.Updates fun _ => True
  | .transferBridgedTokensWithSignatures _ _ _ during => Call.allUpdate_true during
  | .transferBridgedTokensWithSignaturesV2 _ _ _ during => Call.allUpdate_true during
  | .bridgeERC20 _ _ _ _ _ _ _ _ during => Call.allUpdate_true during
  | .bridgeERC20V2 _ _ _ _ _ _ _ _ during => Call.allUpdate_true during
  | .executeEmergencyOpWithSignatures .. => trivial
  | .bridgeETH .. => trivial
  | .bridgeETHV2 .. => trivial
  | .update .. => trivial
  | .donate .. => trivial

theorem Call.allUpdate_true : ∀ calls : List Call, Call.AllUpdate (fun _ => True) calls
  | [] => trivial
  | call :: calls => ⟨Call.updates_true call, Call.allUpdate_true calls⟩

end

end Haneul.Bridge.Evm
