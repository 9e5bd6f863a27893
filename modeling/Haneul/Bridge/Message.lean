import Haneul.Lib.Codec

/-!
# The messages of the bridge

Mirror of `bridge/sources/message.move`, `message_types.move` and `chain_ids.move`.  A message
has a type, a version, a sequence number, the id of its source chain and a payload of bytes.
It is built by one `create_*` function per kind, and the bridge reads it with the `extract_*`
function of that kind; the committee signs the bytes of `serialize_message` behind a prefix.

The readers of `haneul::bcs` and of this module are readers of `Lib.Codec`.  The second half
gives one round trip per payload: what `create_*` writes, `extract_*` reads back.
-/

namespace Haneul.Bridge

open Haneul.Codec List

/-- The aborts of the bridge package under the names of their codes, those of the framework
    that it calls, and those of the virtual machine. -/
inductive BridgeAbort where
  -- message.move
  | trailingBytes
  | invalidAddressLength
  | emptyList
  | invalidMessageType
  | invalidEmergencyOpType
  | invalidPayloadLength
  | invalidMessageVersion
  -- chain_ids.move
  | invalidRoute
  -- committee.move
  | signatureBelowThreshold
  | duplicatedSignature
  | invalidSignature
  | validatorBlocklistContainsUnknownKey
  | senderNotActiveValidator
  | invalidPubkeyLength
  | committeeAlreadyInitiated
  | duplicatePubkey
  | senderIsNotInBridgeCommittee
  -- limiter.move
  | limitNotFoundForRoute
  -- treasury.move
  | unsupportedTokenType
  | invalidUpgradeCap
  | tokenSupplyNonZero
  | invalidNotionalValue
  -- bridge.move
  | unexpectedMessageType
  | unauthorisedClaim
  | malformedMessageError
  | unexpectedTokenType
  | unexpectedChainID
  | notSystemAddress
  | unexpectedSeqNum
  | bridgeUnavailable
  | unexpectedOperation
  | haneulInitializedTokenTransferShouldNotBeClaimed
  | messageNotFoundInRecords
  | unexpectedMessageVersion
  | bridgeAlreadyPaused
  | bridgeNotPaused
  | tokenAlreadyClaimedOrHitLimit
  | invalidBridgeRoute
  | mustBeTokenMessage
  | invalidEvmAddress
  | tokenValueIsZero
  | invalidChainId
  -- the framework
  | bcsOutOfRange
  | bcsNotBool
  | bcsLenOutOfRange
  | bcsSerialization
  | notAscii
  | addressParse
  | keyAlreadyExists
  | keyDoesNotExist
  | fieldAlreadyExists
  | fieldDoesNotExist
  | supplyOverflow
  | failedToRecoverPubkey
  -- the virtual machine
  | arithmeticError
  | vectorError
deriving DecidableEq, Repr

def require (condition : Bool) (code : BridgeAbort) : Except BridgeAbort Unit :=
  if condition then .ok () else .error code

@[simp] theorem require_eq_ok {condition : Bool} {code : BridgeAbort} {u : Unit} :
    require condition code = .ok u ↔ condition = true := by
  cases condition <;> simp [require]

def u64Max : Nat := 2 ^ 64 - 1

def addU64 (a b : Nat) : Except BridgeAbort Nat :=
  if a + b ≤ u64Max then .ok (a + b) else .error .arithmeticError

def subU64 (a b : Nat) : Except BridgeAbort Nat :=
  if b ≤ a then .ok (a - b) else .error .arithmeticError

theorem addU64_eq_ok {a b c : Nat} : addU64 a b = .ok c ↔ a + b ≤ u64Max ∧ c = a + b := by
  unfold addU64
  split <;> simp_all [eq_comm]

def castU8 (n : Nat) : Except BridgeAbort UInt8 :=
  if n < 256 then .ok (UInt8.ofNat n) else .error .arithmeticError

/-! ### `chain_ids.move`, `message_types.move` -/

namespace ChainIds

def haneulMainnet : UInt8 := 0
def haneulTestnet : UInt8 := 1
def haneulCustom : UInt8 := 2
def ethMainnet : UInt8 := 10
def ethSepolia : UInt8 := 11
def ethCustom : UInt8 := 12

end ChainIds

open ChainIds

structure BridgeRoute where
  source : UInt8
  destination : UInt8
deriving DecidableEq, Repr

def isHaneulChain (id : UInt8) : Bool :=
  id == haneulMainnet || id == haneulTestnet || id == haneulCustom

def isValidChainId (id : UInt8) : Bool :=
  id == haneulMainnet || id == haneulTestnet || id == haneulCustom ||
    id == ethMainnet || id == ethSepolia || id == ethCustom

def assertValidChainId (id : UInt8) : Except BridgeAbort Unit :=
  require (isValidChainId id) .invalidRoute

def validRoutes : List BridgeRoute :=
  [⟨haneulMainnet, ethMainnet⟩, ⟨ethMainnet, haneulMainnet⟩,
   ⟨haneulTestnet, ethSepolia⟩, ⟨haneulTestnet, ethCustom⟩,
   ⟨haneulCustom, ethCustom⟩, ⟨haneulCustom, ethSepolia⟩,
   ⟨ethSepolia, haneulTestnet⟩, ⟨ethSepolia, haneulCustom⟩,
   ⟨ethCustom, haneulTestnet⟩, ⟨ethCustom, haneulCustom⟩]

def isValidRoute (source destination : UInt8) : Bool := validRoutes.contains ⟨source, destination⟩

def getRoute (source destination : UInt8) : Except BridgeAbort BridgeRoute := do
  require (validRoutes.contains ⟨source, destination⟩) .invalidRoute
  return ⟨source, destination⟩

/-- Every route joins a Haneul chain and an Ethereum chain. -/
theorem isHaneulChain_destination {source destination : UInt8}
    (h : isValidRoute source destination = true) :
    isHaneulChain destination = !isHaneulChain source := by
  have hall : ∀ route ∈ validRoutes,
      isHaneulChain route.destination = !isHaneulChain route.source := by decide
  exact hall _ (contains_iff_mem.mp h)

namespace MessageTypes

def token : UInt8 := 0
def committeeBlocklist : UInt8 := 1
def emergencyOp : UInt8 := 2
def updateBridgeLimit : UInt8 := 3
def updateAssetPrice : UInt8 := 4
def addTokensOnHaneul : UInt8 := 6
def updateChainId : UInt8 := 8

end MessageTypes

/-! ### The types of `message.move` -/

structure AsciiString where
  bytes : List UInt8
  ascii : ∀ b ∈ bytes, b < 128
deriving DecidableEq, Repr

def asciiString (bytes : List UInt8) : Except BridgeAbort AsciiString :=
  if h : ∀ b ∈ bytes, b < 128 then .ok ⟨bytes, h⟩ else .error .notAscii

/-- A byte string of a fixed length: an address of Haneul has 32 bytes, one of Ethereum 20. -/
structure Address (n : Nat) where
  bytes : List UInt8
  length_eq : bytes.length = n
deriving DecidableEq, Repr

abbrev HaneulAddress := Address 32

def addressFromBytes (bytes : List UInt8) : Except BridgeAbort HaneulAddress :=
  if h : bytes.length = 32 then .ok ⟨bytes, h⟩ else .error .addressParse

structure BridgeMessage where
  messageType : UInt8
  messageVersion : UInt8
  seqNum : UInt64
  sourceChain : UInt8
  payload : List UInt8
deriving DecidableEq, Repr

structure BridgeMessageKey where
  sourceChain : UInt8
  messageType : UInt8
  bridgeSeqNum : UInt64
deriving DecidableEq, Repr

structure TokenTransferPayload where
  senderAddress : List UInt8
  targetChain : UInt8
  targetAddress : List UInt8
  tokenType : UInt8
  amount : UInt64
deriving DecidableEq, Repr

/-- The second version carries the time of the deposit after the fields of the first. -/
structure TokenTransferPayloadV2 extends TokenTransferPayload where
  timestampMs : UInt64
deriving DecidableEq, Repr

structure EmergencyOp where
  opType : UInt8
deriving DecidableEq, Repr

structure Blocklist where
  blocklistType : UInt8
  validatorEthAddresses : List (List UInt8)
deriving DecidableEq, Repr

structure UpdateBridgeLimit where
  receivingChain : UInt8
  sendingChain : UInt8
  limit : UInt64
deriving DecidableEq, Repr

structure UpdateAssetPrice where
  tokenId : UInt8
  newPrice : UInt64
deriving DecidableEq, Repr

structure UpdateChainId where
  newChainId : UInt8
deriving DecidableEq, Repr

structure AddTokenOnHaneul where
  nativeToken : Bool
  tokenIds : List UInt8
  tokenTypeNames : List AsciiString
  tokenPrices : List UInt64
deriving DecidableEq, Repr

variable (message : BridgeMessage)

def BridgeMessage.key : BridgeMessageKey :=
  ⟨message.sourceChain, message.messageType, message.seqNum⟩

/-! ### Writing -/

def u64BeBytes (v : UInt64) : List UInt8 := beBytes 8 v.toNat
def u64LeBytes (v : UInt64) : List UInt8 := leBytes 8 v.toNat

/-- The longest sequence that BCS serializes. -/
def maxSequenceLength : Nat := 2 ^ 31 - 1

def bcsVec {α : Type} (encode : α → List UInt8) (xs : List α) : Except BridgeAbort (List UInt8) :=
  if xs.length ≤ maxSequenceLength then .ok (vecBytes encode xs) else .error .bcsSerialization

def boolByte (b : Bool) : UInt8 := if b then 1 else 0

/-- A string inside a vector: it has a length of its own to keep. -/
def bcsStrings (names : List AsciiString) : Except BridgeAbort (List UInt8) := do
  require (names.all fun name => name.bytes.length ≤ maxSequenceLength) .bcsSerialization
  bcsVec (fun name => vecBytes (fun b => [b]) name.bytes) names

def BridgeMessage.serializeMessage : List UInt8 :=
  [message.messageType, message.messageVersion] ++ u64BeBytes message.seqNum ++
    [message.sourceChain] ++ message.payload

/-- The part of the payload that both versions of a token transfer share. -/
def tokenTransferBytes (senderAddress : List UInt8) (targetChain : UInt8)
    (targetAddress : List UInt8) (tokenType : UInt8) (amount : UInt64) :
    Except BridgeAbort (List UInt8) := do
  let senderLength ← castU8 senderAddress.length
  let targetLength ← castU8 targetAddress.length
  return [senderLength] ++ senderAddress ++ [targetChain] ++ [targetLength] ++ targetAddress ++
    [tokenType] ++ u64BeBytes amount

variable (sourceChain : UInt8)

def createTokenBridgeMessage (seqNum : UInt64) (senderAddress : List UInt8)
    (targetChain : UInt8) (targetAddress : List UInt8) (tokenType : UInt8) (amount : UInt64) :
    Except BridgeAbort BridgeMessage := do
  assertValidChainId sourceChain
  assertValidChainId targetChain
  let payload ← tokenTransferBytes senderAddress targetChain targetAddress tokenType amount
  require (payload.length == 64) .invalidPayloadLength
  return ⟨MessageTypes.token, 1, seqNum, sourceChain, payload⟩

def createTokenBridgeMessageV2 (seqNum : UInt64)
    (senderAddress : List UInt8) (targetChain : UInt8) (targetAddress : List UInt8)
    (tokenType : UInt8) (amount timestamp : UInt64) : Except BridgeAbort BridgeMessage := do
  assertValidChainId sourceChain
  assertValidChainId targetChain
  let transfer ← tokenTransferBytes senderAddress targetChain targetAddress tokenType amount
  let payload := transfer ++ u64BeBytes timestamp
  require (payload.length == 72) .invalidPayloadLength
  return ⟨MessageTypes.token, 2, seqNum, sourceChain, payload⟩

def createEmergencyOpMessage (seqNum : UInt64) (opType : UInt8) :
    Except BridgeAbort BridgeMessage := do
  assertValidChainId sourceChain
  return ⟨MessageTypes.emergencyOp, 1, seqNum, sourceChain, [opType]⟩

def createBlocklistMessage (seqNum : UInt64) (blocklistType : UInt8)
    (validatorEcdsaAddresses : List (List UInt8)) : Except BridgeAbort BridgeMessage := do
  assertValidChainId sourceChain
  let addressLength ← castU8 validatorEcdsaAddresses.length
  require (validatorEcdsaAddresses.all fun address => address.length == 20) .invalidAddressLength
  return ⟨MessageTypes.committeeBlocklist, 1, seqNum, sourceChain,
    [blocklistType, addressLength] ++ validatorEcdsaAddresses.flatten⟩

def createUpdateBridgeLimitMessage (receivingChain : UInt8) (seqNum : UInt64)
    (sendingChain : UInt8) (newLimit : UInt64) : Except BridgeAbort BridgeMessage := do
  assertValidChainId receivingChain
  assertValidChainId sendingChain
  return ⟨MessageTypes.updateBridgeLimit, 1, seqNum, receivingChain,
    [sendingChain] ++ u64BeBytes newLimit⟩

def createUpdateAssetPriceMessage (tokenId sourceChain : UInt8) (seqNum newPrice : UInt64) :
    Except BridgeAbort BridgeMessage := do
  assertValidChainId sourceChain
  return ⟨MessageTypes.updateAssetPrice, 1, seqNum, sourceChain, [tokenId] ++ u64BeBytes newPrice⟩

def createUpdateChainIdMessage (seqNum : UInt64) (newChainId : UInt8) :
    Except BridgeAbort BridgeMessage := do
  assertValidChainId sourceChain
  assertValidChainId newChainId
  return ⟨MessageTypes.updateChainId, 1, seqNum, sourceChain, [newChainId]⟩

def createAddTokensOnHaneulMessage (seqNum : UInt64) (nativeToken : Bool)
    (tokenIds : List UInt8) (typeNames : List AsciiString) (tokenPrices : List UInt64) :
    Except BridgeAbort BridgeMessage := do
  assertValidChainId sourceChain
  let ids ← bcsVec (fun b => [b]) tokenIds
  let names ← bcsStrings typeNames
  let prices ← bcsVec u64LeBytes tokenPrices
  return ⟨MessageTypes.addTokensOnHaneul, 1, seqNum, sourceChain,
    [boolByte nativeToken] ++ ids ++ names ++ prices⟩

/-! ### Reading -/

def peelU8 : Peel BridgeAbort UInt8 := byte .bcsOutOfRange

def peelBool : Peel BridgeAbort Bool := do
  let value ← peelU8
  if value = 0 then pure false
  else if value = 1 then pure true
  else StateT.lift (.error .bcsNotBool)

/-- `peel_vec!`: a length that is cut short fails in `pop_back`. -/
def peelVecOf {α : Type} (peel : Peel BridgeAbort α) : Peel BridgeAbort (List α) :=
  peelVec .vectorError .bcsLenOutOfRange peel

def peelVecU8 : Peel BridgeAbort (List UInt8) := peelVecOf peelU8

def peelU64 : Peel BridgeAbort UInt64 := do
  let value ← peelLe .bcsOutOfRange 8 0 0
  pure (UInt64.ofNat value)

def peelU64Be : Peel BridgeAbort UInt64 := do
  let value ← peelBe .bcsOutOfRange 8 0
  pure (UInt64.ofNat value)

/-- Read a payload whose bytes are all used: `into_remainder_bytes().is_empty()`. -/
def readAll {α : Type} (peel : Peel BridgeAbort α) (bytes : List UInt8) : Except BridgeAbort α := do
  let result ← peel bytes
  require result.2.isEmpty .trailingBytes
  return result.1

def peelTokenTransfer : Peel BridgeAbort TokenTransferPayload := do
  let senderAddress ← peelVecU8
  let targetChain ← peelU8
  let targetAddress ← peelVecU8
  let tokenType ← peelU8
  let amount ← peelU64Be
  let _ ← StateT.lift (assertValidChainId targetChain)
  pure { senderAddress, targetChain, targetAddress, tokenType, amount }

def peelTokenTransferV2 : Peel BridgeAbort TokenTransferPayloadV2 := do
  let transfer ← peelTokenTransfer
  let timestampMs ← peelU64Be
  pure { transfer with timestampMs }

def extractTokenBridgePayload :
    Except BridgeAbort TokenTransferPayload := do
  require (message.messageVersion == 1) .invalidMessageVersion
  readAll peelTokenTransfer message.payload

def extractTokenBridgePayloadV2 :
    Except BridgeAbort TokenTransferPayloadV2 := do
  require (message.messageVersion == 2) .invalidMessageVersion
  readAll peelTokenTransferV2 message.payload

def extractEmergencyOpPayload : Except BridgeAbort EmergencyOp :=
  match message.payload with
  | [opType] => .ok ⟨opType⟩
  | _ => .error .trailingBytes

def peelBlocklist : Peel BridgeAbort Blocklist := do
  let blocklistType ← peelU8
  let addressCount ← peelU8
  let _ ← StateT.lift (require (addressCount != 0) .emptyList)
  let validatorEthAddresses ← times (times peelU8 20) addressCount.toNat
  pure { blocklistType, validatorEthAddresses }

def extractBlocklistPayload : Except BridgeAbort Blocklist := readAll peelBlocklist message.payload

def peelUpdateBridgeLimit (receivingChain : UInt8) : Peel BridgeAbort UpdateBridgeLimit := do
  let sendingChain ← peelU8
  let limit ← peelU64Be
  let _ ← StateT.lift (assertValidChainId sendingChain)
  pure { receivingChain, sendingChain, limit }

def extractUpdateBridgeLimit : Except BridgeAbort UpdateBridgeLimit :=
  readAll (peelUpdateBridgeLimit message.sourceChain) message.payload

def peelUpdateAssetPrice : Peel BridgeAbort UpdateAssetPrice := do
  let tokenId ← peelU8
  let newPrice ← peelU64Be
  pure { tokenId, newPrice }

def extractUpdateAssetPrice : Except BridgeAbort UpdateAssetPrice :=
  readAll peelUpdateAssetPrice message.payload

def peelUpdateChainId : Peel BridgeAbort UpdateChainId := do
  let newChainId ← peelU8
  pure { newChainId }

def extractUpdateChainId : Except BridgeAbort UpdateChainId :=
  readAll peelUpdateChainId message.payload

def peelAddTokensOnHaneul : Peel BridgeAbort AddTokenOnHaneul := do
  let nativeToken ← peelBool
  let tokenIds ← peelVecU8
  let tokenTypeNamesBytes ← peelVecOf peelVecU8
  let tokenPrices ← peelVecOf peelU64
  let tokenTypeNames ← StateT.lift (tokenTypeNamesBytes.mapM asciiString)
  pure { nativeToken, tokenIds, tokenTypeNames, tokenPrices }

def extractAddTokensOnHaneul : Except BridgeAbort AddTokenOnHaneul :=
  readAll peelAddTokensOnHaneul message.payload

def emergencyOpPause : UInt8 := 0
def emergencyOpUnpause : UInt8 := 1

/-- The voting power, in units of `1 / 10000`, that a message needs. -/
def requiredVotingPower : Except BridgeAbort Nat :=
  if message.messageType = MessageTypes.token then .ok 3334
  else if message.messageType = MessageTypes.emergencyOp then
    match extractEmergencyOpPayload message with
    | .error e => .error e
    | .ok payload =>
      if payload.opType = emergencyOpPause then .ok 450
      else if payload.opType = emergencyOpUnpause then .ok 5001
      else .error .invalidEmergencyOpType
  else if message.messageType = MessageTypes.committeeBlocklist then .ok 5001
  else if message.messageType = MessageTypes.updateAssetPrice then .ok 5001
  else if message.messageType = MessageTypes.updateBridgeLimit then .ok 5001
  else if message.messageType = MessageTypes.addTokensOnHaneul then .ok 5001
  else if message.messageType = MessageTypes.updateChainId then .ok 5001
  else .error .invalidMessageType

/-! ### What is written is read back -/

section RoundTrip

variable {bytes : List UInt8}

theorem castU8_eq_ok {n : Nat} {b : UInt8} : castU8 n = .ok b ↔ n < 256 ∧ b = UInt8.ofNat n := by
  unfold castU8
  split <;> simp_all [eq_comm]

theorem bcsVec_eq_ok {α : Type} {encode : α → List UInt8} {xs : List α} :
    bcsVec encode xs = .ok bytes ↔ xs.length ≤ maxSequenceLength ∧ bytes = vecBytes encode xs := by
  unfold bcsVec
  split <;> simp_all [eq_comm]

theorem readAll_of_reads {α : Type} {peel : Peel BridgeAbort α} {x : α}
    (h : Reads peel x bytes) : readAll peel bytes = .ok x := by
  unfold readAll
  rw [h.all]
  rfl

theorem reads_peelU8 (b : UInt8) : Reads peelU8 b [b] := reads_byte _ b

theorem flatMap_singleton_bytes (bytes : List UInt8) : bytes.flatMap (fun b => [b]) = bytes := by
  simp

theorem u64_mod (v : UInt64) : v.toNat % 256 ^ 8 = v.toNat := Nat.mod_eq_of_lt v.toNat_lt

theorem reads_peelU64Be (v : UInt64) : Reads peelU64Be v (u64BeBytes v) := by
  have hbytes := (reads_peelBe BridgeAbort.bcsOutOfRange 8 0 v.toNat).bind
    (f := fun value => pure (UInt64.ofNat value)) reads_pure
  have hvalue : 0 + v.toNat % 256 ^ 8 = v.toNat := by
    rw [Nat.zero_add, u64_mod]
  rw [hvalue, UInt64.ofNat_toNat, append_nil] at hbytes
  exact hbytes

theorem reads_peelU64 (v : UInt64) : Reads peelU64 v (u64LeBytes v) := by
  have hbytes := (reads_peelLe BridgeAbort.bcsOutOfRange 8 0 0 v.toNat).bind
    (f := fun value => pure (UInt64.ofNat value)) reads_pure
  have hvalue : 0 + v.toNat % 256 ^ 8 * 256 ^ 0 = v.toNat := by
    rw [Nat.zero_add, pow_zero, Nat.mul_one, u64_mod]
  rw [hvalue, UInt64.ofNat_toNat, append_nil] at hbytes
  exact hbytes

theorem reads_peelBool (b : Bool) : Reads peelBool b [boolByte b] := by
  cases b <;> exact fun _ => rfl

theorem reads_peelVecOf {α : Type} {peel : Peel BridgeAbort α} {encode : α → List UInt8}
    {xs : List α} (hlength : xs.length ≤ maxSequenceLength)
    (h : ∀ x ∈ xs, Reads peel x (encode x)) : Reads (peelVecOf peel) xs (vecBytes encode xs) :=
  reads_peelVec _ _ (lt_of_le_of_lt hlength (by decide)) h

theorem reads_peelVecU8 (hlength : bytes.length ≤ maxSequenceLength) :
    Reads peelVecU8 bytes (vecBytes (fun b => [b]) bytes) :=
  reads_peelVecOf hlength fun b _ => reads_peelU8 b

/-- The one-byte lengths of a token transfer are the lengths of BCS while they are short. -/
theorem reads_peelVecU8_short (hlength : bytes.length < 128) :
    Reads peelVecU8 bytes ([UInt8.ofNat bytes.length] ++ bytes) := by
  have h : Reads peelVecU8 bytes _ := reads_peelVecU8 (le_trans hlength.le (by decide))
  rwa [vecBytes, lengthBytes_of_lt hlength, flatMap_singleton_bytes] at h

theorem reads_require {condition : Bool} {code : BridgeAbort} (h : condition = true) :
    Reads (StateT.lift (require condition code) : Peel BridgeAbort Unit) () [] :=
  reads_lift (require_eq_ok.mpr h)

theorem reads_peelTokenTransfer {transfer : TokenTransferPayload}
    (hsender : transfer.senderAddress.length < 128) (htarget : transfer.targetAddress.length < 128)
    (hchain : isValidChainId transfer.targetChain = true)
    (hbytes : tokenTransferBytes transfer.senderAddress transfer.targetChain
      transfer.targetAddress transfer.tokenType transfer.amount = .ok bytes) :
    Reads peelTokenTransfer transfer bytes := by
  obtain ⟨senderLength, hsenderLength, targetLength, htargetLength, hbytes⟩ := bind₂_eq_ok.mp hbytes
  cases hbytes
  rw [(castU8_eq_ok.mp hsenderLength).2, (castU8_eq_ok.mp htargetLength).2]
  have hread : Reads peelTokenTransfer transfer _ :=
    (reads_peelVecU8_short hsender).bind <| (reads_peelU8 transfer.targetChain).bind <|
      (reads_peelVecU8_short htarget).bind <| (reads_peelU8 transfer.tokenType).bind <|
        (reads_peelU64Be transfer.amount).bind <| (reads_require hchain).bind reads_pure
  simpa only [append_assoc, append_nil, nil_append] using hread

theorem reads_peelTokenTransferV2 (transfer : TokenTransferPayloadV2)
    (h : Reads peelTokenTransfer transfer.toTokenTransferPayload bytes) :
    Reads peelTokenTransferV2 transfer (bytes ++ u64BeBytes transfer.timestampMs) := by
  have hread : Reads peelTokenTransferV2 transfer _ :=
    h.bind <| (reads_peelU64Be transfer.timestampMs).bind reads_pure
  simpa only [append_nil] using hread

theorem reads_times_peelU8
    (bytes : List UInt8) : Reads (times peelU8 bytes.length) bytes bytes := by
  have h : Reads (times peelU8 bytes.length) bytes _ := reads_times fun b _ => reads_peelU8 b
  rwa [flatMap_singleton_bytes] at h

theorem reads_peelBlocklist (blocklist : Blocklist) (hsome : blocklist.validatorEthAddresses ≠ [])
    (hfew : blocklist.validatorEthAddresses.length < 256)
    (hlength : ∀ address ∈ blocklist.validatorEthAddresses, address.length = 20) :
    Reads peelBlocklist blocklist
      ([blocklist.blocklistType, UInt8.ofNat blocklist.validatorEthAddresses.length] ++
        blocklist.validatorEthAddresses.flatten) := by
  have hcount : (UInt8.ofNat blocklist.validatorEthAddresses.length).toNat =
      blocklist.validatorEthAddresses.length := UInt8.toNat_ofNat_of_lt' hfew
  have hpos : (UInt8.ofNat blocklist.validatorEthAddresses.length != 0) = true := by
    rw [bne_iff_ne]
    intro hzero
    rw [hzero] at hcount
    exact hsome (length_eq_zero_iff.mp hcount.symm)
  have haddresses : Reads
      (times (times peelU8 20) (UInt8.ofNat blocklist.validatorEthAddresses.length).toNat)
      blocklist.validatorEthAddresses (blocklist.validatorEthAddresses.flatMap id) := by
    rw [hcount]
    refine reads_times fun address haddress => ?_
    rw [← hlength address haddress]
    exact reads_times_peelU8 address
  have hread : Reads peelBlocklist blocklist _ :=
    (reads_peelU8 blocklist.blocklistType).bind <| (reads_peelU8 _).bind <|
      (reads_require hpos).bind <| haddresses.bind reads_pure
  simpa only [append_nil, nil_append, flatMap_id, cons_append] using hread

theorem reads_peelUpdateBridgeLimit (update : UpdateBridgeLimit)
    (hchain : isValidChainId update.sendingChain = true) :
    Reads (peelUpdateBridgeLimit update.receivingChain) update
      ([update.sendingChain] ++ u64BeBytes update.limit) := by
  have hread : Reads (peelUpdateBridgeLimit update.receivingChain) update _ :=
    (reads_peelU8 update.sendingChain).bind <| (reads_peelU64Be update.limit).bind <|
      (reads_require hchain).bind reads_pure
  simpa only [append_nil] using hread

theorem reads_peelUpdateAssetPrice (update : UpdateAssetPrice) :
    Reads peelUpdateAssetPrice update ([update.tokenId] ++ u64BeBytes update.newPrice) := by
  have hread : Reads peelUpdateAssetPrice update _ :=
    (reads_peelU8 update.tokenId).bind <| (reads_peelU64Be update.newPrice).bind reads_pure
  simpa only [append_nil] using hread

theorem mapM_asciiString (names : List AsciiString) :
    (names.map AsciiString.bytes).mapM asciiString = .ok names := by
  induction names with
  | nil => rfl
  | cons name names ih =>
    have hhead : asciiString name.bytes = .ok name := dif_pos name.ascii
    rw [map_cons, mapM_cons, hhead, ih]
    rfl

theorem bcsStrings_eq_ok {names : List AsciiString} :
    bcsStrings names = .ok bytes ↔ (∀ name ∈ names, name.bytes.length ≤ maxSequenceLength) ∧
      names.length ≤ maxSequenceLength ∧
      bytes = vecBytes (vecBytes fun b => [b]) (names.map AsciiString.bytes) := by
  have hbytes : vecBytes (fun name : AsciiString => vecBytes (fun b => [b]) name.bytes) names =
      vecBytes (vecBytes fun b => [b]) (names.map AsciiString.bytes) := by
    rw [vecBytes, vecBytes, length_map, flatMap_map]
  unfold bcsStrings
  simp only [bind_eq_ok, require_eq_ok, bcsVec_eq_ok, all_eq_true, decide_eq_true_eq,
    exists_and_left, exists_const, hbytes]

theorem reads_peelAddTokensOnHaneul (tokens : AddTokenOnHaneul) {ids names prices : List UInt8}
    (hids : bcsVec (fun b => [b]) tokens.tokenIds = .ok ids)
    (hnames : bcsStrings tokens.tokenTypeNames = .ok names)
    (hprices : bcsVec u64LeBytes tokens.tokenPrices = .ok prices) :
    Reads peelAddTokensOnHaneul tokens
      ([boolByte tokens.nativeToken] ++ ids ++ names ++ prices) := by
  obtain ⟨hidsLength, rfl⟩ := bcsVec_eq_ok.mp hids
  obtain ⟨hnameLengths, hnamesLength, rfl⟩ := bcsStrings_eq_ok.mp hnames
  obtain ⟨hpricesLength, rfl⟩ := bcsVec_eq_ok.mp hprices
  have hnamesRead : Reads (peelVecOf peelVecU8) (tokens.tokenTypeNames.map AsciiString.bytes)
      (vecBytes (vecBytes fun b => [b]) (tokens.tokenTypeNames.map AsciiString.bytes)) := by
    refine reads_peelVecOf (by rwa [length_map]) fun bytes hbytes => ?_
    obtain ⟨name, hname, rfl⟩ := mem_map.mp hbytes
    exact reads_peelVecU8 (hnameLengths name hname)
  have hread : Reads peelAddTokensOnHaneul tokens _ :=
    (reads_peelBool tokens.nativeToken).bind <| (reads_peelVecU8 hidsLength).bind <|
      hnamesRead.bind <| (reads_peelVecOf hpricesLength fun v _ => reads_peelU64 v).bind <|
        (reads_lift (mapM_asciiString tokens.tokenTypeNames)).bind reads_pure
  simpa only [append_assoc, append_nil, nil_append] using hread

end RoundTrip

/-! ### The signed bytes determine the message -/

theorem u64BeBytes_injective {v w : UInt64} (h : u64BeBytes v = u64BeBytes w) : v = w :=
  (reads_peelU64Be v).unique (h ▸ reads_peelU64Be w)

theorem serializeMessage_injective {m m' : BridgeMessage}
    (h : m.serializeMessage = m'.serializeMessage) : m = m' := by
  obtain ⟨messageType, messageVersion, seqNum, sourceChain, payload⟩ := m
  obtain ⟨messageType', messageVersion', seqNum', sourceChain', payload'⟩ := m'
  simp only [BridgeMessage.serializeMessage, cons_append, nil_append,
    append_assoc, List.cons.injEq] at h
  obtain ⟨rfl, rfl, h⟩ := h
  obtain ⟨hseq, h⟩ := append_inj h (by simp [u64BeBytes])
  obtain ⟨rfl, rfl⟩ := List.cons.inj h
  rw [u64BeBytes_injective hseq]

end Haneul.Bridge
