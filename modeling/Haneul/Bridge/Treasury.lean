import Haneul.Bridge.Message

/-!
# Treasury and limiter

Mirror of `bridge/sources/treasury.move` and `limiter.move`.  The treasury holds the treasury
cap of every coin that was registered; a coin is bridged once a system message has given it a
token id.  The limiter keeps, for each route, what arrived in each of the last hours.

A treasury cap is its supply.  Bags and maps of which no order is used are functions.
-/

namespace Haneul.Bridge

open Function (update update_self update_of_ne)

abbrev TypeName := AsciiString

structure BridgeTokenMetadata where
  id : UInt8
  decimalMultiplier : Nat
  notionalValue : Nat
  nativeToken : Bool
deriving DecidableEq, Repr

structure ForeignTokenRegistration where
  decimal : Nat
deriving DecidableEq, Repr

structure BridgeTreasury where
  treasuries : TypeName → Option Nat
  supportedTokens : TypeName → Option BridgeTokenMetadata
  idTokenTypeMap : UInt8 → Option TypeName
  waitingRoom : TypeName → Option ForeignTokenRegistration

namespace BridgeTreasury

def create : BridgeTreasury := ⟨fun _ => none, fun _ => none, fun _ => none, fun _ => none⟩

variable (self : BridgeTreasury)

def getTokenMetadata (coinType : TypeName) :
    Except BridgeAbort BridgeTokenMetadata :=
  match self.supportedTokens coinType with
  | none => .error .unsupportedTokenType
  | some metadata => .ok metadata

def tokenId (coinType : TypeName) : Except BridgeAbort UInt8 := do
  let metadata ← self.getTokenMetadata coinType
  return metadata.id

/-- `registerForeignToken` with what it reads off its arguments: the supply of the treasury cap,
    whether the upgrade cap is that of the coin's package, and the decimals. -/
def registerForeignToken (coinType : TypeName) (totalSupply : Nat)
    (isUpgradeCapOfCoin : Bool) (decimal : Nat) : Except BridgeAbort BridgeTreasury := do
  require (totalSupply == 0) .tokenSupplyNonZero
  require isUpgradeCapOfCoin .invalidUpgradeCap
  require (self.waitingRoom coinType).isNone .fieldAlreadyExists
  require (self.treasuries coinType).isNone .fieldAlreadyExists
  return { self with
    waitingRoom := Function.update self.waitingRoom coinType (some ⟨decimal⟩)
    treasuries := Function.update self.treasuries coinType (some totalSupply) }

/-- `10u64.pow`: the repeated squaring goes over `u64` only if the power does. -/
def powTen (exponent : Nat) : Except BridgeAbort Nat :=
  if 10 ^ exponent ≤ u64Max then .ok (10 ^ exponent) else .error .arithmeticError

def addForeignToken (tokenName : TypeName) (tokenId : UInt8)
    (notionalValue : Nat) : Except BridgeAbort BridgeTreasury := do
  require (0 < notionalValue) .invalidNotionalValue
  match self.waitingRoom tokenName with
  | none => .error .fieldDoesNotExist
  | some registration => do
    let decimalMultiplier ← powTen registration.decimal
    require (self.supportedTokens tokenName).isNone .keyAlreadyExists
    require (self.idTokenTypeMap tokenId).isNone .keyAlreadyExists
    return { self with
      waitingRoom := Function.update self.waitingRoom tokenName none
      supportedTokens := Function.update self.supportedTokens tokenName
        (some ⟨tokenId, decimalMultiplier, notionalValue, false⟩)
      idTokenTypeMap := Function.update self.idTokenTypeMap tokenId (some tokenName) }

/-- Native tokens are not implemented. -/
def addNewToken (tokenName : TypeName) (tokenId : UInt8)
    (nativeToken : Bool) (notionalValue : Nat) : Except BridgeAbort BridgeTreasury :=
  if nativeToken then .ok self else self.addForeignToken tokenName tokenId notionalValue

def burn (coinType : TypeName) (value : Nat) :
    Except BridgeAbort BridgeTreasury :=
  match self.treasuries coinType with
  | none => .error .fieldDoesNotExist
  | some supply =>
    if value ≤ supply then
      .ok { self with treasuries := Function.update self.treasuries coinType (some (supply - value)) }
    else .error .supplyOverflow

def mint (coinType : TypeName) (amount : Nat) :
    Except BridgeAbort BridgeTreasury :=
  match self.treasuries coinType with
  | none => .error .fieldDoesNotExist
  | some supply =>
    if amount ≤ u64Max - supply then
      .ok { self with treasuries := Function.update self.treasuries coinType (some (supply + amount)) }
    else .error .supplyOverflow

def updateAssetNotionalPrice (tokenId : UInt8) (newUsdPrice : Nat) :
    Except BridgeAbort BridgeTreasury :=
  match self.idTokenTypeMap tokenId with
  | none => .error .unsupportedTokenType
  | some typeName => do
    require (0 < newUsdPrice) .invalidNotionalValue
    match self.supportedTokens typeName with
    | none => .error .keyDoesNotExist
    | some metadata =>
      .ok { self with
        supportedTokens := Function.update self.supportedTokens typeName
          (some { metadata with notionalValue := newUsdPrice }) }

/-! ### What each operation does -/

section Specs

variable {self self' : BridgeTreasury} {coinType : TypeName} {value : Nat}

theorem tokenId_ok {id : UInt8} :
    self.tokenId coinType = .ok id ↔
      ∃ metadata, self.supportedTokens coinType = some metadata ∧ metadata.id = id := by
  unfold tokenId getTokenMetadata
  cases self.supportedTokens coinType with
  | none => exact ⟨nofun, nofun⟩
  | some metadata =>
    constructor
    · intro h
      cases h
      exact ⟨metadata, rfl, rfl⟩
    · rintro ⟨_, hmetadata, rfl⟩
      cases hmetadata
      rfl

theorem burn_ok (h : self.burn coinType value = .ok self') :
    ∃ supply, self.treasuries coinType = some supply ∧ value ≤ supply ∧
      self' = { self with
        treasuries := update self.treasuries coinType (some (supply - value)) } := by
  unfold burn at h
  split at h
  · cases h
  case h_2 supply hsupply =>
      split at h
      · cases h
        exact ⟨supply, hsupply, ‹_›, rfl⟩
      · cases h

theorem mint_ok (h : self.mint coinType value = .ok self') :
    ∃ supply, self.treasuries coinType = some supply ∧ value ≤ u64Max - supply ∧
      self' = { self with
        treasuries := update self.treasuries coinType (some (supply + value)) } := by
  unfold mint at h
  split at h
  · cases h
  case h_2 supply hsupply =>
      split at h
      · cases h
        exact ⟨supply, hsupply, ‹_›, rfl⟩
      · cases h

theorem mint_of_le {supply : Nat} (hsupply : self.treasuries coinType = some supply)
    (h : value ≤ u64Max - supply) : self.mint coinType value = .ok { self with
      treasuries := update self.treasuries coinType (some (supply + value)) } := by
  unfold mint
  rw [hsupply]
  exact if_pos h

theorem registerForeignToken_ok {totalSupply decimal : Nat} {isUpgradeCapOfCoin : Bool}
    (h : self.registerForeignToken coinType totalSupply isUpgradeCapOfCoin decimal = .ok self') :
    self.waitingRoom coinType = none ∧ self.treasuries coinType = none ∧
      self' = { self with
        waitingRoom := update self.waitingRoom coinType (some ⟨decimal⟩)
        treasuries := update self.treasuries coinType (some 0) } := by
  obtain ⟨_, hsupply, _, -, _, hwaiting, _, htreasury, h⟩ := bind₄_eq_ok.mp h
  cases h
  have hzero : totalSupply = 0 := by simpa using hsupply
  exact ⟨by simpa using hwaiting, by simpa using htreasury, by rw [hzero]⟩

theorem addForeignToken_ok {tokenName : TypeName} {tokenId : UInt8} {notionalValue : Nat}
    (h : self.addForeignToken tokenName tokenId notionalValue = .ok self') :
    ∃ registration metadata, self.waitingRoom tokenName = some registration ∧
      metadata.id = tokenId ∧ self.supportedTokens tokenName = none ∧
      self.idTokenTypeMap tokenId = none ∧
      self' = { self with
        waitingRoom := update self.waitingRoom tokenName none
        supportedTokens := update self.supportedTokens tokenName (some metadata)
        idTokenTypeMap := update self.idTokenTypeMap tokenId (some tokenName) } := by
  obtain ⟨_, -, h⟩ := bind_eq_ok.mp h
  split at h
  · cases h
  case h_2 registration hregistration =>
      obtain ⟨multiplier, -, _, hsupported, _, hid, h⟩ := bind₃_eq_ok.mp h
      cases h
      exact ⟨registration, _, hregistration, rfl, by simpa using hsupported, by simpa using hid, rfl⟩

theorem updateAssetNotionalPrice_ok {tokenId : UInt8} {newUsdPrice : Nat}
    (h : self.updateAssetNotionalPrice tokenId newUsdPrice = .ok self') :
    ∃ typeName metadata, self.supportedTokens typeName = some metadata ∧
      self' = { self with
        supportedTokens := update self.supportedTokens typeName
          (some { metadata with notionalValue := newUsdPrice }) } := by
  unfold updateAssetNotionalPrice at h
  split at h
  · cases h
  case h_2 typeName _ =>
      obtain ⟨_, -, h⟩ := bind_eq_ok.mp h
      split at h
      · cases h
      case h_2 metadata hmetadata =>
          cases h
          exact ⟨typeName, metadata, hmetadata, rfl⟩

end Specs

end BridgeTreasury

/-! ### `limiter.move` -/

structure TransferRecord where
  hourHead : Nat
  hourTail : Nat
  perHourAmounts : List Nat
  totalAmount : Nat
deriving DecidableEq, Repr

structure TransferLimiter where
  transferLimits : BridgeRoute → Option Nat
  transferRecords : BridgeRoute → Option TransferRecord

namespace TransferLimiter

open ChainIds

def maxTransferLimit : Nat := 18446744073709551615

def usdValueMultiplier : Nat := 100000000

def initialTransferLimits (route : BridgeRoute) : Option Nat :=
  if route = ⟨ethMainnet, haneulMainnet⟩ then some (5000000 * usdValueMultiplier)
  else if route = ⟨ethSepolia, haneulTestnet⟩ then some maxTransferLimit
  else if route = ⟨ethSepolia, haneulCustom⟩ then some maxTransferLimit
  else if route = ⟨ethCustom, haneulTestnet⟩ then some maxTransferLimit
  else if route = ⟨ethCustom, haneulCustom⟩ then some maxTransferLimit
  else none

def new : TransferLimiter := ⟨initialTransferLimits, fun _ => none⟩

/-- The loop that removes stale hours, `turns` times. -/
def evictHours : (turns : Nat) → TransferRecord → Except BridgeAbort TransferRecord
  | 0, record => .ok record
  | turns + 1, record =>
    match record.perHourAmounts with
    | [] => .error .vectorError
    | amount :: rest => do
      let totalAmount ← subU64 record.totalAmount amount
      evictHours turns { record with
        totalAmount, perHourAmounts := rest, hourTail := record.hourTail + 1 }

variable (record : TransferRecord)

/-- The loop that appends hours without transfers up to the current one. -/
def backfill (currentHour : Nat) : TransferRecord :=
  { record with
    perHourAmounts := record.perHourAmounts ++ List.replicate (currentHour - record.hourHead) 0
    hourHead := max record.hourHead currentHour }

def adjustTransferRecords (currentHour : Nat) :
    Except BridgeAbort TransferRecord :=
  if record.hourHead = currentHour then .ok record
  else do
    let targetTail ← subU64 currentHour 23
    if record.hourHead < targetTail then
      return backfill ⟨targetTail, targetTail, [0], 0⟩ currentHour
    else do
      let evicted ← evictHours (targetTail - record.hourTail) record
      return backfill evicted currentHour

def recordTransfer (notionalAmount : Nat) :
    Except BridgeAbort TransferRecord :=
  match record.perHourAmounts.getLast? with
  | none => .error .vectorError
  | some last => do
    let newAmount ← addU64 last notionalAmount
    let totalAmount ← addU64 record.totalAmount notionalAmount
    return { record with
      perHourAmounts := record.perHourAmounts.dropLast ++ [newAmount], totalAmount }

def addU128 (a b : Nat) : Except BridgeAbort Nat :=
  if a + b < 2 ^ 128 then .ok (a + b) else .error .arithmeticError

/-- The comparison is made in `u128`, where the sum of the two products can overflow.  A
    transfer within the limit is at most the limit in dollars, so the cast back is safe. -/
def checkAndRecordSendingTransfer (self : TransferLimiter) (treasury : BridgeTreasury)
    (coinType : TypeName) (clockMs : Nat) (route : BridgeRoute) (amount : Nat) :
    Except BridgeAbort (TransferLimiter × Bool) := do
  let record ← adjustTransferRecords
    ((self.transferRecords route).getD ⟨0, 0, [], 0⟩) (clockMs / 3600000)
  match self.transferLimits route with
  | none => .error .limitNotFoundForRoute
  | some routeLimit => do
    let metadata ← treasury.getTokenMetadata coinType
    let notional := metadata.notionalValue * amount
    let scaledTotal ← addU128 (record.totalAmount * metadata.decimalMultiplier) notional
    if routeLimit * metadata.decimalMultiplier < scaledTotal then
      return ({ self with
        transferRecords := Function.update self.transferRecords route (some record) }, false)
    else do
      let recorded ← recordTransfer record (notional / metadata.decimalMultiplier)
      return ({ self with
        transferRecords := Function.update self.transferRecords route (some recorded) }, true)

def updateRouteLimit (self : TransferLimiter) (route : BridgeRoute) (newUsdLimit : Nat) :
    TransferLimiter :=
  { self with transferLimits := Function.update self.transferLimits route (some newUsdLimit) }

end TransferLimiter

end Haneul.Bridge
