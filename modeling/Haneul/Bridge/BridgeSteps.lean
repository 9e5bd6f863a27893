import Haneul.Bridge.Bridge
import Haneul.Bridge.Encoding

/-!
# What a call of the bridge can do

One statement for all calls: `BridgeStep` lists what a call that returns has checked and what it
has changed, as far as coins, records, sequence numbers and chain id go.  Everything that is
shown about runs of the bridge is derived from it.
-/

namespace Haneul.Bridge

open Function (update update_self update_of_ne)

variable {crypto : Crypto} {inner inner' : BridgeInner} {message : BridgeMessage}

/-! ### Sequence numbers -/

def BridgeInner.nextSeqNum (inner : BridgeInner) (msgType : UInt8) : Nat :=
  match inner.sequenceNums msgType with
  | none => 0
  | some seqNum => seqNum.toNat

/-- The counter of one type is taken and goes up by one. -/
structure TakesSeqNum (inner inner' : BridgeInner) (msgType : UInt8) (seqNum : UInt64) : Prop where
  taken : inner.nextSeqNum msgType = seqNum.toNat
  next : inner'.nextSeqNum msgType = seqNum.toNat + 1
  others : ∀ other, other ≠ msgType → inner'.nextSeqNum other = inner.nextSeqNum other

theorem TakesSeqNum.of_eq {msgType : UInt8} {seqNum : UInt64} {inner₁ : BridgeInner}
    (h : TakesSeqNum inner inner₁ msgType seqNum)
    (hsame : inner'.sequenceNums = inner₁.sequenceNums) :
    TakesSeqNum inner inner' msgType seqNum := by
  have hnext : ∀ t, inner'.nextSeqNum t = inner₁.nextSeqNum t := by
    intro t
    rw [BridgeInner.nextSeqNum, hsame]
    rfl
  exact ⟨h.taken, (hnext _).trans h.next, fun other hother => (hnext _).trans (h.others other hother)⟩

theorem getCurrentSeqNumAndIncrement_ok {msgType : UInt8} {seqNum : UInt64}
    (h : inner.getCurrentSeqNumAndIncrement msgType = .ok (inner', seqNum)) :
    TakesSeqNum inner inner' msgType seqNum ∧
      inner' = { inner with sequenceNums := inner'.sequenceNums } := by
  unfold BridgeInner.getCurrentSeqNumAndIncrement at h
  split at h
  case h_1 hnone =>
      cases h
      refine ⟨⟨?_, ?_, ?_⟩, rfl⟩
      · simp only [BridgeInner.nextSeqNum, hnone]
        rfl
      · simp only [BridgeInner.nextSeqNum, update_self]
        rfl
      · intro other hother
        simp only [BridgeInner.nextSeqNum, update_of_ne hother]
  case h_2 current hsome =>
      split at h
      case isFalse => cases h
      case isTrue hfits =>
          cases h
          have hsucc : (seqNum + 1).toNat = seqNum.toNat + 1 := by
            rw [UInt64.toNat_add]
            exact Nat.mod_eq_of_lt (by unfold u64Max at hfits; exact Nat.lt_of_le_sub_one (by norm_num) hfits)
          refine ⟨⟨?_, ?_, ?_⟩, rfl⟩
          · simp only [BridgeInner.nextSeqNum, hsome]
          · simp only [BridgeInner.nextSeqNum, update_self, hsucc]
          · intro other hother
            simp only [BridgeInner.nextSeqNum, update_of_ne hother]

/-! ### Sending -/

section Send

variable {sourceChain targetChain tokenType : UInt8} {seqNum amount timestamp : UInt64}
  {sender target : List UInt8} {message : BridgeMessage} {targetAddress : List UInt8}

theorem createTokenBridgeMessage_ok (hlength : sender.length + target.length = 52)
    (h : createTokenBridgeMessage sourceChain seqNum sender targetChain target tokenType amount =
      .ok message) :
    message.key = ⟨sourceChain, MessageTypes.token, seqNum⟩ ∧ message.messageVersion ≤ 2 ∧
      tokenPayload message = .ok ⟨sender, targetChain, target, tokenType, amount⟩ := by
  have hcreated := h
  obtain ⟨_, hsource, _, htarget, h⟩ := bind₂_eq_ok.mp h
  have hvalid : isValidChainId targetChain = true := require_eq_ok.mp htarget
  rw [createTokenBridgeMessage_eq ⟨sender, targetChain, target, tokenType, amount⟩
    hlength (require_eq_ok.mp hsource) hvalid] at hcreated
  cases hcreated
  refine ⟨rfl, (by decide : (1 : UInt8) ≤ 2), ?_⟩
  have hread := readAll_of_reads (reads_transferBytes
    ⟨sender, targetChain, target, tokenType, amount⟩ hlength hvalid)
  unfold tokenPayload extractTokenBridgePayload
  dsimp only
  rw [hread]
  rfl

theorem createTokenBridgeMessageV2_ok (hlength : sender.length + target.length = 52)
    (h : createTokenBridgeMessageV2 sourceChain seqNum sender targetChain target tokenType amount
      timestamp = .ok message) :
    message.key = ⟨sourceChain, MessageTypes.token, seqNum⟩ ∧ message.messageVersion ≤ 2 ∧
      tokenPayload message = .ok ⟨sender, targetChain, target, tokenType, amount⟩ := by
  have hcreated := h
  obtain ⟨_, hsource, _, htarget, h⟩ := bind₂_eq_ok.mp h
  have hvalid : isValidChainId targetChain = true := require_eq_ok.mp htarget
  rw [createTokenBridgeMessageV2_eq ⟨sender, targetChain, target, tokenType, amount⟩
    hlength (require_eq_ok.mp hsource) hvalid] at hcreated
  cases hcreated
  refine ⟨rfl, (by decide : (2 : UInt8) ≤ 2), ?_⟩
  have hread := readAll_of_reads (reads_peelTokenTransferV2
    ⟨⟨sender, targetChain, target, tokenType, amount⟩, timestamp⟩
    (reads_transferBytes _ hlength hvalid))
  unfold tokenPayload extractTokenBridgePayloadV2
  dsimp only at hread ⊢
  rw [hread]
  rfl

/-- What is true of a message that a transfer to Ethereum puts on record. -/
structure SentMessage (chainId : UInt8) (message : BridgeMessage) (value : Nat) : Prop where
  sourceChain : message.sourceChain = chainId
  messageType : message.messageType = MessageTypes.token
  version : message.messageVersion ≤ 2
  payload : ∃ payload, tokenPayload message = .ok payload ∧
    isValidRoute chainId payload.targetChain = true ∧ payload.amount.toNat = value

/-- A transfer to Ethereum: its coins are burned, its record is new. -/
structure Sends (inner inner' : BridgeInner) (message : BridgeMessage) (coin : Coin) : Prop where
  sent : SentMessage inner.chainId message coin.value
  seqNum : TakesSeqNum inner inner' MessageTypes.token message.seqNum
  fresh : inner.tokenTransferRecords message.key = none
  records : inner'.tokenTransferRecords =
    Function.update inner.tokenTransferRecords message.key (some ⟨message, none, false⟩)
  chainId : inner'.chainId = inner.chainId
  burned : inner.treasury.burn coin.coinType coin.value = .ok inner'.treasury
  pos : 0 < coin.value

theorem checkSend_ok {token : Coin} {tokenId : UInt8}
    (h : inner.checkSend targetAddress token = .ok tokenId) :
    targetAddress.length = 20 ∧ 0 < token.value := by
  obtain ⟨_, -, _, hlength, _, hvalue, -⟩ := bind₃_eq_ok.mp h
  exact ⟨by simpa using hlength, by simpa using hvalue⟩

theorem sendTokenInternal_ok {token : Coin}
    (h : inner.sendTokenInternal targetChain token message = .ok inner') :
    isValidRoute inner.chainId targetChain = true ∧
      inner.tokenTransferRecords message.key = none ∧
      ∃ treasury, inner.treasury.burn token.coinType token.value = .ok treasury ∧
        inner' = { inner with
          treasury
          tokenTransferRecords := update inner.tokenTransferRecords message.key
            (some ⟨message, none, false⟩) } := by
  obtain ⟨_, -, _, hroute, treasury, hburn, _, hfresh, h⟩ := bind₄_eq_ok.mp h
  cases h
  exact ⟨require_eq_ok.mp hroute, by simpa using hfresh, treasury, hburn, rfl⟩

variable {account : HaneulAddress}

theorem sends_of_message {inner₁ : BridgeInner} {coin : Coin} {tokenId : UInt8}
    (hseq : inner.getCurrentSeqNumAndIncrement MessageTypes.token = .ok (inner₁, seqNum))
    (hcheck : inner₁.checkSend targetAddress coin = .ok tokenId)
    (hcreated : account.bytes.length + targetAddress.length = 52 →
      message.key = ⟨inner₁.chainId, MessageTypes.token, seqNum⟩ ∧ message.messageVersion ≤ 2 ∧
        tokenPayload message = .ok ⟨account.bytes, targetChain, target, tokenId, amount⟩)
    (hamount : amount.toNat = coin.value)
    (h : inner₁.sendTokenInternal targetChain coin message = .ok inner') :
    Sends inner inner' message coin := by
  obtain ⟨hlength, hpos⟩ := checkSend_ok hcheck
  obtain ⟨hkey, hversion, hpayload⟩ := hcreated (by rw [account.length_eq, hlength])
  obtain ⟨htakes, hinner₁⟩ := getCurrentSeqNumAndIncrement_ok hseq
  obtain ⟨hroute, hfresh, treasury, hburn, rfl⟩ := sendTokenInternal_ok h
  rw [hinner₁] at hkey hroute hfresh hburn
  obtain ⟨hsource, htype, hnum⟩ := BridgeMessageKey.mk.inj hkey
  exact
    { sent := ⟨hsource, htype, hversion, _, hpayload, hroute, hamount⟩
      seqNum := by rw [hnum]; exact htakes.of_eq rfl
      fresh := hfresh
      records := by rw [hinner₁]
      chainId := by rw [hinner₁]
      burned := hburn
      pos := hpos }

theorem sendToken_ok {coinType : TypeName} {value : UInt64}
    (h : inner.sendToken targetChain targetAddress ⟨coinType, value.toNat⟩ account =
      .ok (inner', message)) : Sends inner inner' message ⟨coinType, value.toNat⟩ := by
  obtain ⟨⟨inner₁, seqNum⟩, hseq, tokenId, hcheck, created, hcreate, inner₂, hsend, h⟩ :=
    bind₄_eq_ok.mp h
  cases h
  exact sends_of_message hseq hcheck (createTokenBridgeMessage_ok · hcreate)
    (by rw [UInt64.ofNat_toNat]) hsend

theorem sendTokenV2_ok {coinType : TypeName} {value clockMs : UInt64}
    (h : inner.sendTokenV2 targetChain targetAddress ⟨coinType, value.toNat⟩ clockMs account =
      .ok (inner', message)) : Sends inner inner' message ⟨coinType, value.toNat⟩ := by
  obtain ⟨⟨inner₁, seqNum⟩, hseq, tokenId, hcheck, created, hcreate, inner₂, hsend, h⟩ :=
    bind₄_eq_ok.mp h
  cases h
  exact sends_of_message hseq hcheck (createTokenBridgeMessageV2_ok · hcreate)
    (by rw [UInt64.ofNat_toNat]) hsend

end Send

/-! ### Approving -/

/-- An approval that is new: the record was pending, or there was none and the message comes
    from another chain. -/
structure Approves (crypto : Crypto) (inner inner' : BridgeInner) (message : BridgeMessage)
    (signatures : List (List UInt8)) : Prop where
  signed : inner.committee.SignedBy crypto message signatures 3334
  messageType : message.messageType = MessageTypes.token
  payload : ∃ payload, tokenPayload message = .ok payload
  before : inner.tokenTransferRecords message.key = some ⟨message, none, false⟩ ∨
    inner.tokenTransferRecords message.key = none
  after : inner' = inner.setRecord message.key ⟨message, some signatures, false⟩

theorem approveOutgoing_ok {signatures : List (List UInt8)} {isNew : Bool}
    (h : inner.approveOutgoing message signatures = .ok (inner', isNew)) :
    (isNew = false ∧ inner' = inner) ∨
      (isNew = true ∧ inner.tokenTransferRecords message.key = some ⟨message, none, false⟩ ∧
        inner' = inner.setRecord message.key ⟨message, some signatures, false⟩) := by
  unfold BridgeInner.approveOutgoing at h
  split at h
  · cases h
  case h_2 record hrecord =>
      obtain ⟨_, hsame, _, hopen, h⟩ := bind₂_eq_ok.mp h
      have hmessage : record.message = message := by simpa using hsame
      have hclaimed : record.claimed = false := by simpa using hopen
      cases hsigned : record.verifiedSignatures with
      | some old =>
        rw [hsigned] at h
        cases h
        exact .inl ⟨rfl, rfl⟩
      | none =>
        rw [hsigned] at h
        cases h
        obtain ⟨_, _, _⟩ := record
        cases hmessage
        cases hclaimed
        cases hsigned
        exact .inr ⟨rfl, hrecord, rfl⟩

theorem approveTokenTransfer_ok {signatures : List (List UInt8)} {isNew : Bool}
    (h : inner.approveTokenTransfer crypto message signatures = .ok (inner', isNew)) :
    (isNew = false ∧ inner' = inner) ∨
      (isNew = true ∧ Approves crypto inner inner' message signatures) := by
  obtain ⟨_, -, _, hverify, _, htoken, _, -, h⟩ := bind₄_eq_ok.mp h
  obtain ⟨payload, hpayload, _, -, h⟩ := bind₂_eq_ok.mp h
  have htype : message.messageType = MessageTypes.token := by simpa using htoken
  obtain ⟨required, hrequired, hsigned⟩ := BridgeCommittee.verifySignatures_ok hverify
  have hpower : required = 3334 := by
    rw [requiredVotingPower, if_pos htype] at hrequired
    exact (Except.ok.inj hrequired).symm
  subst hpower
  split at h
  · rcases approveOutgoing_ok h with hold | ⟨hnew, hbefore, hafter⟩
    · exact .inl hold
    · exact .inr ⟨hnew, hsigned, htype, ⟨payload, hpayload⟩, .inl hbefore, hafter⟩
  · unfold BridgeInner.approveIncoming at h
    split at h
    · cases h
      exact .inl ⟨rfl, rfl⟩
    case isFalse hnone =>
        cases h
        exact .inr ⟨rfl, hsigned, htype, ⟨payload, hpayload⟩, .inr (by simpa using hnone), rfl⟩

/-! ### Claiming -/

/-- A claim that mints: the record is approved and open, and its payload says which coin goes
    to whom. -/
structure Mints (inner inner' : BridgeInner) (key : BridgeMessageKey) (coin : Coin)
    (recipient : HaneulAddress) : Prop where
  record : ∃ message signatures, inner.tokenTransferRecords key =
      some ⟨message, some signatures, false⟩ ∧
    inner'.tokenTransferRecords = Function.update inner.tokenTransferRecords key
      (some ⟨message, some signatures, true⟩) ∧
    ∃ payload, tokenPayload message = .ok payload ∧ payload.targetChain = inner.chainId ∧
      isValidRoute key.sourceChain payload.targetChain = true ∧
      inner.treasury.tokenId coin.coinType = .ok payload.tokenType ∧
      coin.value = payload.amount.toNat ∧ recipient.bytes = payload.targetAddress
  chainId : inner'.chainId = inner.chainId
  sequenceNums : inner'.sequenceNums = inner.sequenceNums
  minted : inner.treasury.mint coin.coinType coin.value = .ok inner'.treasury

variable {clockMs : Nat}

theorem claimPayload_ok {payload : TokenTransferPayload} {bypassLimiter : Bool}
    (h : claimPayload clockMs message = .ok (payload, bypassLimiter)) :
    tokenPayload message = .ok payload := by
  unfold claimPayload at h
  unfold tokenPayload
  split at h
  case isTrue hversion =>
      obtain ⟨payloadV2, hpayload, _, -, h⟩ := bind₂_eq_ok.mp h
      cases h
      rw [if_pos hversion, hpayload]
      rfl
  case isFalse hversion =>
      obtain ⟨_, hpayload, h⟩ := bind_eq_ok.mp h
      cases h
      rw [if_neg hversion, hpayload]

/-- Everything but the limiter is as before. -/
structure KeepsCoins (inner inner' : BridgeInner) : Prop where
  chainId : inner'.chainId = inner.chainId
  sequenceNums : inner'.sequenceNums = inner.sequenceNums
  records : inner'.tokenTransferRecords = inner.tokenTransferRecords
  treasury : inner'.treasury = inner.treasury

theorem KeepsCoins.refl (inner : BridgeInner) : KeepsCoins inner inner := ⟨rfl, rfl, rfl, rfl⟩

variable {paid : Option Coin}

theorem payOut_ok {key : BridgeMessageKey} {record : BridgeRecord} {coin : Coin}
    {answer : TransferLimiter × Bool}
    (h : inner.payOut key record coin answer = .ok (inner', paid)) :
    (paid = none ∧ KeepsCoins inner inner') ∨
      (paid = some coin ∧ ∃ treasury, inner.treasury.mint coin.coinType coin.value = .ok treasury ∧
        inner' = { inner with treasury, limiter := answer.1 }.setRecord key
          { record with claimed := true }) := by
  unfold BridgeInner.payOut at h
  split at h
  · obtain ⟨treasury, hmint, h⟩ := bind_eq_ok.mp h
    cases h
    exact .inr ⟨rfl, treasury, hmint, rfl⟩
  · cases h
    exact .inl ⟨rfl, rfl, rfl, rfl, rfl⟩

theorem getRoute_eq_ok {source destination : UInt8} {route : BridgeRoute} :
    getRoute source destination = .ok route ↔
      isValidRoute source destination = true ∧ route = ⟨source, destination⟩ := by
  unfold getRoute isValidRoute require
  split <;> simp_all [bind, Except.bind, pure, Except.pure, eq_comm]

theorem addressFromBytes_eq_ok {bytes : List UInt8} {address : HaneulAddress} :
    addressFromBytes bytes = .ok address ↔ address.bytes = bytes := by
  unfold addressFromBytes
  split
  case isTrue hlength =>
      rw [Except.ok.injEq]
      exact ⟨fun h => h ▸ rfl, fun h => by cases address; cases h; rfl⟩
  case isFalse hlength =>
      refine ⟨nofun, fun h => absurd ?_ hlength⟩
      rw [← h]
      exact address.length_eq

variable {coinType : TypeName}

/-- A claim gives no coin and changes the limiter at most, or it mints. -/
theorem claimRecord_ok {key : BridgeMessageKey} {record : BridgeRecord} {owner : HaneulAddress}
    (hrecord : inner.tokenTransferRecords key = some record)
    (h : inner.claimRecord key record coinType clockMs = .ok (inner', paid, owner)) :
    (paid = none ∧ KeepsCoins inner inner') ∨
      ∃ coin, paid = some coin ∧ Mints inner inner' key coin owner := by
  obtain ⟨_, -, _, hsigned, ⟨payload, bypassLimiter⟩, hpayload, owner', howner, h⟩ :=
    bind₄_eq_ok.mp h
  obtain ⟨signatures, hsignatures⟩ := Option.isSome_iff_exists.mp (require_eq_ok.mp hsigned)
  split at h
  · cases h
    exact .inl ⟨rfl, KeepsCoins.refl inner⟩
  case isFalse hopen =>
      obtain ⟨⟨inner₁, paid₁⟩, hclaim, h⟩ := bind_eq_ok.mp h
      cases h
      obtain ⟨_, htarget, route, hroute, tokenId, htokenId, _, htoken, hclaim⟩ :=
        bind₄_eq_ok.mp hclaim
      obtain ⟨answer, -, hclaim⟩ := bind_eq_ok.mp hclaim
      rcases payOut_ok hclaim with hkeeps | ⟨hpaid, treasury, hmint, rfl⟩
      · exact .inl hkeeps
      · have htype : tokenId = payload.tokenType := by simpa using htoken
        refine .inr ⟨_, hpaid, ⟨record.message, signatures, ?_, ?_, payload,
          claimPayload_ok hpayload, by simpa using htarget, (getRoute_eq_ok.mp hroute).1,
          htype ▸ htokenId, rfl, addressFromBytes_eq_ok.mp howner⟩, rfl, rfl, hmint⟩
        · rw [hrecord]
          obtain ⟨message, verified, claimed⟩ := record
          dsimp only at hsignatures hopen
          rw [hsignatures, Bool.eq_false_iff.mpr hopen]
        · change update _ _ _ = _
          rw [hsignatures]

theorem claimTokenInternal_ok {sourceChain : UInt8} {bridgeSeqNum : UInt64} {owner : HaneulAddress}
    (h : inner.claimTokenInternal coinType clockMs sourceChain bridgeSeqNum =
      .ok (inner', paid, owner)) :
    (paid = none ∧ KeepsCoins inner inner') ∨
      ∃ coin, paid = some coin ∧
        Mints inner inner' ⟨sourceChain, MessageTypes.token, bridgeSeqNum⟩ coin owner := by
  obtain ⟨_, -, h⟩ := bind_eq_ok.mp h
  split at h
  · cases h
  case h_2 record hrecord => exact claimRecord_ok hrecord h

theorem claimToken_ok {sourceChain : UInt8} {bridgeSeqNum : UInt64} {sender owner : HaneulAddress}
    {coin : Coin} (h : inner.claimToken coinType clockMs sourceChain bridgeSeqNum sender =
      .ok (inner', coin, owner)) :
    Mints inner inner' ⟨sourceChain, MessageTypes.token, bridgeSeqNum⟩ coin owner := by
  obtain ⟨⟨inner₁, paid, owner₁⟩, hclaim, _, -, h⟩ := bind₂_eq_ok.mp h
  cases paid with
  | none => cases h
  | some token =>
    cases h
    rcases claimTokenInternal_ok hclaim with ⟨hnone, -⟩ | ⟨coin', hcoin, hmints⟩
    · cases hnone
    · cases hcoin
      exact hmints

/-! ### The treasury -/

/-- Token ids and coin types correspond, and every coin that is supported or waits to be has its
    treasury cap in the treasury. -/
structure TreasuryOk (treasury : BridgeTreasury) : Prop where
  idOf : ∀ {coinType metadata}, treasury.supportedTokens coinType = some metadata →
    treasury.idTokenTypeMap metadata.id = some coinType
  typeOf : ∀ {id coinType}, treasury.idTokenTypeMap id = some coinType →
    ∃ metadata, treasury.supportedTokens coinType = some metadata ∧ metadata.id = id
  waiting : ∀ {coinType registration}, treasury.waitingRoom coinType = some registration →
    ∃ supply, treasury.treasuries coinType = some supply
  cap : ∀ {coinType metadata}, treasury.supportedTokens coinType = some metadata →
    ∃ supply, treasury.treasuries coinType = some supply

/-- No coin is minted or burned: a coin keeps its supply, a new coin starts with none, and a
    token id keeps its coin. -/
structure TreasuryKeeps (treasury treasury' : BridgeTreasury) : Prop where
  supply : ∀ {coinType supply}, treasury.treasuries coinType = some supply →
    treasury'.treasuries coinType = some supply
  new : ∀ {coinType}, treasury.treasuries coinType = none →
    treasury'.treasuries coinType = none ∨ treasury'.treasuries coinType = some 0
  ids : ∀ {id coinType}, treasury.idTokenTypeMap id = some coinType →
    treasury'.idTokenTypeMap id = some coinType
  ok : TreasuryOk treasury → TreasuryOk treasury'

section Treasury

variable {treasury treasury' treasury'' : BridgeTreasury} {coinType : TypeName}

theorem TreasuryKeeps.refl (treasury : BridgeTreasury) : TreasuryKeeps treasury treasury :=
  ⟨fun h => h, fun h => .inl h, fun h => h, fun h => h⟩

theorem TreasuryKeeps.trans (h : TreasuryKeeps treasury treasury')
    (h' : TreasuryKeeps treasury' treasury'') : TreasuryKeeps treasury treasury'' where
  supply := fun hsupply => h'.supply (h.supply hsupply)
  new := by
    intro coinType hnone
    rcases h.new hnone with hnone' | hzero
    · exact h'.new hnone'
    · exact .inr (h'.supply hzero)
  ids := fun hid => h'.ids (h.ids hid)
  ok := fun hok => h'.ok (h.ok hok)

theorem treasuryOk_create : TreasuryOk BridgeTreasury.create := ⟨nofun, nofun, nofun, nofun⟩

theorem TreasuryOk.setSupply (hok : TreasuryOk treasury) (coinType : TypeName) (supply : Nat) :
    TreasuryOk { treasury with
      treasuries := update treasury.treasuries coinType (some supply) } := by
  have hsome : ∀ {other s}, treasury.treasuries other = some s →
      ∃ s', update treasury.treasuries coinType (some supply) other = some s' := by
    intro other s hs
    by_cases hother : other = coinType
    · exact ⟨supply, by rw [hother, update_self]⟩
    · exact ⟨s, by rw [update_of_ne hother, hs]⟩
  refine ⟨hok.idOf, hok.typeOf, fun h => ?_, fun h => ?_⟩
  · obtain ⟨s, hs⟩ := hok.waiting h
    exact hsome hs
  · obtain ⟨s, hs⟩ := hok.cap h
    exact hsome hs

theorem TreasuryKeeps.register {decimal : Nat} (hfresh : treasury.treasuries coinType = none) :
    TreasuryKeeps treasury { treasury with
      waitingRoom := update treasury.waitingRoom coinType (some ⟨decimal⟩)
      treasuries := update treasury.treasuries coinType (some 0) } := by
  refine ⟨?_, ?_, fun h => h, fun hok => ?_⟩
  · intro other supply hsupply
    dsimp only
    have hother : other ≠ coinType := by
      rintro rfl
      rw [hfresh] at hsupply
      cases hsupply
    rw [update_of_ne hother, hsupply]
  · intro other hnone
    dsimp only
    by_cases hother : other = coinType
    · exact .inr (by rw [hother, update_self])
    · exact .inl (by rw [update_of_ne hother, hnone])
  · have hset : TreasuryOk _ := hok.setSupply coinType 0
    refine ⟨hset.idOf, hset.typeOf, ?_, hset.cap⟩
    intro other registration hwaiting
    dsimp only at hwaiting ⊢
    by_cases hother : other = coinType
    · exact ⟨0, by rw [hother, update_self]⟩
    · rw [update_of_ne hother] at hwaiting
      exact hset.waiting hwaiting

variable {tokenId : UInt8}

theorem TreasuryKeeps.addForeignToken {notionalValue : Nat}
    (h : treasury.addForeignToken coinType tokenId notionalValue = .ok treasury') :
    TreasuryKeeps treasury treasury' := by
  obtain ⟨registration, metadata, hwaiting, rfl, hsupported, hid, rfl⟩ :=
    BridgeTreasury.addForeignToken_ok h
  refine ⟨fun h => h, fun h => .inl h, ?_, fun hok => ⟨?_, ?_, ?_, ?_⟩⟩
  · intro id other hother
    dsimp only
    have hne : id ≠ metadata.id := by
      rintro rfl
      rw [hid] at hother
      cases hother
    rw [update_of_ne hne, hother]
  · intro other metadata' hother
    dsimp only at hother ⊢
    by_cases hsame : other = coinType
    · subst hsame
      rw [update_self, Option.some.injEq] at hother
      rw [← hother, update_self]
    · rw [update_of_ne hsame] at hother
      have hmap := hok.idOf hother
      have hne : metadata'.id ≠ metadata.id := by
        intro hsameId
        rw [hsameId, hid] at hmap
        cases hmap
      rw [update_of_ne hne, hmap]
  · intro id other hother
    dsimp only at hother ⊢
    by_cases hsame : id = metadata.id
    · subst hsame
      rw [update_self] at hother
      cases hother
      exact ⟨metadata, update_self _ _ _, rfl⟩
    · rw [update_of_ne hsame] at hother
      obtain ⟨metadata', hmetadata', hid'⟩ := hok.typeOf hother
      have hne : other ≠ coinType := by
        rintro rfl
        rw [hsupported] at hmetadata'
        cases hmetadata'
      exact ⟨metadata', by rw [update_of_ne hne, hmetadata'], hid'⟩
  · intro other registration' hother
    dsimp only at hother
    by_cases hsame : other = coinType
    · rw [hsame, update_self] at hother
      cases hother
    · rw [update_of_ne hsame] at hother
      exact hok.waiting hother
  · intro other metadata' hother
    dsimp only at hother ⊢
    by_cases hsame : other = coinType
    · rw [hsame]
      exact hok.waiting hwaiting
    · rw [update_of_ne hsame] at hother
      exact hok.cap hother

theorem TreasuryKeeps.addNewToken {nativeToken : Bool} {notionalValue : Nat}
    (h : treasury.addNewToken coinType tokenId nativeToken notionalValue = .ok treasury') :
    TreasuryKeeps treasury treasury' := by
  unfold BridgeTreasury.addNewToken at h
  split at h
  · cases h
    exact TreasuryKeeps.refl treasury
  · exact TreasuryKeeps.addForeignToken h

theorem TreasuryKeeps.addTokens {nativeToken : Bool} {tokens : List (UInt8 × TypeName × UInt64)}
    (h : tokens.foldlM (fun treasury token => BridgeTreasury.addNewToken treasury token.2.1 token.1
      nativeToken token.2.2.toNat) treasury = .ok treasury') : TreasuryKeeps treasury treasury' :=
  foldlM_keeps (TreasuryKeeps treasury) (fun _ _ _ _ hkeeps hnext =>
    hkeeps.trans (.addNewToken hnext)) (.refl treasury) h

theorem TreasuryKeeps.setPrice {newUsdPrice : Nat}
    (h : treasury.updateAssetNotionalPrice tokenId newUsdPrice = .ok treasury') :
    TreasuryKeeps treasury treasury' := by
  obtain ⟨typeName, metadata, hmetadata, rfl⟩ := BridgeTreasury.updateAssetNotionalPrice_ok h
  -- the ids of all tokens are what they were
  have hids : ∀ {other metadata'}, update treasury.supportedTokens typeName
      (some { metadata with notionalValue := newUsdPrice }) other = some metadata' →
      ∃ old, treasury.supportedTokens other = some old ∧ old.id = metadata'.id := by
    intro other metadata' hother
    by_cases hsame : other = typeName
    · subst hsame
      rw [update_self, Option.some.injEq] at hother
      exact ⟨metadata, hmetadata, by rw [← hother]⟩
    · rw [update_of_ne hsame] at hother
      exact ⟨metadata', hother, rfl⟩
  refine ⟨fun h => h, fun h => .inl h, fun h => h, fun hok => ⟨?_, ?_, hok.waiting, ?_⟩⟩
  · intro other metadata' hother
    obtain ⟨old, hold, hid⟩ := hids hother
    rw [← hid]
    exact hok.idOf hold
  · intro id other hother
    obtain ⟨old, hold, hid⟩ := hok.typeOf hother
    by_cases hsame : other = typeName
    · subst hsame
      rw [hmetadata] at hold
      cases hold
      exact ⟨_, update_self _ _ _, hid⟩
    · exact ⟨old, (update_of_ne hsame _ _).trans hold, hid⟩
  · intro other metadata' hother
    obtain ⟨old, hold, -⟩ := hids hother
    exact hok.cap hold

end Treasury

/-! ### System messages and the rest -/

/-- The bridge keeps its records and its coins; it stays on a Haneul chain. -/
structure Configures (inner inner' : BridgeInner) : Prop where
  records : inner'.tokenTransferRecords = inner.tokenTransferRecords
  treasury : TreasuryKeeps inner.treasury inner'.treasury
  sequenceNums : inner'.sequenceNums = inner.sequenceNums
  chainId : inner'.chainId = inner.chainId ∨ isHaneulChain inner'.chainId = true

theorem Configures.of_eq (hrecords : inner'.tokenTransferRecords = inner.tokenTransferRecords)
    (htreasury : inner'.treasury = inner.treasury)
    (hsequenceNums : inner'.sequenceNums = inner.sequenceNums)
    (hchainId : inner'.chainId = inner.chainId) : Configures inner inner' :=
  ⟨hrecords, htreasury ▸ TreasuryKeeps.refl _, hsequenceNums, .inl hchainId⟩

theorem executeEmergencyOp_ok {payload : EmergencyOp}
    (h : inner.executeEmergencyOp payload = .ok inner') : Configures inner inner' := by
  unfold BridgeInner.executeEmergencyOp at h
  split at h
  · obtain ⟨_, -, h⟩ := bind_eq_ok.mp h
    cases h
    exact .of_eq rfl rfl rfl rfl
  · split at h
    · obtain ⟨_, -, h⟩ := bind_eq_ok.mp h
      cases h
      exact .of_eq rfl rfl rfl rfl
    · cases h

theorem executeAddTokensOnHaneul_ok {payload : AddTokenOnHaneul}
    (h : inner.executeAddTokensOnHaneul payload = .ok inner') : Configures inner inner' := by
  obtain ⟨_, -, _, -, treasury, hfold, h⟩ := bind₃_eq_ok.mp h
  cases h
  exact ⟨rfl, TreasuryKeeps.addTokens hfold, rfl, .inl rfl⟩

theorem executePayload_ok (h : inner.executePayload crypto message = .ok inner') :
    message.messageType ≠ MessageTypes.token ∧ Configures inner inner' := by
  have hnot : ∀ {t : UInt8}, t ≠ MessageTypes.token → message.messageType = t →
      message.messageType ≠ MessageTypes.token := fun hne heq => heq ▸ hne
  unfold BridgeInner.executePayload at h
  split at h
  case isTrue htype =>
      obtain ⟨payload, -, h⟩ := bind_eq_ok.mp h
      exact ⟨hnot (by decide) htype, executeEmergencyOp_ok h⟩
  split at h
  case isTrue htype =>
      obtain ⟨payload, -, committee, -, h⟩ := bind₂_eq_ok.mp h
      cases h
      exact ⟨hnot (by decide) htype, .of_eq rfl rfl rfl rfl⟩
  split at h
  case isTrue htype =>
      obtain ⟨payload, -, _, -, route, -, h⟩ := bind₃_eq_ok.mp h
      cases h
      exact ⟨hnot (by decide) htype, .of_eq rfl rfl rfl rfl⟩
  split at h
  case isTrue htype =>
      obtain ⟨payload, -, treasury, hprice, h⟩ := bind₂_eq_ok.mp h
      cases h
      exact ⟨hnot (by decide) htype, rfl, TreasuryKeeps.setPrice hprice, rfl, .inl rfl⟩
  split at h
  case isTrue htype =>
      obtain ⟨payload, -, h⟩ := bind_eq_ok.mp h
      exact ⟨hnot (by decide) htype, executeAddTokensOnHaneul_ok h⟩
  split at h
  case isTrue htype =>
      obtain ⟨payload, -, _, hchain, _, -, h⟩ := bind₃_eq_ok.mp h
      cases h
      exact ⟨hnot (by decide) htype, rfl, TreasuryKeeps.refl _, rfl, .inr (require_eq_ok.mp hchain)⟩
  case isFalse => cases h

/-- A system message takes the next number of its type, and members signed it. -/
structure Executes (crypto : Crypto) (inner inner' : BridgeInner) (message : BridgeMessage)
    (signatures : List (List UInt8)) : Prop where
  signed : ∃ required, requiredVotingPower message = .ok required ∧
    inner.committee.SignedBy crypto message signatures required
  messageType : message.messageType ≠ MessageTypes.token
  seqNum : TakesSeqNum inner inner' message.messageType message.seqNum
  records : inner'.tokenTransferRecords = inner.tokenTransferRecords
  treasury : TreasuryKeeps inner.treasury inner'.treasury
  chainId : inner'.chainId = inner.chainId ∨ isHaneulChain inner'.chainId = true

theorem executeSystemMessage_ok {signatures : List (List UInt8)}
    (h : inner.executeSystemMessage crypto message signatures = .ok inner') :
    Executes crypto inner inner' message signatures := by
  obtain ⟨_, -, _, -, ⟨inner₁, expected⟩, hseq, _, hnum, h⟩ := bind₄_eq_ok.mp h
  obtain ⟨_, hverify, h⟩ := bind_eq_ok.mp h
  obtain ⟨htakes, hinner₁⟩ := getCurrentSeqNumAndIncrement_ok hseq
  obtain ⟨htype, hconfigures⟩ := executePayload_ok h
  have hexpected : message.seqNum = expected := by simpa using hnum
  have hsigned := BridgeCommittee.verifySignatures_ok hverify
  have hrecords := hconfigures.records
  have htreasury := hconfigures.treasury
  have hchainId := hconfigures.chainId
  rw [hinner₁] at hsigned hrecords htreasury hchainId
  exact
    { signed := hsigned
      messageType := htype
      seqNum := by rw [hexpected]; exact htakes.of_eq hconfigures.sequenceNums
      records := hrecords
      treasury := htreasury
      chainId := hchainId }

/-! ### All calls -/

/-- What a call can do, by its effect. -/
inductive BridgeStep (crypto : Crypto) (inner inner' : BridgeInner) : BridgeEffect → Prop where
  | quiet (h : Configures inner inner') (hchain : inner'.chainId = inner.chainId) :
      BridgeStep crypto inner inner' .none
  | burned {message coin} (h : Sends inner inner' message coin) :
      BridgeStep crypto inner inner' (.burned message coin)
  | approved {message signatures} (h : Approves crypto inner inner' message signatures) :
      BridgeStep crypto inner inner' (.approved message signatures inner.committee)
  | minted {key coin recipient} (h : Mints inner inner' key coin recipient) :
      BridgeStep crypto inner inner' (.minted key coin recipient)
  | executed {message signatures} (h : Executes crypto inner inner' message signatures) :
      BridgeStep crypto inner inner' (.executed message signatures inner.committee)

theorem KeepsCoins.step (h : KeepsCoins inner inner') : BridgeStep crypto inner inner' .none :=
  .quiet (.of_eq h.records h.treasury h.sequenceNums h.chainId) h.chainId

theorem BridgeCall.run_ok {call : BridgeCall} {effect : BridgeEffect}
    (h : call.run crypto inner = .ok (inner', effect)) : BridgeStep crypto inner inner' effect := by
  cases call with
  | sendToken targetChain targetAddress coinType value sender =>
    obtain ⟨⟨inner₁, message⟩, hsend, h⟩ := bind_eq_ok.mp h
    cases h
    exact .burned (sendToken_ok hsend)
  | sendTokenV2 targetChain targetAddress coinType value clockMs sender =>
    obtain ⟨⟨inner₁, message⟩, hsend, h⟩ := bind_eq_ok.mp h
    cases h
    exact .burned (sendTokenV2_ok hsend)
  | approveTokenTransfer message signatures =>
    obtain ⟨⟨inner₁, isNew⟩, happrove, h⟩ := bind_eq_ok.mp h
    cases h
    rcases approveTokenTransfer_ok happrove with ⟨rfl, rfl⟩ | ⟨rfl, happroves⟩
    · exact (KeepsCoins.refl _).step
    · exact .approved happroves
  | claimToken coinType clockMs sourceChain bridgeSeqNum sender =>
    obtain ⟨⟨inner₁, coin, owner⟩, hclaim, h⟩ := bind_eq_ok.mp h
    cases h
    exact .minted (claimToken_ok hclaim)
  | claimAndTransferToken coinType clockMs sourceChain bridgeSeqNum =>
    obtain ⟨⟨inner₁, paid, owner⟩, hclaim, h⟩ := bind_eq_ok.mp h
    cases h
    rcases claimTokenInternal_ok hclaim with ⟨rfl, hkeeps⟩ | ⟨coin, rfl, hmints⟩
    · exact hkeeps.step
    · exact .minted hmints
  | executeSystemMessage message signatures =>
    obtain ⟨inner₁, hexecute, h⟩ := bind_eq_ok.mp h
    cases h
    exact .executed (executeSystemMessage_ok hexecute)
  | initBridgeCommittee votingPower minimum epoch =>
    obtain ⟨inner₁, hinit, h⟩ := bind_eq_ok.mp h
    cases h
    unfold BridgeInner.initBridgeCommittee at hinit
    split at hinit
    · obtain ⟨committee, -, hinit⟩ := bind_eq_ok.mp hinit
      cases hinit
      exact .quiet (.of_eq rfl rfl rfl rfl) rfl
    · cases hinit
      exact (KeepsCoins.refl _).step
  | committeeRegistration activeValidators bridgePubkeyBytes httpRestUrl sender =>
    obtain ⟨inner₁, hregister, h⟩ := bind_eq_ok.mp h
    cases h
    obtain ⟨committee, -, hregister⟩ := bind_eq_ok.mp hregister
    cases hregister
    exact .quiet (.of_eq rfl rfl rfl rfl) rfl
  | updateNodeUrl newUrl sender =>
    obtain ⟨inner₁, hupdate, h⟩ := bind_eq_ok.mp h
    cases h
    obtain ⟨committee, -, hupdate⟩ := bind_eq_ok.mp hupdate
    cases hupdate
    exact .quiet (.of_eq rfl rfl rfl rfl) rfl
  | registerForeignToken coinType totalSupply isUpgradeCapOfCoin decimal =>
    obtain ⟨inner₁, hregister, h⟩ := bind_eq_ok.mp h
    cases h
    obtain ⟨treasury, htreasury, hregister⟩ := bind_eq_ok.mp hregister
    cases hregister
    obtain ⟨-, hfresh, rfl⟩ := BridgeTreasury.registerForeignToken_ok htreasury
    exact .quiet ⟨rfl, TreasuryKeeps.register hfresh, rfl, .inl rfl⟩ rfl

end Haneul.Bridge
