import Haneul.Bridge.BridgeRuns

/-!
# When a transfer goes on

A transfer to Ethereum waits on record until it is approved, one from Ethereum waits there until
it is claimed.  Both checks compare chain ids of the recorded message with the id that the
bridge has now.  A system message can change that id and keeps the records, so a waiting
transfer goes on just as long as the id is the one it was recorded for.
-/

namespace Haneul.Bridge

open Haneul.History

variable {crypto : Crypto} {chainId : UInt8} {inner inner' : BridgeInner}
  {history : List BridgeEffect} {effect : BridgeEffect}

/-! ### What is on record -/

theorem Mints.puts {key : BridgeMessageKey} {coin : Coin} {recipient : HaneulAddress}
    (hinv : RecordsInv crypto history inner) (h : Mints inner inner' key coin recipient) :
    ∃ message signatures, PutsRecord inner inner' ⟨message, some signatures, true⟩ := by
  obtain ⟨message, signatures, hbefore, hafter, -⟩ := h.record
  have hkey : message.key = key := hinv.keyed hbefore
  subst hkey
  refine ⟨message, signatures, hafter, fun old hold => ?_⟩
  rw [hbefore, Option.some.injEq] at hold
  rw [← hold]

/-- Approved messages are transfers that can be read, and a claimed record is approved. -/
structure WaitingInv (history : List BridgeEffect) (inner : BridgeInner) : Prop where
  transfer : ∀ {message signatures committee},
    BridgeEffect.approved message signatures committee ∈ history →
      message.messageType = MessageTypes.token ∧ ∃ payload, tokenPayload message = .ok payload
  pending : ∀ {key record}, inner.tokenTransferRecords key = some record →
    record.verifiedSignatures = none → record.claimed = false

theorem WaitingInv.keep (hinv : WaitingInv history inner)
    (hrecords : inner'.tokenTransferRecords = inner.tokenTransferRecords)
    (heffect : effect.recorded = none) : WaitingInv (history ++ [effect]) inner' where
  transfer := fun hmem => by
    rcases mem_snoc.mp hmem with hold | rfl
    · exact hinv.transfer hold
    · cases heffect
  pending := fun hrecord => hinv.pending (hrecords ▸ hrecord)

theorem WaitingInv.put (hinv : WaitingInv history inner) {record : BridgeRecord}
    (hputs : PutsRecord inner inner' record)
    (hrecord : record.verifiedSignatures = none → record.claimed = false)
    (htransfer : ∀ message signatures committee,
      effect = .approved message signatures committee →
        message.messageType = MessageTypes.token ∧ ∃ payload, tokenPayload message = .ok payload) :
    WaitingInv (history ++ [effect]) inner' where
  transfer := fun hmem => by
    rcases mem_snoc.mp hmem with hold | heq
    · exact hinv.transfer hold
    · exact htransfer _ _ _ heq.symm
  pending := fun {key r} hr => by
    by_cases hkey : key = record.message.key
    · subst hkey
      rw [hputs.get_self, Option.some.injEq] at hr
      exact hr ▸ hrecord
    · exact hinv.pending ((hputs.get_of_ne hkey).symm.trans hr)

theorem WaitingInv.step (hinv : WaitingInv history inner)
    (hrecords : RecordsInv crypto history inner)
    (h : BridgeStep crypto inner inner' effect) : WaitingInv (history ++ [effect]) inner' := by
  cases h with
  | quiet h _ => exact hinv.keep h.records rfl
  | executed h => exact hinv.keep h.records rfl
  | burned h => exact hinv.put h.puts (fun _ => rfl) nofun
  | approved h =>
    refine hinv.put h.puts nofun ?_
    rintro _ _ _ ⟨⟩
    exact ⟨h.messageType, h.payload⟩
  | minted h =>
    obtain ⟨message, signatures, hputs⟩ := Mints.puts hrecords h
    exact hinv.put hputs nofun nofun

theorem BridgeRun.waitingInv (hchain : isHaneulChain chainId = true)
    (h : BridgeRun crypto chainId history inner) : WaitingInv history inner := by
  induction h with
  | start => exact ⟨nofun, nofun⟩
  | call call hrun hcall ih => exact ih.step (hrun.inv hchain).records (BridgeCall.run_ok hcall)

/-! ### Approving -/

/-- A transfer to Ethereum that waits is approved if and only if the bridge still has the chain
    id that it was sent under. -/
theorem approve_pending_iff {message : BridgeMessage} {sourceChain : UInt8} {value : Nat}
    {signatures : List (List UInt8)} (hsent : SentMessage sourceChain message value)
    (hsource : isHaneulChain sourceChain = true) (hchain : isHaneulChain inner.chainId = true)
    (hpending : inner.tokenTransferRecords message.key = some ⟨message, none, false⟩)
    (hpaused : inner.paused = false)
    (hverify : inner.committee.verifySignatures crypto message signatures = .ok ()) :
    (∃ inner', inner.approveTokenTransfer crypto message signatures = .ok (inner', true)) ↔
      message.sourceChain = inner.chainId := by
  obtain ⟨payload, hpayload, hroute, -⟩ := hsent.payload
  have htarget : payload.targetChain ≠ inner.chainId := by
    intro heq
    rw [← heq, isHaneulChain_destination hroute, hsource] at hchain
    cases hchain
  have hrun : inner.approveTokenTransfer crypto message signatures =
      (require (message.sourceChain == inner.chainId || payload.targetChain == inner.chainId)
        .unexpectedChainID >>= fun _ =>
          if message.sourceChain = inner.chainId then inner.approveOutgoing message signatures
          else return inner.approveIncoming message signatures) := by
    unfold BridgeInner.approveTokenTransfer
    rw [hpaused, hverify, hsent.messageType, hpayload]
    have hversion : decide (message.messageVersion ≤ 2) = true := decide_eq_true hsent.version
    rw [hversion]
    rfl
  rw [hrun]
  by_cases hsame : message.sourceChain = inner.chainId
  · simp [hsame, require, BridgeInner.approveOutgoing, hpending, bind, Except.bind, pure,
      Except.pure]
  · simp [hsame, htarget, require, bind, Except.bind]

/-! ### Claiming -/

/-- What a claim asks for beyond an approved record, its coin and the limiter. -/
structure Claimable (inner : BridgeInner) (key : BridgeMessageKey) (message : BridgeMessage)
    (payload : TokenTransferPayload) (coinType : TypeName) : Prop where
  targetChain : payload.targetChain = inner.chainId
  route : isValidRoute key.sourceChain payload.targetChain = true
  targetAddress : payload.targetAddress.length = 32
  timestamp : message.messageVersion = 2 → ∀ payloadV2,
    extractTokenBridgePayloadV2 message = .ok payloadV2 →
      payloadV2.timestampMs.toNat + 48 * 3600000 ≤ u64Max
  supply : ∀ supply, inner.treasury.treasuries coinType = some supply →
    payload.amount.toNat ≤ u64Max - supply

section Claim

variable {key : BridgeMessageKey} {message : BridgeMessage} {payload : TokenTransferPayload}
  {coinType : TypeName} {clockMs : Nat}

theorem claimPayload_of_fits (clockMs : Nat) (hpayload : tokenPayload message = .ok payload)
    (hfits : message.messageVersion = 2 → ∀ payloadV2,
      extractTokenBridgePayloadV2 message = .ok payloadV2 →
        payloadV2.timestampMs.toNat + 48 * 3600000 ≤ u64Max) :
    ∃ bypassLimiter, claimPayload clockMs message = .ok (payload, bypassLimiter) := by
  unfold tokenPayload at hpayload
  unfold claimPayload
  split at hpayload
  case isTrue hversion =>
      obtain ⟨payloadV2, hextract, hpayload⟩ := bind_eq_ok.mp hpayload
      cases hpayload
      have hmature := addU64_eq_ok.mpr ⟨hfits hversion payloadV2 hextract, rfl⟩
      rw [if_pos hversion, hextract]
      exact ⟨_, by rw [bind_eq_ok]; exact ⟨_, rfl, bind_eq_ok.mpr ⟨_, hmature, rfl⟩⟩⟩
  case isFalse hversion =>
      rw [if_neg hversion, hpayload]
      exact ⟨false, rfl⟩

theorem timestamp_fits_of_claimPayload {claimed : TokenTransferPayload × Bool}
    (h : claimPayload clockMs message = .ok claimed) (hversion : message.messageVersion = 2)
    (payloadV2 : TokenTransferPayloadV2)
    (hextract : extractTokenBridgePayloadV2 message = .ok payloadV2) :
    payloadV2.timestampMs.toNat + 48 * 3600000 ≤ u64Max := by
  unfold claimPayload at h
  rw [if_pos hversion, hextract] at h
  obtain ⟨_, heq, h⟩ := bind_eq_ok.mp h
  cases heq
  obtain ⟨mature, hmature, -⟩ := bind_eq_ok.mp h
  exact (addU64_eq_ok.mp hmature).1

variable {limiter : TransferLimiter}

theorem admitted_of_admits {route : BridgeRoute} {amount : Nat}
    (hadmits : inner.limiter.checkAndRecordSendingTransfer inner.treasury coinType clockMs route
      amount = .ok (limiter, true)) (bypassLimiter : Bool) :
    ∃ limiter', inner.admitted bypassLimiter coinType clockMs route amount = .ok (limiter', true) := by
  cases bypassLimiter with
  | false => exact ⟨limiter, hadmits⟩
  | true => exact ⟨inner.limiter, rfl⟩

variable {signatures : List (List UInt8)}

theorem claimTokenInternal_pays {sourceChain : UInt8} {bridgeSeqNum : UInt64}
    (hok : TreasuryOk inner.treasury) (hpaused : inner.paused = false)
    (hrecord : inner.tokenTransferRecords ⟨sourceChain, MessageTypes.token, bridgeSeqNum⟩ =
      some ⟨message, some signatures, false⟩) (htype : message.messageType = MessageTypes.token)
    (hpayload : tokenPayload message = .ok payload)
    (htoken : inner.treasury.tokenId coinType = .ok payload.tokenType)
    (hadmits : inner.limiter.checkAndRecordSendingTransfer inner.treasury coinType clockMs
      ⟨sourceChain, payload.targetChain⟩ payload.amount.toNat = .ok (limiter, true))
    (h : Claimable inner ⟨sourceChain, MessageTypes.token, bridgeSeqNum⟩ message payload coinType) :
    ∃ inner' owner, inner.claimTokenInternal coinType clockMs sourceChain bridgeSeqNum =
      .ok (inner', some ⟨coinType, payload.amount.toNat⟩, owner) := by
  obtain ⟨bypassLimiter, hclaim⟩ := claimPayload_of_fits clockMs hpayload h.timestamp
  obtain ⟨limiter', hanswer⟩ := admitted_of_admits hadmits bypassLimiter
  obtain ⟨metadata, hmetadata, -⟩ := BridgeTreasury.tokenId_ok.mp htoken
  obtain ⟨supply, hsupply⟩ := hok.cap hmetadata
  have hmint := BridgeTreasury.mint_of_le hsupply (h.supply supply hsupply)
  have howner : addressFromBytes payload.targetAddress = .ok ⟨_, h.targetAddress⟩ :=
    dif_pos h.targetAddress
  have hroute : getRoute sourceChain payload.targetChain = .ok ⟨sourceChain, payload.targetChain⟩ :=
    getRoute_eq_ok.mpr ⟨h.route, rfl⟩
  have hopen : inner.claimOpen ⟨sourceChain, MessageTypes.token, bridgeSeqNum⟩
      ⟨message, some signatures, false⟩ payload bypassLimiter coinType clockMs =
        inner.payOut ⟨sourceChain, MessageTypes.token, bridgeSeqNum⟩
          ⟨message, some signatures, false⟩ ⟨coinType, payload.amount.toNat⟩ (limiter', true) := by
    unfold BridgeInner.claimOpen
    rw [h.targetChain] at hroute hanswer ⊢
    rw [hroute, htoken]
    simp only [require, beq_self_eq_true, if_true, bind, Except.bind]
    rw [hanswer]
  unfold BridgeInner.claimTokenInternal BridgeInner.claimRecord
  rw [hpaused, hrecord]
  simp only [require, bind, Except.bind, Bool.not_false, if_true, htype, beq_self_eq_true,
    Option.isSome_some, hclaim, howner, Bool.false_eq_true, if_false, hopen, BridgeInner.payOut,
    hmint, pure, Except.pure]
  exact ⟨_, _, rfl⟩

theorem claimable_of_pays {sourceChain : UInt8} {bridgeSeqNum : UInt64} {coin : Coin}
    {owner : HaneulAddress}
    (hrecord : inner.tokenTransferRecords ⟨sourceChain, MessageTypes.token, bridgeSeqNum⟩ =
      some ⟨message, some signatures, false⟩) (hpayload : tokenPayload message = .ok payload)
    (hcoin : coin = ⟨coinType, payload.amount.toNat⟩)
    (h : inner.claimTokenInternal coinType clockMs sourceChain bridgeSeqNum =
      .ok (inner', some coin, owner)) :
    Claimable inner ⟨sourceChain, MessageTypes.token, bridgeSeqNum⟩ message payload coinType := by
  have hmints : Mints inner inner' ⟨sourceChain, MessageTypes.token, bridgeSeqNum⟩ coin owner := by
    rcases claimTokenInternal_ok h with ⟨hnone, -⟩ | ⟨_, hsome, hmints⟩
    · cases hnone
    · exact Option.some.inj hsome ▸ hmints
  obtain ⟨message', signatures', hrecord', -, payload', hpayload', htarget, hroute, -, -, howner⟩ :=
    hmints.record
  rw [hrecord, Option.some.injEq] at hrecord'
  cases hrecord'
  rw [hpayload] at hpayload'
  cases hpayload'
  obtain ⟨_, -, h⟩ := bind_eq_ok.mp h
  rw [hrecord] at h
  obtain ⟨_, -, _, -, claimed, hclaimed, -⟩ := bind₃_eq_ok.mp h
  refine ⟨htarget, hroute, by rw [← howner]; exact owner.length_eq,
    timestamp_fits_of_claimPayload hclaimed, ?_⟩
  intro supply hsupply
  obtain ⟨supply', hsupply', hle, -⟩ := BridgeTreasury.mint_ok hmints.minted
  subst hcoin
  rw [hsupply, Option.some.injEq] at hsupply'
  exact hsupply' ▸ hle

end Claim

/-! ### Every run -/

/-- **Waiting transfers go on while the chain id stays.**  In every state that the bridge can
    reach and in which it is not paused:

    * a transfer to Ethereum that is not approved yet is approved, with signatures of a quorum,
      if and only if its source chain is the id that the bridge has now;
    * an approved record that is not claimed yet, of a coin that is registered and with an amount
      that the limiter admits, is paid if and only if it is `Claimable`: its target chain is the
      id of the bridge, and the signed message has a route, a recipient of 32 bytes, a time and
      an amount that the code can work with. -/
theorem bridge_waiting_transfers_go_on {crypto : Crypto} {chainId : UInt8}
    {history : List BridgeEffect} {inner : BridgeInner} (hchain : isHaneulChain chainId = true)
    (hrun : BridgeRun crypto chainId history inner) (hpaused : inner.paused = false) :
    (∀ message coin record signatures, BridgeEffect.burned message coin ∈ history →
      inner.tokenTransferRecords message.key = some record → record.verifiedSignatures = none →
      inner.committee.verifySignatures crypto message signatures = .ok () →
      ((∃ inner', inner.approveTokenTransfer crypto message signatures = .ok (inner', true)) ↔
        message.sourceChain = inner.chainId)) ∧
    (∀ key record, inner.tokenTransferRecords key = some record →
      record.verifiedSignatures.isSome = true → record.claimed = false →
      ∃ payload, tokenPayload record.message = .ok payload ∧
        ∀ coinType clockMs limiter, inner.treasury.tokenId coinType = .ok payload.tokenType →
          inner.limiter.checkAndRecordSendingTransfer inner.treasury coinType clockMs
            ⟨key.sourceChain, payload.targetChain⟩ payload.amount.toNat = .ok (limiter, true) →
          ((∃ inner' owner, inner.claimAndTransferToken coinType clockMs key.sourceChain
              key.bridgeSeqNum = .ok (inner', some ⟨coinType, payload.amount.toNat⟩, owner)) ↔
            Claimable inner key record.message payload coinType)) := by
  have hinv := hrun.inv hchain
  have hwaiting := hrun.waitingInv hchain
  constructor
  · intro message coin record signatures hburned hrecord hpending hverify
    obtain ⟨-, sourceChain, hsource, hsent⟩ := hinv.records.sent hburned
    obtain ⟨record', hrecord', hmessage⟩ := hinv.records.onRecord hburned rfl
    rw [hrecord, Option.some.injEq] at hrecord'
    have hopen := hwaiting.pending hrecord hpending
    obtain ⟨recorded, verified, claimed⟩ := record
    subst hrecord'
    cases hmessage
    cases hpending
    cases hopen
    exact approve_pending_iff hsent hsource hinv.chain hrecord hpaused hverify
  · rintro key ⟨message, verified, claimed⟩ hrecord happroved hopen
    obtain ⟨signatures, hsignatures⟩ := Option.isSome_iff_exists.mp happroved
    dsimp only at hsignatures hopen ⊢
    subst hsignatures hopen
    obtain ⟨committee, hmem⟩ := hinv.records.approval hrecord rfl
    obtain ⟨htype, payload, hpayload⟩ := hwaiting.transfer hmem
    have hkey : message.key = key := hinv.records.keyed hrecord
    refine ⟨payload, hpayload, ?_⟩
    intro coinType clockMs limiter htoken hadmits
    obtain ⟨sourceChain, messageType, bridgeSeqNum⟩ := key
    obtain rfl : messageType = MessageTypes.token := by
      rw [← htype]
      exact (congrArg BridgeMessageKey.messageType hkey).symm
    constructor
    · rintro ⟨inner', owner, hclaim⟩
      exact claimable_of_pays hrecord hpayload rfl hclaim
    · exact claimTokenInternal_pays hinv.supply.ok hpaused hrecord htype hpayload htoken hadmits

/-! ### A change of the chain id -/

/-- Whether a computation ends with an abort code. -/
def abortsWith {α : Type} (code : BridgeAbort) : Except BridgeAbort α → Bool
  | .error e => e == code
  | .ok _ => false

theorem abortsWith_iff {α : Type} {code : BridgeAbort} {x : Except BridgeAbort α} :
    abortsWith code x = true ↔ x = .error code := by
  cases x with
  | error e => simp [abortsWith]
  | ok a => simp [abortsWith]

def sampleIncoming₁ : BridgeMessage := { sampleIncoming with seqNum := 1 }

/-- After the first transfer from Ethereum, a second one is approved and one to Ethereum is
    sent; both wait. -/
def waitingCalls : List BridgeCall :=
  sampleCalls ++
    [.approveTokenTransfer sampleIncoming₁ [sampleKey],
     .sendToken ChainIds.ethCustom (List.replicate 20 7) sampleCoin 30 sampleAccount]

/-- The bridge of chain 2 becomes that of chain 1. -/
def relabel : BridgeCall :=
  .executeSystemMessage ⟨MessageTypes.updateChainId, 1, 0, ChainIds.haneulCustom,
    [ChainIds.haneulTestnet]⟩ [sampleKey]

/-- A transfer that waits in a state, in both directions: 30 to Ethereum, 100 from there. -/
def sampleWaits (inner : BridgeInner) : Bool :=
  !inner.paused &&
  inner.tokenTransferRecords sampleOutgoing.key == some ⟨sampleOutgoing, none, false⟩ &&
  (inner.committee.verifySignatures plainCrypto sampleOutgoing [sampleKey]).isOk &&
  inner.tokenTransferRecords sampleIncoming₁.key ==
    some ⟨sampleIncoming₁, some [sampleKey], false⟩ &&
  (inner.treasury.tokenId sampleCoin).toOption == some 5 &&
  (inner.limiter.checkAndRecordSendingTransfer inner.treasury sampleCoin 1700000000000
    ⟨ChainIds.ethCustom, ChainIds.haneulCustom⟩ 100).toOption.any (·.2)

/-- **A change of the chain id leaves transfers stuck.**  The coins of a transfer to Ethereum are
    burned, the bridge becomes that of another chain, and the transfer can no longer be
    approved; nor can a transfer from Ethereum that was approved before be claimed. -/
theorem relabelled_bridge_stuck : ∃ history inner,
    BridgeRun plainCrypto ChainIds.haneulCustom history inner ∧
    BridgeEffect.burned sampleOutgoing ⟨sampleCoin, 30⟩ ∈ history ∧ sampleWaits inner = true ∧
    inner.approveTokenTransfer plainCrypto sampleOutgoing [sampleKey] = .error .unexpectedChainID ∧
    inner.claimAndTransferToken sampleCoin 1700000000000 ChainIds.ethCustom 1 =
      .error .unexpectedChainID := by
  obtain ⟨⟨history, inner⟩, hcalls, hfinal⟩ := ok_of_any
    (x := BridgeCall.runAll plainCrypto (waitingCalls ++ [relabel])
      ([], BridgeInner.create ChainIds.haneulCustom))
    (p := fun state =>
      state.1.contains (.burned sampleOutgoing ⟨sampleCoin, 30⟩) && sampleWaits state.2 &&
        abortsWith .unexpectedChainID
          (state.2.approveTokenTransfer plainCrypto sampleOutgoing [sampleKey]) &&
        abortsWith .unexpectedChainID
          (state.2.claimAndTransferToken sampleCoin 1700000000000 ChainIds.ethCustom 1))
    (by decide +kernel)
  simp only [Bool.and_eq_true, List.contains_iff_mem, abortsWith_iff] at hfinal
  obtain ⟨⟨⟨hburned, hwaits⟩, happrove⟩, hclaim⟩ := hfinal
  exact ⟨history, inner, BridgeRun.calls BridgeRun.start hcalls, hburned, hwaits, happrove, hclaim⟩

theorem sampleWaits_iff {inner : BridgeInner} : sampleWaits inner = true ↔
    inner.paused = false ∧
    inner.tokenTransferRecords sampleOutgoing.key = some ⟨sampleOutgoing, none, false⟩ ∧
    inner.committee.verifySignatures plainCrypto sampleOutgoing [sampleKey] = .ok () ∧
    inner.tokenTransferRecords sampleIncoming₁.key =
      some ⟨sampleIncoming₁, some [sampleKey], false⟩ ∧
    inner.treasury.tokenId sampleCoin = .ok 5 ∧
    ∃ limiter, inner.limiter.checkAndRecordSendingTransfer inner.treasury sampleCoin 1700000000000
      ⟨ChainIds.ethCustom, ChainIds.haneulCustom⟩ 100 = .ok (limiter, true) := by
  have hverify : ∀ x : Except BridgeAbort Unit, x.isOk = true ↔ x = .ok () := by
    intro x
    cases x <;> simp [Except.isOk, Except.toBool]
  have htoken : ∀ x : Except BridgeAbort UInt8, x.toOption = some 5 ↔ x = .ok 5 := by
    intro x
    cases x <;> simp [Except.toOption]
  have hanswer : ∀ x : Except BridgeAbort (TransferLimiter × Bool),
      x.toOption.any (·.2) = true ↔ ∃ limiter, x = .ok (limiter, true) := by
    intro x
    rcases x with e | ⟨limiter, admitted⟩ <;> simp [Except.toOption]
  simp only [sampleWaits, Bool.and_eq_true, Bool.not_eq_true', beq_iff_eq, hverify, htoken, hanswer,
    and_assoc]

/-- Before the change of the id both transfers wait, and both can go on. -/
theorem bridge_waiting_transfers_go_on_sample : ∃ history inner,
    BridgeRun plainCrypto ChainIds.haneulCustom history inner ∧ sampleWaits inner = true ∧
    (∃ inner', inner.approveTokenTransfer plainCrypto sampleOutgoing [sampleKey] =
      .ok (inner', true)) ∧
    ∃ inner' owner, inner.claimAndTransferToken sampleCoin 1700000000000 ChainIds.ethCustom 1 =
      .ok (inner', some ⟨sampleCoin, 100⟩, owner) := by
  obtain ⟨⟨history, inner⟩, hcalls, hfinal⟩ := ok_of_any
    (x := BridgeCall.runAll plainCrypto waitingCalls ([], BridgeInner.create ChainIds.haneulCustom))
    (p := fun state =>
      state.1.contains (.burned sampleOutgoing ⟨sampleCoin, 30⟩) && sampleWaits state.2 &&
        state.2.chainId == ChainIds.haneulCustom && state.2.treasury.treasuries sampleCoin == some 70)
    (by decide +kernel)
  simp only [Bool.and_eq_true, List.contains_iff_mem, beq_iff_eq] at hfinal
  obtain ⟨⟨⟨hburned, hwaits⟩, hchainId⟩, hsupply⟩ := hfinal
  obtain ⟨hpaused, hpending, hverify, happroved, htoken, limiter, hadmits⟩ :=
    sampleWaits_iff.mp hwaits
  have hrun := BridgeRun.calls BridgeRun.start hcalls
  obtain ⟨happrove, hclaim⟩ := bridge_waiting_transfers_go_on (by decide) hrun hpaused
  obtain ⟨payload, hpayload, hpays⟩ := hclaim _ _ happroved rfl rfl
  have hread : tokenPayload sampleIncoming₁ = .ok ⟨List.replicate 20 7, ChainIds.haneulCustom,
      List.replicate 32 1, 5, 100⟩ := by rfl
  rw [hread] at hpayload
  cases hpayload
  refine ⟨history, inner, hrun, hwaits,
    (happrove _ _ _ _ hburned hpending rfl hverify).mpr hchainId.symm,
    (hpays sampleCoin _ limiter htoken hadmits).mpr ⟨hchainId.symm, rfl, rfl, nofun, ?_⟩⟩
  intro supply hsome
  rw [hsupply, Option.some.injEq] at hsome
  rw [← hsome]
  decide

end Haneul.Bridge
