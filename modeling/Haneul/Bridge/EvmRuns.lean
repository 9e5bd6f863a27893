import Haneul.Bridge.EvmSteps

/-!
# Runs of the bridge on Ethereum

The bridge marks a transfer as processed after it has paid it; the guard sees to it that nothing
happens in between.  So the nonces that are marked are those of the transfers that were claimed,
each claimed once.

The mark is the nonce alone.  Nonces are counted by each source chain for itself, so a transfer of
one chain is taken for processed when one of another chain had its nonce.
-/

namespace Haneul.Bridge.Evm

open List

variable {world : World} {now : Nat} {s s' : State} {P : Config → Prop}

/-! ### Every run -/

/-- The bridge before its first call, whatever the other contracts are. -/
structure Initial (s : State) : Prop where
  isTransferProcessed : ∀ nonce, s.isTransferProcessed nonce = false
  entered : s.entered = false
  payments : s.payments = []
  events : s.events = []

/-- The states that calls lead to; every call has its own time. -/
inductive Run (world : World) : State → Prop where
  | start {s : State} (h : Initial s) : Run world s
  | call {s s' : State} (now : Nat) (call : Call) (run : Run world s)
      (h : call.run world now s = .ok s') : Run world s'

def Event.claimsNonce (nonce : UInt64) : Event → Bool
  | .tokensClaimed _ nonce' .. => nonce' == nonce
  | _ => false

def Event.claimsFor (chainID : UInt8) (nonce : UInt64) : Event → Bool
  | .tokensClaimed chainID' nonce' .. => chainID' == chainID && nonce' == nonce
  | _ => false

/-- What an event says was paid. -/
def Event.payment : Event → Option (EthAddress × Nat)
  | .tokensClaimed _ _ _ _ amount _ recipient => some (recipient, amount)
  | _ => none

variable {event : Event}

theorem Event.claimsNonce_of_not_claim (h : event.isClaim = false)
    (nonce : UInt64) : event.claimsNonce nonce = false := by
  cases event with
  | tokensClaimed => cases h
  | _ => rfl

theorem Event.payment_of_not_claim (h : event.isClaim = false) :
    event.payment = none := by
  cases event with
  | tokensClaimed => cases h
  | _ => rfl

theorem Event.claimsNonce_of_claimsFor {chainID : UInt8} {nonce : UInt64}
    (h : event.claimsFor chainID nonce = true) : event.claimsNonce nonce = true := by
  cases event with
  | tokensClaimed =>
    rw [Event.claimsFor, Bool.and_eq_true] at h
    exact h.2
  | _ => cases h

/-- What a claim was made for: a message of this chain and nonce that the committee signed, with
    this recipient. -/
def Event.SignedFor (world : World) (event : Event) : Prop :=
  ∀ chainID nonce target tokenID amount sender recipient,
    event = .tokensClaimed chainID nonce target tokenID amount sender recipient →
    ∃ message signatures committee transfer, message.chainID = chainID ∧ message.nonce = nonce ∧
      verifySignatures world committee signatures message = .ok () ∧ message.AsksFor transfer ∧
      recipient = transfer.recipientAddress ∧ tokenID = transfer.tokenID

structure Inv (world : World) (s : State) : Prop where
  entered : s.entered = false
  signed : ∀ event ∈ s.events, event.SignedFor world
  once : ∀ nonce, s.events.countP (Event.claimsNonce nonce) =
    if s.isTransferProcessed nonce then 1 else 0
  paid : s.payments.map (fun payment => (payment.recipient, payment.amount)) =
    s.events.filterMap Event.payment

theorem Initial.inv (h : Initial s) : Inv world s where
  entered := h.entered
  signed := by rw [h.events]; exact nofun
  once := fun nonce => by simp [h.events, h.isTransferProcessed]
  paid := by rw [h.payments, h.events]; rfl

variable {message : Message}

theorem Inv.claims (hinv : Inv world s) {transfer : TokenTransferPayload}
    {amount : Nat} (h : Claims world P s s' message transfer amount) : Inv world s' := by
  obtain ⟨target, hevents⟩ := h.events
  obtain ⟨signatures, hsigned⟩ := h.signed
  refine ⟨h.entered, ?_, ?_, ?_⟩
  · intro event hevent
    rw [hevents, mem_append, mem_singleton] at hevent
    rcases hevent with hold | rfl
    · exact hinv.signed event hold
    · rintro _ _ _ _ _ _ _ ⟨⟩
      exact ⟨message, signatures, s.committee, transfer, rfl, rfl, hsigned, h.asksFor, rfl, rfl⟩
  · intro nonce
    rw [hevents, countP_append, hinv.once, h.marked, countP_singleton]
    by_cases hnonce : nonce = message.nonce
    · subst hnonce
      simp [h.fresh, Event.claimsNonce]
    · have hother : (message.nonce == nonce) = false := by
        simpa using fun heq => hnonce heq.symm
      simp [Function.update_of_ne hnonce, Event.claimsNonce, hother]
  · rw [h.payments, hevents, map_append, filterMap_append, hinv.paid]
    rfl

/-- A call that claims nothing. -/
structure Leaves (s s' : State) : Prop where
  isTransferProcessed : s'.isTransferProcessed = s.isTransferProcessed
  entered : s'.entered = false
  payments : s'.payments = s.payments
  events : ∃ events, s'.events = s.events ++ events ∧ ∀ event ∈ events, event.isClaim = false

theorem Inv.leaves (hinv : Inv world s) (h : Leaves s s') : Inv world s' := by
  obtain ⟨events, hevents, hother⟩ := h.events
  refine ⟨h.entered, ?_, ?_, ?_⟩
  · intro event hevent
    rw [hevents, mem_append] at hevent
    rcases hevent with hold | hnew
    · exact hinv.signed event hold
    · rintro _ _ _ _ _ _ _ rfl
      cases hother _ hnew
  · intro nonce
    have hzero : events.countP (Event.claimsNonce nonce) = 0 := by
      rw [countP_eq_zero]
      intro event hevent
      simp [Event.claimsNonce_of_not_claim (hother event hevent)]
    rw [hevents, countP_append, hzero, hinv.once, h.isTransferProcessed]
    rfl
  · have hnone : events.filterMap Event.payment = [] := by
      rw [filterMap_eq_nil_iff]
      intro event hevent
      exact Event.payment_of_not_claim (hother event hevent)
    rw [h.payments, hevents, filterMap_append, hnone, append_nil, hinv.paid]

theorem Inv.step (hinv : Inv world s) {paid : Option Message} (h : Step world P paid s s') :
    Inv world s' := by
  cases h with
  | claims _ h => exact hinv.claims h
  | deposits h =>
    obtain ⟨event, _, _, hevents, -, hclaim⟩ := h.events
    refine hinv.leaves ⟨h.isTransferProcessed, h.entered, h.payments, _, hevents, ?_⟩
    intro e he
    rw [mem_singleton.mp he]
    exact hclaim
  | quiet h =>
    obtain ⟨events, hevents, hother⟩ := h.events
    exact hinv.leaves ⟨h.isTransferProcessed, h.entered, h.payments, events, hevents,
      fun e he => (hother e he).2⟩

theorem Run.inv (h : Run world s) : Inv world s := by
  induction h with
  | start h => exact h.inv
  | call now call _ hcall ih =>
    exact ih.step (Call.run_ok call.updates_true ih.entered hcall)

/-- For every chain and nonce one payment is announced at most. -/
theorem Inv.claimsFor_le (hinv : Inv world s) (chainID : UInt8) (nonce : UInt64) :
    s.events.countP (Event.claimsFor chainID nonce) ≤ 1 := by
  calc s.events.countP (Event.claimsFor chainID nonce)
      ≤ s.events.countP (Event.claimsNonce nonce) :=
        countP_mono_left fun _ _ => Event.claimsNonce_of_claimsFor
    _ ≤ 1 := by
        rw [hinv.once]
        split <;> omega

/-! ### The rejection of a transfer -/

def NotProcessed {α : Type} (x : Except Revert α) : Prop :=
  ErrorsIn (· ≠ Revert.messageAlreadyProcessed) x

section NotProcessed

variable {chainID tokenID : UInt8} {amount : Nat} {outside : Outside}
  {transfer : TokenTransferPayload}

theorem notProcessed_require {condition : Bool} {reason : Revert}
    (h : reason ≠ .messageAlreadyProcessed) : NotProcessed (require condition reason) :=
  ErrorsIn.ite .ok (.error h)

theorem notProcessed_fits {max n : Nat} : NotProcessed (fits max n) :=
  ErrorsIn.ite .ok (.error nofun)

theorem notProcessed_checkedSub {a b : Nat} : NotProcessed (checkedSub a b) :=
  ErrorsIn.ite .ok (.error nofun)

theorem notProcessed_decimalsOf {token : EthAddress} : NotProcessed (world.decimalsOf token) := by
  unfold World.decimalsOf
  split
  · exact ErrorsIn.error nofun
  · exact ErrorsIn.ok

theorem notProcessed_convert {erc20Decimal haneulDecimal : UInt8} {amount : UInt64} :
    NotProcessed (convertHaneulToERC20Decimal erc20Decimal haneulDecimal amount) := by
  unfold convertHaneulToERC20Decimal
  split
  · exact ErrorsIn.ok
  · apply ErrorsIn.bind
    · exact (notProcessed_require (by decide)).bind fun _ _ => notProcessed_fits
    · intro factor _
      exact notProcessed_fits

theorem notProcessed_decodeTransfer {payload : List UInt8} {h : 64 ≤ payload.length} :
    NotProcessed (decodeTransfer payload h) :=
  (notProcessed_require (by decide)).bind fun _ _ =>
    (notProcessed_require (by decide)).bind fun _ _ => ErrorsIn.ok

theorem notProcessed_decodeV1 {message : Message} : NotProcessed (decodeV1 message) := by
  apply ErrorsIn.bind
  · unfold decodeTokenTransferPayload
    split
    · exact notProcessed_decodeTransfer
    · exact ErrorsIn.error nofun
  · intro transfer _
    exact ErrorsIn.ok

theorem notProcessed_decodeV2 {message : Message} : NotProcessed (decodeV2 message) := by
  apply (notProcessed_require (by decide)).bind
  intro _ _
  unfold decodeTokenTransferPayloadV2
  split
  · exact notProcessed_decodeTransfer.bind fun _ _ => ErrorsIn.ok
  · exact ErrorsIn.error nofun

theorem notProcessed_windowAmount {limiter : Limiter} :
    NotProcessed (calculateWindowAmount limiter now chainID) := by
  apply ErrorsIn.foldlM
  intro total i _
  exact notProcessed_checkedSub.bind fun _ _ => notProcessed_fits

theorem notProcessed_amountInUSD : NotProcessed (calculateAmountInUSD world s tokenID amount) :=
  notProcessed_decimalsOf.bind fun _ _ => notProcessed_fits.bind fun _ _ =>
    notProcessed_fits.bind fun _ _ => ErrorsIn.ok

theorem notProcessed_limitNotExceeded :
    NotProcessed (limitNotExceeded world s now chainID tokenID amount) := by
  apply ErrorsIn.bind
  · exact notProcessed_windowAmount.bind fun _ _ => notProcessed_amountInUSD.bind fun _ _ =>
      notProcessed_fits.bind fun _ _ => ErrorsIn.ok
  · intro exceeds _
    exact notProcessed_require (by decide)

theorem notProcessed_recordBridgeTransfers :
    NotProcessed (recordBridgeTransfers world s now chainID tokenID amount) := by
  apply (notProcessed_require (by decide)).bind
  intro _ _
  apply notProcessed_amountInUSD.bind
  intro usdAmount _
  apply ErrorsIn.bind
  · exact notProcessed_windowAmount.bind fun _ _ => notProcessed_fits.bind fun _ _ => ErrorsIn.ok
  · intro exceeds _
    exact (notProcessed_require (by decide)).bind fun _ _ => notProcessed_checkedSub.bind fun _ _ =>
      notProcessed_fits.bind fun _ _ => ErrorsIn.ok

theorem notProcessed_payToken {recipient : EthAddress} :
    NotProcessed (payToken world s tokenID recipient amount outside) :=
  (notProcessed_require (by decide)).bind fun _ _ =>
    (notProcessed_require (by decide)).bind fun _ _ => ErrorsIn.ok

theorem notProcessed_transferTokensFromVault {u : Unit} :
    NotProcessed (transferTokensFromVault world now outside chainID transfer u amount s) :=
  (notProcessed_require (by decide)).bind fun _ _ => notProcessed_limitNotExceeded.bind fun _ _ =>
    notProcessed_payToken.bind fun _ _ => notProcessed_recordBridgeTransfers

theorem notProcessed_transferTokensFromVaultV2 {timestampMs : Nat} :
    NotProcessed
      (transferTokensFromVaultV2 world now outside chainID transfer timestampMs amount s) := by
  apply (notProcessed_require (by decide)).bind
  intro _ _
  apply ErrorsIn.bind
  · exact ErrorsIn.ite .ok (notProcessed_limitNotExceeded.bind fun _ _ =>
      notProcessed_recordBridgeTransfers)
  · intro s₁ _
    exact notProcessed_payToken

end NotProcessed

variable {signatures : List (List UInt8)}

/-- A transfer that the committee signed, of a supported chain, is taken for processed if and
    only if its nonce is marked. -/
theorem transferBody_already {α : Type}
    {decode : Message → Except Revert (TokenTransferPayload × α)}
    {pay : UInt8 → TokenTransferPayload → α → Nat → State → Except Revert State}
    (hdecode : NotProcessed (decode message))
    (hpay : ∀ {c t a n} {s : State}, NotProcessed (pay c t a n s))
    (hentered : s.entered = false) (htype : message.messageType = tokenTransfer)
    (hverify : verifySignatures world s.committee signatures message = .ok ())
    (hchain : s.config.supportedChains message.chainID = true) :
    nonReentrant (transferBody world signatures message decode pay) s =
        .error .messageAlreadyProcessed ↔ s.isTransferProcessed message.nonce = true := by
  have hverified : verifyMessageAndSignatures world { s with entered := true } message signatures
      tokenTransfer = .ok { s with entered := true } :=
    verifyMessageAndSignatures_transfer.mpr ⟨htype, hverify, rfl⟩
  have hsupported : onlySupportedChain { s with entered := true } message.chainID = .ok () :=
    require_eq_ok.mpr hchain
  cases hprocessed : s.isTransferProcessed message.nonce with
  | true =>
    simp [nonReentrant, transferBody, require, hentered, hverified, hsupported, hprocessed, bind,
      Except.bind]
  | false =>
    have hrest : NotProcessed
        (transferBody world signatures message decode pay { s with entered := true }) := by
      unfold transferBody
      rw [hverified]
      refine ErrorsIn.bind ErrorsIn.ok fun s₁ hs₁ => ?_
      cases hs₁
      rw [hsupported]
      refine ErrorsIn.bind ErrorsIn.ok fun _ _ => ?_
      dsimp only
      rw [hprocessed]
      refine ErrorsIn.bind ErrorsIn.ok fun _ _ => ?_
      refine hdecode.bind fun payload _ => ?_
      refine (notProcessed_require (by decide)).bind fun _ _ => ?_
      refine notProcessed_decimalsOf.bind fun decimals _ => ?_
      refine notProcessed_convert.bind fun amount _ => ?_
      exact hpay.bind fun s₂ _ => ErrorsIn.ok
    constructor
    · intro h
      have hguarded : NotProcessed (nonReentrant (transferBody world signatures message decode pay) s) :=
        (notProcessed_require (by decide)).bind fun _ _ => hrest.bind fun _ _ => ErrorsIn.ok
      exact absurd rfl (hguarded _ h)
    · intro h
      cases h

def transferCalls (signatures : List (List UInt8)) (message : Message) (accepts : Bool)
    (during : List Call) : List Call :=
  [.transferBridgedTokensWithSignatures signatures message accepts during,
   .transferBridgedTokensWithSignaturesV2 signatures message accepts during]

theorem Inv.already_iff (hinv : Inv world s) {accepts : Bool} {during : List Call} {call : Call}
    (hcall : call ∈ transferCalls signatures message accepts during)
    (htype : message.messageType = tokenTransfer)
    (hverify : verifySignatures world s.committee signatures message = .ok ())
    (hchain : s.config.supportedChains message.chainID = true) :
    call.run world now s = .error .messageAlreadyProcessed ↔
      ∃ event ∈ s.events, event.claimsNonce message.nonce = true := by
  have hmarked : s.isTransferProcessed message.nonce = true ↔
      ∃ event ∈ s.events, event.claimsNonce message.nonce = true := by
    rw [← countP_pos_iff, hinv.once]
    cases s.isTransferProcessed message.nonce <;> simp
  rw [← hmarked]
  simp only [transferCalls, mem_cons, not_mem_nil, or_false] at hcall
  rcases hcall with rfl | rfl
  · exact transferBody_already notProcessed_decodeV1 notProcessed_transferTokensFromVault
      hinv.entered htype hverify hchain
  · exact transferBody_already notProcessed_decodeV2 notProcessed_transferTokensFromVaultV2
      hinv.entered htype hverify hchain

theorem Event.claimsNonce_iff {nonce : UInt64} :
    event.claimsNonce nonce = true ↔ ∃ chainID, event.claimsFor chainID nonce = true := by
  constructor
  · intro h
    cases event with
    | tokensClaimed chainID => exact ⟨chainID, by simpa [Event.claimsFor, Event.claimsNonce] using h⟩
    | _ => cases h
  · rintro ⟨chainID, h⟩
    exact Event.claimsNonce_of_claimsFor h

/-- **Transfers are paid once, and rejected for the nonce of another chain.**  In every run of the
    bridge, whatever the committee, the configuration and the limiter are and become, and
    whatever tokens and recipients call while they are paid:

    * for every source chain and nonce one payment is made at most, and the payments of the
      vault are those that are announced, each to the recipient that a signed message of that
      chain and nonce names;
    * a signed transfer of a supported chain that is not paid yet is rejected as processed, in
      either version, if and only if a transfer of another chain with its nonce was paid. -/
theorem evm_transfers_paid_once {world : World} {s : State} (hrun : Run world s) :
    (∀ chainID nonce, s.events.countP (Event.claimsFor chainID nonce) ≤ 1) ∧
    s.payments.map (fun payment => (payment.recipient, payment.amount)) =
      s.events.filterMap Event.payment ∧
    (∀ event ∈ s.events, event.SignedFor world) ∧
    ∀ now signatures message accepts during,
      ∀ call ∈ transferCalls signatures message accepts during,
        message.messageType = tokenTransfer →
        verifySignatures world s.committee signatures message = .ok () →
        s.config.supportedChains message.chainID = true →
        (∀ event ∈ s.events, event.claimsFor message.chainID message.nonce = false) →
        (call.run world now s = .error .messageAlreadyProcessed ↔
          ∃ chainID, chainID ≠ message.chainID ∧
            ∃ event ∈ s.events, event.claimsFor chainID message.nonce = true) := by
  have hinv := hrun.inv
  refine ⟨hinv.claimsFor_le, hinv.paid, hinv.signed, ?_⟩
  intro now signatures message accepts during call hcall htype hverify hchain hunpaid
  rw [hinv.already_iff hcall htype hverify hchain]
  constructor
  · rintro ⟨event, hevent, hnonce⟩
    obtain ⟨chainID, hclaims⟩ := Event.claimsNonce_iff.mp hnonce
    refine ⟨chainID, ?_, event, hevent, hclaims⟩
    rintro rfl
    rw [hunpaid event hevent] at hclaims
    cases hclaims
  · rintro ⟨chainID, -, event, hevent, hclaims⟩
    exact ⟨event, hevent, Event.claimsNonce_of_claimsFor hclaims⟩

/-! ### Two source chains -/

def sampleToken : EthAddress := ⟨List.replicate 20 9, rfl⟩

/-- Every signature is that of one signer, and one token has 18 decimals. -/
def sampleWorld : World where
  tryRecover := fun _ _ _ _ => ⟨List.replicate 20 1, rfl⟩
  decimals := fun token => if token = sampleToken then some 18 else none
  wETH := ⟨List.replicate 20 8, rfl⟩

/-- A bridge of chain 12 for the chains 1 and 2. -/
def sampleState : State where
  isTransferProcessed := fun _ => false
  nonces := fun _ => 0
  paused := false
  entered := false
  committee := ⟨fun _ => 10000, fun _ => 0, fun _ => false⟩
  config :=
    { chainID := 12
      supportedTokens := fun id => if id = 5 then ⟨sampleToken, 8⟩ else ⟨zeroAddress, 0⟩
      tokenPrices := fun _ => 1
      supportedChains := fun chainID => chainID = 1 || chainID = 2 }
  limiter := ⟨fun _ => 0, fun _ => 1000000000000⟩
  vault := fun token => if token = sampleToken then 10 ^ 30 else 0
  payments := []
  events := []

/-- A transfer of 100 from some chain, with nonce 7. -/
def sampleTransfer (chainID : UInt8) : Message :=
  ⟨tokenTransfer, 1, 7, chainID,
    [32] ++ List.replicate 32 3 ++ [12, 20] ++ List.replicate 20 4 ++ [5] ++ u64BeBytes 100⟩

def sampleSignatures : List (List UInt8) := [List.replicate 65 0]

def payFrom (chainID : UInt8) : Call :=
  .transferBridgedTokensWithSignatures sampleSignatures (sampleTransfer chainID) true []

def rejectsAsProcessed : Except Revert State → Bool
  | .error e => e == .messageAlreadyProcessed
  | .ok _ => false

theorem rejectsAsProcessed_iff {x : Except Revert State} :
    rejectsAsProcessed x = true ↔ x = .error .messageAlreadyProcessed := by
  cases x with
  | error e => simp [rejectsAsProcessed]
  | ok s => simp [rejectsAsProcessed]

theorem sampleState_initial : Initial sampleState := ⟨fun _ => rfl, rfl, rfl, rfl⟩

/-- After the payment of a transfer of chain 1, the transfer of chain 2 with its nonce. -/
theorem sample_paid : ∃ s, Run sampleWorld s ∧
    verifySignatures sampleWorld s.committee sampleSignatures (sampleTransfer 2) = .ok () ∧
    s.config.supportedChains 2 = true ∧
    (∀ event ∈ s.events, event.claimsFor 2 7 = false) ∧
    (payFrom 2).run sampleWorld 1700000000 s = .error .messageAlreadyProcessed ∧
    s.events.countP (Event.claimsFor 1 7) = 1 ∧ s.payments.length = 1 := by
  obtain ⟨s, hpaid, hs⟩ := ok_of_any (x := (payFrom 1).run sampleWorld 1700000000 sampleState)
    (p := fun s =>
      (verifySignatures sampleWorld s.committee sampleSignatures (sampleTransfer 2)).toBool &&
        s.config.supportedChains 2 && s.events.all (fun event => !event.claimsFor 2 7) &&
        rejectsAsProcessed ((payFrom 2).run sampleWorld 1700000000 s) &&
        decide (s.events.countP (Event.claimsFor 1 7) = 1) && decide (s.payments.length = 1))
    (by decide +kernel)
  simp only [Bool.and_eq_true, all_eq_true, Bool.not_eq_true', rejectsAsProcessed_iff,
    decide_eq_true_eq] at hs
  obtain ⟨⟨⟨⟨⟨hverify, hchain⟩, hunpaid⟩, hrejected⟩, hcount⟩, hlength⟩ := hs
  obtain ⟨_, hverified⟩ := ok_of_toBool hverify
  exact ⟨s, Run.call 1700000000 (payFrom 1) (Run.start sampleState_initial) hpaid, hverified, hchain,
    hunpaid, hrejected, hcount, hlength⟩

/-- **A transfer is lost to the nonce of another chain.**  The transfer of chain 1 is paid; that of
    chain 2 with the same nonce is signed, was never paid, and is rejected as processed. -/
theorem evm_transfer_lost : ∃ s, Run sampleWorld s ∧
    verifySignatures sampleWorld s.committee sampleSignatures (sampleTransfer 2) = .ok () ∧
    s.config.supportedChains 2 = true ∧
    (∀ event ∈ s.events, event.claimsFor 2 7 = false) ∧
    (payFrom 2).run sampleWorld 1700000000 s = .error .messageAlreadyProcessed := by
  obtain ⟨s, hrun, hverified, hchain, hunpaid, hrejected, -⟩ := sample_paid
  exact ⟨s, hrun, hverified, hchain, hunpaid, hrejected⟩

/-- One payment from chain 1, and the transfer of chain 2 that it makes the bridge reject. -/
theorem evm_transfers_paid_once_sample : ∃ s, Run sampleWorld s ∧
    s.events.countP (Event.claimsFor 1 7) = 1 ∧ s.payments.length = 1 ∧
    (payFrom 2).run sampleWorld 1700000000 s = .error .messageAlreadyProcessed := by
  obtain ⟨s, hrun, hverified, hchain, hunpaid, -, hcount, hlength⟩ := sample_paid
  have hclaimed : ∃ event ∈ s.events, event.claimsFor 1 7 = true := by
    rw [← countP_pos_iff, hcount]
    exact Nat.one_pos
  refine ⟨s, hrun, hcount, hlength, ?_⟩
  exact ((evm_transfers_paid_once hrun).2.2.2 1700000000 sampleSignatures (sampleTransfer 2) true []
    (payFrom 2) (by simp [transferCalls, payFrom]) rfl hverified hchain hunpaid).mpr
      ⟨1, by decide, hclaimed⟩

end Haneul.Bridge.Evm
