import Haneul.Bridge.EvmContracts

/-!
# What a call of the bridge on Ethereum can do

While the guard is set, no call changes what the bridge has processed, paid and announced; the
other contracts can change, and tokens can arrive in the vault.  From this follows what a call
does between runs of the guard: it claims one transfer, announces one deposit, or does neither.

The configuration can be replaced at any time.  Results about one token take a predicate on
configurations that every new one satisfies.
-/

namespace Haneul.Bridge.Evm

open Function (update update_self update_of_ne)

variable {world : World} {now : Nat} {s s' : State} {P : Config → Prop} {message : Message}
  {signatures : List (List UInt8)}

/-! ### While the guard is set -/

/-- What calls leave alone while the guard is set. -/
structure KeepsBridge (P : Config → Prop) (s s' : State) : Prop where
  isTransferProcessed : s'.isTransferProcessed = s.isTransferProcessed
  entered : s'.entered = s.entered
  payments : s'.payments = s.payments
  events : s'.events = s.events
  vault : ∀ token, s.vault token ≤ s'.vault token
  vaultFits : ∀ token, s.vault token ≤ uint256Max → s'.vault token ≤ uint256Max
  config : P s.config → P s'.config

theorem KeepsBridge.refl (s : State) : KeepsBridge P s s :=
  ⟨rfl, rfl, rfl, rfl, fun _ => Nat.le_refl _, fun _ => id, id⟩

variable {s₁ s₂ s₃ : State}

theorem KeepsBridge.trans (h : KeepsBridge P s₁ s₂) (h' : KeepsBridge P s₂ s₃) :
    KeepsBridge P s₁ s₃ where
  isTransferProcessed := h'.isTransferProcessed.trans h.isTransferProcessed
  entered := h'.entered.trans h.entered
  payments := h'.payments.trans h.payments
  events := h'.events.trans h.events
  vault := fun token => (h.vault token).trans (h'.vault token)
  vaultFits := fun token hfits => h'.vaultFits token (h.vaultFits token hfits)
  config := fun hP => h'.config (h.config hP)

theorem nonReentrant_ok {body : State → Except Revert State} (h : nonReentrant body s = .ok s') :
    s.entered = false ∧ ∃ s₁, body { s with entered := true } = .ok s₁ ∧
      s' = { s₁ with entered := false } := by
  obtain ⟨_, hentered, s₁, hbody, h⟩ := bind₂_eq_ok.mp h
  cases h
  exact ⟨by simpa using hentered, s₁, hbody, rfl⟩

variable {token : EthAddress}

theorem receiveToken_ok {received : Nat} {outside : Outside}
    (h : receiveToken s token received outside = .ok s') :
    s.vault token + received ≤ uint256Max ∧ s' = outside.during { s with
      vault := update s.vault token (s.vault token + received) } := by
  obtain ⟨_, -, balance, hbalance, h⟩ := bind₂_eq_ok.mp h
  obtain ⟨hfits, rfl⟩ := fits_eq_ok.mp hbalance
  cases h
  exact ⟨hfits, rfl⟩

theorem keepsBridge_receive {received : Nat} (hfits : s.vault token + received ≤ uint256Max) :
    KeepsBridge P s
      { s with vault := update s.vault token (s.vault token + received) } where
  isTransferProcessed := rfl
  entered := rfl
  payments := rfl
  events := rfl
  vault := fun other => by
    by_cases hother : other = token
    · subst hother
      simp
    · simp [update_of_ne hother]
  vaultFits := fun other hold => by
    by_cases hother : other = token
    · subst hother
      simpa using hfits
    · simpa [update_of_ne hother] using hold
  config := id

variable {call : Call}

/-- **While the guard is set** the bridge is left alone: its own calls revert. -/
theorem Call.run_entered (hupdates : call.Updates P) (hentered : s.entered = true)
    (h : call.run world now s = .ok s') : KeepsBridge P s s' := by
  have hguarded : ∀ {body s₁}, nonReentrant body s = .ok s₁ → KeepsBridge P s s' := by
    intro body s₁ hbody
    have hfree := (nonReentrant_ok hbody).1
    rw [hentered] at hfree
    cases hfree
  cases call with
  | transferBridgedTokensWithSignatures | transferBridgedTokensWithSignaturesV2 =>
    exact hguarded h
  | executeEmergencyOpWithSignatures =>
    rw [Call.run, Evm.executeEmergencyOpWithSignatures] at h
    exact hguarded h
  | bridgeERC20 | bridgeERC20V2 | bridgeETH | bridgeETHV2 =>
    obtain ⟨_, -, h⟩ := bind_eq_ok.mp h
    exact hguarded h
  | update =>
    cases h
    exact ⟨rfl, rfl, rfl, rfl, fun _ => Nat.le_refl _, fun _ => id, fun _ => hupdates⟩
  | donate =>
    obtain ⟨hfits, rfl⟩ := receiveToken_ok h
    exact keepsBridge_receive hfits

theorem Call.runAll_entered {calls : List Call} (hupdates : Call.AllUpdate P calls)
    (hentered : s.entered = true) : KeepsBridge P s (Call.runAll world now calls s) := by
  induction calls generalizing s with
  | nil => exact KeepsBridge.refl s
  | cons call calls ih =>
    have hfirst : KeepsBridge P s (s.orElse (call.run world now s)) := by
      cases hrun : call.run world now s with
      | error _ => exact KeepsBridge.refl s
      | ok s₁ => exact Call.run_entered hupdates.1 hentered hrun
    exact hfirst.trans (ih hupdates.2 (hfirst.entered.trans hentered))

/-- What is done outside leaves the bridge alone while the guard is set. -/
def Outside.Guarded (P : Config → Prop) (outside : Outside) : Prop :=
  ∀ {s : State}, s.entered = true → KeepsBridge P s (outside.during s)

theorem guarded_runAll (accepts : Bool) {during : List Call} (h : Call.AllUpdate P during) :
    Outside.Guarded P ⟨accepts, Call.runAll world now during⟩ := Call.runAll_entered h

/-! ### Payments -/

def payoutToken (world : World) (s : State) (tokenID : UInt8) : EthAddress :=
  if tokenID = eth then world.wETH else s.tokenAddressOf tokenID

structure Pays (P : Config → Prop) (s s' : State) (payment : Payment) : Prop where
  isTransferProcessed : s'.isTransferProcessed = s.isTransferProcessed
  entered : s'.entered = s.entered
  payments : s'.payments = s.payments ++ [payment]
  events : s'.events = s.events
  vault : ∀ token, s.vault token ≤ s'.vault token + if token = payment.token then payment.amount else 0
  vaultFits : ∀ token, s.vault token ≤ uint256Max → s'.vault token ≤ uint256Max
  config : P s.config → P s'.config

theorem Pays.of_keeps {payment : Payment} (hpays : Pays P s₁ s₂ payment)
    (h : KeepsBridge P s₂ s₃) : Pays P s₁ s₃ payment where
  isTransferProcessed := h.isTransferProcessed.trans hpays.isTransferProcessed
  entered := h.entered.trans hpays.entered
  payments := h.payments.trans hpays.payments
  events := h.events.trans hpays.events
  vault := fun token => (hpays.vault token).trans (Nat.add_le_add_right (h.vault token) _)
  vaultFits := fun token hfits => h.vaultFits token (hpays.vaultFits token hfits)
  config := fun hP => h.config (hpays.config hP)

theorem KeepsBridge.pays {payment : Payment} (h : KeepsBridge P s₁ s₂)
    (hpays : Pays P s₂ s₃ payment) : Pays P s₁ s₃ payment where
  isTransferProcessed := hpays.isTransferProcessed.trans h.isTransferProcessed
  entered := hpays.entered.trans h.entered
  payments := by rw [hpays.payments, h.payments]
  events := hpays.events.trans h.events
  vault := fun token => (h.vault token).trans (hpays.vault token)
  vaultFits := fun token hfits => hpays.vaultFits token (h.vaultFits token hfits)
  config := fun hP => hpays.config (h.config hP)

theorem pays_update {token recipient : EthAddress} {amount : Nat} (hle : amount ≤ s.vault token) :
    Pays P s { s with
      vault := update s.vault token (s.vault token - amount)
      payments := s.payments ++ [⟨token, recipient, amount⟩] } ⟨token, recipient, amount⟩ where
  isTransferProcessed := rfl
  entered := rfl
  payments := rfl
  events := rfl
  vault := fun other => by
    by_cases hother : other = token
    · subst hother
      simp only [update_self, if_true]
      omega
    · simp [update_of_ne hother]
  vaultFits := fun other hold => by
    by_cases hother : other = token
    · subst hother
      simp only [update_self]
      omega
    · simpa [update_of_ne hother] using hold
  config := id

theorem recordBridgeTransfers_ok {chainID tokenID : UInt8} {amount : Nat}
    (h : recordBridgeTransfers world s now chainID tokenID amount = .ok s') :
    ∃ limiter, s' = { s with limiter } := by
  iterate 6 obtain ⟨_, -, h⟩ := bind_eq_ok.mp h
  cases h
  exact ⟨_, rfl⟩

theorem keepsBridge_limiter (limiter : Limiter) : KeepsBridge P s { s with limiter } :=
  ⟨rfl, rfl, rfl, rfl, fun _ => Nat.le_refl _, fun _ => id, id⟩

section Pay

variable {outside : Outside} {chainID tokenID : UInt8} {recipient : EthAddress} {amount : Nat}
  {transfer : TokenTransferPayload}

theorem payToken_ok (hguarded : outside.Guarded P) (hentered : s.entered = true)
    (h : payToken world s tokenID recipient amount outside = .ok s') :
    s.tokenAddressOf tokenID ≠ zeroAddress ∧
      Pays P s s' ⟨payoutToken world s tokenID, recipient, amount⟩ := by
  obtain ⟨_, haddress, _, hcovered, h⟩ := bind₂_eq_ok.mp h
  cases h
  rw [require_eq_ok, Bool.and_eq_true, decide_eq_true_eq] at hcovered
  refine ⟨by simpa using haddress, Pays.of_keeps (pays_update hcovered.1) (hguarded ?_)⟩
  exact hentered

/-- What paying a transfer comes to, in either version. -/
def PaysTransfer (world : World) (P : Config → Prop) (s s' : State)
    (transfer : TokenTransferPayload) (amount : Nat) : Prop :=
  s.tokenAddressOf transfer.tokenID ≠ zeroAddress ∧
    Pays P s s' ⟨payoutToken world s transfer.tokenID, transfer.recipientAddress, amount⟩

theorem transferTokensFromVault_ok (hguarded : outside.Guarded P) (hentered : s.entered = true)
    {u : Unit}
    (h : transferTokensFromVault world now outside chainID transfer u amount s = .ok s') :
    PaysTransfer world P s s' transfer amount := by
  obtain ⟨_, -, _, -, s₁, hpay, h⟩ := bind₃_eq_ok.mp h
  obtain ⟨limiter, rfl⟩ := recordBridgeTransfers_ok h
  obtain ⟨haddress, hpays⟩ := payToken_ok hguarded hentered hpay
  exact ⟨haddress, hpays.of_keeps (keepsBridge_limiter limiter)⟩

theorem limitNotExceededV2_ok {timestampSeconds : Nat}
    (h : limitNotExceededV2 world s now chainID tokenID amount timestampSeconds = .ok s') :
    ∃ limiter, s' = { s with limiter } := by
  unfold limitNotExceededV2 at h
  split at h
  · cases h
    exact ⟨s.limiter, rfl⟩
  · obtain ⟨_, -, h⟩ := bind_eq_ok.mp h
    exact recordBridgeTransfers_ok h

theorem transferTokensFromVaultV2_ok (hguarded : outside.Guarded P) (hentered : s.entered = true)
    {timestampMs : Nat}
    (h : transferTokensFromVaultV2 world now outside chainID transfer timestampMs amount s = .ok s') :
    PaysTransfer world P s s' transfer amount := by
  obtain ⟨_, -, s₁, hlimit, h⟩ := bind₂_eq_ok.mp h
  obtain ⟨limiter, rfl⟩ := limitNotExceededV2_ok hlimit
  have hguard : ({ s with limiter } : State).entered = true := hentered
  obtain ⟨haddress, hpays⟩ := payToken_ok hguarded hguard h
  exact ⟨haddress, (keepsBridge_limiter limiter).pays hpays⟩

end Pay

/-! ### Transfers -/

/-- The transfer that a message asks for, in either version. -/
def Message.AsksFor (message : Message) (transfer : TokenTransferPayload) : Prop :=
  decodeTokenTransferPayload message.payload = .ok transfer ∨
    ∃ timestampMs, decodeTokenTransferPayloadV2 message.payload = .ok (transfer, timestampMs)

/-- What a transfer has done: the nonce was not marked and now is, and one payment is made and
    announced, as a signed message asks for it. -/
structure Claims (world : World) (P : Config → Prop) (s s' : State) (message : Message)
    (transfer : TokenTransferPayload) (amount : Nat) : Prop where
  fresh : s.isTransferProcessed message.nonce = false
  marked : s'.isTransferProcessed = Function.update s.isTransferProcessed message.nonce true
  entered : s'.entered = false
  signed : ∃ signatures, verifySignatures world s.committee signatures message = .ok ()
  asksFor : message.AsksFor transfer
  supported : s.tokenAddressOf transfer.tokenID ≠ zeroAddress
  converted : ∃ decimals, world.decimals (s.tokenAddressOf transfer.tokenID) = some decimals ∧
    convertHaneulToERC20Decimal decimals (s.tokenHaneulDecimalOf transfer.tokenID)
      transfer.amount = .ok amount
  payments : s'.payments = s.payments ++
    [⟨payoutToken world s transfer.tokenID, transfer.recipientAddress, amount⟩]
  events : ∃ targetChainID, s'.events = s.events ++
    [.tokensClaimed message.chainID message.nonce targetChainID transfer.tokenID amount
      transfer.senderAddress transfer.recipientAddress]
  vault : ∀ token, s.vault token ≤
    s'.vault token + if token = payoutToken world s transfer.tokenID then amount else 0
  vaultFits : ∀ token, s.vault token ≤ uint256Max → s'.vault token ≤ uint256Max
  config : P s.config → P s'.config

theorem verifyMessageAndSignatures_transfer :
    verifyMessageAndSignatures world s message signatures tokenTransfer = .ok s' ↔
      message.messageType = tokenTransfer ∧
        verifySignatures world s.committee signatures message = .ok () ∧ s' = s := by
  unfold verifyMessageAndSignatures
  rw [bind_eq_ok]
  constructor
  · rintro ⟨_, htype, h⟩
    obtain ⟨_, hverify, h⟩ := bind_eq_ok.mp h
    cases h
    exact ⟨by simpa using htype, hverify, rfl⟩
  · rintro ⟨htype, hverify, rfl⟩
    exact ⟨(), by simpa using htype, bind_eq_ok.mpr ⟨(), hverify, rfl⟩⟩

theorem World.decimalsOf_eq_ok {decimals : UInt8} :
    world.decimalsOf token = .ok decimals ↔ world.decimals token = some decimals := by
  unfold World.decimalsOf
  cases world.decimals token <;> simp

variable {transfer : TokenTransferPayload}

theorem decodeV1_ok {u : Unit}
    (h : decodeV1 message = .ok (transfer, u)) : message.AsksFor transfer := by
  obtain ⟨_, hdecode, h⟩ := bind_eq_ok.mp h
  cases h
  exact .inl hdecode

theorem decodeV2_ok {timestampMs : Nat}
    (h : decodeV2 message = .ok (transfer, timestampMs)) : message.AsksFor transfer := by
  obtain ⟨_, -, h⟩ := bind_eq_ok.mp h
  exact .inr ⟨timestampMs, h⟩

theorem claims_of_transferBody {α : Type}
    {decode : Message → Except Revert (TokenTransferPayload × α)}
    {pay : UInt8 → TokenTransferPayload → α → Nat → State → Except Revert State}
    (hdecode : ∀ {transfer time}, decode message = .ok (transfer, time) → message.AsksFor transfer)
    (hpay : ∀ {s s' : State} {chainID transfer time amount}, s.entered = true →
      pay chainID transfer time amount s = .ok s' → PaysTransfer world P s s' transfer amount)
    (h : nonReentrant (transferBody world signatures message decode pay) s = .ok s') :
    ∃ transfer amount, Claims world P s s' message transfer amount := by
  obtain ⟨-, s₁, hbody, rfl⟩ := nonReentrant_ok h
  obtain ⟨s₂, hverify, _, -, _, hfresh, ⟨transfer, time⟩, hdecoded, h⟩ := bind₄_eq_ok.mp hbody
  obtain ⟨-, hsigned, rfl⟩ := verifyMessageAndSignatures_transfer.mp hverify
  obtain ⟨_, -, decimals, hdecimals, amount, hconvert, s₃, hpaid, h⟩ := bind₄_eq_ok.mp h
  obtain ⟨hsupported, hpays⟩ := hpay rfl hpaid
  cases h
  refine ⟨transfer, amount, ?_⟩
  exact
    { fresh := by simpa using hfresh
      marked := by
        change update s₃.isTransferProcessed _ _ = _
        rw [hpays.isTransferProcessed]
      entered := rfl
      signed := ⟨signatures, hsigned⟩
      asksFor := hdecode hdecoded
      supported := hsupported
      converted := ⟨decimals, World.decimalsOf_eq_ok.mp hdecimals, hconvert⟩
      payments := hpays.payments
      events := ⟨s₃.config.chainID, by
        change s₃.events ++ _ = _
        rw [hpays.events]⟩
      vault := hpays.vault
      vaultFits := hpays.vaultFits
      config := hpays.config }

/-! ### Deposits -/

/-- The source chain, the nonce, the token and the amount of a deposit. -/
def Event.deposit : Event → Option (UInt8 × UInt64 × UInt8 × UInt64)
  | .tokensDeposited chainID nonce _ tokenID amount _ _ => some (chainID, nonce, tokenID, amount)
  | .tokensDepositedV2 chainID nonce _ tokenID amount _ _ _ => some (chainID, nonce, tokenID, amount)
  | _ => none

def Event.isClaim : Event → Bool
  | .tokensClaimed .. => true
  | _ => false

/-- What a deposit has done: so much has arrived in the vault, and what it converts to is
    announced. -/
structure Deposits (world : World) (P : Config → Prop) (s s' : State) (tokenID : UInt8)
    (token : EthAddress) (received : Nat) (amount : UInt64) : Prop where
  isTransferProcessed : s'.isTransferProcessed = s.isTransferProcessed
  entered : s'.entered = false
  payments : s'.payments = s.payments
  events : ∃ event chainID nonce, s'.events = s.events ++ [event] ∧
    event.deposit = some (chainID, nonce, tokenID, amount) ∧ event.isClaim = false
  tokenOf : token = s.tokenAddressOf tokenID ∨ tokenID = eth ∧ token = world.wETH
  converted : ∃ decimals, world.decimals (s.tokenAddressOf tokenID) = some decimals ∧
    convertERC20ToHaneulDecimal decimals (s'.tokenHaneulDecimalOf tokenID) received = .ok amount
  received : s.vault token + received ≤ s'.vault token
  vault : ∀ other, s.vault other ≤ s'.vault other
  vaultFits : ∀ other, s.vault other ≤ uint256Max → s'.vault other ≤ uint256Max
  config : P s.config → P s'.config

/-- The events of deposits: what they announce. -/
def DepositEvent.Announces (event : DepositEvent) : Prop :=
  ∀ chainID nonce destination tokenID amount sender recipient,
    (event chainID nonce destination tokenID amount sender recipient).deposit =
        some (chainID, nonce, tokenID, amount) ∧
      (event chainID nonce destination tokenID amount sender recipient).isClaim = false

section Deposit

variable {event : DepositEvent} {tokenID destination : UInt8} {amount allowance received : Nat}
  {sender tokenAddress : EthAddress} {recipient : List UInt8} {outside : Outside}

theorem announce_ok
    (h : announce world s event tokenID tokenAddress amount sender recipient destination = .ok s') :
    ∃ decimals nonce converted nonces, world.decimals tokenAddress = some decimals ∧
      convertERC20ToHaneulDecimal decimals (s.tokenHaneulDecimalOf tokenID) amount = .ok converted ∧
      s' = { s with
        nonces
        events := s.events ++
          [event s.config.chainID nonce destination tokenID converted sender recipient] } := by
  obtain ⟨decimals, hdecimals, converted, hconverted, _, -, h⟩ := bind₃_eq_ok.mp h
  cases h
  exact ⟨decimals, _, converted, _, World.decimalsOf_eq_ok.mp hdecimals, hconverted, rfl⟩

theorem checkedSub_eq_ok {a b c : Nat} : checkedSub a b = .ok c ↔ b ≤ a ∧ c = a - b := by
  unfold checkedSub
  split <;> simp [*, eq_comm]

theorem deposits_of_depositERC20 (hguarded : outside.Guarded P) (hevent : event.Announces)
    (h : depositERC20 world event tokenID amount recipient destination sender allowance received
      outside s = .ok s') :
    ∃ token transfered converted, Deposits world P s s' tokenID token transfered converted := by
  obtain ⟨_, -, h⟩ := bind_eq_ok.mp h
  obtain ⟨-, s₁, hbody, rfl⟩ := nonReentrant_ok h
  obtain ⟨_, -, h⟩ := bind_eq_ok.mp hbody
  iterate 3 obtain ⟨_, -, h⟩ := bind_eq_ok.mp h
  obtain ⟨s₂, hreceive, transfered, htransfered, h⟩ := bind₂_eq_ok.mp h
  obtain ⟨hfits, hs₂⟩ := receiveToken_ok hreceive
  have hkeeps : KeepsBridge P { s with entered := true } s₂ := by
    rw [hs₂]
    exact (keepsBridge_receive hfits).trans (hguarded rfl)
  obtain ⟨decimals, nonce, converted, nonces, hdecimals, hconverted, rfl⟩ := announce_ok h
  obtain ⟨hle, htransfered⟩ := checkedSub_eq_ok.mp htransfered
  obtain ⟨hdeposit, hclaim⟩ := hevent s₂.config.chainID nonce destination tokenID converted sender
    recipient
  refine ⟨s.tokenAddressOf tokenID, transfered, converted, ?_⟩
  exact
    { isTransferProcessed := hkeeps.isTransferProcessed
      entered := rfl
      payments := hkeeps.payments
      events := ⟨_, _, _, congrArg (· ++ _) hkeeps.events, hdeposit, hclaim⟩
      tokenOf := .inl rfl
      converted := ⟨decimals, hdecimals, hconverted⟩
      received := by
        rw [htransfered]
        exact (Nat.add_sub_cancel' hle).le
      vault := hkeeps.vault
      vaultFits := hkeeps.vaultFits
      config := hkeeps.config }

theorem deposits_of_depositETH (hevent : event.Announces)
    (h : depositETH world event recipient destination sender amount s = .ok s') :
    ∃ converted, Deposits world P s s' eth world.wETH amount converted := by
  obtain ⟨_, -, h⟩ := bind_eq_ok.mp h
  obtain ⟨-, s₁, hbody, rfl⟩ := nonReentrant_ok h
  obtain ⟨_, -, _, -, s₂, hreceive, h⟩ := bind₃_eq_ok.mp hbody
  obtain ⟨hfits, rfl⟩ := receiveToken_ok hreceive
  obtain ⟨decimals, nonce, converted, nonces, hdecimals, hconverted, rfl⟩ := announce_ok h
  obtain ⟨hdeposit, hclaim⟩ := hevent s.config.chainID nonce destination eth converted sender
    recipient
  have hkeeps : KeepsBridge P s { s with
      vault := update s.vault world.wETH (s.vault world.wETH + amount) } :=
    keepsBridge_receive hfits
  refine ⟨converted, ?_⟩
  exact
    { isTransferProcessed := rfl
      entered := rfl
      payments := rfl
      events := ⟨_, _, _, rfl, hdeposit, hclaim⟩
      tokenOf := .inr ⟨rfl, rfl⟩
      converted := ⟨decimals, hdecimals, hconverted⟩
      received := by
        change _ ≤ update s.vault world.wETH _ world.wETH
        rw [update_self]
      vault := hkeeps.vault
      vaultFits := hkeeps.vaultFits
      config := hkeeps.config }

end Deposit

/-! ### The other calls -/

/-- What the other calls do: nothing is paid, and no deposit or claim is announced. -/
structure Quiet (P : Config → Prop) (s s' : State) : Prop where
  isTransferProcessed : s'.isTransferProcessed = s.isTransferProcessed
  entered : s'.entered = false
  payments : s'.payments = s.payments
  events : ∃ events, s'.events = s.events ++ events ∧
    ∀ event ∈ events, event.deposit = none ∧ event.isClaim = false
  vault : ∀ token, s.vault token ≤ s'.vault token
  vaultFits : ∀ token, s.vault token ≤ uint256Max → s'.vault token ≤ uint256Max
  config : P s.config → P s'.config

theorem KeepsBridge.quiet (h : KeepsBridge P s s') (hentered : s.entered = false) : Quiet P s s' :=
  ⟨h.isTransferProcessed, h.entered.trans hentered, h.payments,
    ⟨[], by rw [h.events, List.append_nil], nofun⟩, h.vault, h.vaultFits, h.config⟩

theorem setPaused_ok {isFreezing : Bool} (h : setPaused s isFreezing = .ok s') :
    s' = { s with paused := isFreezing } := by
  unfold setPaused at h
  cases isFreezing with
  | true | false =>
    obtain ⟨_, -, h⟩ := bind_eq_ok.mp h
    exact (Except.ok.inj h).symm

theorem quiet_of_emergencyOp
    (h : executeEmergencyOpWithSignatures world signatures message s = .ok s') : Quiet P s s' := by
  obtain ⟨-, s₁, hbody, rfl⟩ := nonReentrant_ok h
  obtain ⟨s₂, hverify, h⟩ := bind_eq_ok.mp hbody
  iterate 5 obtain ⟨_, -, hverify⟩ := bind_eq_ok.mp hverify
  cases hverify
  obtain ⟨isFreezing, -, s₃, hpause, h⟩ := bind₂_eq_ok.mp h
  rw [setPaused_ok hpause] at h
  cases h
  refine ⟨rfl, rfl, rfl, ⟨_, rfl, ?_⟩, fun _ => Nat.le_refl _, fun _ => id, id⟩
  simp [Event.isClaim, Event.deposit]

def Call.paidMessage : Call → Option Message
  | .transferBridgedTokensWithSignatures _ message _ _ => some message
  | .transferBridgedTokensWithSignaturesV2 _ message _ _ => some message
  | _ => none

/-- What a call does between runs of the guard; `paid` is the message that it pays, if any. -/
inductive Step (world : World) (P : Config → Prop) (paid : Option Message) (s s' : State) :
    Prop where
  | claims {message : Message} {transfer : TokenTransferPayload} {amount : Nat}
      (hpaid : paid = some message) (h : Claims world P s s' message transfer amount)
  | deposits {tokenID : UInt8} {token : EthAddress} {received : Nat} {amount : UInt64}
      (h : Deposits world P s s' tokenID token received amount)
  | quiet (h : Quiet P s s')

theorem Call.run_claims (hupdates : call.Updates P)
    (hmessage : call.paidMessage = some message) (h : call.run world now s = .ok s') :
    ∃ transfer amount, Claims world P s s' message transfer amount := by
  cases call with
  | transferBridgedTokensWithSignatures signatures message' accepts during =>
    cases hmessage
    refine claims_of_transferBody decodeV1_ok ?_ h
    intro _ _ _ _ _ _ hguard hpaid
    exact transferTokensFromVault_ok (guarded_runAll accepts hupdates) hguard hpaid
  | transferBridgedTokensWithSignaturesV2 signatures message' accepts during =>
    cases hmessage
    refine claims_of_transferBody decodeV2_ok ?_ h
    intro _ _ _ _ _ _ hguard hpaid
    exact transferTokensFromVaultV2_ok (guarded_runAll accepts hupdates) hguard hpaid
  | _ => cases hmessage

theorem tokensDeposited_announces : DepositEvent.Announces .tokensDeposited :=
  fun _ _ _ _ _ _ _ => ⟨rfl, rfl⟩

theorem tokensDepositedV2_announces (timestamp : Nat) :
    DepositEvent.Announces (fun c n d t a s r => .tokensDepositedV2 c n d t a s r timestamp) :=
  fun _ _ _ _ _ _ _ => ⟨rfl, rfl⟩

/-- **What a call does** between runs of the guard: it claims one transfer, announces one
    deposit, or does neither. -/
theorem Call.run_ok (hupdates : call.Updates P) (hentered : s.entered = false)
    (h : call.run world now s = .ok s') : Step world P call.paidMessage s s' := by
  cases call with
  | transferBridgedTokensWithSignatures | transferBridgedTokensWithSignaturesV2 =>
    obtain ⟨transfer, amount, hclaims⟩ := Call.run_claims hupdates rfl h
    exact .claims rfl hclaims
  | executeEmergencyOpWithSignatures => exact .quiet (quiet_of_emergencyOp h)
  | bridgeERC20 =>
    obtain ⟨_, _, _, hdeposits⟩ := deposits_of_depositERC20 (guarded_runAll _ hupdates)
      tokensDeposited_announces h
    exact .deposits hdeposits
  | bridgeERC20V2 =>
    obtain ⟨_, _, _, hdeposits⟩ := deposits_of_depositERC20 (guarded_runAll _ hupdates)
      (tokensDepositedV2_announces now) h
    exact .deposits hdeposits
  | bridgeETH =>
    obtain ⟨_, hdeposits⟩ := deposits_of_depositETH tokensDeposited_announces h
    exact .deposits hdeposits
  | bridgeETHV2 =>
    obtain ⟨_, hdeposits⟩ := deposits_of_depositETH (tokensDepositedV2_announces now) h
    exact .deposits hdeposits
  | update =>
    cases h
    exact .quiet (KeepsBridge.quiet
      ⟨rfl, rfl, rfl, rfl, fun _ => Nat.le_refl _, fun _ => id, fun _ => hupdates⟩ hentered)
  | donate =>
    obtain ⟨hfits, rfl⟩ := receiveToken_ok h
    exact .quiet ((keepsBridge_receive hfits).quiet hentered)

end Haneul.Bridge.Evm
