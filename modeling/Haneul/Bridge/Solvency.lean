import Haneul.Bridge.BridgeRuns
import Haneul.Bridge.EvmRuns

/-!
# Both sides of the bridge

One token that is bridged: on Ethereum it waits in the vault, on Haneul its coins go round.  A
deposit is rounded down to what Haneul can count; a payment is scaled up exactly.  The two
bridges run side by side in any order, and the committee relays: it signs a transfer to Haneul
only for a deposit, and a transfer to Ethereum only for coins that were burned.

That no deposit is minted twice and no burn is paid twice is not assumed; each bridge sees to it
for itself.
-/

namespace Haneul.Bridge

open List

variable {event : Event} {paid : Option Evm.Message}

open Evm (EthAddress World State Event Config convertERC20ToHaneulDecimal
  convertHaneulToERC20Decimal uint256Max)

structure BridgedToken where
  tokenID : UInt8
  tokenAddress : EthAddress
  erc20Decimal : UInt8
  haneulDecimal : UInt8
  coinType : TypeName
  address_ne : tokenAddress ≠ Evm.zeroAddress

/-- How many units of Ethereum a unit of Haneul is. -/
def decimalScale (erc20Decimal haneulDecimal : UInt8) : Nat :=
  10 ^ (erc20Decimal.toNat - haneulDecimal.toNat)

/-! ### Conversions -/

section Convert

variable {erc20Decimal haneulDecimal : UInt8} {amount : Nat} {converted : UInt64}

theorem decimalScale_self : decimalScale erc20Decimal erc20Decimal = 1 := by
  simp [decimalScale]

theorem decimalFactor_eq_ok {factor : Nat} :
    Evm.decimalFactor erc20Decimal haneulDecimal = .ok factor ↔
      haneulDecimal < erc20Decimal ∧ factor = decimalScale erc20Decimal haneulDecimal ∧
        factor ≤ uint256Max := by
  unfold Evm.decimalFactor
  rw [bind_eq_ok]
  constructor
  · rintro ⟨_, hlt, h⟩
    obtain ⟨hfits, rfl⟩ := Evm.fits_eq_ok.mp h
    exact ⟨by simpa using hlt, rfl, hfits⟩
  · rintro ⟨hlt, rfl, hfits⟩
    exact ⟨(), by simpa using hlt, Evm.fits_eq_ok.mpr ⟨hfits, rfl⟩⟩

theorem toNat_ofNat_of_le {n : Nat} (h : n ≤ u64Max) : (UInt64.ofNat n).toNat = n := by
  rw [UInt64.toNat_ofNat']
  exact Nat.mod_eq_of_lt (by unfold u64Max at h; omega)

theorem convertERC20ToHaneulDecimal_ok
    (h : convertERC20ToHaneulDecimal erc20Decimal haneulDecimal amount = .ok converted) :
    haneulDecimal ≤ erc20Decimal ∧ 0 < converted.toNat ∧
      converted.toNat * decimalScale erc20Decimal haneulDecimal ≤ amount := by
  unfold convertERC20ToHaneulDecimal at h
  split at h
  case isTrue hsame =>
      subst hsame
      obtain ⟨_, hpos, _, hfits, h⟩ := bind₂_eq_ok.mp h
      cases h
      rw [Evm.require_eq_ok, decide_eq_true_eq] at hpos hfits
      rw [toNat_ofNat_of_le hfits, decimalScale_self, Nat.mul_one]
      exact ⟨UInt8.le_refl _, hpos, Nat.le_refl _⟩
  case isFalse =>
      obtain ⟨factor, hfactor, _, hfits, _, hpos, h⟩ := bind₃_eq_ok.mp h
      obtain ⟨hlt, rfl, -⟩ := decimalFactor_eq_ok.mp hfactor
      cases h
      rw [Evm.require_eq_ok, decide_eq_true_eq] at hpos hfits
      rw [toNat_ofNat_of_le hfits]
      exact ⟨UInt8.le_of_lt hlt, hpos, Nat.div_mul_le_self _ _⟩

theorem convertHaneulToERC20Decimal_ok
    (h : convertHaneulToERC20Decimal erc20Decimal haneulDecimal converted = .ok amount) :
    amount = converted.toNat * decimalScale erc20Decimal haneulDecimal := by
  unfold convertHaneulToERC20Decimal at h
  split at h
  case isTrue hsame =>
      subst hsame
      cases h
      rw [decimalScale_self, Nat.mul_one]
  case isFalse =>
      obtain ⟨factor, hfactor, h⟩ := bind_eq_ok.mp h
      obtain ⟨-, rfl, -⟩ := decimalFactor_eq_ok.mp hfactor
      exact (Evm.fits_eq_ok.mp h).2

theorem convertHaneulToERC20Decimal_of_fits (hle : haneulDecimal ≤ erc20Decimal)
    (hpos : 0 < converted.toNat)
    (hfits : converted.toNat * decimalScale erc20Decimal haneulDecimal ≤ uint256Max) :
    convertHaneulToERC20Decimal erc20Decimal haneulDecimal converted =
      .ok (converted.toNat * decimalScale erc20Decimal haneulDecimal) := by
  unfold convertHaneulToERC20Decimal
  split
  case isTrue hsame =>
      subst hsame
      rw [decimalScale_self, Nat.mul_one]
  case isFalse hne =>
      have hfactor : Evm.decimalFactor erc20Decimal haneulDecimal =
          .ok (decimalScale erc20Decimal haneulDecimal) := by
        refine decimalFactor_eq_ok.mpr ⟨UInt8.lt_of_le_of_ne hle hne, rfl, ?_⟩
        exact (Nat.le_mul_of_pos_left _ hpos).trans hfits
      rw [hfactor]
      exact Evm.fits_eq_ok.mpr ⟨hfits, rfl⟩

end Convert

variable {crypto : Crypto} {world : World} {chainId : UInt8} {token : BridgedToken}
  {s s' : State} {inner inner' : BridgeInner} {history : List BridgeEffect}

def BridgedToken.scale (token : BridgedToken) : Nat :=
  decimalScale token.erc20Decimal token.haneulDecimal

/-! ### The vault -/

/-- The configuration has the token under its id and no other, and Ether is wrapped Ether. -/
structure Fixes (world : World) (token : BridgedToken) (config : Config) : Prop where
  registered : config.supportedTokens token.tokenID = ⟨token.tokenAddress, token.haneulDecimal⟩
  others : ∀ id, id ≠ token.tokenID → (config.supportedTokens id).tokenAddress ≠ token.tokenAddress
  ether : (config.supportedTokens Evm.eth).tokenAddress = world.wETH ∨
    (config.supportedTokens Evm.eth).tokenAddress = Evm.zeroAddress

/-- What an event announces as deposited, in units of Haneul. -/
def depositedOf (token : BridgedToken) (event : Event) : Nat :=
  match event.deposit with
  | some (_, _, id, amount) => if id = token.tokenID then amount.toNat else 0
  | none => 0

/-- What an event announces as paid, in units of Ethereum. -/
def claimedOf (token : BridgedToken) : Event → Nat
  | .tokensClaimed _ _ _ id amount _ _ => if id = token.tokenID then amount else 0
  | _ => 0

def depositedTotal (token : BridgedToken) (events : List Event) : Nat :=
  (events.map (depositedOf token)).sum

def claimedTotal (token : BridgedToken) (events : List Event) : Nat :=
  (events.map (claimedOf token)).sum

@[simp] theorem depositedTotal_append (events events' : List Event) :
    depositedTotal token (events ++ events') =
      depositedTotal token events + depositedTotal token events' := by
  simp [depositedTotal]

@[simp] theorem claimedTotal_append (events events' : List Event) :
    claimedTotal token (events ++ events') =
      claimedTotal token events + claimedTotal token events' := by
  simp [claimedTotal]

@[simp] theorem depositedTotal_singleton (event : Event) :
    depositedTotal token [event] = depositedOf token event := by
  simp [depositedTotal]

@[simp] theorem claimedTotal_singleton (event : Event) :
    claimedTotal token [event] = claimedOf token event := by
  simp [claimedTotal]

theorem claimedOf_of_not_claim (h : event.isClaim = false) :
    claimedOf token event = 0 := by
  cases event with
  | tokensClaimed => cases h
  | _ => rfl

theorem depositedOf_of_none (h : event.deposit = none) :
    depositedOf token event = 0 := by
  unfold depositedOf
  rw [h]

/-- What was deposited is in the vault or was paid. -/
structure Backed (world : World) (token : BridgedToken) (s : State) : Prop where
  fixes : Fixes world token s.config
  backed : depositedTotal token s.events * token.scale ≤
    s.vault token.tokenAddress + claimedTotal token s.events
  vaultFits : s.vault token.tokenAddress ≤ uint256Max
  scaled : 0 < depositedTotal token s.events → token.haneulDecimal ≤ token.erc20Decimal

theorem Fixes.payoutToken (h : Fixes world token s.config) {id : UInt8}
    (hsupported : s.tokenAddressOf id ≠ Evm.zeroAddress)
    (hpaid : Evm.payoutToken world s id = token.tokenAddress) : id = token.tokenID := by
  have haddress : Evm.payoutToken world s id = s.tokenAddressOf id := by
    unfold Evm.payoutToken
    split
    case isTrue heth =>
        subst heth
        exact (h.ether.resolve_right hsupported).symm
    case isFalse => rfl
  by_contra hne
  exact h.others id hne (haddress.symm.trans hpaid)

theorem Fixes.wETH (h : Fixes world token s.config) (heth : token.tokenID = Evm.eth) :
    world.wETH = token.tokenAddress := by
  have haddress : (s.config.supportedTokens Evm.eth).tokenAddress = token.tokenAddress := by
    rw [← heth, h.registered]
  rcases h.ether with hweth | hzero
  · exact hweth.symm.trans haddress
  · exact absurd (haddress.symm.trans hzero) token.address_ne

section

variable (hinv : Backed world token s)
include hinv

theorem Backed.claims {message : Evm.Message} {transfer : Evm.TokenTransferPayload} {amount : Nat}
    (h : Evm.Claims world (Fixes world token) s s' message transfer amount) :
    Backed world token s' := by
  obtain ⟨target, hevents⟩ := h.events
  have hclaimed : claimedTotal token s'.events = claimedTotal token s.events +
      if transfer.tokenID = token.tokenID then amount else 0 := by
    rw [hevents, claimedTotal_append, claimedTotal_singleton]
    rfl
  have hdeposited : depositedTotal token s'.events = depositedTotal token s.events := by
    rw [hevents, depositedTotal_append, depositedTotal_singleton]
    rfl
  have hvault : s.vault token.tokenAddress ≤ s'.vault token.tokenAddress +
      if transfer.tokenID = token.tokenID then amount else 0 := by
    refine (h.vault token.tokenAddress).trans (Nat.add_le_add_left ?_ _)
    by_cases hpaid : token.tokenAddress = Evm.payoutToken world s transfer.tokenID
    · rw [if_pos hpaid, if_pos (hinv.fixes.payoutToken h.supported hpaid.symm)]
    · rw [if_neg hpaid]
      exact Nat.zero_le _
  have hbacked := hinv.backed
  refine ⟨h.config hinv.fixes, ?_, h.vaultFits _ hinv.vaultFits, hdeposited ▸ hinv.scaled⟩
  rw [hclaimed, hdeposited]
  omega

theorem Backed.deposits (hdecimals : world.decimals token.tokenAddress = some token.erc20Decimal)
    {id : UInt8} {address : EthAddress} {received : Nat} {amount : UInt64}
    (h : Evm.Deposits world (Fixes world token) s s' id address received amount) :
    Backed world token s' := by
  obtain ⟨event, chainID, nonce, hevents, hdeposit, hclaim⟩ := h.events
  have hfixes := h.config hinv.fixes
  have hclaimed : claimedTotal token s'.events = claimedTotal token s.events := by
    rw [hevents, claimedTotal_append, claimedTotal_singleton, claimedOf_of_not_claim hclaim,
      Nat.add_zero]
  have hdeposited : depositedTotal token s'.events = depositedTotal token s.events +
      if id = token.tokenID then amount.toNat else 0 := by
    rw [hevents, depositedTotal_append, depositedTotal_singleton, depositedOf, hdeposit]
  have hbacked := hinv.backed
  by_cases hid : id = token.tokenID
  · subst hid
    obtain ⟨decimals, hsome, hconvert⟩ := h.converted
    have haddress : s.tokenAddressOf token.tokenID = token.tokenAddress := by
      rw [State.tokenAddressOf, hinv.fixes.registered]
    have hdecimal : s'.tokenHaneulDecimalOf token.tokenID = token.haneulDecimal := by
      rw [State.tokenHaneulDecimalOf, hfixes.registered]
    rw [haddress, hdecimals, Option.some.injEq] at hsome
    rw [hdecimal, ← hsome] at hconvert
    obtain ⟨hle, -, hround⟩ := convertERC20ToHaneulDecimal_ok hconvert
    have harrived : address = token.tokenAddress := by
      rcases h.tokenOf with htoken | ⟨heth, hweth⟩
      · exact htoken.trans haddress
      · exact hweth.trans (hinv.fixes.wETH heth)
    have hvault := h.received
    rw [harrived] at hvault
    refine ⟨hfixes, ?_, h.vaultFits _ hinv.vaultFits, fun _ => hle⟩
    rw [hclaimed, hdeposited, if_pos rfl, Nat.add_mul]
    unfold BridgedToken.scale at hbacked ⊢
    omega
  · rw [if_neg hid, Nat.add_zero] at hdeposited
    have hvault := h.vault token.tokenAddress
    refine ⟨hfixes, ?_, h.vaultFits _ hinv.vaultFits, hdeposited ▸ hinv.scaled⟩
    rw [hclaimed, hdeposited]
    omega

theorem Backed.quiet (h : Evm.Quiet (Fixes world token) s s') :
    Backed world token s' := by
  obtain ⟨events, hevents, hother⟩ := h.events
  have hclaimed : claimedTotal token s'.events = claimedTotal token s.events := by
    have hzero : claimedTotal token events = 0 := by
      apply sum_eq_zero
      simp only [mem_map, forall_exists_index, and_imp]
      rintro _ event hevent rfl
      exact claimedOf_of_not_claim (hother event hevent).2
    rw [hevents, claimedTotal_append, hzero, Nat.add_zero]
  have hdeposited : depositedTotal token s'.events = depositedTotal token s.events := by
    have hzero : depositedTotal token events = 0 := by
      apply sum_eq_zero
      simp only [mem_map, forall_exists_index, and_imp]
      rintro _ event hevent rfl
      exact depositedOf_of_none (hother event hevent).1
    rw [hevents, depositedTotal_append, hzero, Nat.add_zero]
  have hvault := h.vault token.tokenAddress
  have hbacked := hinv.backed
  refine ⟨h.config hinv.fixes, ?_, h.vaultFits _ hinv.vaultFits, hdeposited ▸ hinv.scaled⟩
  rw [hclaimed, hdeposited]
  omega

theorem Backed.step (hdecimals : world.decimals token.tokenAddress = some token.erc20Decimal)
    (h : Evm.Step world (Fixes world token) paid s s') : Backed world token s' := by
  cases h with
  | claims _ h => exact hinv.claims h
  | deposits h => exact hinv.deposits hdecimals h
  | quiet h => exact hinv.quiet h

end

/-! ### Both bridges together -/

/-- The deposit that coins are minted for. -/
def isDepositFor (key : BridgeMessageKey) (event : Event) : Bool :=
  match event.deposit with
  | some (chainID, nonce, _, _) => decide (⟨chainID, MessageTypes.token, nonce⟩ = key)
  | none => false

/-- The burn that a transfer is paid for. -/
def isBurnFor (key : UInt8 × UInt64) : BridgeEffect → Bool
  | .burned message _ => decide ((message.sourceChain, message.seqNum) = key)
  | _ => false

/-- Coins of the token are minted for a deposit of as much. -/
def FromDeposit (token : BridgedToken) (events : List Event) (key : BridgeMessageKey)
    (coin : Coin) : Prop :=
  ∃ event ∈ events, isDepositFor key event = true ∧ depositedOf token event = coin.value

/-- A transfer of the token is paid for coins that were burned, as many. -/
def FromBurn (token : BridgedToken) (history : List BridgeEffect) (message : Evm.Message)
    (amount : Nat) : Prop :=
  ∃ burn coin, BridgeEffect.burned burn coin ∈ history ∧
    (burn.sourceChain, burn.seqNum) = (message.chainID, message.nonce) ∧
    coin.coinType = token.coinType ∧ coin.value = amount

/-- The two bridges side by side.  The committee signs what happened on the other side. -/
inductive CrossingRun (crypto : Crypto) (world : World) (chainId : UInt8) (token : BridgedToken) :
    State → List BridgeEffect → BridgeInner → Prop where
  | start {s : State} (hinitial : Evm.Initial s) (hfixes : Fixes world token s.config)
      (hvault : s.vault token.tokenAddress ≤ uint256Max) :
      CrossingRun crypto world chainId token s [] (BridgeInner.create chainId)
  | evm {s s' : State} {history : List BridgeEffect} {inner : BridgeInner} (now : Nat)
      (call : Evm.Call) (run : CrossingRun crypto world chainId token s history inner)
      (hupdates : call.Updates (Fixes world token))
      (hrelay : ∀ message transfer, call.paidMessage = some message → message.AsksFor transfer →
        transfer.tokenID = token.tokenID → FromBurn token history message transfer.amount.toNat)
      (h : call.run world now s = .ok s') :
      CrossingRun crypto world chainId token s' history inner
  | haneul {s : State} {history : List BridgeEffect} {inner inner' : BridgeInner}
      {effect : BridgeEffect} (call : BridgeCall)
      (run : CrossingRun crypto world chainId token s history inner)
      (hrelay : ∀ key coin recipient, effect = .minted key coin recipient →
        coin.coinType = token.coinType → FromDeposit token s.events key coin)
      (h : call.run crypto inner = .ok (inner', effect)) :
      CrossingRun crypto world chainId token s (history ++ [effect]) inner'

theorem step_events {P : Config → Prop}
    (h : Evm.Step world P paid s s') : ∃ events, s'.events = s.events ++ events := by
  cases h with
  | claims _ h =>
    obtain ⟨target, hevents⟩ := h.events
    exact ⟨_, hevents⟩
  | deposits h =>
    obtain ⟨event, _, _, hevents, -⟩ := h.events
    exact ⟨_, hevents⟩
  | quiet h =>
    obtain ⟨events, hevents, -⟩ := h.events
    exact ⟨_, hevents⟩

variable {key : BridgeMessageKey}

theorem FromDeposit.mono {events events' : List Event} {coin : Coin}
    (h : FromDeposit token events key coin) : FromDeposit token (events ++ events') key coin := by
  obtain ⟨event, hevent, hrest⟩ := h
  exact ⟨event, mem_append_left _ hevent, hrest⟩

/-- What a transfer was paid for: coins that were burned, at their scale. -/
def PaidFor (token : BridgedToken) (history : List BridgeEffect) (event : Event) : Prop :=
  ∃ key burn coin, event.claimsFor key.1 key.2 = true ∧ BridgeEffect.burned burn coin ∈ history ∧
    isBurnFor key (.burned burn coin) = true ∧ coin.coinType = token.coinType ∧
    claimedOf token event = coin.value * token.scale

theorem paidFor_of_step (hdecimals : world.decimals token.tokenAddress = some token.erc20Decimal)
    (hfixes : Fixes world token s.config)
    (hrelay : ∀ message transfer, paid = some message → message.AsksFor transfer →
      transfer.tokenID = token.tokenID → FromBurn token history message transfer.amount.toNat)
    (h : Evm.Step world (Fixes world token) paid s s') (hevent : event ∈ s'.events)
    (hne : claimedOf token event ≠ 0) : event ∈ s.events ∨ PaidFor token history event := by
  cases h with
  | deposits h =>
    obtain ⟨event', _, _, hevents, -, hclaim⟩ := h.events
    rw [hevents, mem_append, mem_singleton] at hevent
    refine .inl (hevent.resolve_right ?_)
    rintro rfl
    exact hne (claimedOf_of_not_claim hclaim)
  | quiet h =>
    obtain ⟨events, hevents, hother⟩ := h.events
    rw [hevents, mem_append] at hevent
    exact .inl (hevent.resolve_right fun hnew =>
      hne (claimedOf_of_not_claim (hother event hnew).2))
  | @claims message transfer amount hpaid h =>
    obtain ⟨target, hevents⟩ := h.events
    rw [hevents, mem_append, mem_singleton] at hevent
    refine hevent.imp_right ?_
    rintro rfl
    have hid : transfer.tokenID = token.tokenID := by
      by_contra hother
      exact hne (if_neg hother)
    obtain ⟨burn, coin, hburn, hkey, hcoin, hvalue⟩ := hrelay message transfer hpaid h.asksFor hid
    refine ⟨(message.chainID, message.nonce), burn, coin, ?_, hburn, decide_eq_true hkey, hcoin, ?_⟩
    · simp [Event.claimsFor]
    · obtain ⟨decimals, hsome, hconvert⟩ := h.converted
      rw [hid, State.tokenAddressOf, hfixes.registered, hdecimals, Option.some.injEq] at hsome
      rw [hid, State.tokenHaneulDecimalOf, hfixes.registered, ← hsome] at hconvert
      rw [hvalue, claimedOf, if_pos hid, convertHaneulToERC20Decimal_ok hconvert]
      rfl

structure CrossingInv (crypto : Crypto) (world : World) (token : BridgedToken) (s : State)
    (history : List BridgeEffect) (inner : BridgeInner) : Prop where
  evm : Evm.Inv world s
  backed : Backed world token s
  haneul : BridgeInv crypto history inner
  minted : ∀ {key coin recipient}, BridgeEffect.minted key coin recipient ∈ history →
    coin.coinType = token.coinType → FromDeposit token s.events key coin
  claimed : ∀ {event}, event ∈ s.events → claimedOf token event ≠ 0 → PaidFor token history event

theorem CrossingRun.inv (hchain : isHaneulChain chainId = true)
    (hdecimals : world.decimals token.tokenAddress = some token.erc20Decimal)
    (h : CrossingRun crypto world chainId token s history inner) :
    CrossingInv crypto world token s history inner := by
  induction h with
  | start hinitial hfixes hvault =>
    refine ⟨hinitial.inv, ⟨hfixes, ?_, hvault, ?_⟩, BridgeRun.start.inv hchain, nofun, ?_⟩
    · rw [hinitial.events]
      simp [depositedTotal]
    · rw [hinitial.events]
      exact fun h => absurd h (Nat.lt_irrefl 0)
    · rw [hinitial.events]
      exact nofun
  | evm now call _ hupdates hrelay h ih =>
    have hstep := Evm.Call.run_ok hupdates ih.evm.entered h
    obtain ⟨events, hevents⟩ := step_events hstep
    refine ⟨ih.evm.step hstep, ih.backed.step hdecimals hstep, ih.haneul, ?_, ?_⟩
    · intro key coin recipient hmem hcoin
      rw [hevents]
      exact (ih.minted hmem hcoin).mono
    · intro event hevent hne
      rcases paidFor_of_step hdecimals ih.backed.fixes hrelay hstep hevent hne with hold | hnew
      · exact ih.claimed hold hne
      · exact hnew
  | haneul call _ hrelay h ih =>
    refine ⟨ih.evm, ih.backed, ih.haneul.step (BridgeCall.run_ok h), ?_, ?_⟩
    · intro key coin recipient hmem hcoin
      rcases mem_snoc.mp hmem with hold | heq
      · exact ih.minted hold hcoin
      · exact hrelay _ _ _ heq.symm hcoin
    · intro event hevent hne
      obtain ⟨key, burn, coin, hclaims, hburn, hrest⟩ := ih.claimed hevent hne
      exact ⟨key, burn, coin, hclaims, mem_append_left _ hburn, hrest⟩

/-! ### Solvency -/

def isMinted (history : List BridgeEffect) (key : BridgeMessageKey) : Bool :=
  history.any (BridgeEffect.mintsFor key)

def isPaid (events : List Event) (message : BridgeMessage) : Bool :=
  events.any (Event.claimsFor message.sourceChain message.seqNum)

/-- What an event announces as deposited, if its coins are not minted yet. -/
def unmintedOf (token : BridgedToken) (history : List BridgeEffect) (event : Event) : Nat :=
  match event.deposit with
  | some (chainID, nonce, _, _) =>
    if isMinted history ⟨chainID, MessageTypes.token, nonce⟩ then 0 else depositedOf token event
  | none => 0

/-- What was burned of the coins of the token, if it is not paid yet. -/
def unpaidOf (token : BridgedToken) (events : List Event) : BridgeEffect → Nat
  | .burned message coin =>
    if coin.coinType = token.coinType ∧ isPaid events message = false then coin.value else 0
  | _ => 0

def unmintedDeposits (token : BridgedToken) (events : List Event) (history : List BridgeEffect) :
    Nat :=
  (events.map (unmintedOf token history)).sum

def unpaidBurns (token : BridgedToken) (events : List Event) (history : List BridgeEffect) : Nat :=
  (history.map (unpaidOf token events)).sum

def coinSupply (token : BridgedToken) (inner : BridgeInner) : Nat :=
  (inner.treasury.treasuries token.coinType).getD 0

theorem coinSupply_add (hinv : SupplyInv history inner.treasury) :
    coinSupply token inner + burnedTotal history token.coinType =
      mintedTotal history token.coinType := by
  unfold coinSupply
  cases hsupply : inner.treasury.treasuries token.coinType with
  | none =>
    obtain ⟨hburned, hminted⟩ := hinv.unknown _ hsupply
    rw [hburned, hminted]
    rfl
  | some supply => exact hinv.supply _ supply hsupply

/-- A sum in which some entries are left out, and what they come to. -/
theorem sum_split {α : Type} (xs : List α) {v w u : α → Nat} (h : ∀ x ∈ xs, v x + w x ≤ u x) :
    (xs.map v).sum + (xs.map w).sum ≤ (xs.map u).sum := by
  induction xs with
  | nil => exact Nat.le_refl 0
  | cons x xs ih =>
    have hx := h x (.head _)
    have hxs := ih fun y hy => h y (.tail x hy)
    simp only [map_cons, sum_cons]
    omega

theorem isDepositFor_iff :
    isDepositFor key event = true ↔ ∃ chainID nonce id amount,
      event.deposit = some (chainID, nonce, id, amount) ∧ ⟨chainID, MessageTypes.token, nonce⟩ = key := by
  unfold isDepositFor
  cases event.deposit with
  | none => simp
  | some deposit =>
    obtain ⟨chainID, nonce, id, amount⟩ := deposit
    simp

theorem isDepositFor_unique (key key' : BridgeMessageKey) (event : Event)
    (h : isDepositFor key event = true) (h' : isDepositFor key' event = true) : key = key' := by
  obtain ⟨chainID, nonce, id, amount, hdeposit, rfl⟩ := isDepositFor_iff.mp h
  obtain ⟨chainID', nonce', id', amount', hdeposit', rfl⟩ := isDepositFor_iff.mp h'
  rw [hdeposit] at hdeposit'
  cases hdeposit'
  rfl

theorem isBurnFor_unique (key key' : UInt8 × UInt64) (effect : BridgeEffect)
    (h : isBurnFor key effect = true) (h' : isBurnFor key' effect = true) : key = key' := by
  cases effect with
  | burned => exact (of_decide_eq_true h).symm.trans (of_decide_eq_true h')
  | _ => cases h

theorem unmintedOf_le
    (event : Event) : unmintedOf token history event ≤ depositedOf token event := by
  unfold unmintedOf
  split
  · split
    · exact Nat.zero_le _
    · exact Nat.le_refl _
  · exact Nat.zero_le _

theorem unmintedOf_of_minted
    (hdeposit : isDepositFor key event = true) (hminted : isMinted history key = true) :
    unmintedOf token history event = 0 := by
  obtain ⟨chainID, nonce, id, amount, hsome, rfl⟩ := isDepositFor_iff.mp hdeposit
  unfold unmintedOf
  rw [hsome]
  exact if_pos hminted

theorem unpaidOf_le (effect : BridgeEffect) {events : List Event} :
    unpaidOf token events effect ≤ effect.burnedValue token.coinType := by
  cases effect with
  | burned message coin =>
    rw [unpaidOf, BridgeEffect.burnedValue]
    split_ifs with hunpaid hcoin hcoin
    · exact Nat.le_refl _
    · exact absurd hunpaid.1 hcoin
    · exact Nat.zero_le _
    · exact Nat.le_refl 0
  | _ => exact Nat.le_refl 0

theorem unpaidOf_of_paid {message : BridgeMessage} {coin : Coin} {events : List Event}
    (hpaid : isPaid events message = true) : unpaidOf token events (.burned message coin) = 0 := by
  refine if_neg ?_
  rw [hpaid]
  exact fun h => Bool.noConfusion h.2

section Solvent

variable (hinv : CrossingInv crypto world token s history inner)
include hinv

theorem CrossingInv.minted_le :
    mintedTotal history token.coinType + unmintedDeposits token s.events history ≤
      depositedTotal token s.events := by
  have hmatched : History.Matched BridgeEffect.mintsFor isDepositFor
      (BridgeEffect.mintedValue token.coinType)
      (fun event => depositedOf token event - unmintedOf token history event) history s.events := by
    intro effect heffect
    cases effect with
    | minted key coin recipient =>
      by_cases hcoin : coin.coinType = token.coinType
      · obtain ⟨event, hevent, hdeposit, hvalue⟩ := hinv.minted heffect hcoin
        have hself : BridgeEffect.mintsFor key (.minted key coin recipient) = true := by
          simp [BridgeEffect.mintsFor]
        have hminted : isMinted history key = true := any_eq_true.mpr ⟨_, heffect, hself⟩
        refine .inr ⟨key, event, hself, hevent, hdeposit, ?_⟩
        dsimp only
        rw [unmintedOf_of_minted hdeposit hminted, hvalue, BridgeEffect.mintedValue, if_pos hcoin]
        exact Nat.le_refl _
      · exact .inl (if_neg hcoin)
    | _ => exact .inl rfl
  have hle := hmatched.sum_le isDepositFor_unique hinv.haneul.records.once
  have hsum : _ + unmintedDeposits token s.events history ≤ depositedTotal token s.events :=
    sum_split s.events fun event _ => (Nat.sub_add_cancel (unmintedOf_le event)).le
  exact (Nat.add_le_add_right hle _).trans hsum

theorem CrossingInv.claimed_le :
    claimedTotal token s.events + unpaidBurns token s.events history * token.scale ≤
      burnedTotal history token.coinType * token.scale := by
  have hmatched : History.Matched (fun key : UInt8 × UInt64 => Event.claimsFor key.1 key.2) isBurnFor
      (claimedOf token)
      (fun effect => (effect.burnedValue token.coinType - unpaidOf token s.events effect) *
        token.scale) s.events history := by
    intro event hevent
    by_cases hzero : claimedOf token event = 0
    · exact .inl hzero
    · obtain ⟨key, burn, coin, hclaims, hburn, hkey, hcoin, hvalue⟩ := hinv.claimed hevent hzero
      refine .inr ⟨key, _, hclaims, hburn, hkey, ?_⟩
      have hpaid : isPaid s.events burn = true := by
        refine any_eq_true.mpr ⟨event, hevent, ?_⟩
        rw [← of_decide_eq_true hkey] at hclaims
        exact hclaims
      dsimp only
      rw [unpaidOf_of_paid hpaid, hvalue, BridgeEffect.burnedValue, if_pos hcoin]
      exact Nat.le_refl _
  have hle := hmatched.sum_le isBurnFor_unique fun key => hinv.evm.claimsFor_le key.1 key.2
  have hsum : _ + unpaidBurns token s.events history ≤ burnedTotal history token.coinType :=
    sum_split history fun effect _ => (Nat.sub_add_cancel (unpaidOf_le effect)).le
  have hscaled := Nat.mul_le_mul_right token.scale hsum
  rw [Nat.add_mul] at hscaled
  rw [sum_map_mul_right] at hle
  exact (Nat.add_le_add_right hle _).trans hscaled

theorem CrossingInv.solvent :
    (coinSupply token inner + unpaidBurns token s.events history +
      unmintedDeposits token s.events history) * token.scale ≤ s.vault token.tokenAddress := by
  have hsupply := @coinSupply_add token inner history hinv.haneul.supply
  have hminted := Nat.mul_le_mul_right token.scale hinv.minted_le
  have hclaimed := hinv.claimed_le
  have hbacked := hinv.backed.backed
  rw [← hsupply] at hminted
  simp only [Nat.add_mul] at hminted ⊢
  omega

theorem CrossingInv.unpaid {message : BridgeMessage} {coin : Coin}
    (hburned : BridgeEffect.burned message coin ∈ history) (hcoin : coin.coinType = token.coinType)
    (hunpaid : isPaid s.events message = false) :
    coin.value * token.scale ≤ s.vault token.tokenAddress ∧
      token.haneulDecimal ≤ token.erc20Decimal := by
  have hvalue : coin.value ≤ unpaidBurns token s.events history := by
    have hof : unpaidOf token s.events (.burned message coin) = coin.value :=
      if_pos ⟨hcoin, hunpaid⟩
    obtain ⟨l, r, heq⟩ := append_of_mem hburned
    rw [unpaidBurns, heq, History.sum_append_cons, hof]
    exact Nat.le_add_right _ _
  constructor
  · refine (Nat.mul_le_mul_right token.scale ?_).trans hinv.solvent
    omega
  · apply hinv.backed.scaled
    have hpos := (hinv.haneul.records.sent hburned).1
    have hle : _ + unpaidBurns token s.events history ≤ burnedTotal history token.coinType :=
      sum_split history fun effect _ => (Nat.sub_add_cancel (unpaidOf_le effect)).le
    have hsupply := @coinSupply_add token inner history hinv.haneul.supply
    have hminted := hinv.minted_le
    omega

end Solvent

/-- **Both sides together are solvent.**  In every interleaving of calls of the two bridges, with
    a committee that relays what happened:

    * the vault has at least the supply of the coins, what was burned and not paid yet, and what
      was deposited and not minted yet, all at the scale of Ethereum;
    * every burn that is not paid yet can be paid: its amount is converted without an overflow,
      and the vault has it;
    * what a deposit is converted to is converted back without an overflow, to no more than was
      deposited. -/
theorem bridge_solvent {crypto : Crypto} {world : World} {chainId : UInt8} {token : BridgedToken}
    {s : State} {history : List BridgeEffect} {inner : BridgeInner}
    (hchain : isHaneulChain chainId = true)
    (hdecimals : world.decimals token.tokenAddress = some token.erc20Decimal)
    (hrun : CrossingRun crypto world chainId token s history inner) :
    (coinSupply token inner + unpaidBurns token s.events history +
      unmintedDeposits token s.events history) *
        decimalScale token.erc20Decimal token.haneulDecimal ≤ s.vault token.tokenAddress ∧
    (∀ message coin, BridgeEffect.burned message coin ∈ history →
      coin.coinType = token.coinType → isPaid s.events message = false →
      ∃ payload amount, tokenPayload message = .ok payload ∧ payload.amount.toNat = coin.value ∧
        convertHaneulToERC20Decimal token.erc20Decimal token.haneulDecimal payload.amount =
          .ok amount ∧ amount ≤ s.vault token.tokenAddress) ∧
    (∀ received converted, received ≤ uint256Max →
      convertERC20ToHaneulDecimal token.erc20Decimal token.haneulDecimal received = .ok converted →
      ∃ amount, convertHaneulToERC20Decimal token.erc20Decimal token.haneulDecimal converted =
        .ok amount ∧ amount = converted.toNat *
          decimalScale token.erc20Decimal token.haneulDecimal ∧ amount ≤ received) := by
  have hinv := hrun.inv hchain hdecimals
  refine ⟨hinv.solvent, ?_, ?_⟩
  · intro message coin hburned hcoin hunpaid
    obtain ⟨hpos, sourceChain, -, hsent⟩ := hinv.haneul.records.sent hburned
    obtain ⟨payload, hpayload, -, hvalue⟩ := hsent.payload
    obtain ⟨hcovered, hscaled⟩ := hinv.unpaid hburned hcoin hunpaid
    rw [← hvalue] at hpos hcovered
    refine ⟨payload, _, hpayload, hvalue, ?_, hcovered⟩
    exact convertHaneulToERC20Decimal_of_fits hscaled hpos (hcovered.trans hinv.backed.vaultFits)
  · intro received converted hfits hconvert
    obtain ⟨hscaled, hpos, hround⟩ := convertERC20ToHaneulDecimal_ok hconvert
    exact ⟨_, convertHaneulToERC20Decimal_of_fits hscaled hpos (hround.trans hfits), rfl, hround⟩

/-! ### There and back -/

def sampleBridged : BridgedToken where
  tokenID := 5
  tokenAddress := Evm.sampleToken
  erc20Decimal := 18
  haneulDecimal := 8
  coinType := sampleCoin
  address_ne := by decide

/-- A deposit of as much as 100 units of Haneul. -/
def sampleDeposit : Evm.Call :=
  .bridgeERC20 5 (10 ^ 12) (List.replicate 32 1) ChainIds.haneulCustom ⟨List.replicate 20 7, rfl⟩
    (10 ^ 12) (10 ^ 12) true []

def samplePayout : Evm.Call :=
  .transferBridgedTokensWithSignatures Evm.sampleSignatures
    ⟨Evm.tokenTransfer, 1, 0, ChainIds.haneulCustom, sampleOutgoing.payload⟩ true []

theorem sampleState_fixes :
    Fixes Evm.sampleWorld sampleBridged Evm.sampleState.config := by
  refine ⟨rfl, ?_, .inr rfl⟩
  intro id hid
  have hother : Evm.sampleState.config.supportedTokens id = ⟨Evm.zeroAddress, 0⟩ := if_neg hid
  rw [hother]
  decide

/-- Calls on Haneul, of which those that mint were relayed. -/
theorem CrossingRun.calls {calls : List BridgeCall} {state state' : List BridgeEffect × BridgeInner}
    (hrun : CrossingRun crypto world chainId token s state.1 state.2)
    (h : BridgeCall.runAll crypto calls state = .ok state')
    (hrelay : ∀ key coin recipient, BridgeEffect.minted key coin recipient ∈ state'.1 →
      coin.coinType = token.coinType → FromDeposit token s.events key coin) :
    CrossingRun crypto world chainId token s state'.1 state'.2 := by
  have hgrows : ∀ {calls : List BridgeCall} {state state' : List BridgeEffect × BridgeInner},
      BridgeCall.runAll crypto calls state = .ok state' → ∀ effect ∈ state.1, effect ∈ state'.1 := by
    intro calls
    induction calls with
    | nil =>
      intro state state' h effect heffect
      cases h
      exact heffect
    | cons call calls ih =>
      intro state state' h effect heffect
      obtain ⟨⟨inner', effect'⟩, -, h⟩ := bind_eq_ok.mp h
      exact ih h effect (mem_append_left _ heffect)
  induction calls generalizing state with
  | nil =>
    cases h
    exact hrun
  | cons call calls ih =>
    obtain ⟨⟨inner', effect⟩, hcall, h⟩ := bind_eq_ok.mp h
    refine ih (CrossingRun.haneul call hrun ?_ hcall) h
    rintro key coin recipient rfl hcoin
    exact hrelay key coin recipient (hgrows h _ mem_concat_self) hcoin

/-- Coins of the sample run are minted for its deposit. -/
def mintsSample : BridgeEffect → Bool
  | .minted key coin _ => decide (key = sampleIncoming.key ∧ coin.value = 100)
  | _ => true

/-- A deposit is minted, a part of it is burned and paid; the vault covers the rest. -/
theorem bridge_solvent_sample : ∃ s history inner,
    CrossingRun plainCrypto Evm.sampleWorld ChainIds.haneulCustom sampleBridged s history inner ∧
    BridgeEffect.minted sampleIncoming.key ⟨sampleCoin, 100⟩ sampleAccount ∈ history ∧
    isPaid s.events sampleOutgoing = true ∧
    (coinSupply sampleBridged inner + unpaidBurns sampleBridged s.events history +
      unmintedDeposits sampleBridged s.events history) * decimalScale 18 8 ≤
        s.vault Evm.sampleToken := by
  obtain ⟨s₁, hdeposit, hs₁⟩ := ok_of_any
    (x := sampleDeposit.run Evm.sampleWorld 1700000000 Evm.sampleState)
    (p := fun s₁ => s₁.events.any (fun event => isDepositFor sampleIncoming.key event &&
        decide (depositedOf sampleBridged event = 100)) &&
      (samplePayout.run Evm.sampleWorld 1700000000 s₁).toOption.any fun s₂ =>
        isPaid s₂.events sampleOutgoing)
    (by decide +kernel)
  rw [Bool.and_eq_true, any_eq_true] at hs₁
  obtain ⟨⟨event, hevent, hfor⟩, hpayout⟩ := hs₁
  rw [Bool.and_eq_true, decide_eq_true_eq] at hfor
  obtain ⟨s₂, hpayout, hpaid⟩ := ok_of_any hpayout
  obtain ⟨⟨history, inner⟩, hcalls, hhistory⟩ := ok_of_any
    (x := BridgeCall.runAll plainCrypto (sampleCalls ++
      [.sendToken ChainIds.ethCustom (List.replicate 20 7) sampleCoin 30 sampleAccount])
      ([], BridgeInner.create ChainIds.haneulCustom))
    (p := fun state => state.1.all mintsSample &&
      state.1.contains (.minted sampleIncoming.key ⟨sampleCoin, 100⟩ sampleAccount) &&
        state.1.contains (.burned sampleOutgoing ⟨sampleCoin, 30⟩))
    (by decide +kernel)
  simp only [Bool.and_eq_true, all_eq_true, contains_iff_mem] at hhistory
  obtain ⟨⟨hmints, hminted⟩, hburned⟩ := hhistory
  have hstart : CrossingRun plainCrypto Evm.sampleWorld ChainIds.haneulCustom sampleBridged
      Evm.sampleState [] (BridgeInner.create ChainIds.haneulCustom) :=
    .start Evm.sampleState_initial sampleState_fixes (by decide)
  have hdeposited := CrossingRun.evm 1700000000 sampleDeposit hstart trivial nofun hdeposit
  have hcrossed : CrossingRun plainCrypto Evm.sampleWorld ChainIds.haneulCustom sampleBridged s₁
      history inner := by
    refine hdeposited.calls hcalls ?_
    intro key coin recipient hmem hcoin
    obtain ⟨rfl, hvalue⟩ := of_decide_eq_true (hmints _ hmem)
    exact ⟨event, hevent, hfor.1, hfor.2.trans hvalue.symm⟩
  have hfinal : CrossingRun plainCrypto Evm.sampleWorld ChainIds.haneulCustom sampleBridged s₂
      history inner := by
    refine .evm 1700000000 samplePayout hcrossed trivial ?_ hpayout
    rintro message transfer ⟨⟩ hasks -
    have hamount : transfer.amount = 30 := by
      rcases hasks with hdecode | ⟨_, hdecode⟩
      · cases hdecode
        rfl
      · cases hdecode
    exact ⟨sampleOutgoing, ⟨sampleCoin, 30⟩, hburned, rfl, rfl, by rw [hamount]; rfl⟩
  exact ⟨s₂, history, inner, hfinal, hminted, hpaid, (bridge_solvent (by decide) rfl hfinal).1⟩

end Haneul.Bridge
