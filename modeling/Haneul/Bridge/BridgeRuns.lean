import Haneul.Lib.History
import Haneul.Bridge.BridgeSteps

/-!
# Runs of the bridge

The bridge is created on a Haneul chain and called any number of times.  A run keeps the
history of what its calls did.  The invariants relate the state to that history: the records to
the messages that were sent and approved, claimed records to coins that were minted, supplies to
what was minted and burned, and sequence numbers to the system messages that took effect.

The chain id is part of the keys of the records and of the checks on them, and it can change;
no invariant here says that it stays.
-/

namespace Haneul.Bridge

open List

variable {message : BridgeMessage} {signatures : List (List UInt8)} {recipient : HaneulAddress}

open Haneul.History

variable {crypto : Crypto} {chainId : UInt8} {inner inner' : BridgeInner}
  {history : List BridgeEffect} {effect : BridgeEffect}

/-- The histories and states of the bridge; a call that aborts changes nothing. -/
inductive BridgeRun (crypto : Crypto) (chainId : UInt8) : List BridgeEffect → BridgeInner → Prop where
  | start : BridgeRun crypto chainId [] (BridgeInner.create chainId)
  | call {history : List BridgeEffect} {inner inner' : BridgeInner} {effect : BridgeEffect}
      (call : BridgeCall) (run : BridgeRun crypto chainId history inner)
      (h : call.run crypto inner = .ok (inner', effect)) :
      BridgeRun crypto chainId (history ++ [effect]) inner'

def BridgeCall.runAll (crypto : Crypto) :
    List BridgeCall → List BridgeEffect × BridgeInner →
      Except BridgeAbort (List BridgeEffect × BridgeInner)
  | [], state => .ok state
  | call :: calls, state => do
    let (inner', effect) ← call.run crypto state.2
    runAll crypto calls (state.1 ++ [effect], inner')

theorem BridgeRun.calls {calls : List BridgeCall} {state state' : List BridgeEffect × BridgeInner}
    (hrun : BridgeRun crypto chainId state.1 state.2)
    (h : BridgeCall.runAll crypto calls state = .ok state') :
    BridgeRun crypto chainId state'.1 state'.2 := by
  induction calls generalizing state with
  | nil =>
    cases h
    exact hrun
  | cons call calls ih =>
    obtain ⟨⟨inner', effect⟩, hcall, h⟩ := bind_eq_ok.mp h
    exact ih (BridgeRun.call call hrun hcall) h

/-! ### Reading a history -/

namespace BridgeEffect

def mintsFor (key : BridgeMessageKey) : BridgeEffect → Bool
  | .minted key' _ _ => key' == key
  | _ => false

def recorded : BridgeEffect → Option BridgeMessage
  | .burned message _ => some message
  | .approved message _ _ => some message
  | _ => Option.none

def mintedValue (coinType : TypeName) : BridgeEffect → Nat
  | .minted _ coin _ => if coin.coinType = coinType then coin.value else 0
  | _ => 0

def burnedValue (coinType : TypeName) : BridgeEffect → Nat
  | .burned _ coin => if coin.coinType = coinType then coin.value else 0
  | _ => 0

def executedSeqNum (msgType : UInt8) : BridgeEffect → Option Nat
  | .executed message _ _ =>
    if message.messageType = msgType then some message.seqNum.toNat else Option.none
  | _ => Option.none

end BridgeEffect

def mintedTotal (history : List BridgeEffect) (coinType : TypeName) : Nat :=
  (history.map (BridgeEffect.mintedValue coinType)).sum

def burnedTotal (history : List BridgeEffect) (coinType : TypeName) : Nat :=
  (history.map (BridgeEffect.burnedValue coinType)).sum

@[simp] theorem mintedTotal_snoc (coinType : TypeName) :
    mintedTotal (history ++ [effect]) coinType =
      mintedTotal history coinType + effect.mintedValue coinType := by
  simp [mintedTotal]

@[simp] theorem burnedTotal_snoc (coinType : TypeName) :
    burnedTotal (history ++ [effect]) coinType =
      burnedTotal history coinType + effect.burnedValue coinType := by
  simp [burnedTotal]

/-! ### The chain -/

theorem BridgeStep.isHaneulChain (h : BridgeStep crypto inner inner' effect)
    (hchain : isHaneulChain inner.chainId = true) : isHaneulChain inner'.chainId = true := by
  cases h with
  | quiet _ hsame => rw [hsame, hchain]
  | burned h => rw [h.chainId, hchain]
  | approved h => rw [h.after]; exact hchain
  | minted h => rw [h.chainId, hchain]
  | executed h =>
    rcases h.chainId with hsame | hnew
    · rw [hsame, hchain]
    · exact hnew

/-! ### Sequence numbers -/

/-- The system messages of each type took effect in the order of their numbers, from the first
    on without a gap. -/
structure SeqInv (history : List BridgeEffect) (inner : BridgeInner) : Prop where
  system : ∀ msgType, msgType ≠ MessageTypes.token →
    history.filterMap (BridgeEffect.executedSeqNum msgType) = List.range (inner.nextSeqNum msgType)
  token : history.filterMap (BridgeEffect.executedSeqNum MessageTypes.token) = []

theorem filterMap_snoc_none {msgType : UInt8} (h : effect.executedSeqNum msgType = none) :
    (history ++ [effect]).filterMap (BridgeEffect.executedSeqNum msgType) =
      history.filterMap (BridgeEffect.executedSeqNum msgType) := by
  rw [filterMap_append, filterMap_cons_none h, filterMap_nil, append_nil]

theorem SeqInv.keep (hinv : SeqInv history inner)
    (heffect : ∀ msgType, effect.executedSeqNum msgType = none)
    (hnext : ∀ msgType, msgType ≠ MessageTypes.token →
      inner'.nextSeqNum msgType = inner.nextSeqNum msgType) :
    SeqInv (history ++ [effect]) inner' where
  system := fun msgType hne => by
    rw [filterMap_snoc_none (heffect msgType), hinv.system msgType hne, hnext msgType hne]
  token := by rw [filterMap_snoc_none (heffect _), hinv.token]

theorem nextSeqNum_congr (h : inner'.sequenceNums = inner.sequenceNums) (msgType : UInt8) :
    inner'.nextSeqNum msgType = inner.nextSeqNum msgType := by
  rw [BridgeInner.nextSeqNum, h]
  rfl

theorem SeqInv.step (hinv : SeqInv history inner) (h : BridgeStep crypto inner inner' effect) :
    SeqInv (history ++ [effect]) inner' := by
  cases h with
  | burned h => exact hinv.keep (fun _ => rfl) fun msgType hne => h.seqNum.others msgType hne
  | approved h =>
    refine hinv.keep (fun _ => rfl) fun msgType _ => nextSeqNum_congr ?_ _
    rw [h.after]
    rfl
  | quiet h _ | minted h =>
    exact hinv.keep (fun _ => rfl) fun msgType _ => nextSeqNum_congr h.sequenceNums _
  | @executed message signatures h =>
    constructor
    · intro msgType hne
      by_cases hsame : message.messageType = msgType
      · subst hsame
        have hnumber : (BridgeEffect.executed message signatures
            inner.committee).executedSeqNum message.messageType = some message.seqNum.toNat :=
          if_pos rfl
        rw [filterMap_append, filterMap_cons_some hnumber, filterMap_nil,
          hinv.system _ hne, h.seqNum.taken, h.seqNum.next, range_succ]
      · have hnone : (BridgeEffect.executed message signatures
            inner.committee).executedSeqNum msgType = none := if_neg hsame
        rw [filterMap_snoc_none hnone, hinv.system msgType hne,
          h.seqNum.others msgType (Ne.symm hsame)]
    · have hnone : (BridgeEffect.executed message signatures
          inner.committee).executedSeqNum MessageTypes.token = none := if_neg h.messageType
      rw [filterMap_snoc_none hnone, hinv.token]

/-! ### Supplies -/

/-- What there is of a coin is what was minted of it less what was burned. -/
structure SupplyInv (history : List BridgeEffect) (treasury : BridgeTreasury) : Prop where
  ok : TreasuryOk treasury
  supply : ∀ coinType supply, treasury.treasuries coinType = some supply →
    supply + burnedTotal history coinType = mintedTotal history coinType
  unknown : ∀ coinType, treasury.treasuries coinType = none →
    burnedTotal history coinType = 0 ∧ mintedTotal history coinType = 0

variable {treasury treasury' : BridgeTreasury}

theorem SupplyInv.keep (hinv : SupplyInv history treasury)
    (hkeeps : TreasuryKeeps treasury treasury')
    (hminted : ∀ coinType, effect.mintedValue coinType = 0)
    (hburned : ∀ coinType, effect.burnedValue coinType = 0) :
    SupplyInv (history ++ [effect]) treasury' := by
  refine ⟨hkeeps.ok hinv.ok, ?_, ?_⟩
  · intro coinType supply hsupply
    rw [mintedTotal_snoc, burnedTotal_snoc, hminted, hburned, Nat.add_zero, Nat.add_zero]
    cases hold : treasury.treasuries coinType with
    | some old =>
      rw [hkeeps.supply hold, Option.some.injEq] at hsupply
      exact hsupply ▸ hinv.supply coinType old hold
    | none =>
      obtain ⟨hburned₀, hminted₀⟩ := hinv.unknown coinType hold
      have hzero : supply = 0 := by
        rcases hkeeps.new hold with hnone | hzero
        · rw [hnone] at hsupply
          cases hsupply
        · rw [hzero, Option.some.injEq] at hsupply
          exact hsupply.symm
      rw [hzero, hburned₀, hminted₀]
  · intro coinType hnone
    rw [mintedTotal_snoc, burnedTotal_snoc, hminted, hburned, Nat.add_zero, Nat.add_zero]
    cases hold : treasury.treasuries coinType with
    | none => exact hinv.unknown coinType hold
    | some old =>
      rw [hkeeps.supply hold] at hnone
      cases hnone

theorem SupplyInv.change {treasury : BridgeTreasury} (hinv : SupplyInv history treasury)
    {coinType : TypeName} {supply supply' : Nat}
    (hsupply : treasury.treasuries coinType = some supply)
    (hchange : supply' + effect.burnedValue coinType = supply + effect.mintedValue coinType)
    (hminted : ∀ other, other ≠ coinType → effect.mintedValue other = 0)
    (hburned : ∀ other, other ≠ coinType → effect.burnedValue other = 0) :
    SupplyInv (history ++ [effect]) { treasury with
      treasuries := Function.update treasury.treasuries coinType (some supply') } := by
  refine ⟨hinv.ok.setSupply coinType supply', ?_, ?_⟩
  · intro other s hs
    dsimp only at hs
    rw [mintedTotal_snoc, burnedTotal_snoc]
    by_cases hother : other = coinType
    · subst hother
      rw [Function.update_self, Option.some.injEq] at hs
      have hold := hinv.supply other supply hsupply
      omega
    · rw [Function.update_of_ne hother] at hs
      rw [hminted other hother, hburned other hother]
      exact hinv.supply other s hs
  · intro other hnone
    dsimp only at hnone
    have hother : other ≠ coinType := by
      rintro rfl
      rw [Function.update_self] at hnone
      cases hnone
    rw [Function.update_of_ne hother] at hnone
    rw [mintedTotal_snoc, burnedTotal_snoc, hminted other hother, hburned other hother]
    exact hinv.unknown other hnone

theorem SupplyInv.step (hinv : SupplyInv history inner.treasury)
    (h : BridgeStep crypto inner inner' effect) :
    SupplyInv (history ++ [effect]) inner'.treasury := by
  cases h with
  | approved h =>
    rw [h.after]
    exact hinv.keep (TreasuryKeeps.refl _) (fun _ => rfl) fun _ => rfl
  | quiet h _ | executed h => exact hinv.keep h.treasury (fun _ => rfl) fun _ => rfl
  | @burned message coin h =>
    obtain ⟨supply, hsupply, hle, htreasury⟩ := BridgeTreasury.burn_ok h.burned
    rw [htreasury]
    refine hinv.change hsupply ?_ (fun _ _ => rfl) fun other hother => if_neg (Ne.symm hother)
    simp only [BridgeEffect.burnedValue, BridgeEffect.mintedValue, if_true]
    omega
  | @minted key coin recipient h =>
    obtain ⟨supply, hsupply, -, htreasury⟩ := BridgeTreasury.mint_ok h.minted
    rw [htreasury]
    refine hinv.change hsupply ?_ (fun other hother => if_neg (Ne.symm hother)) fun _ _ => rfl
    simp only [BridgeEffect.burnedValue, BridgeEffect.mintedValue, if_true]
    omega

/-! ### Records -/

/-- What a coin was minted for: an approved message with this amount, coin type and recipient. -/
def MintedFor (crypto : Crypto) (treasury : BridgeTreasury) (before : List BridgeEffect)
    (key : BridgeMessageKey) (coin : Coin) (recipient : HaneulAddress) : Prop :=
  ∃ message signatures committee payload,
    BridgeEffect.approved message signatures committee ∈ before ∧ message.key = key ∧
    committee.SignedBy crypto message signatures 3334 ∧ tokenPayload message = .ok payload ∧
    coin.value = payload.amount.toNat ∧
    treasury.idTokenTypeMap payload.tokenType = some coin.coinType ∧
    recipient.bytes = payload.targetAddress

/-- What is recorded when coins are burned: a transfer to Ethereum of just that amount. -/
def BurnedFor (message : BridgeMessage) (coin : Coin) : Prop :=
  0 < coin.value ∧ ∃ chainId, isHaneulChain chainId = true ∧ SentMessage chainId message coin.value

structure RecordsInv (crypto : Crypto) (history : List BridgeEffect) (inner : BridgeInner) :
    Prop where
  keyed : ∀ {key record}, inner.tokenTransferRecords key = some record → record.message.key = key
  onRecord : ∀ {effect message}, effect ∈ history → effect.recorded = some message →
    ∃ record, inner.tokenTransferRecords message.key = some record ∧ record.message = message
  origin : ∀ {key record}, inner.tokenTransferRecords key = some record →
    ∃ effect ∈ history, effect.recorded = some record.message
  approval : ∀ {key record signatures}, inner.tokenTransferRecords key = some record →
    record.verifiedSignatures = some signatures →
    ∃ committee, BridgeEffect.approved record.message signatures committee ∈ history
  signed : ∀ {message signatures committee},
    BridgeEffect.approved message signatures committee ∈ history →
    committee.SignedBy crypto message signatures 3334
  sent : ∀ {message coin}, BridgeEffect.burned message coin ∈ history → BurnedFor message coin
  claimed : ∀ {key coin recipient}, BridgeEffect.minted key coin recipient ∈ history →
    ∃ record, inner.tokenTransferRecords key = some record ∧ record.claimed = true ∧
      ∃ payload, tokenPayload record.message = .ok payload ∧
        isValidRoute key.sourceChain payload.targetChain = true ∧
        isHaneulChain payload.targetChain = true
  once : ∀ key, history.countP (BridgeEffect.mintsFor key) ≤ 1
  minted : ForEach (fun before effect => ∀ key coin recipient,
    effect = .minted key coin recipient →
      MintedFor crypto inner.treasury before key coin recipient) history
  fresh : ForEach (fun before effect => ∀ message coin, effect = .burned message coin →
    ∀ earlier ∈ before, ∀ message', earlier.recorded = some message' →
      message'.key ≠ message.key) history

theorem recordsInv_create : RecordsInv crypto [] (BridgeInner.create chainId) where
  keyed := nofun
  onRecord := nofun
  origin := nofun
  approval := nofun
  signed := nofun
  sent := nofun
  claimed := nofun
  once := fun _ => Nat.zero_le 1
  minted := ForEach.nil
  fresh := ForEach.nil

theorem MintedFor.mono {before : List BridgeEffect} {key : BridgeMessageKey} {coin : Coin}
    (hids : ∀ {id coinType}, treasury.idTokenTypeMap id = some coinType →
      treasury'.idTokenTypeMap id = some coinType)
    (h : MintedFor crypto treasury before key coin recipient) :
    MintedFor crypto treasury' before key coin recipient := by
  obtain ⟨message, signatures, committee, payload, happroved, hkey, hsigned, hpayload, hvalue,
    htype, hrecipient⟩ := h
  exact ⟨message, signatures, committee, payload, happroved, hkey, hsigned, hpayload, hvalue,
    hids htype, hrecipient⟩

theorem mem_snoc {x : BridgeEffect} : x ∈ history ++ [effect] ↔ x ∈ history ∨ x = effect := by
  rw [mem_append, mem_singleton]

/-- The entries of the history for a key that is claimed are of that key's record. -/
theorem RecordsInv.not_minted (hinv : RecordsInv crypto history inner) {key : BridgeMessageKey}
    (hopen : ∀ record, inner.tokenTransferRecords key = some record → record.claimed = false)
    (coin : Coin) (recipient : HaneulAddress) :
    BridgeEffect.minted key coin recipient ∉ history := by
  intro hmem
  obtain ⟨record, hrecord, hclaimed, -⟩ := hinv.claimed hmem
  rw [hopen record hrecord] at hclaimed
  cases hclaimed

theorem RecordsInv.keep (hinv : RecordsInv crypto history inner)
    (hrecords : inner'.tokenTransferRecords = inner.tokenTransferRecords)
    (hids : ∀ {id coinType}, inner.treasury.idTokenTypeMap id = some coinType →
      inner'.treasury.idTokenTypeMap id = some coinType)
    (heffect : effect.recorded = none) (hmints : ∀ key, effect.mintsFor key = false) :
    RecordsInv crypto (history ++ [effect]) inner' := by
  have hold : ∀ {x}, x ∈ history ++ [effect] → x ≠ effect → x ∈ history :=
    fun hmem hne => (mem_snoc.mp hmem).resolve_right hne
  have hnotMinted : ∀ {key coin recipient}, BridgeEffect.minted key coin recipient ≠ effect := by
    rintro key coin recipient rfl
    simpa [BridgeEffect.mintsFor] using hmints key
  refine
    { keyed := by rw [hrecords]; exact hinv.keyed
      onRecord := ?_
      origin := ?_
      approval := ?_
      signed := fun hmem => hinv.signed (hold hmem (by rintro rfl; cases heffect))
      sent := fun hmem => hinv.sent (hold hmem (by rintro rfl; cases heffect))
      claimed := fun hmem => by rw [hrecords]; exact hinv.claimed (hold hmem hnotMinted)
      once := fun key => by
        rw [countP_append, countP_singleton, hmints key]
        exact hinv.once key
      minted := (hinv.minted.imp fun before e h key coin recipient heq =>
        (h key coin recipient heq).mono hids).snoc fun key coin recipient heq =>
          absurd heq.symm hnotMinted
      fresh := hinv.fresh.snoc fun message coin heq => by rw [heq] at heffect; cases heffect }
  · intro x message hmem hx
    rw [hrecords]
    exact hinv.onRecord (hold hmem (by rintro rfl; rw [heffect] at hx; cases hx)) hx
  · intro key record hrecord
    rw [hrecords] at hrecord
    obtain ⟨x, hx, hmessage⟩ := hinv.origin hrecord
    exact ⟨x, mem_append_left _ hx, hmessage⟩
  · intro key record signatures hrecord hsignatures
    rw [hrecords] at hrecord
    obtain ⟨committee, hmem⟩ := hinv.approval hrecord hsignatures
    exact ⟨committee, mem_append_left _ hmem⟩

/-- A record is put in, or replaces one of the same message. -/
structure PutsRecord (inner inner' : BridgeInner) (record : BridgeRecord) : Prop where
  records : inner'.tokenTransferRecords =
    Function.update inner.tokenTransferRecords record.message.key (some record)
  same : ∀ old, inner.tokenTransferRecords record.message.key = some old →
    old.message = record.message

section PutsRecord

variable {record : BridgeRecord} (hputs : PutsRecord inner inner' record) {key : BridgeMessageKey}
include hputs

theorem PutsRecord.get_self :
    inner'.tokenTransferRecords record.message.key = some record := by
  rw [hputs.records, Function.update_self]

theorem PutsRecord.get_of_ne (hne : key ≠ record.message.key) :
    inner'.tokenTransferRecords key = inner.tokenTransferRecords key := by
  rw [hputs.records, Function.update_of_ne hne]

theorem PutsRecord.get_mono {old : BridgeRecord}
    (hold : inner.tokenTransferRecords key = some old) :
    ∃ new, inner'.tokenTransferRecords key = some new ∧ new.message = old.message := by
  by_cases hkey : key = record.message.key
  · subst hkey
    exact ⟨record, hputs.get_self, (hputs.same old hold).symm⟩
  · exact ⟨old, (hputs.get_of_ne hkey).trans hold, rfl⟩

theorem PutsRecord.keyed
    (hkeyed : ∀ {key r}, inner.tokenTransferRecords key = some r → r.message.key = key)
    {new : BridgeRecord}
    (hnew : inner'.tokenTransferRecords key = some new) : new.message.key = key := by
  by_cases hkey : key = record.message.key
  · subst hkey
    rw [hputs.get_self, Option.some.injEq] at hnew
    rw [hnew]
  · rw [hputs.get_of_ne hkey] at hnew
    exact hkeyed hnew

section

variable (hinv : RecordsInv crypto history inner)
include hinv

theorem PutsRecord.onRecord
    (heffect : ∀ message, effect.recorded = some message → message = record.message)
    {x : BridgeEffect} {message : BridgeMessage} (hmem : x ∈ history ++ [effect])
    (hx : x.recorded = some message) :
    ∃ r, inner'.tokenTransferRecords message.key = some r ∧ r.message = message := by
  rcases mem_snoc.mp hmem with hold | rfl
  · obtain ⟨r, hr, hmessage⟩ := hinv.onRecord hold hx
    obtain ⟨new, hnew, hsame⟩ := hputs.get_mono hr
    exact ⟨new, hnew, hsame.trans hmessage⟩
  · rw [heffect message hx]
    exact ⟨record, hputs.get_self, rfl⟩

theorem PutsRecord.origin (heffect : ∃ x ∈ history ++ [effect], x.recorded = some record.message)
    {new : BridgeRecord} (hnew : inner'.tokenTransferRecords key = some new) :
    ∃ x ∈ history ++ [effect], x.recorded = some new.message := by
  by_cases hkey : key = record.message.key
  · subst hkey
    rw [hputs.get_self, Option.some.injEq] at hnew
    exact hnew ▸ heffect
  · rw [hputs.get_of_ne hkey] at hnew
    obtain ⟨x, hx, hmessage⟩ := hinv.origin hnew
    exact ⟨x, mem_append_left _ hx, hmessage⟩

theorem PutsRecord.approval (heffect : ∀ signatures, record.verifiedSignatures = some signatures →
      ∃ committee, BridgeEffect.approved record.message signatures committee ∈ history ++ [effect])
    {new : BridgeRecord} {signatures : List (List UInt8)}
    (hnew : inner'.tokenTransferRecords key = some new)
    (hsignatures : new.verifiedSignatures = some signatures) :
    ∃ committee, BridgeEffect.approved new.message signatures committee ∈ history ++ [effect] := by
  by_cases hkey : key = record.message.key
  · subst hkey
    rw [hputs.get_self] at hnew
    cases hnew
    exact heffect signatures hsignatures
  · rw [hputs.get_of_ne hkey] at hnew
    obtain ⟨committee, hmem⟩ := hinv.approval hnew hsignatures
    exact ⟨committee, mem_append_left _ hmem⟩

theorem PutsRecord.claimed
    (hopen : ∀ old, inner.tokenTransferRecords record.message.key = some old → old.claimed = false)
    {coin : Coin} {recipient : HaneulAddress}
    (hmem : BridgeEffect.minted key coin recipient ∈ history) :
    ∃ r, inner'.tokenTransferRecords key = some r ∧ r.claimed = true ∧
      ∃ payload, tokenPayload r.message = .ok payload ∧
        isValidRoute key.sourceChain payload.targetChain = true ∧
        isHaneulChain payload.targetChain = true := by
  obtain ⟨r, hr, hclaimed, hpayload⟩ := hinv.claimed hmem
  have hkey : key ≠ record.message.key := by
    rintro rfl
    rw [hopen r hr] at hclaimed
    cases hclaimed
  exact ⟨r, (hputs.get_of_ne hkey).trans hr, hclaimed, hpayload⟩

end

end PutsRecord

theorem Sends.puts {coin : Coin} (h : Sends inner inner' message coin) :
    PutsRecord inner inner' ⟨message, none, false⟩ :=
  ⟨h.records, fun old hold => by rw [h.fresh] at hold; cases hold⟩

theorem Approves.pending (h : Approves crypto inner inner' message signatures) {old : BridgeRecord}
    (hold : inner.tokenTransferRecords message.key = some old) : old = ⟨message, none, false⟩ := by
  rcases h.before with hpending | hnone
  · rw [hpending, Option.some.injEq] at hold
    exact hold.symm
  · rw [hnone] at hold
    cases hold

theorem Approves.puts (h : Approves crypto inner inner' message signatures) :
    PutsRecord inner inner' ⟨message, some signatures, false⟩ :=
  ⟨by rw [h.after]; rfl, fun _ hold => by rw [h.pending hold]⟩

section

variable (hinv : RecordsInv crypto history inner)
include hinv

/-- Burning: the record is new, and so is its key in the history. -/
theorem RecordsInv.burned (hchain : isHaneulChain inner.chainId = true) {coin : Coin}
    (h : Sends inner inner' message coin) :
    RecordsInv crypto (history ++ [.burned message coin]) inner' := by
  have hputs := h.puts
  obtain ⟨supply, -, -, htreasury⟩ := BridgeTreasury.burn_ok h.burned
  refine
    { keyed := hputs.keyed hinv.keyed
      onRecord := hputs.onRecord hinv (by rintro m ⟨⟩; rfl)
      origin := hputs.origin hinv ⟨_, mem_concat_self, rfl⟩
      approval := hputs.approval hinv nofun
      signed := fun hmem => hinv.signed ((mem_snoc.mp hmem).resolve_right nofun)
      sent := ?_
      claimed := fun hmem => hputs.claimed hinv
        (fun old hold => by rw [h.fresh] at hold; cases hold) ((mem_snoc.mp hmem).resolve_right nofun)
      once := fun key => by
        rw [countP_append, countP_singleton]
        exact hinv.once key
      minted := (hinv.minted.imp fun before e hbefore key c recipient heq =>
        (hbefore key c recipient heq).mono fun hid => by rw [htreasury]; exact hid).snoc nofun
      fresh := hinv.fresh.snoc ?_ }
  · intro m c hmem
    rcases mem_snoc.mp hmem with hold | heq
    · exact hinv.sent hold
    · cases heq
      exact ⟨h.pos, inner.chainId, hchain, h.sent⟩
  · intro m c heq earlier hearlier m' hm' hkey
    cases heq
    obtain ⟨r, hr, -⟩ := hinv.onRecord hearlier hm'
    rw [hkey, h.fresh] at hr
    cases hr

theorem RecordsInv.approved (h : Approves crypto inner inner' message signatures) :
    RecordsInv crypto (history ++ [.approved message signatures inner.committee]) inner' := by
  have hputs := h.puts
  have hlast : BridgeEffect.approved message signatures inner.committee ∈
      history ++ [.approved message signatures inner.committee] :=
    mem_concat_self
  refine
    { keyed := hputs.keyed hinv.keyed
      onRecord := hputs.onRecord hinv (by rintro m ⟨⟩; rfl)
      origin := hputs.origin hinv ⟨_, hlast, rfl⟩
      approval := hputs.approval hinv fun s hs => ⟨inner.committee, Option.some.inj hs ▸ hlast⟩
      signed := ?_
      sent := fun hmem => hinv.sent ((mem_snoc.mp hmem).resolve_right nofun)
      claimed := fun hmem => hputs.claimed hinv
        (fun _ hold => by rw [h.pending hold]) ((mem_snoc.mp hmem).resolve_right nofun)
      once := fun key => by
        rw [countP_append, countP_singleton]
        exact hinv.once key
      minted := (hinv.minted.imp fun before e hbefore key c recipient heq =>
        (hbefore key c recipient heq).mono fun hid => by rw [h.after]; exact hid).snoc nofun
      fresh := hinv.fresh.snoc nofun }
  intro m s committee hmem
  rcases mem_snoc.mp hmem with hold | heq
  · exact hinv.signed hold
  · cases heq
    exact h.signed

/-- Minting: the record was open, so no coin was minted for its key before. -/
theorem RecordsInv.mint (hok : TreasuryOk inner.treasury)
    (hchain : isHaneulChain inner.chainId = true) {key : BridgeMessageKey} {coin : Coin}
    (h : Mints inner inner' key coin recipient) :
    RecordsInv crypto (history ++ [.minted key coin recipient]) inner' := by
  obtain ⟨message, signatures, hbefore, hafter, payload, hpayload, htarget, hroute, htoken, hvalue,
    hrecipient⟩ := h.record
  obtain ⟨supply, -, -, htreasury⟩ := BridgeTreasury.mint_ok h.minted
  have hkey : message.key = key := hinv.keyed hbefore
  subst hkey
  have hputs : PutsRecord inner inner' ⟨message, some signatures, true⟩ :=
    ⟨hafter, fun old hold => by rw [hbefore, Option.some.injEq] at hold; rw [← hold]⟩
  have hopen : ∀ old, inner.tokenTransferRecords message.key = some old → old.claimed = false := by
    intro old hold
    rw [hbefore, Option.some.injEq] at hold
    rw [← hold]
  have hids : ∀ {id coinType}, inner.treasury.idTokenTypeMap id = some coinType →
      inner'.treasury.idTokenTypeMap id = some coinType := fun hid => by rw [htreasury]; exact hid
  obtain ⟨x, hx, hxmessage⟩ := hinv.origin hbefore
  obtain ⟨committee, happroved⟩ := hinv.approval hbefore rfl
  refine
    { keyed := hputs.keyed hinv.keyed
      onRecord := hputs.onRecord hinv (by rintro m ⟨⟩)
      origin := hputs.origin hinv ⟨x, mem_append_left _ hx, hxmessage⟩
      approval := hputs.approval hinv fun s hs =>
        ⟨committee, mem_append_left _ (Option.some.inj hs ▸ happroved)⟩
      signed := fun hmem => hinv.signed ((mem_snoc.mp hmem).resolve_right nofun)
      sent := fun hmem => hinv.sent ((mem_snoc.mp hmem).resolve_right nofun)
      claimed := ?_
      once := ?_
      minted := (hinv.minted.imp fun before e hmint key c recipient heq =>
        (hmint key c recipient heq).mono hids).snoc ?_
      fresh := hinv.fresh.snoc nofun }
  · intro key' coin' recipient' hmem
    rcases mem_snoc.mp hmem with hold | heq
    · exact hputs.claimed hinv hopen hold
    · cases heq
      exact ⟨_, hputs.get_self, rfl, payload, hpayload, hroute, by rw [htarget, hchain]⟩
  · intro key'
    rw [countP_append, countP_singleton]
    by_cases hsame : message.key = key'
    · subst hsame
      have hzero : history.countP (BridgeEffect.mintsFor message.key) = 0 := by
        rw [countP_eq_zero]
        intro e he hmints
        cases e with
        | minted key'' coin'' recipient'' =>
          have hkey'' : key'' = message.key := by simpa [BridgeEffect.mintsFor] using hmints
          subst hkey''
          exact hinv.not_minted hopen coin'' recipient'' he
        | _ => cases hmints
      rw [hzero]
      split <;> omega
    · have hother : (BridgeEffect.minted message.key coin recipient).mintsFor key' = false := by
        simpa [BridgeEffect.mintsFor] using hsame
      rw [hother]
      exact hinv.once key'
  · intro key' coin' recipient' heq
    cases heq
    obtain ⟨metadata, hmetadata, hid⟩ := BridgeTreasury.tokenId_ok.mp htoken
    refine ⟨message, signatures, committee, payload, happroved, rfl, hinv.signed happroved,
      hpayload, hvalue, hids ?_, hrecipient⟩
    rw [← hid]
    exact hok.idOf hmetadata

theorem RecordsInv.step
    (hok : TreasuryOk inner.treasury) (hchain : isHaneulChain inner.chainId = true)
    (h : BridgeStep crypto inner inner' effect) : RecordsInv crypto (history ++ [effect]) inner' := by
  cases h with
  | quiet h _ | executed h => exact hinv.keep h.records h.treasury.ids rfl fun _ => rfl
  | burned h => exact hinv.burned hchain h
  | approved h => exact hinv.approved h
  | minted h => exact hinv.mint hok hchain h

end

/-! ### Every run -/

structure BridgeInv (crypto : Crypto) (history : List BridgeEffect) (inner : BridgeInner) :
    Prop where
  chain : isHaneulChain inner.chainId = true
  seqNums : SeqInv history inner
  supply : SupplyInv history inner.treasury
  records : RecordsInv crypto history inner
  executed : ∀ {message signatures committee},
    BridgeEffect.executed message signatures committee ∈ history →
      ∃ required, requiredVotingPower message = .ok required ∧
        committee.SignedBy crypto message signatures required

theorem BridgeInv.step (hinv : BridgeInv crypto history inner)
    (h : BridgeStep crypto inner inner' effect) : BridgeInv crypto (history ++ [effect]) inner' where
  chain := h.isHaneulChain hinv.chain
  seqNums := hinv.seqNums.step h
  supply := hinv.supply.step h
  records := hinv.records.step hinv.supply.ok hinv.chain h
  executed := fun hmem => by
    rcases mem_snoc.mp hmem with hold | rfl
    · exact hinv.executed hold
    · cases h with
      | executed h => exact h.signed

theorem BridgeRun.inv (hchain : isHaneulChain chainId = true)
    (h : BridgeRun crypto chainId history inner) : BridgeInv crypto history inner := by
  induction h with
  | start =>
    exact ⟨hchain, ⟨fun _ _ => rfl, rfl⟩, ⟨treasuryOk_create, nofun, fun _ _ => ⟨rfl, rfl⟩⟩,
      recordsInv_create, nofun⟩
  | call call _ hcall ih => exact ih.step (BridgeCall.run_ok hcall)

/-- A message that was burned for is never minted for: it goes to Ethereum, and coins are minted
    for messages to Haneul. -/
theorem RecordsInv.not_minted_of_burned (hinv : RecordsInv crypto history inner) {coin coin' : Coin}
    (hsent : BridgeEffect.burned message coin ∈ history) :
    BridgeEffect.minted message.key coin' recipient ∉ history := by
  intro hmem
  obtain ⟨record, hrecord, -, payload, hpayload, -, hhaneul⟩ := hinv.claimed hmem
  obtain ⟨record', hrecord', hmessage⟩ := hinv.onRecord hsent rfl
  obtain ⟨-, sourceChain, hsource, -, -, -, payload', hpayload', hroute, -⟩ := hinv.sent hsent
  rw [hrecord, Option.some.injEq] at hrecord'
  rw [hrecord', hmessage, hpayload', Except.ok.injEq] at hpayload
  rw [← hpayload, isHaneulChain_destination hroute, hsource] at hhaneul
  cases hhaneul

/-! ### A run with one of each -/

/-- Signatures that are the keys of their signers. -/
def plainCrypto : Crypto := ⟨fun signature _ => some signature, fun pubkey => some (pubkey.take 20)⟩

def sampleKey : List UInt8 := List.replicate 33 2

def sampleAccount : HaneulAddress := ⟨List.replicate 32 1, rfl⟩

def sampleCoin : TypeName := ⟨[0x61], List.forall_mem_singleton.mpr (by decide)⟩

def sampleIncoming : BridgeMessage :=
  ⟨MessageTypes.token, 1, 0, ChainIds.ethCustom,
    [20] ++ List.replicate 20 7 ++ [ChainIds.haneulCustom] ++ [32] ++ List.replicate 32 1 ++ [5] ++
      u64BeBytes 100⟩

def sampleOutgoing : BridgeMessage :=
  ⟨MessageTypes.token, 1, 0, ChainIds.haneulCustom,
    [32] ++ List.replicate 32 1 ++ [ChainIds.ethCustom] ++ [20] ++ List.replicate 20 7 ++ [5] ++
      u64BeBytes 30⟩

/-- A committee of one member and one token, then the transfer from Ethereum. -/
def sampleCalls : List BridgeCall :=
  [.committeeRegistration [sampleAccount] sampleKey [] sampleAccount,
   .initBridgeCommittee [(sampleAccount, 10000)] 5000 1,
   .registerForeignToken sampleCoin 0 true 8,
   .executeSystemMessage ⟨MessageTypes.addTokensOnHaneul, 1, 0, ChainIds.haneulCustom,
     [0, 1, 5, 1, 1, 0x61, 1] ++ u64LeBytes 1⟩ [sampleKey],
   .approveTokenTransfer sampleIncoming [sampleKey],
   .claimAndTransferToken sampleCoin 1700000000000 ChainIds.ethCustom 0]

/-- **Coins are minted once, and messages are not replayed.**  In every run of the bridge:

    * for every key coins are minted at most once;
    * each time for a message that distinct members, not blocklisted and with a voting power of
      3334 or more, had signed when it was approved, with its amount, its coin type and its
      recipient;
    * never for a message that was burned for; each of those is on record under a key that no
      message before it had, with the amount that was burned;
    * supplies change by what is minted and burned, and by nothing else;
    * the system messages of a type take effect in the order of their numbers, each once, and
      each was signed with the power that it needs. -/
theorem bridge_mints_once {crypto : Crypto} {chainId : UInt8} {history : List BridgeEffect}
    {inner : BridgeInner} (hchain : isHaneulChain chainId = true)
    (hrun : BridgeRun crypto chainId history inner) :
    (∀ key, history.countP (BridgeEffect.mintsFor key) ≤ 1) ∧
    ForEach (fun before effect => ∀ key coin recipient, effect = .minted key coin recipient →
      MintedFor crypto inner.treasury before key coin recipient) history ∧
    (∀ message coin, BridgeEffect.burned message coin ∈ history → BurnedFor message coin ∧
      (∀ coin' recipient, BridgeEffect.minted message.key coin' recipient ∉ history) ∧
      ∃ record, inner.tokenTransferRecords message.key = some record ∧ record.message = message) ∧
    ForEach (fun before effect => ∀ message coin, effect = .burned message coin →
      ∀ earlier ∈ before, ∀ message', earlier.recorded = some message' →
        message'.key ≠ message.key) history ∧
    (∀ coinType supply, inner.treasury.treasuries coinType = some supply →
      supply + burnedTotal history coinType = mintedTotal history coinType) ∧
    (∀ msgType, ∃ n, history.filterMap (BridgeEffect.executedSeqNum msgType) = List.range n) ∧
    (∀ message signatures committee,
      BridgeEffect.executed message signatures committee ∈ history →
        ∃ required, requiredVotingPower message = .ok required ∧
          committee.SignedBy crypto message signatures required) := by
  have hinv := hrun.inv hchain
  refine ⟨hinv.records.once, hinv.records.minted, ?_, hinv.records.fresh, hinv.supply.supply, ?_,
    fun _ _ _ hmem => hinv.executed hmem⟩
  · intro message coin hsent
    exact ⟨hinv.records.sent hsent, fun _ _ => hinv.records.not_minted_of_burned hsent,
      hinv.records.onRecord hsent rfl⟩
  · intro msgType
    by_cases htoken : msgType = MessageTypes.token
    · exact ⟨0, by rw [htoken, hinv.seqNums.token]; rfl⟩
    · exact ⟨_, hinv.seqNums.system msgType htoken⟩

/-- The coins of a run with a transfer from Ethereum and one back: 100 minted, 30 burned. -/
theorem bridge_mints_once_sample : ∃ history inner,
    BridgeRun plainCrypto ChainIds.haneulCustom history inner ∧
    BridgeEffect.minted sampleIncoming.key ⟨sampleCoin, 100⟩ sampleAccount ∈ history ∧
    BridgeEffect.burned sampleOutgoing ⟨sampleCoin, 30⟩ ∈ history ∧
    history.countP (BridgeEffect.mintsFor sampleIncoming.key) ≤ 1 ∧
    BurnedFor sampleOutgoing ⟨sampleCoin, 30⟩ := by
  obtain ⟨⟨history, inner⟩, hcalls, hevents⟩ := ok_of_any
    (x := BridgeCall.runAll plainCrypto (sampleCalls ++
      [.sendToken ChainIds.ethCustom (List.replicate 20 7) sampleCoin 30 sampleAccount])
      ([], BridgeInner.create ChainIds.haneulCustom))
    (p := fun state =>
      state.1.contains (.minted sampleIncoming.key ⟨sampleCoin, 100⟩ sampleAccount) &&
        state.1.contains (.burned sampleOutgoing ⟨sampleCoin, 30⟩)) (by decide +kernel)
  rw [Bool.and_eq_true, contains_iff_mem, contains_iff_mem] at hevents
  have hrun := BridgeRun.calls BridgeRun.start hcalls
  obtain ⟨honce, -, hburned, -⟩ := bridge_mints_once (by decide) hrun
  exact ⟨history, inner, hrun, hevents.1, hevents.2, honce _, (hburned _ _ hevents.2).1⟩

end Haneul.Bridge
