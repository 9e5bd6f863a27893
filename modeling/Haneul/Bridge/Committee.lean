import Haneul.Bridge.Message

/-!
# The committee of the bridge

Mirror of `bridge/sources/committee.move`.  Validators register a key each; at a change of
epoch the registrations become the members of the committee, with the voting power of that
epoch.  A message is accepted with signatures of members, none twice, where the members that
are not blocklisted have the voting power that the message needs.

Recovering the key of a signature, and the Ethereum address of a key, are given.
-/

namespace Haneul.Bridge

open List

/-- The two native functions of the package: `secp256k1_ecrecover` on a signature and the bytes
    it signs, and `ecdsa_pub_key_to_eth_address`. -/
structure Crypto where
  ecrecover : List UInt8 → List UInt8 → Option (List UInt8)
  pubKeyToEthAddress : List UInt8 → Option (List UInt8)

structure CommitteeMember where
  haneulAddress : HaneulAddress
  bridgePubkeyBytes : List UInt8
  votingPower : Nat
  httpRestUrl : List UInt8
  blocklisted : Bool
deriving DecidableEq, Repr

structure CommitteeMemberRegistration where
  haneulAddress : HaneulAddress
  bridgePubkeyBytes : List UInt8
  httpRestUrl : List UInt8
deriving DecidableEq, Repr

/-- The maps are lists of entries, as in `vec_map`. -/
structure BridgeCommittee where
  members : List (List UInt8 × CommitteeMember)
  memberRegistrations : List (HaneulAddress × CommitteeMemberRegistration)
  lastCommitteeUpdateEpoch : Nat
deriving DecidableEq, Repr

namespace BridgeCommittee

def create : BridgeCommittee := ⟨[], [], 0⟩

/-! ### Signatures -/

def haneulMessagePrefix : List UInt8 :=
  [0x48, 0x41, 0x4e, 0x45, 0x55, 0x4c, 0x5f, 0x42, 0x52, 0x49, 0x44, 0x47, 0x45, 0x5f,
   0x4d, 0x45, 0x53, 0x53, 0x41, 0x47, 0x45]

def signedBytes (message : BridgeMessage) : List UInt8 :=
  haneulMessagePrefix ++ message.serializeMessage

def addedPower (member : CommitteeMember) : Nat :=
  if member.blocklisted then 0 else member.votingPower

variable (crypto : Crypto)

/-- One turn of the loop: the keys seen so far, and their power. -/
def countSignature (self : BridgeCommittee) (bytes : List UInt8)
    (counted : List (List UInt8) × Nat) (signature : List UInt8) :
    Except BridgeAbort (List (List UInt8) × Nat) :=
  match crypto.ecrecover signature bytes with
  | none => .error .failedToRecoverPubkey
  | some pubkey =>
    if counted.1.contains pubkey then .error .duplicatedSignature
    else
      match self.members.lookup pubkey with
      | none => .error .invalidSignature
      | some member => do
        let threshold ← addU64 counted.2 (addedPower member)
        return (counted.1 ++ [pubkey], threshold)

def verifySignatures (self : BridgeCommittee) (message : BridgeMessage)
    (signatures : List (List UInt8)) : Except BridgeAbort Unit := do
  let required ← requiredVotingPower message
  let counted ← signatures.foldlM (self.countSignature crypto (signedBytes message)) ([], 0)
  require (required ≤ counted.2) .signatureBelowThreshold

variable (self : BridgeCommittee)

def votingPower (pubkey : List UInt8) : Nat :=
  match self.members.lookup pubkey with
  | none => 0
  | some member => member.votingPower

def IsActive (pubkey : List UInt8) : Prop :=
  ∃ member, self.members.lookup pubkey = some member ∧ member.blocklisted = false

/-- Distinct members that are not blocklisted have signed a message, and have some voting
    power together. -/
def SignedBy (self : BridgeCommittee) (message : BridgeMessage)
    (signatures : List (List UInt8)) (power : Nat) : Prop :=
  ∃ signers : List (List UInt8), signers.Nodup ∧
    (∀ pubkey ∈ signers, self.IsActive pubkey ∧
      ∃ signature ∈ signatures, crypto.ecrecover signature (signedBytes message) = some pubkey) ∧
    power ≤ (signers.map self.votingPower).sum

section Verify

variable {crypto : Crypto} {self : BridgeCommittee} {message : BridgeMessage}
  {bytes signature : List UInt8} {signatures : List (List UInt8)} {power : Nat}

/-- The invariant of the loop: of the keys seen, those that are not blocklisted have the power
    counted so far. -/
structure Counted (crypto : Crypto) (committee : BridgeCommittee) (bytes : List UInt8)
    (signatures seen : List (List UInt8)) (threshold : Nat) (active : List (List UInt8)) :
    Prop where
  nodup : active.Nodup
  seen : ∀ pubkey ∈ active, pubkey ∈ seen
  signed : ∀ pubkey ∈ active, committee.IsActive pubkey ∧
    ∃ signature ∈ signatures, crypto.ecrecover signature bytes = some pubkey
  power : threshold = (active.map committee.votingPower).sum

variable {counted counted' : List (List UInt8) × Nat}

theorem countSignature_ok (h : self.countSignature crypto bytes counted signature = .ok counted') :
    ∃ pubkey member, crypto.ecrecover signature bytes = some pubkey ∧ pubkey ∉ counted.1 ∧
      self.members.lookup pubkey = some member ∧
      counted' = (counted.1 ++ [pubkey], counted.2 + addedPower member) := by
  unfold countSignature at h
  split at h
  · cases h
  case h_2 pubkey hrecover =>
      split at h
      · cases h
      case isFalse hseen =>
          split at h
          · cases h
          case h_2 member hmember =>
              obtain ⟨threshold, hthreshold, h⟩ := bind_eq_ok.mp h
              cases h
              rw [(addU64_eq_ok.mp hthreshold).2]
              exact ⟨pubkey, member, hrecover, by simpa using hseen, hmember, rfl⟩

theorem Counted.count {seen active : List (List UInt8)} {threshold : Nat}
    {counted' : List (List UInt8) × Nat} {done : List (List UInt8)}
    (hinv : Counted crypto self bytes done seen threshold active)
    (h : self.countSignature crypto bytes (seen, threshold) signature = .ok counted') :
    ∃ active', Counted crypto self bytes (done ++ [signature]) counted'.1 counted'.2 active' := by
  obtain ⟨pubkey, member, hrecover, hseen, hmember, rfl⟩ := countSignature_ok h
  have hsigned : ∀ key ∈ active, self.IsActive key ∧
      ∃ s ∈ done ++ [signature], crypto.ecrecover s bytes = some key := by
    intro key hkey
    obtain ⟨hactive, s, hs, hkeyRecover⟩ := hinv.signed key hkey
    exact ⟨hactive, s, mem_append_left _ hs, hkeyRecover⟩
  by_cases hblocked : member.blocklisted = true
  · refine ⟨active, hinv.nodup, fun key hkey => mem_append_left _ (hinv.seen key hkey), hsigned, ?_⟩
    simp only [addedPower, hblocked, if_true, Nat.add_zero, hinv.power]
  · have hactive : self.IsActive pubkey := ⟨member, hmember, by simpa using hblocked⟩
    refine ⟨pubkey :: active, ?_, ?_, ?_, ?_⟩
    · exact nodup_cons.mpr ⟨fun hmem => hseen (hinv.seen pubkey hmem), hinv.nodup⟩
    · intro key hkey
      rcases mem_cons.mp hkey with rfl | hkey
      · exact mem_concat_self
      · exact mem_append_left _ (hinv.seen key hkey)
    · intro key hkey
      rcases mem_cons.mp hkey with rfl | hkey
      · exact ⟨hactive, signature, by simp, hrecover⟩
      · exact hsigned key hkey
    · simp only [addedPower, hblocked, Bool.false_eq_true, if_false, map_cons,
        sum_cons, votingPower, hmember, hinv.power]
      omega

theorem Counted.run {todo done : List (List UInt8)} {active : List (List UInt8)}
    (hinv : Counted crypto self bytes done counted.1 counted.2 active)
    (h : todo.foldlM (self.countSignature crypto bytes) counted = .ok counted') :
    ∃ active', Counted crypto self bytes (done ++ todo) counted'.1 counted'.2 active' := by
  induction todo generalizing done counted active with
  | nil =>
    cases h
    exact ⟨active, by rwa [append_nil]⟩
  | cons signature todo ih =>
    obtain ⟨next, hnext, h⟩ := foldlM_cons_eq_ok.mp h
    obtain ⟨active', hinv'⟩ := hinv.count hnext
    obtain ⟨active'', hinv''⟩ := ih hinv' h
    exact ⟨active'', by rwa [append_assoc] at hinv''⟩

/-- **What verified signatures show**: distinct members that are not blocklisted signed the
    message, with the power that it needs. -/
theorem verifySignatures_ok (h : self.verifySignatures crypto message signatures = .ok ()) :
    ∃ required, requiredVotingPower message = .ok required ∧
      self.SignedBy crypto message signatures required := by
  obtain ⟨required, hrequired, counted, hcounted, h⟩ := bind₂_eq_ok.mp h
  have hstart : Counted crypto self (signedBytes message) [] (([], 0) : List (List UInt8) × Nat).1
      (([], 0) : List (List UInt8) × Nat).2 [] :=
    ⟨nodup_nil, nofun, nofun, rfl⟩
  obtain ⟨active, hinv⟩ := hstart.run hcounted
  have hpower : required ≤ counted.2 := by simpa using h
  rw [hinv.power] at hpower
  exact ⟨required, hrequired, active, hinv.nodup, hinv.signed, hpower⟩

end Verify

/-! ### Registration and the next committee -/

/-- A registration replaces an earlier one of the same validator in place. -/
def setRegistration (registrations : List (HaneulAddress × CommitteeMemberRegistration))
    (registration : CommitteeMemberRegistration) :
    List (HaneulAddress × CommitteeMemberRegistration) :=
  if (registrations.lookup registration.haneulAddress).isSome then
    registrations.map fun entry =>
      if entry.1 = registration.haneulAddress then (entry.1, registration) else entry
  else registrations ++ [(registration.haneulAddress, registration)]

def checkUniquenessBridgeKeys (bridgePubkeyBytes : List UInt8) :
    Except BridgeAbort Unit :=
  require (self.memberRegistrations.countP
    (fun entry => entry.2.bridgePubkeyBytes == bridgePubkeyBytes) ≤ 1) .duplicatePubkey

def register (activeValidators : List HaneulAddress)
    (bridgePubkeyBytes httpRestUrl : List UInt8) (sender : HaneulAddress) :
    Except BridgeAbort BridgeCommittee := do
  require self.members.isEmpty .committeeAlreadyInitiated
  require (bridgePubkeyBytes.length == 33) .invalidPubkeyLength
  require (activeValidators.contains sender) .senderNotActiveValidator
  let self' := { self with
    memberRegistrations := setRegistration self.memberRegistrations
      ⟨sender, bridgePubkeyBytes, httpRestUrl⟩ }
  self'.checkUniquenessBridgeKeys bridgePubkeyBytes
  return self'

def gatherMember (activeValidatorVotingPower : List (HaneulAddress × Nat))
    (gathered : List (List UInt8 × CommitteeMember) × Nat)
    (entry : HaneulAddress × CommitteeMemberRegistration) :
    Except BridgeAbort (List (List UInt8 × CommitteeMember) × Nat) :=
  match activeValidatorVotingPower.lookup entry.2.haneulAddress with
  | none => .ok gathered
  | some votingPower => do
    let percentage ← addU64 gathered.2 votingPower
    require (gathered.1.lookup entry.2.bridgePubkeyBytes).isNone .keyAlreadyExists
    return (gathered.1 ++ [(entry.2.bridgePubkeyBytes,
      ⟨entry.2.haneulAddress, entry.2.bridgePubkeyBytes, votingPower, entry.2.httpRestUrl,
        false⟩)], percentage)

def tryCreateNextCommittee (activeValidatorVotingPower : List (HaneulAddress × Nat))
    (minStakeParticipationPercentage epoch : Nat) : Except BridgeAbort BridgeCommittee := do
  let gathered ← self.memberRegistrations.foldlM (gatherMember activeValidatorVotingPower) ([], 0)
  return if minStakeParticipationPercentage ≤ gathered.2 then ⟨gathered.1, [], epoch⟩ else self

/-! ### Blocklist and urls -/

/-- The inner loop: the first member, from index `from` on, whose address is `target`. -/
def findMember (crypto : Crypto) (target : List UInt8) :
    (members : List (List UInt8 × CommitteeMember)) → (index : Nat) →
      Except BridgeAbort (Option Nat)
  | [], _ => .ok none
  | entry :: members, index =>
    match crypto.pubKeyToEthAddress entry.1 with
    | none => .error .failedToRecoverPubkey
    | some address =>
      if target = address then .ok (some index) else findMember crypto target members (index + 1)

/-- One turn of the outer loop; `member_idx` is back at `0` after each address that is found. -/
def blockMember (blocklisted : Bool)
    (members : List (List UInt8 × CommitteeMember)) (target : List UInt8) :
    Except BridgeAbort (List (List UInt8 × CommitteeMember)) := do
  let found ← findMember crypto target members 0
  match found with
  | none => .error .validatorBlocklistContainsUnknownKey
  | some index => .ok (members.modify index fun entry => (entry.1, { entry.2 with blocklisted }))

def executeBlocklist (self : BridgeCommittee) (blocklist : Blocklist) :
    Except BridgeAbort BridgeCommittee := do
  let members ← blocklist.validatorEthAddresses.foldlM
    (blockMember crypto (blocklist.blocklistType != 1)) self.members
  return { self with members }

def updateNodeUrl (newUrl : List UInt8) (sender : HaneulAddress) :
    Except BridgeAbort BridgeCommittee :=
  match self.members.findIdx? fun entry => entry.2.haneulAddress == sender with
  | none => .error .senderIsNotInBridgeCommittee
  | some index =>
    .ok { self with
      members := self.members.modify index fun entry =>
        (entry.1, { entry.2 with httpRestUrl := newUrl }) }

end BridgeCommittee

end Haneul.Bridge
