import Haneul.Consensus.Committee

/-!
# Blocks and their references

Mirror of `consensus/types/src/block.rs` and `consensus/core/src/block.rs`.  A
block reference is the round, the author and the digest of a block, ordered by
round first; a slot is a round and an authority.  The digest is a hash of the
signed block.  A verified block carries it as a field here, and that two
different blocks have different references is a hypothesis of the developments
that need it (`BlockUniverse`).
-/

namespace Haneul.Consensus

def GENESIS_ROUND : Nat := 0

def NUM_RESERVED_TRANSACTION_INDICES : Nat := 8

/-- Number of values of a `TransactionIndex`. -/
def TRANSACTION_INDEX_VALUES : Nat := 2 ^ 16

structure BlockRef where
  round : Nat
  author : Nat
  digest : Nat
deriving DecidableEq, Repr

structure Slot where
  round : Nat
  authority : Nat
deriving DecidableEq, Repr

namespace BlockRef

def key (reference : BlockRef) : Nat ×ₗ Nat ×ₗ Nat :=
  toLex (reference.round, toLex (reference.author, reference.digest))

theorem key_injective : Function.Injective key := by
  rintro ⟨round, author, digest⟩ ⟨round', author', digest'⟩ h
  simp only [key, EmbeddingLike.apply_eq_iff_eq, Prod.mk.injEq] at h
  simp [h]

instance : LinearOrder BlockRef := LinearOrder.lift' key key_injective

instance : Std.TransCmp (compare : BlockRef → BlockRef → Ordering) := inferInstance

instance : IsTrans BlockRef (· ≤ ·) := inferInstance

instance : Std.Antisymm fun a b : BlockRef => a ≤ b := inferInstance

instance : Std.Total fun a b : BlockRef => a ≤ b := inferInstance

instance : Std.LawfulEqCmp (compare : BlockRef → BlockRef → Ordering) where
  eq_of_compare h := compare_eq_iff_eq.mp h

theorem lt_of_round_lt {a b : BlockRef} (h : a.round < b.round) : a < b := by
  change a.key < b.key
  simp only [key, Prod.Lex.toLex_lt_toLex]
  exact .inl h

theorem round_le_of_le {a b : BlockRef} (h : a ≤ b) : a.round ≤ b.round := by
  by_contra hlt
  exact absurd h (not_le.mpr (lt_of_round_lt (not_le.mp hlt)))

def slot (reference : BlockRef) : Slot := ⟨reference.round, reference.author⟩

end BlockRef

/-- The three block formats. -/
inductive BlockVersion where
  | v1
  | v2
  | v3
deriving DecidableEq, Repr

structure Transaction where
  data : List UInt8
deriving DecidableEq, Repr

/-- Votes on the transactions of one block.  Rejects are explicit, the other
    transactions of the block receive an implicit accept vote. -/
structure BlockTransactionVotes where
  blockRef : BlockRef
  rejects : List Nat
deriving DecidableEq, Repr

/-- A block with its digest.  Commit votes and misbehavior reports are not read
    by anything modelled here; the votes of a `v1` block are empty and the cutoff
    of a `v1` or `v2` block is the genesis round, as the accessors return them. -/
structure VerifiedBlock where
  version : BlockVersion
  epoch : Nat
  round : Nat
  author : Nat
  timestampMs : Nat
  ancestors : List BlockRef
  transactions : List Transaction
  votes : List BlockTransactionVotes
  votesCutoffRound : Nat
  digest : Nat
deriving DecidableEq, Repr

namespace VerifiedBlock

variable (block : VerifiedBlock)

def reference : BlockRef := ⟨block.round, block.author, block.digest⟩

def slot : Slot := ⟨block.round, block.author⟩

def transactionVotes : List BlockTransactionVotes :=
  match block.version with
  | .v1 => []
  | .v2 | .v3 => block.votes

def transactionVotesCutoffRound : Nat :=
  match block.version with
  | .v1 | .v2 => GENESIS_ROUND
  | .v3 => block.votesCutoffRound

@[simp] theorem reference_round : block.reference.round = block.round := rfl

@[simp] theorem reference_author : block.reference.author = block.author := rfl

@[simp] theorem reference_slot : block.reference.slot = block.slot := rfl

end VerifiedBlock

/-! ### Context -/

/-- The fields of `ConsensusProtocolConfig` that the modelled code reads. -/
structure ProtocolConfig where
  enableV3 : Bool
  gcDepth : Nat
  transactionVotingEnabled : Bool := true
  numLeadersPerRound : Option Nat := some 1
  maxTransactionSizeBytes : Nat := 0
  maxTransactionsInBlockBytes : Nat := 0
  maxNumTransactionsInBlock : Nat := 0
  badNodesStakeThreshold : Nat := 0
  leaderScheduleWindowSize : Nat := 600
  leaderScheduleUpdateInterval : Nat := 60
deriving DecidableEq, Repr

/-- What the contexts of all nodes have in common.  `genesisDigest` gives the digests
    of the genesis blocks and `verifySignature` stands for the signature check. -/
structure Context where
  committee : Committee
  protocolConfig : ProtocolConfig
  epochStartTimestampMs : Nat
  genesisDigest : Nat → Nat
  verifySignature : VerifiedBlock → Bool

namespace Context

variable (context : Context)

def genesisBlock (author : Nat) : VerifiedBlock where
  version :=
    if context.protocolConfig.enableV3 then .v3
    else if context.protocolConfig.transactionVotingEnabled then .v2
    else .v1
  epoch := context.committee.epoch
  round := GENESIS_ROUND
  author := author
  timestampMs := context.epochStartTimestampMs
  ancestors := []
  transactions := []
  votes := []
  votesCutoffRound := GENESIS_ROUND
  digest := context.genesisDigest author

def genesisBlocks : List VerifiedBlock :=
  (List.range context.committee.size).map context.genesisBlock

def genesisRefs : List BlockRef := context.genesisBlocks.map VerifiedBlock.reference

def maxTransactionVoteTargets : Nat := max context.protocolConfig.gcDepth 1 * context.committee.size

theorem round_of_mem_genesisRefs {context : Context} {reference : BlockRef}
    (h : reference ∈ context.genesisRefs) : reference.round = GENESIS_ROUND := by
  simp only [genesisRefs, genesisBlocks, List.map_map, List.mem_map] at h
  obtain ⟨author, -, rfl⟩ := h
  rfl

end Context

end Haneul.Consensus
