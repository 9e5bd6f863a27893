import Mathlib

/-!
# Transactions as the authority sees them after consensus

The parts of `haneul-types` that scheduling after consensus reads: the shared inputs of a
transaction with their mutability, the keys of its other inputs, and the keys under which a
transaction is deferred (`authority/transaction_deferral.rs`).

Identifiers and digests are numbers.  The values of type `u64` are numbers too; where the
source saturates or wraps, so do the definitions.
-/

namespace Haneul.Authority

abbrev ObjectID := Nat

abbrev SequenceNumber := Nat

abbrev TransactionDigest := Nat

abbrev Round := Nat

def u64Max : Nat := 2 ^ 64 - 1

def saturatingAdd (a b : Nat) : Nat := min (a + b) u64Max

def saturatingMul (a b : Nat) : Nat := min (a * b) u64Max

def randomnessStateObjectId : ObjectID := 0x8

/-! ### Inputs -/

inductive SharedObjectMutability where
  | immutable
  | mutable
  | nonExclusiveWrite
deriving DecidableEq, Repr

def SharedObjectMutability.isExclusive : SharedObjectMutability → Bool
  | .mutable => true
  | .immutable => false
  | .nonExclusiveWrite => false

structure SharedInputObject where
  id : ObjectID
  initialSharedVersion : SequenceNumber := 1
  mutability : SharedObjectMutability
deriving DecidableEq, Repr

def SharedInputObject.isAccessedExclusively (obj : SharedInputObject) : Bool :=
  obj.mutability.isExclusive

abbrev ObjectKey := ObjectID × SequenceNumber

/-- A `VerifiedExecutableTransaction`, reduced to what the scheduler reads of it. -/
structure Transaction where
  digest : TransactionDigest
  sharedInputObjects : List SharedInputObject
  nonSharedInputObjectKeys : List ObjectKey := []
  receivingObjectKeys : List ObjectKey := []
  gasPrice : Nat := 0
  /-- `expiration().restricts_proposers(epoch)`. -/
  restrictsProposers : Bool := false
deriving DecidableEq, Repr

def Transaction.usesRandomness (tx : Transaction) : Bool :=
  tx.sharedInputObjects.any fun obj => obj.id = randomnessStateObjectId

/-- The transaction takes the object with exclusive access. -/
def Transaction.writes (tx : Transaction) (o : ObjectID) : Bool :=
  tx.sharedInputObjects.any fun obj => obj.id = o && obj.isAccessedExclusively

/-! ### Deferral -/

inductive DeferralKey where
  | randomness (deferredFromRound : Round)
  | consensusRound (futureRound deferredFromRound : Round)
deriving DecidableEq, Repr

def DeferralKey.deferredFromRound : DeferralKey → Round
  | .randomness deferredFromRound => deferredFromRound
  | .consensusRound _ deferredFromRound => deferredFromRound

/-- `transaction_deferral_within_limit`.  The source subtracts with `u64`: the keys it is
    called with have `deferred_from_round ≤ future_round`. -/
def transactionDeferralWithinLimit (key : DeferralKey) (maxDeferralRounds : Nat) : Bool :=
  match key with
  | .consensusRound futureRound deferredFromRound =>
    futureRound - deferredFromRound ≤ maxDeferralRounds
  | .randomness _ => true

structure ConsensusCommitInfo where
  round : Round
  estimatedCommitPeriodMicros : Nat
deriving DecidableEq, Repr

end Haneul.Authority
