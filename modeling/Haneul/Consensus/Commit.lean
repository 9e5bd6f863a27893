import Haneul.Consensus.Block

/-!
# Commits and leader decisions

Mirror of the data types of `consensus/core/src/commit.rs`, and of the median
timestamp of `consensus/core/src/linearizer.rs` that every commit carries.
-/

namespace Haneul.Consensus

structure CommitRef where
  index : Nat
  digest : Nat
deriving DecidableEq, Repr

/-- A commit as it is stored and signed for: references only. -/
structure Commit where
  index : Nat
  previousDigest : Nat
  timestampMs : Nat
  leader : BlockRef
  blocks : List BlockRef
deriving DecidableEq, Repr

/-- A commit with its blocks, as the finalizer and the leader schedule receive it. -/
structure CommittedSubDag where
  leader : BlockRef
  blocks : List VerifiedBlock
  timestampMs : Nat
  commitRef : CommitRef
  decidedWithLocalBlocks : Bool := true
  recoveredRejectedTransactions : Bool := false
  rejectedTransactionsByBlock : Std.ExtTreeMap BlockRef (List Nat) compare := ∅

/-- The hash functions that commits are built with: the digest of a commit, the sort
    seed of a list of leader digests, and the sort key of a block digest. -/
structure CommitHashes where
  commitDigest : Commit → Nat
  sortSeed : List Nat → Nat
  sortHash : Nat → Nat → Nat

inductive LeaderStatus where
  | commit (block : VerifiedBlock)
  | skip (slot : Slot)
  | undecided (slot : Slot)
deriving DecidableEq, Repr

inductive Decision where
  | direct
  | indirect
  | certified
deriving DecidableEq, Repr

namespace LeaderStatus

def isDecided : LeaderStatus → Bool
  | commit _ => true
  | skip _ => true
  | undecided _ => false

end LeaderStatus

/-! ### Timestamps -/

inductive TimestampError where
  | noBlocks
  | insufficientStake (total quorum : Nat)
deriving DecidableEq, Repr

/-- The first timestamp at which more than half of the stake is covered. -/
def medianOfSorted (totalStake : Nat) : Nat → List (Nat × Nat) → Option Nat
  | _, [] => none
  | cumulativeStake, (ts, stake) :: rest =>
    if cumulativeStake + stake > totalStake / 2 then some ts
    else medianOfSorted totalStake (cumulativeStake + stake) rest

def medianTimestampsByStakeInner (timestamps : List (Nat × Nat)) (totalStake : Nat) : Nat :=
  let sorted := timestamps.insertionSort fun a b => a.1 ≤ b.1
  match medianOfSorted totalStake 0 sorted with
  | some ts => ts
  | none => (sorted.getLast?.map Prod.fst).getD 0

def medianTimestampByStake (committee : Committee) (blocks : List VerifiedBlock) :
    Except TimestampError Nat :=
  let timestamps := blocks.map fun block => (block.timestampMs, committee.stake block.author)
  let totalStake := (timestamps.map Prod.snd).sum
  if timestamps.isEmpty then .error .noBlocks
  else if totalStake < committee.quorumThreshold then
    .error (.insufficientStake totalStake committee.quorumThreshold)
  else .ok (medianTimestampsByStakeInner timestamps totalStake)

end Haneul.Consensus
