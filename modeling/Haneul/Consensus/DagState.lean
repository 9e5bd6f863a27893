import Haneul.Lib.Loop
import Haneul.Lib.Map
import Haneul.Consensus.Commit
import Haneul.Consensus.Universe

/-!
# The local DAG of an authority

Mirror of `consensus/core/src/dag_state.rs`: the cache of recent blocks with the
votes for each of them, the per-round aggregation of the accepted blocks, the
last commit, and the store that the cache is flushed to.  `recent_refs_by_authority`
indexes the cached references by author and is a function of the cache here;
the threshold clock and the metrics are not read by anything modelled.

An assertion or `panic!` of the source is an error of type `Panic`.
-/

namespace Haneul.Consensus

open Quorum

inductive Panic where
  | outOfFuel
  | genesisBlockAccepted (block : BlockRef)
  | ownSlotOccupied (block : BlockRef)
  | parentMissing (parent block : BlockRef)
  | roundAboveNextRound (block : BlockRef) (nextRound : Nat)
  | roundInfoIndex (round : Nat)
  | roundInfoMismatch (found requested : Nat)
  | slotAtOrBelowGcRound (slot : Slot) (gcRound : Nat)
  | roundHasCommittedBlocks (round : Nat)
  | notInCache (block : BlockRef)
  | blockMustExist (block : BlockRef)
  | commitIndex (expected actual : Nat)
  | commitTimestampDecreases (previous next : Nat)
  | committedTwice (block : BlockRef)
  | leaderAtOrBelowGcRound (leader : BlockRef) (gcRound : Nat)
  | bothCommittedAndSkipped (block : BlockRef)
  | noDecisionSlots
  | decisionSlotRounds
  | anchorTooClose (anchor : BlockRef) (decisionRound : Nat)
  | slotNotInRound (slot : Slot) (round : Nat)
  | cannotUndecide (slot : Slot)
  | cannotChangeDecision (slot : Slot) (old new : LeaderStatus)
  | minNextLeaderRound (current next : Nat)
  | nextCommitIndex (current next : Nat)
  | leaderScheduleChanged
  | pendingRound (found expected : Nat)
  | undecidedSlot (slot : Slot)
  | decidedWithoutDecision (slot : Slot)
  | noCommittedLeaders
  | leaderRound (found expected : Nat)
  | parentMustBeInDagState (parent : BlockRef)
  | timestamp (error : TimestampError)
  | moreThanOneCandidate (slot : Slot)
  | moreThanOneCertifiedLeader (slot : Slot)
deriving DecidableEq, Repr

/-- A cached block, the blocks of the next round that have it as an ancestor, and
    the stake of their authors. -/
structure BlockInfo where
  block : VerifiedBlock
  children : Finset BlockRef := ∅
  childrenStake : StakeAggregator := {}
  committed : Bool := false

namespace BlockInfo

def addChild (info : BlockInfo) (child : BlockRef) (committee : Committee) : BlockInfo :=
  { info with
    children := insert child info.children
    childrenStake := (info.childrenStake.addUnique child.author committee).1 }

end BlockInfo

/-- The accepted blocks of one round, and the stake of their authors. -/
structure RoundInfo where
  round : Nat
  blocks : Finset BlockRef := ∅
  totalStake : StakeAggregator := {}

namespace RoundInfo

def addBlock (info : RoundInfo) (block : BlockRef) (committee : Committee) : RoundInfo :=
  { info with
    blocks := insert block info.blocks
    totalStake := (info.totalStake.addUnique block.author committee).1 }

end RoundInfo

/-- The state of a node.  `ownIndex` and `cachedRounds` are its own configuration. -/
structure DagState where
  ownIndex : Nat
  cachedRounds : Nat
  recentBlocks : Std.ExtTreeMap BlockRef BlockInfo compare := ∅
  roundInfo : List RoundInfo := []
  highestAcceptedRound : Nat := 0
  lastCommit : Option Commit := none
  blocksToWrite : List VerifiedBlock := []
  commitsToWrite : List Commit := []
  storedBlocks : Std.ExtTreeMap BlockRef VerifiedBlock compare := ∅
  storedCommits : List Commit := []

namespace DagState

variable (context : Context)

/-! ### Reading -/

variable (state : DagState)

def lastCommitIndex : Nat :=
  match state.lastCommit with
  | some commit => commit.index
  | none => 0

def lastCommitTimestampMs : Nat :=
  match state.lastCommit with
  | some commit => commit.timestampMs
  | none => 0

/-- The digest of the last commit, `CommitDigest::MIN` before the first one. -/
def lastCommitDigest (hashes : CommitHashes) (state : DagState) : Nat :=
  match state.lastCommit with
  | some commit => hashes.commitDigest commit
  | none => 0

def lastCommitRound : Nat :=
  match state.lastCommit with
  | some commit => commit.leader.round
  | none => 0

def calculateGcRound (commitRound : Nat) : Nat := commitRound - context.protocolConfig.gcDepth

def gcRound : Nat := calculateGcRound context state.lastCommitRound

/-- The cached references of an authority, in ascending order. -/
def recentRefs (author : Nat) : List BlockRef :=
  state.recentBlocks.keys.filter fun reference => reference.author = author

def getBlock (reference : BlockRef) : Option VerifiedBlock :=
  if reference.round = GENESIS_ROUND then
    context.genesisBlocks.find? fun block => block.reference = reference
  else
    match state.recentBlocks[reference]? with
    | some info => some info.block
    | none => state.storedBlocks[reference]?

def containsBlock (reference : BlockRef) : Bool :=
  if reference ∈ state.recentBlocks ∨ reference ∈ context.genesisRefs then true
  else
    match (state.recentRefs reference.author).getLast? with
    | none => false
    | some last =>
      -- a higher round than the last cached one is not looked up in the store
      if last.round < reference.round then false
      else decide (reference ∈ state.storedBlocks)

def blockInfosAtSlot (slot : Slot) : List BlockInfo :=
  (state.recentBlocks.toList.filter fun entry => entry.1.slot = slot).map Prod.snd

def getBlockInfoAtSlot (slot : Slot) : Except Panic (List BlockInfo) :=
  if slot.round > state.gcRound context then .ok (state.blockInfosAtSlot slot)
  else .error (.slotAtOrBelowGcRound slot (state.gcRound context))

def getUncommittedBlocksAtSlot (slot : Slot) : List VerifiedBlock :=
  (state.blockInfosAtSlot slot).map BlockInfo.block

def getUncommittedBlocksAtRound (round : Nat) :
    Except Panic (List VerifiedBlock) :=
  if round ≤ state.lastCommitRound then .error (.roundHasCommittedBlocks round)
  else
    .ok ((state.recentBlocks.toList.filter fun entry => entry.1.round = round).map
      fun entry => entry.2.block)

def getRoundInfo (round : Nat) : Except Panic (Option RoundInfo) :=
  match state.roundInfo.head? with
  | none => .ok none
  | some front =>
    if round < front.round ∨ round ≤ state.gcRound context then .ok none
    else
      match state.roundInfo[round - front.round]? with
      | none => .ok none
      | some info =>
        if info.round = round then .ok (some info)
        else .error (.roundInfoMismatch info.round round)

def isCommitted (reference : BlockRef) : Except Panic Bool :=
  match state.recentBlocks[reference]? with
  | some info => .ok info.committed
  | none => .error (.notInCache reference)

/-- One turn of the traversal by descending references: the last reference above
    `earlierRound` is replaced by the ancestors of its block. -/
def linkedTurn (earlierRound : Nat) (linked : Finset BlockRef) :
    Except Panic (Turn (Finset BlockRef) (Finset BlockRef)) :=
  match (linked.sort (· ≤ ·)).getLast? with
  | none => .ok (.done linked)
  | some last =>
    if last.round ≤ earlierRound then .ok (.done linked)
    else
      match state.getBlock context last with
      | none => .error (.blockMustExist last)
      | some block => .ok (.continue (linked.erase last ∪ block.ancestors.toFinset))

def loadLinked (reference : BlockRef) : Except Panic VerifiedBlock :=
  match state.getBlock context reference with
  | none => .error (.blockMustExist reference)
  | some block => .ok block

/-- The blocks of `earlierRound` that are linked to `laterBlock`. -/
def ancestorsAtRound (laterBlock : VerifiedBlock) (earlierRound : Nat) :
    Except Panic (List VerifiedBlock) := do
  let linked ← loop .outOfFuel (linkedTurn context state earlierRound)
    (state.recentBlocks.size + state.storedBlocks.size + 2) laterBlock.ancestors.toFinset
  ((linked.filter fun reference => earlierRound ≤ reference.round).sort (· ≤ ·)).mapM
    (loadLinked context state)

/-! ### Accepting blocks -/

def addChild (block : VerifiedBlock) (state : DagState) (ancestor : BlockRef) :
    Except Panic DagState :=
  if ancestor.round + 1 ≠ block.round ∨ ancestor.round ≤ state.gcRound context then .ok state
  else
    match state.recentBlocks[ancestor]? with
    | none => .error (.parentMissing ancestor block.reference)
    | some info =>
      .ok { state with
        recentBlocks := state.recentBlocks.insert ancestor
          (info.addChild block.reference context.committee) }

def nextRound : Nat :=
  match state.roundInfo.getLast? with
  | some info => info.round + 1
  | none => state.gcRound context + 1

/-- The round table, extended by an entry for `round` if it is the next one. -/
def extendedRoundInfo (round : Nat) : List RoundInfo :=
  if round = state.nextRound context then state.roundInfo ++ [{ round := round }]
  else state.roundInfo

def updateRoundInfo (block : VerifiedBlock) : Except Panic DagState :=
  let nextRound := state.nextRound context
  let infos := state.extendedRoundInfo context block.round
  if block.round ≤ state.gcRound context then .ok state
  else if ¬ block.round ≤ nextRound then
    .error (.roundAboveNextRound block.reference nextRound)
  else
    match infos.head? with
    | none => .error (.roundInfoIndex block.round)
    | some front =>
      if block.round < front.round then .error (.roundInfoIndex block.round)
      else
        let index := block.round - front.round
        match infos[index]? with
        | none => .error (.roundInfoIndex block.round)
        | some info =>
          .ok { state with
            roundInfo := infos.set index (info.addBlock block.reference context.committee) }

def updateBlockMetadata (block : VerifiedBlock) : Except Panic DagState := do
  let state := { state with
    recentBlocks := state.recentBlocks.insert block.reference { block := block } }
  let state ←
    if context.protocolConfig.enableV3 then do
      let state ← block.ancestors.foldlM (addChild context block) state
      updateRoundInfo context state block
    else pure state
  return { state with highestAcceptedRound := max state.highestAcceptedRound block.round }

def acceptBlock (block : VerifiedBlock) : Except Panic DagState :=
  if block.round = 0 then .error (.genesisBlockAccepted block.reference)
  else if state.containsBlock context block.reference then .ok state
  else if block.author = state.ownIndex ∧
      state.getUncommittedBlocksAtSlot block.slot ≠ [] then
    .error (.ownSlotOccupied block.reference)
  else do
    let state ← updateBlockMetadata context state block
    return { state with blocksToWrite := state.blocksToWrite ++ [block] }

def acceptBlocks (blocks : List VerifiedBlock) : Except Panic DagState :=
  blocks.foldlM (acceptBlock context) state

/-! ### Commits -/

/-- Marks a block committed; tells whether it was not committed before. -/
def setCommitted (reference : BlockRef) : Except Panic (DagState × Bool) :=
  match state.recentBlocks[reference]? with
  | none => .error (.notInCache reference)
  | some info =>
    if info.committed then .ok (state, false)
    else
      .ok ({ state with
        recentBlocks := state.recentBlocks.insert reference { info with committed := true } },
        true)

def addCommit (commit : Commit) : Except Panic DagState :=
  let added : DagState :=
    { state with
      lastCommit := some commit
      commitsToWrite := state.commitsToWrite ++ [commit] }
  match state.lastCommit with
  | some last =>
    -- a commit that is not newer is reported and dropped
    if commit.index ≤ last.index then .ok state
    else if commit.index ≠ last.index + 1 then .error (.commitIndex (last.index + 1) commit.index)
    else if commit.timestampMs < last.timestampMs then
      .error (.commitTimestampDecreases last.timestampMs commit.timestampMs)
    else .ok added
  | none =>
    if commit.index ≠ 1 then .error (.commitIndex 1 commit.index)
    else .ok added

/-! ### Flushing -/

def evictionRound (lastRound gcRound cachedRounds : Nat) : Nat :=
  min gcRound (lastRound - cachedRounds)

def authorityEvictionRound (author : Nat) : Nat :=
  let lastRound :=
    match (state.recentRefs author).getLast? with
    | some reference => reference.round
    | none => GENESIS_ROUND
  evictionRound lastRound (state.gcRound context) state.cachedRounds

/-- Writes what is buffered and evicts what is no longer needed.  `otherPending`
    tells whether commit infos or finalized commits are buffered. -/
def flush (otherPending : Bool) : DagState :=
  if state.blocksToWrite.isEmpty ∧ state.commitsToWrite.isEmpty ∧ ¬ otherPending then state
  else
    { state with
      recentBlocks := state.recentBlocks.filter fun reference _ =>
        reference.round > state.authorityEvictionRound context reference.author
      roundInfo := state.roundInfo.dropWhile fun info => info.round ≤ state.gcRound context
      blocksToWrite := []
      commitsToWrite := []
      storedBlocks := state.blocksToWrite.foldl
        (fun stored block => stored.insert block.reference block) state.storedBlocks
      storedCommits := state.storedCommits ++ state.commitsToWrite }

end DagState

end Haneul.Consensus
