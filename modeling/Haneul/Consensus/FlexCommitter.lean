import Haneul.Consensus.LeaderSlotDecider

/-!
# The v3 committer

Mirror of `consensus/core/src/flex_committer.rs`.  The committer keeps the decisions
for the leader slots above the last commit in its pending state, runs the direct and
the indirect rule on the undecided ones, and builds a commit from the first fully
decided round that has a committed leader.

The order of the leaders within a round is a shuffle seeded by the round, and the
leaders allowed for the next commit are a function of the commits so far; both are
parameters here, with the property that the code around them guarantees.
-/

namespace Haneul.Consensus

structure Shuffle where
  shuffle : Nat → List Nat → List Nat
  perm : ∀ round leaders, (shuffle round leaders).Perm leaders

structure NextCommitLeaderSchedule where
  nextCommitIndex : Nat := 0
  minNextLeaderRound : Nat := 0
  allowedLeaders : List Nat := []
deriving DecidableEq, Repr

structure LeaderSlot where
  slot : Slot
  leaderStatus : LeaderStatus
  decision : Option Decision := none
deriving DecidableEq, Repr

structure RoundState where
  round : Nat
  leaderSlots : List LeaderSlot
  undecidedSlots : Finset Slot
  numCommitted : Nat := 0
deriving DecidableEq

structure PendingCommitState where
  nextCommitLeaders : NextCommitLeaderSchedule := {}
  rounds : List RoundState := []
deriving DecidableEq

/-! ### The state of a round -/

namespace RoundState

def new (leaders : List Nat) (round : Nat) : RoundState where
  round := round
  leaderSlots := leaders.map fun leader => ⟨⟨round, leader⟩, .undecided ⟨round, leader⟩, none⟩
  undecidedSlots := (leaders.map (Slot.mk round)).toFinset

/-- Changes the first leader slot with the given slot. -/
def updateFirst (slot : Slot) (status : LeaderStatus) (decision : Decision) :
    List LeaderSlot → List LeaderSlot
  | [] => []
  | leaderSlot :: rest =>
    if leaderSlot.slot = slot then
      { leaderSlot with leaderStatus := status, decision := some decision } :: rest
    else leaderSlot :: updateFirst slot status decision rest

def updateSlotDecision (state : RoundState) (slot : Slot) (newStatus : LeaderStatus)
    (decision : Decision) : Except Panic RoundState :=
  match state.leaderSlots.find? fun leaderSlot => leaderSlot.slot = slot with
  | none => .error (.slotNotInRound slot state.round)
  | some leaderSlot =>
    if newStatus.isDecided then
      if slot ∈ state.undecidedSlots then
        .ok { state with
          leaderSlots := updateFirst slot newStatus decision state.leaderSlots
          undecidedSlots := state.undecidedSlots.erase slot
          numCommitted :=
            match newStatus with
            | .commit _ => state.numCommitted + 1
            | _ => state.numCommitted }
      else if leaderSlot.leaderStatus = newStatus then .ok state
      else .error (.cannotChangeDecision slot leaderSlot.leaderStatus newStatus)
    else if leaderSlot.leaderStatus.isDecided then .error (.cannotUndecide slot)
    else .ok state

end RoundState

namespace PendingCommitState

variable (pending : PendingCommitState)

/-- The first round without a state. -/
def addFromRound : Nat :=
  match pending.rounds.getLast? with
  | some state => state.round + 1
  | none => pending.nextCommitLeaders.minNextLeaderRound

def extendTo (shuffle : Shuffle) (pending : PendingCommitState) (round : Nat) :
    PendingCommitState :=
  { pending with
    rounds := pending.rounds ++
      (List.range' pending.addFromRound (round + 1 - pending.addFromRound)).map
        fun r => RoundState.new (shuffle.shuffle r pending.nextCommitLeaders.allowedLeaders) r }

def getRoundState (round : Nat) : Except Panic RoundState :=
  let minRound := pending.nextCommitLeaders.minNextLeaderRound
  if round < minRound then .error (.pendingRound round minRound)
  else
    match pending.rounds[round - minRound]? with
    | some state => .ok state
    | none => .error (.pendingRound round minRound)

def setRoundState (state : RoundState) (round : Nat) :
    PendingCommitState :=
  { pending with
    rounds := pending.rounds.set (round - pending.nextCommitLeaders.minNextLeaderRound) state }

end PendingCommitState

namespace FlexCommitter

open LeaderSlotDecider

variable (context : Context) (hashes : CommitHashes) (shuffle : Shuffle)

/-! ### Deciding -/

def maybeRefreshPendingCommitState (pending : PendingCommitState)
    (next : NextCommitLeaderSchedule) : Except Panic PendingCommitState :=
  let current := pending.nextCommitLeaders
  if current.nextCommitIndex = next.nextCommitIndex then
    if current.minNextLeaderRound ≠ next.minNextLeaderRound then
      .error (.minNextLeaderRound current.minNextLeaderRound next.minNextLeaderRound)
    else if current.allowedLeaders ≠ next.allowedLeaders then .error .leaderScheduleChanged
    else .ok pending
  else if ¬ current.nextCommitIndex < next.nextCommitIndex then
    .error (.nextCommitIndex current.nextCommitIndex next.nextCommitIndex)
  else if ¬ current.minNextLeaderRound < next.minNextLeaderRound then
    .error (.minNextLeaderRound current.minNextLeaderRound next.minNextLeaderRound)
  else if current.allowedLeaders ≠ next.allowedLeaders then
    .ok { nextCommitLeaders := next, rounds := [] }
  else
    let rounds := pending.rounds.dropWhile fun state => state.round < next.minNextLeaderRound
    match rounds.head? with
    | some first =>
      if first.round ≠ next.minNextLeaderRound then
        .error (.pendingRound first.round next.minNextLeaderRound)
      else .ok { nextCommitLeaders := next, rounds := rounds }
    | none => .ok { nextCommitLeaders := next, rounds := rounds }

variable (state : DagState)

def directCommitSlot (roundState : RoundState) (slot : Slot) :
    Except Panic RoundState := do
  let status ← tryDirectDecide context state slot
  roundState.updateSlotDecision slot status .direct

def undecidedLeaderSlots (roundState : RoundState) : List Slot :=
  roundState.leaderSlots.filterMap fun leaderSlot =>
    if leaderSlot.leaderStatus.isDecided then none else some leaderSlot.slot

def directCommitRound (pending : PendingCommitState) (leaderRound : Nat) :
    Except Panic PendingCommitState := do
  let pending := pending.extendTo shuffle leaderRound
  let roundState ← pending.getRoundState leaderRound
  let roundState ← (undecidedLeaderSlots roundState).foldlM (directCommitSlot context state)
    roundState
  return pending.setRoundState roundState leaderRound

/-- The direct rule, on every pending leader slot below the highest accepted round. -/
def tryDirectCommit (pending : PendingCommitState) :
    Except Panic PendingCommitState :=
  let minRound := pending.nextCommitLeaders.minNextLeaderRound
  (List.range' minRound (state.highestAcceptedRound - minRound)).foldlM
    (directCommitRound context shuffle state) pending

/-- The first slot that is not skipped, if it is committed. -/
def firstCommitted : List LeaderSlot → Option VerifiedBlock
  | [] => none
  | leaderSlot :: rest =>
    match leaderSlot.leaderStatus with
    | .commit block => some block
    | .undecided _ => none
    | .skip _ => firstCommitted rest

def findAnchorBlock (pending : PendingCommitState) (startRound : Nat) : Option VerifiedBlock :=
  let startIndex := startRound - pending.nextCommitLeaders.minNextLeaderRound
  firstCommitted ((pending.rounds.drop startIndex).flatMap RoundState.leaderSlots)

def decideWithAnchorBlock (pending : PendingCommitState)
    (anchorBlock : VerifiedBlock) (decisionRound : Nat) : Except Panic PendingCommitState := do
  let pending := pending.extendTo shuffle decisionRound
  let roundState ← pending.getRoundState decisionRound
  if roundState.undecidedSlots = ∅ then return pending
  else
    let slots := roundState.leaderSlots.map LeaderSlot.slot
    let statuses ← tryIndirectDecide context state anchorBlock slots
    let roundState ← (slots.zip statuses).foldlM
      (fun roundState decided => roundState.updateSlotDecision decided.1 decided.2 .indirect)
      roundState
    return pending.setRoundState roundState decisionRound

def indirectCommitRound (pending : PendingCommitState) (round : Nat) :
    Except Panic PendingCommitState :=
  match findAnchorBlock pending (round + INDIRECT_COMMIT_DEPTH) with
  | none => .ok pending
  | some anchorBlock => decideWithAnchorBlock context shuffle state pending anchorBlock round

/-- The indirect rule, from the highest round down, since a round needs the decisions
    of the rounds of its anchors. -/
def tryIndirectCommit (pending : PendingCommitState) :
    Except Panic PendingCommitState :=
  let minRound := pending.nextCommitLeaders.minNextLeaderRound
  let count := state.highestAcceptedRound - INDIRECT_COMMIT_DEPTH + 1 - minRound
  (List.range' minRound count).reverse.foldlM (indirectCommitRound context shuffle state) pending

/-- The first fully decided round with a committed leader, if all rounds before it are
    fully decided. -/
def findCommitLeaderRound : List RoundState → Option Nat
  | [] => none
  | roundState :: rest =>
    if roundState.undecidedSlots ≠ ∅ then none
    else if roundState.numCommitted > 0 then some roundState.round
    else findCommitLeaderRound rest

/-! ### Building a commit -/

def committedLeaders : List LeaderSlot → Except Panic (List VerifiedBlock)
  | [] => .ok []
  | leaderSlot :: rest =>
    match leaderSlot.leaderStatus with
    | .commit block => do
      let leaders ← committedLeaders rest
      return block :: leaders
    | .skip _ => committedLeaders rest
    | .undecided slot => .error (.undecidedSlot slot)

/-- The assertions made while the decisions up to the commit are reported. -/
def checkDecidedPrefix (rounds : List RoundState) (commitLeaderRound : Nat) :
    Except Panic Unit :=
  (rounds.takeWhile fun roundState => roundState.round ≤ commitLeaderRound).forM fun roundState =>
    roundState.leaderSlots.forM fun leaderSlot =>
      if ¬ leaderSlot.leaderStatus.isDecided then .error (.undecidedSlot leaderSlot.slot)
      else if leaderSlot.decision = none then .error (.decidedWithoutDecision leaderSlot.slot)
      else .ok ()

/-- Marks a leader committed; it must be above the gc round and uncommitted. -/
def commitLeader (gcRound : Nat) (state : DagState) (leader : VerifiedBlock) :
    Except Panic DagState :=
  if ¬ leader.round > gcRound then .error (.leaderAtOrBelowGcRound leader.reference gcRound)
  else do
    let (state, new) ← state.setCommitted leader.reference
    if new then return state else .error (.committedTwice leader.reference)

/-- The state of the traversal from the leaders; the last block of `toVisit` in the
    source is the first one here. -/
structure Traversal where
  state : DagState
  toVisit : List VerifiedBlock
  toCommit : List VerifiedBlock := []

def visitCommitAncestor (gcRound : Nat) (traversal : Traversal) (ancestor : BlockRef) :
    Except Panic Traversal :=
  if ancestor.round ≤ gcRound then .ok traversal
  else do
    let (state, new) ← traversal.state.setCommitted ancestor
    if ¬ new then return { traversal with state := state }
    else
      match state.getBlock context ancestor with
      | none => .error (.blockMustExist ancestor)
      | some block =>
        return { traversal with state := state, toVisit := block :: traversal.toVisit }

def traversalTurn (gcRound : Nat) (traversal : Traversal) :
    Except Panic (Turn Traversal Traversal) :=
  match traversal.toVisit with
  | [] => .ok (.done traversal)
  | block :: rest => do
    let traversal ← block.ancestors.foldlM (visitCommitAncestor context gcRound)
      { traversal with toVisit := rest, toCommit := traversal.toCommit ++ [block] }
    return .continue traversal

/-- Marks the leaders and all their uncommitted ancestors above the gc round. -/
def collectBlocks (leaders : List VerifiedBlock) : Except Panic Traversal := do
  let gcRound := state.gcRound context
  let marked ← leaders.foldlM (commitLeader gcRound) state
  loop .outOfFuel (traversalTurn context gcRound) (state.recentBlocks.size + 1)
    { state := marked, toVisit := leaders.reverse }

/-- By round, then by the hash of the seed and the block. -/
def sortKeyLe (seed : Nat) (a b : VerifiedBlock) : Prop :=
  toLex (a.round, hashes.sortHash seed a.digest) ≤ toLex (b.round, hashes.sortHash seed b.digest)

instance (seed : Nat) : DecidableRel (sortKeyLe hashes seed) := fun a b =>
  inferInstanceAs (Decidable (toLex (a.round, hashes.sortHash seed a.digest) ≤
    toLex (b.round, hashes.sortHash seed b.digest)))

def sortCommittedBlocks (seed : Nat) (blocks : List VerifiedBlock) : List VerifiedBlock :=
  blocks.insertionSort (sortKeyLe hashes seed)

def loadParent (parent : BlockRef) : Except Panic VerifiedBlock :=
  match state.getBlock context parent with
  | some block => .ok block
  | none => .error (.parentMustBeInDagState parent)

/-- The parents of the leaders, the last one of each author, by author. -/
def parentRefs (leaderRound : Nat) (leaders : List VerifiedBlock) :
    Std.ExtTreeMap Nat BlockRef compare :=
  leaders.foldl (fun parents leader => leader.ancestors.foldl (fun parents ancestor =>
    if ancestor.round + 1 = leaderRound then parents.insert ancestor.author ancestor
    else parents) parents) ∅

/-- The blocks whose timestamps count: the leaders if they have enough stake, and
    otherwise their parents. -/
def timestampBlocks (leaders : List VerifiedBlock) :
    Except Panic (List VerifiedBlock) :=
  let totalLeaderStake := (leaders.map fun block => context.committee.stake block.author).sum
  match leaders.head? with
  | none => .error .noCommittedLeaders
  | some first =>
    if totalLeaderStake ≥ context.committee.certificationThreshold then .ok leaders
    else (parentRefs first.round leaders).values.mapM (loadParent context state)

def calculateCommitTimestamp (leaders : List VerifiedBlock) :
    Except Panic Nat := do
  let blocks ← timestampBlocks context state leaders
  match medianTimestampByStake context.committee blocks with
  | .ok ts => return max ts state.lastCommitTimestampMs
  | .error e => .error (.timestamp e)

structure BuiltCommit where
  state : DagState
  leaders : List VerifiedBlock
  commit : Commit
  subDag : CommittedSubDag

/-- The commit and the sub-dag of the blocks that were collected. -/
def assembleCommit (pending : PendingCommitState) (leaders : List VerifiedBlock) (marked : DagState)
    (toCommit : List VerifiedBlock) (leader : BlockRef) (timestampMs : Nat) : BuiltCommit :=
  let commit : Commit := {
    index := pending.nextCommitLeaders.nextCommitIndex
    previousDigest := state.lastCommitDigest hashes
    timestampMs := timestampMs
    leader := leader
    blocks := toCommit.map VerifiedBlock.reference }
  { state := marked
    leaders := leaders
    commit := commit
    subDag := {
      leader := leader
      blocks := toCommit
      timestampMs := timestampMs
      commitRef := ⟨commit.index, hashes.commitDigest commit⟩ } }

def buildCommit (pending : PendingCommitState) (commitLeaderRound : Nat) :
    Except Panic BuiltCommit := do
  let roundState ← pending.getRoundState commitLeaderRound
  let leaders ← committedLeaders roundState.leaderSlots
  if leaders = [] then .error .noCommittedLeaders
  else
    checkDecidedPrefix pending.rounds commitLeaderRound
    let traversal ← collectBlocks context state leaders
    let seed := hashes.sortSeed (leaders.map VerifiedBlock.digest)
    let toCommit := sortCommittedBlocks hashes seed traversal.toCommit
    match toCommit.getLast? with
    | none => .error .noCommittedLeaders
    | some leader =>
      if leader.round ≠ commitLeaderRound then
        .error (.leaderRound leader.round commitLeaderRound)
      else
        let timestampMs ← calculateCommitTimestamp context traversal.state leaders
        return assembleCommit hashes state pending leaders traversal.state toCommit
          leader.reference timestampMs

/-! ### The committer -/

/-- The decisions of one call: the direct rule, and the indirect rule if no commit can
    be built after it. -/
def decide (pending : PendingCommitState) (next : NextCommitLeaderSchedule) :
    Except Panic PendingCommitState := do
  let pending ← maybeRefreshPendingCommitState pending next
  let pending ← tryDirectCommit context shuffle state pending
  match findCommitLeaderRound pending.rounds with
  | some _ => return pending
  | none => tryIndirectCommit context shuffle state pending

def tryCommit (pending : PendingCommitState) (next : NextCommitLeaderSchedule) :
    Except Panic (PendingCommitState × Option BuiltCommit) := do
  let pending ← decide context shuffle state pending next
  match findCommitLeaderRound pending.rounds with
  | some commitLeaderRound =>
    let built ← buildCommit context hashes state pending commitLeaderRound
    return (pending, some built)
  | none => return (pending, none)

def commitCertified (reference : BlockRef) : Except Panic DagState := do
  let (state, new) ← state.setCommitted reference
  if new then return state else .error (.committedTwice reference)

def loadCommitted (reference : BlockRef) : Except Panic VerifiedBlock :=
  match state.getBlock context reference with
  | some block => .ok block
  | none => .error (.blockMustExist reference)

/-- Marks the blocks of a certified commit and builds its sub-dag. -/
def handleCertifiedCommit (commit : Commit) :
    Except Panic (DagState × CommittedSubDag) := do
  let state ← commit.blocks.foldlM commitCertified state
  let blocks ← commit.blocks.mapM (loadCommitted context state)
  return (state, {
    leader := commit.leader
    blocks := blocks
    timestampMs := commit.timestampMs
    commitRef := ⟨commit.index, hashes.commitDigest commit⟩
    decidedWithLocalBlocks := false })

end FlexCommitter

end Haneul.Consensus
