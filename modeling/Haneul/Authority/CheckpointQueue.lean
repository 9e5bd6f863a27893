import Haneul.Authority.VersionManager
import Haneul.Lib.Tally

/-!
# The queue of checkpoint roots

Mirror of `CheckpointQueue` and of `create_pending_checkpoints` in `consensus_handler.rs`.  A
commit is cut into chunks; a chunk goes to the execution scheduler when it is pushed, together
with the sequence number of a checkpoint that does not exist yet.  A flush drains all that is
queued into one pending checkpoint.

The versions assigned to a commit and its prologue transaction come from the epoch store and
are inputs here.  The channel to the scheduler is the list of what was sent through it.
-/

namespace Haneul.Authority

open List

/-! ### The code -/

abbrev CheckpointHeight := Nat
abbrev CheckpointSequenceNumber := Nat
abbrev CheckpointTimestamp := Nat

inductive CheckpointPanic where
  | chunkSizeZero
  | firstSchedulableNotPrologue
  | firstVersionsNotPrologue
  | noCheckpointRoot
deriving DecidableEq, Repr

structure CheckpointRoots where
  txRoots : List TransactionKey
  settlementRoot : Option TransactionKey
  height : CheckpointHeight
deriving DecidableEq, Repr

structure PendingCheckpointInfo where
  timestampMs : CheckpointTimestamp
  lastOfEpoch : Bool
  checkpointHeight : CheckpointHeight
  consensusCommitRef : Nat
  rejectedTransactionsDigest : Nat
  checkpointSeq : CheckpointSequenceNumber
deriving DecidableEq, Repr

structure PendingCheckpoint where
  roots : List CheckpointRoots
  details : PendingCheckpointInfo
deriving DecidableEq, Repr

structure QueuedCheckpointRoots where
  roots : CheckpointRoots
  timestamp : CheckpointTimestamp
  consensusCommitRef : Nat
  rejectedTransactionsDigest : Nat
deriving DecidableEq, Repr

structure Chunk where
  schedulables : List Schedulable
  settlement : Option Schedulable
  height : CheckpointHeight
deriving DecidableEq, Repr

def Chunk.toCheckpointRoots (chunk : Chunk) : CheckpointRoots :=
  ⟨chunk.schedulables.map Schedulable.key, chunk.settlement.map Schedulable.key, chunk.height⟩

def AssignedVersions.empty : AssignedVersions := ⟨[], fun _ => none⟩

structure SettlementBatchInfo where
  settlementKey : TransactionKey
  txKeys : List TransactionKey
  checkpointHeight : CheckpointHeight
  checkpointSeq : CheckpointSequenceNumber
  assignedVersions : AssignedVersions

structure SchedulerMessage where
  schedulables : List (Schedulable × AssignedVersions)
  settlementInfo : Option SettlementBatchInfo

structure CheckpointQueue where
  lastBuiltTimestamp : CheckpointTimestamp
  pendingRoots : List QueuedCheckpointRoots
  height : CheckpointHeight
  pendingTxCount : Nat
  currentCheckpointSeq : CheckpointSequenceNumber
  maxTx : Nat
  minCheckpointIntervalMs : Nat
  sent : List SchedulerMessage

structure CheckpointCommit where
  timestamp : CheckpointTimestamp
  consensusCommitRef : Nat
  rejectedTransactionsDigest : Nat
  schedulables : List Schedulable
  randomnessSchedulables : List Schedulable
  randomnessRound : Option Nat
  dkgFailed : Bool
  assignedVersions : List (TransactionKey × AssignedVersions)
  consensusCommitPrologue : Option Transaction
  finalRound : Bool

variable (commit : CheckpointCommit)

def CheckpointCommit.shouldWriteRandomCheckpoint : Bool :=
  commit.randomnessRound.isSome || (commit.dkgFailed && !commit.randomnessSchedulables.isEmpty)

namespace CheckpointQueue

def new (lastBuiltTimestamp : CheckpointTimestamp) (checkpointHeight : CheckpointHeight)
    (nextCheckpointSeq : CheckpointSequenceNumber) (maxTx minCheckpointIntervalMs : Nat) :
    CheckpointQueue :=
  ⟨lastBuiltTimestamp, [], checkpointHeight, 0, nextCheckpointSeq, maxTx, minCheckpointIntervalMs,
    []⟩

def nextHeight (queue : CheckpointQueue) : CheckpointQueue × CheckpointHeight :=
  ({ queue with height := queue.height + 1 }, queue.height + 1)

def flushForced (queue : CheckpointQueue) : CheckpointQueue × Option PendingCheckpoint :=
  match queue.pendingRoots.getLast? with
  | none => (queue, none)
  | some lastRoot =>
    ({ queue with
        pendingRoots := []
        lastBuiltTimestamp := lastRoot.timestamp
        pendingTxCount := 0
        currentCheckpointSeq := queue.currentCheckpointSeq + 1 },
      some
        { roots := queue.pendingRoots.map QueuedCheckpointRoots.roots
          details :=
            { timestampMs := lastRoot.timestamp
              lastOfEpoch := false
              checkpointHeight := lastRoot.roots.height
              consensusCommitRef := lastRoot.consensusCommitRef
              rejectedTransactionsDigest := lastRoot.rejectedTransactionsDigest
              checkpointSeq := queue.currentCheckpointSeq } })

/-- The sum of the two times is one of 64 bits. -/
def flush (queue : CheckpointQueue) (currentTimestamp : CheckpointTimestamp) (force : Bool) :
    CheckpointQueue × Option PendingCheckpoint :=
  if !force &&
      currentTimestamp < (queue.lastBuiltTimestamp + queue.minCheckpointIntervalMs) % 2 ^ 64 then
    (queue, none)
  else queue.flushForced

def versionsOf (assigned : TransactionKey → Option AssignedVersions) (key : TransactionKey) :
    AssignedVersions :=
  (assigned key).getD .empty

def makeRoom (queue : CheckpointQueue) (userTxCount : Nat) :
    CheckpointQueue × Option PendingCheckpoint :=
  if 0 < queue.pendingTxCount ∧ queue.maxTx < queue.pendingTxCount + userTxCount then
    queue.flushForced
  else (queue, none)

def enqueue (queue : CheckpointQueue) (assigned : TransactionKey → Option AssignedVersions)
    (commit : CheckpointCommit) (chunk : Chunk) : CheckpointQueue :=
  let schedulables := chunk.schedulables.map fun s => (s, versionsOf assigned s.key)
  let settlementInfo := chunk.settlement.map fun s =>
    { settlementKey := s.key
      txKeys := schedulables.map fun pair => pair.1.key
      checkpointHeight := chunk.height
      checkpointSeq := queue.currentCheckpointSeq
      assignedVersions := versionsOf assigned s.key }
  { queue with
    sent := queue.sent ++ [⟨schedulables, settlementInfo⟩]
    pendingTxCount := queue.pendingTxCount + chunk.schedulables.length
    pendingRoots := queue.pendingRoots ++
      [⟨chunk.toCheckpointRoots, commit.timestamp, commit.consensusCommitRef,
        commit.rejectedTransactionsDigest⟩] }

def pushChunk (queue : CheckpointQueue) (assigned : TransactionKey → Option AssignedVersions)
    (commit : CheckpointCommit) (chunk : Chunk) : CheckpointQueue × List PendingCheckpoint :=
  let (queue, flushed) := queue.makeRoom chunk.schedulables.length
  (queue.enqueue assigned commit chunk, flushed.toList)

def pushChunks (queue : CheckpointQueue) (assigned : TransactionKey → Option AssignedVersions)
    (commit : CheckpointCommit) : List Chunk → CheckpointQueue × List PendingCheckpoint
  | [] => (queue, [])
  | chunk :: chunks =>
    let (queue, flushed) := queue.pushChunk assigned commit chunk
    let (queue, rest) := queue.pushChunks assigned commit chunks
    (queue, flushed ++ rest)

def numberChunks (epoch : Nat) (accumulatorsEnabled : Bool) (queue : CheckpointQueue) :
    List (List Schedulable) → CheckpointQueue × List Chunk
  | [] => (queue, [])
  | part :: parts =>
    let (queue, height) := queue.nextHeight
    let settlement :=
      if accumulatorsEnabled then some (.accumulatorSettlement epoch height) else none
    let (queue, rest) := numberChunks epoch accumulatorsEnabled queue parts
    (queue, ⟨part, settlement, height⟩ :: rest)

/-- `chunks` panics for chunks of no elements. -/
def buildChunks (epoch : Nat) (accumulatorsEnabled : Bool) (queue : CheckpointQueue)
    (schedulables : List Schedulable) : Except CheckpointPanic (CheckpointQueue × List Chunk) :=
  if queue.maxTx = 0 then .error .chunkSizeZero
  else .ok (queue.numberChunks epoch accumulatorsEnabled (Tally.chunks queue.maxTx schedulables))

def buildRandomnessChunks (epoch : Nat) (accumulatorsEnabled : Bool) (queue : CheckpointQueue)
    (commit : CheckpointCommit) : Except CheckpointPanic (CheckpointQueue × List Chunk) :=
  if commit.shouldWriteRandomCheckpoint then
    queue.buildChunks epoch accumulatorsEnabled commit.randomnessSchedulables
  else .ok (queue, [])

end CheckpointQueue

/-- The prologue transaction takes the place that was kept for it in the first chunk. -/
def replacePrologue (prologue : Option Transaction) (chunks : List Chunk)
    (assigned : List (TransactionKey × AssignedVersions)) :
    Except CheckpointPanic (List Chunk × List (TransactionKey × AssignedVersions)) :=
  match prologue with
  | none => .ok (chunks, assigned)
  | some tx =>
    match chunks with
    | ⟨.consensusCommitPrologue _ _ _ :: schedulables, settlement, height⟩ :: chunks =>
      match assigned with
      | (.consensusCommitPrologue _ _ _, versions) :: assigned =>
        .ok (⟨.transaction tx :: schedulables, settlement, height⟩ :: chunks,
          (.digest tx.digest, versions) :: assigned)
      | _ => .error .firstVersionsNotPrologue
    | _ => .error .firstSchedulableNotPrologue

def commitHeight (chunks randomnessChunks : List Chunk) :
    Except CheckpointPanic CheckpointHeight :=
  match randomnessChunks.getLast?.or chunks.getLast? with
  | some chunk => .ok chunk.height
  | none => .error .noCheckpointRoot

def markLastOfEpoch (checkpoints : List PendingCheckpoint) : List PendingCheckpoint :=
  match checkpoints.getLast? with
  | none => []
  | some last =>
    checkpoints.dropLast ++ [{ last with details := { last.details with lastOfEpoch := true } }]

namespace CheckpointQueue

def pushRandomness (queue : CheckpointQueue) (assigned : TransactionKey → Option AssignedVersions)
    (commit : CheckpointCommit) (chunks : List Chunk) : CheckpointQueue × List PendingCheckpoint :=
  if commit.shouldWriteRandomCheckpoint then
    let (queue, pushed) := queue.pushChunks assigned commit chunks
    if commit.finalRound then
      let (queue, flushed) := queue.flush commit.timestamp true
      (queue, pushed ++ flushed.toList)
    else (queue, pushed)
  else (queue, [])

def pushCommit (queue : CheckpointQueue) (assigned : TransactionKey → Option AssignedVersions)
    (commit : CheckpointCommit) (chunks randomnessChunks : List Chunk) :
    CheckpointQueue × List PendingCheckpoint :=
  let (queue, pushed) := queue.pushChunks assigned commit chunks
  let (queue, flushed) := queue.flush commit.timestamp commit.finalRound
  let (queue, random) := queue.pushRandomness assigned commit randomnessChunks
  (queue, pushed ++ flushed.toList ++ random)

/-- The checkpoints that a commit writes, and its height. -/
def createPendingCheckpoints (epoch : Nat) (accumulatorsEnabled : Bool) (queue : CheckpointQueue)
    (commit : CheckpointCommit) :
    Except CheckpointPanic (CheckpointQueue × List PendingCheckpoint × CheckpointHeight) := do
  let (queue, chunks) ← queue.buildChunks epoch accumulatorsEnabled commit.schedulables
  let (queue, randomnessChunks) ← queue.buildRandomnessChunks epoch accumulatorsEnabled commit
  let (chunks, assigned) ←
    replacePrologue commit.consensusCommitPrologue chunks commit.assignedVersions
  let height ← commitHeight chunks randomnessChunks
  let (queue, checkpoints) :=
    queue.pushCommit (Map.collect assigned) commit chunks randomnessChunks
  .ok (queue, if commit.finalRound then markLastOfEpoch checkpoints else checkpoints, height)

/-- The commits of an epoch, one after the other; what they write. -/
def processCommits (epoch : Nat) (accumulatorsEnabled : Bool) (queue : CheckpointQueue) :
    List CheckpointCommit → Except CheckpointPanic (CheckpointQueue × List PendingCheckpoint)
  | [] => .ok (queue, [])
  | commit :: commits => do
    let (queue, checkpoints, _) ←
      queue.createPendingCheckpoints epoch accumulatorsEnabled commit
    let (queue, rest) ← queue.processCommits epoch accumulatorsEnabled commits
    .ok (queue, checkpoints ++ rest)

end CheckpointQueue

/-- The commit starts with the place of its prologue, and so do the versions assigned to it. -/
structure CheckpointCommit.StartsWithPrologue (commit : CheckpointCommit) : Prop where
  schedulables : ∃ epoch round subDagIndex rest,
    commit.schedulables = .consensusCommitPrologue epoch round subDagIndex :: rest
  versions : ∃ epoch round subDagIndex versions rest,
    commit.assignedVersions = (.consensusCommitPrologue epoch round subDagIndex, versions) :: rest

def CheckpointCommit.prologued : List Schedulable :=
  match commit.consensusCommitPrologue with
  | none => commit.schedulables
  | some tx => .transaction tx :: commit.schedulables.tail

/-- The schedulables of a commit in the order in which they go to checkpoints. -/
def CheckpointCommit.ordered : List Schedulable :=
  commit.prologued ++
    if commit.shouldWriteRandomCheckpoint then commit.randomnessSchedulables else []

namespace CheckpointQueue

/-! ### What the queue keeps -/

/-- For every chunk pushed so far, in order, its height and the sequence number of the checkpoint
    that holds it, or will hold it. -/
def slots (queue : CheckpointQueue) (checkpoints : List PendingCheckpoint) :
    List (CheckpointHeight × CheckpointSequenceNumber) :=
  (checkpoints.flatMap fun checkpoint =>
    checkpoint.roots.map fun roots => (roots.height, checkpoint.details.checkpointSeq)) ++
  queue.pendingRoots.map fun queued => (queued.roots.height, queue.currentCheckpointSeq)

/-- The message of a chunk names the slot of the chunk. -/
def Promises (slot : CheckpointHeight × CheckpointSequenceNumber) (message : SchedulerMessage) :
    Prop :=
  ∀ info, message.settlementInfo = some info →
    info.checkpointHeight = slot.1 ∧ info.checkpointSeq = slot.2

structure Sends (chunk : Chunk) (message : SchedulerMessage) : Prop where
  schedulables : message.schedulables.map Prod.fst = chunk.schedulables
  settlement : (message.settlementInfo.map fun info =>
      (info.settlementKey, info.txKeys, info.checkpointHeight)) =
    chunk.settlement.map fun s => (s.key, chunk.toCheckpointRoots.txRoots, chunk.height)

/-- The checkpoints written since `start`, with the queue, hold the chunks in order. -/
structure Packed (start queue : CheckpointQueue) (chunks : List Chunk)
    (checkpoints : List PendingCheckpoint) : Prop where
  maxTx : queue.maxTx = start.maxTx
  roots : checkpoints.flatMap PendingCheckpoint.roots ++
    queue.pendingRoots.map QueuedCheckpointRoots.roots = chunks.map Chunk.toCheckpointRoots
  count : queue.pendingTxCount =
    ((queue.pendingRoots.map QueuedCheckpointRoots.roots).flatMap CheckpointRoots.txRoots).length
  fits : queue.pendingTxCount ≤ queue.maxTx
  sizes : ∀ checkpoint ∈ checkpoints,
    (checkpoint.roots.flatMap CheckpointRoots.txRoots).length ≤ start.maxTx
  tops : ∀ checkpoint ∈ checkpoints,
    ∃ roots ∈ checkpoint.roots, roots.height = checkpoint.details.checkpointHeight
  next : queue.currentCheckpointSeq = start.currentCheckpointSeq + checkpoints.length
  seqs : (checkpoints.map fun checkpoint => checkpoint.details.checkpointSeq) =
    List.range' start.currentCheckpointSeq checkpoints.length
  sent : List.Forall₂ Sends chunks queue.sent
  promised : List.Forall₂ Promises (queue.slots checkpoints) queue.sent

def Unmarked (checkpoints : List PendingCheckpoint) : Prop :=
  ∀ checkpoint ∈ checkpoints, checkpoint.details.lastOfEpoch = false

theorem Unmarked.append {checkpoints checkpoints' : List PendingCheckpoint}
    (h : Unmarked checkpoints) (h' : Unmarked checkpoints') :
    Unmarked (checkpoints ++ checkpoints') :=
  forall_mem_append.mpr ⟨h, h'⟩

/-- **What a commit does to the queue**, step by step: with the chunks pushed and the checkpoints
    flushed on the way. -/
inductive Run (queue : CheckpointQueue) :
    List Chunk → List PendingCheckpoint → CheckpointQueue → Prop
  | start : Run queue [] [] queue
  | flush {chunks : List Chunk} {checkpoints : List PendingCheckpoint} {now : CheckpointQueue}
      (before : Run queue chunks checkpoints now) :
      Run queue chunks (checkpoints ++ now.flushForced.2.toList) now.flushForced.1
  | push {chunks : List Chunk} {checkpoints : List PendingCheckpoint} {now : CheckpointQueue}
      (before : Run queue chunks checkpoints now) {chunk : Chunk}
      (assigned : TransactionKey → Option AssignedVersions) (commit : CheckpointCommit)
      (size : chunk.schedulables.length ≤ now.maxTx)
      (room : now.pendingTxCount + chunk.schedulables.length ≤ now.maxTx ∨ now.pendingRoots = []) :
      Run queue (chunks ++ [chunk]) checkpoints (now.enqueue assigned commit chunk)

variable {start queue queue' now : CheckpointQueue} {chunks new random : List Chunk} {chunk : Chunk}
  {checkpoints written : List PendingCheckpoint}
  {assigned : TransactionKey → Option AssignedVersions} {commit : CheckpointCommit}

theorem flushForced_cases (queue : CheckpointQueue) :
    (queue.pendingRoots = [] ∧ queue.flushForced = (queue, none)) ∨
    ∃ lastRoot ∈ queue.pendingRoots, queue.flushForced =
      ({ queue with
          pendingRoots := []
          lastBuiltTimestamp := lastRoot.timestamp
          pendingTxCount := 0
          currentCheckpointSeq := queue.currentCheckpointSeq + 1 },
        some ⟨queue.pendingRoots.map QueuedCheckpointRoots.roots, lastRoot.timestamp, false,
          lastRoot.roots.height, lastRoot.consensusCommitRef, lastRoot.rejectedTransactionsDigest,
          queue.currentCheckpointSeq⟩) := by
  unfold flushForced
  cases hlast : queue.pendingRoots.getLast? with
  | none => exact .inl ⟨List.getLast?_eq_none_iff.mp hlast, rfl⟩
  | some lastRoot => exact .inr ⟨lastRoot, mem_of_getLast? hlast, rfl⟩

theorem flushForced_pendingRoots (queue : CheckpointQueue) :
    queue.flushForced.1.pendingRoots = [] := by
  obtain ⟨hnil, h⟩ | ⟨lastRoot, -, h⟩ := flushForced_cases queue
  · rw [h, hnil]
  · rw [h]

theorem flushForced_maxTx (queue : CheckpointQueue) :
    queue.flushForced.1.maxTx = queue.maxTx := by
  obtain ⟨-, h⟩ | ⟨lastRoot, -, h⟩ := flushForced_cases queue
  · rw [h]
  · rw [h]

namespace Run

section

variable (h : Run queue chunks checkpoints now)
include h

theorem maxTx : now.maxTx = queue.maxTx := by
  induction h with
  | start => rfl
  | flush _ ih => exact (flushForced_maxTx _).trans ih
  | push _ _ _ _ _ ih => exact ih

theorem height : now.height = queue.height := by
  induction h with
  | start => rfl
  | @flush _ _ now _ ih =>
    obtain ⟨-, hflush⟩ | ⟨lastRoot, -, hflush⟩ := flushForced_cases now
    · rw [hflush, ih]
    · rw [hflush, ih]
  | push _ _ _ _ _ ih => exact ih

theorem flushIf (timestamp : Nat) (force : Bool) :
    Run queue chunks (checkpoints ++ (now.flush timestamp force).2.toList)
      (now.flush timestamp force).1 := by
  unfold CheckpointQueue.flush
  split
  · simpa using h
  · exact h.flush

theorem pushChunk (hsize : chunk.schedulables.length ≤ queue.maxTx) :
    Run queue (chunks ++ [chunk]) (checkpoints ++ (now.pushChunk assigned commit chunk).2)
      (now.pushChunk assigned commit chunk).1 := by
  have hmax := h.maxTx
  rw [CheckpointQueue.pushChunk, makeRoom]
  split_ifs with hroom
  · exact h.flush.push assigned commit (by rw [h.flush.maxTx]; exact hsize)
      (.inr (flushForced_pendingRoots now))
  · simpa using h.push assigned commit (hmax ▸ hsize) (.inl (by omega))

theorem pushChunks (hsize : ∀ chunk ∈ new, chunk.schedulables.length ≤ queue.maxTx) :
    Run queue (chunks ++ new) (checkpoints ++ (now.pushChunks assigned commit new).2)
      (now.pushChunks assigned commit new).1 := by
  induction new generalizing now chunks checkpoints with
  | nil => simpa [CheckpointQueue.pushChunks] using h
  | cons chunk new ih =>
    have hfirst : Run queue _ _ (now.pushChunk assigned commit chunk).1 :=
      h.pushChunk (hsize chunk (.head _))
    have hrest := ih hfirst fun other hother => hsize other (.tail _ hother)
    simpa [CheckpointQueue.pushChunks] using hrest

theorem pushRandomness (hsize : ∀ chunk ∈ random, chunk.schedulables.length ≤ queue.maxTx)
    (hwritten : commit.shouldWriteRandomCheckpoint = false → random = []) :
    Run queue (chunks ++ random) (checkpoints ++ (now.pushRandomness assigned commit random).2)
      (now.pushRandomness assigned commit random).1 := by
  unfold CheckpointQueue.pushRandomness
  split_ifs with hwrite hfinal
  · rw [← append_assoc]
    exact (h.pushChunks hsize).flushIf _ _
  · exact h.pushChunks hsize
  · rw [hwritten (by simpa using hwrite), append_nil, append_nil]
    exact h

theorem unmarked : Unmarked checkpoints := by
  induction h with
  | start => exact nofun
  | @flush _ _ now _ ih =>
    apply ih.append
    obtain ⟨-, hflush⟩ | ⟨lastRoot, -, hflush⟩ := flushForced_cases now
    · simp [hflush, Unmarked]
    · simp [hflush, Unmarked]
  | push _ _ _ _ _ ih => exact ih

end

end Run

theorem pushCommit_run (hsize : ∀ chunk ∈ new ++ random, chunk.schedulables.length ≤ queue.maxTx)
    (hwritten : commit.shouldWriteRandomCheckpoint = false → random = []) :
    Run queue (new ++ random) (queue.pushCommit assigned commit new random).2
      (queue.pushCommit assigned commit new random).1 := by
  have hpushed : Run queue new _ (queue.pushChunks assigned commit new).1 :=
    Run.start.pushChunks fun chunk hchunk => hsize chunk (mem_append_left _ hchunk)
  have hflushed := hpushed.flushIf commit.timestamp commit.finalRound
  exact hflushed.pushRandomness (fun chunk hchunk => hsize chunk (mem_append_right _ hchunk))
    hwritten

namespace Packed

theorem flushForced (h : Packed start queue chunks checkpoints) :
    Packed start queue.flushForced.1 chunks (checkpoints ++ queue.flushForced.2.toList) := by
  obtain ⟨-, hflush⟩ | ⟨lastRoot, hlast, hflush⟩ := flushForced_cases queue
  · simpa [hflush] using h
  · rw [hflush]
    have hsize := h.count ▸ h.fits
    constructor
    case maxTx => exact h.maxTx
    case roots => simpa using h.roots
    case count => rfl
    case fits => exact Nat.zero_le _
    case sizes => exact forall_mem_append.mpr ⟨h.sizes, forall_mem_singleton.mpr (h.maxTx ▸ hsize)⟩
    case tops =>
      simpa [or_imp, forall_and] using ⟨h.tops, lastRoot, hlast, rfl⟩
    case next => simp [h.next, Nat.add_assoc]
    case seqs => simp [h.seqs, h.next, range'_concat]
    case sent => exact h.sent
    case promised =>
      -- the queued chunks were promised the number that their checkpoint now has
      simpa [slots, Function.comp_def] using h.promised

theorem enqueue (h : Packed start queue chunks checkpoints)
    (hroom : queue.pendingTxCount + chunk.schedulables.length ≤ start.maxTx) :
    Packed start (queue.enqueue assigned commit chunk) (chunks ++ [chunk]) checkpoints := by
  refine { h with
    roots := ?roots, count := ?count, fits := h.maxTx ▸ hroom, sent := ?sent,
    promised := ?promised }
  case roots =>
    have hroots := h.roots
    simp only [CheckpointQueue.enqueue, map_append, map_cons, map_nil]
    rw [← append_assoc, hroots]
  case count =>
    have hcount := h.count
    simp only [CheckpointQueue.enqueue, map_append, flatMap_append, length_append]
    rw [← hcount]
    simp [Chunk.toCheckpointRoots]
  case sent =>
    refine rel_append h.sent (.cons ⟨?_, ?_⟩ .nil)
    · simp [Function.comp_def]
    · simp [Function.comp_def, Chunk.toCheckpointRoots]
  case promised =>
    have hslots : (queue.enqueue assigned commit chunk).slots checkpoints =
        queue.slots checkpoints ++ [(chunk.height, queue.currentCheckpointSeq)] := by
      simp [slots, CheckpointQueue.enqueue, Chunk.toCheckpointRoots]
    rw [hslots]
    refine rel_append h.promised (.cons ?_ .nil)
    intro info hinfo
    obtain ⟨s, -, rfl⟩ := Option.map_eq_some_iff.mp hinfo
    exact ⟨rfl, rfl⟩

theorem marked {last : PendingCheckpoint} (h : Packed start queue chunks (checkpoints ++ [last])) :
    Packed start queue chunks (checkpoints ++
      [{ last with details := { last.details with lastOfEpoch := true } }]) := by
  constructor
  case maxTx => exact h.maxTx
  case roots => simpa using h.roots
  case count => exact h.count
  case fits => exact h.fits
  case sizes => simpa [or_imp, forall_and] using h.sizes
  case tops => simpa [or_imp, forall_and] using h.tops
  case next => simpa using h.next
  case seqs => simpa using h.seqs
  case sent => exact h.sent
  case promised => simpa [slots] using h.promised

theorem run (h : Packed start queue chunks checkpoints) (hrun : Run queue new written now) :
    Packed start now (chunks ++ new) (checkpoints ++ written) := by
  induction hrun with
  | start => simpa using h
  | flush _ ih =>
    rw [← append_assoc]
    exact ih.flushForced
  | push _ assigned commit size room ih =>
    rw [← append_assoc]
    apply ih.enqueue
    rcases room with room | hempty
    · exact ih.maxTx ▸ room
    · rw [ih.count, hempty]
      simpa using ih.maxTx ▸ size

end Packed

/-! ### The last commit of an epoch -/

theorem pushRandomness_drains (hfinal : commit.finalRound = true)
    (hempty : queue.pendingRoots = []) (random : List Chunk) :
    (queue.pushRandomness assigned commit random).1.pendingRoots = [] := by
  unfold pushRandomness
  split_ifs
  · exact flushForced_pendingRoots _
  · exact hempty

theorem pushCommit_drains (hfinal : commit.finalRound = true) (queue : CheckpointQueue)
    (new random : List Chunk) :
    (queue.pushCommit assigned commit new random).1.pendingRoots = [] := by
  apply pushRandomness_drains hfinal
  rw [hfinal]
  exact flushForced_pendingRoots _

theorem Packed.written_ne_nil (h : Packed start queue chunks checkpoints)
    (h' : Packed start now (chunks ++ new) (checkpoints ++ written))
    (hnew : new ≠ []) (hdrained : now.pendingRoots = []) : written ≠ [] := by
  rintro rfl
  have hroots := congrArg List.length h.roots
  have hroots' := congrArg List.length h'.roots
  have hpos := length_pos_iff.mpr hnew
  simp only [hdrained, append_nil, map_nil, length_append, length_map] at hroots hroots'
  omega

/-! ### The chunks of a commit -/

structure Numbered (start queue : CheckpointQueue) (chunks : List Chunk) : Prop where
  next : queue.height = start.height + chunks.length
  heights : chunks.map Chunk.height = List.range' (start.height + 1) chunks.length

variable (epoch : Nat) (accumulatorsEnabled : Bool)

theorem numberChunks_spec (queue : CheckpointQueue) (parts : List (List Schedulable)) :
    (queue.numberChunks epoch accumulatorsEnabled parts).1 =
        { queue with height := queue.height + parts.length } ∧
      (queue.numberChunks epoch accumulatorsEnabled parts).2.map Chunk.height =
        List.range' (queue.height + 1) parts.length ∧
      (queue.numberChunks epoch accumulatorsEnabled parts).2.map Chunk.schedulables = parts := by
  induction parts generalizing queue with
  | nil => exact ⟨rfl, rfl, rfl⟩
  | cons part parts ih =>
    obtain ⟨hqueue, hheights, hparts⟩ := ih queue.nextHeight.1
    refine ⟨?_, ?_, ?_⟩
    · rw [numberChunks, hqueue]
      simp only [nextHeight, length_cons, Nat.add_assoc, Nat.add_comm 1]
    · rw [numberChunks, map_cons, hheights]
      simp only [nextHeight, length_cons, range'_succ]
    · rw [numberChunks, map_cons, hparts]

structure Built (queue queue' : CheckpointQueue) (schedulables : List Schedulable)
    (new : List Chunk) : Prop where
  queue_eq : queue' = { queue with height := queue.height + new.length }
  heights : new.map Chunk.height = List.range' (queue.height + 1) new.length
  sizes : ∀ chunk ∈ new, chunk.schedulables.length ≤ queue.maxTx
  schedulables : new.flatMap Chunk.schedulables = schedulables

theorem buildChunks_spec (hmax : 0 < queue.maxTx) (schedulables : List Schedulable) :
    ∃ queue' new, queue.buildChunks epoch accumulatorsEnabled schedulables = .ok (queue', new) ∧
      Built queue queue' schedulables new ∧
      new.map Chunk.schedulables = Tally.chunks queue.maxTx schedulables := by
  obtain ⟨hqueue, hheights, hparts⟩ := numberChunks_spec epoch accumulatorsEnabled queue
    (Tally.chunks queue.maxTx schedulables)
  have hlength := congrArg List.length hparts
  rw [length_map] at hlength
  refine ⟨_, _, if_neg (Nat.pos_iff_ne_zero.mp hmax), ⟨?_, ?_, ?_, ?_⟩, hparts⟩
  · rw [hqueue, hlength]
  · rw [hheights, hlength]
  · intro chunk hchunk
    apply Tally.length_le_of_mem_chunks
    rw [← hparts]
    exact mem_map_of_mem hchunk
  · rw [flatMap_def, hparts, Tally.flatten_chunks hmax]

theorem buildRandomnessChunks_spec (hmax : 0 < queue.maxTx) (commit : CheckpointCommit) :
    ∃ queue' new,
      queue.buildRandomnessChunks epoch accumulatorsEnabled commit = .ok (queue', new) ∧
      Built queue queue'
        (if commit.shouldWriteRandomCheckpoint then commit.randomnessSchedulables else []) new ∧
      (commit.shouldWriteRandomCheckpoint = false → new = []) := by
  unfold buildRandomnessChunks
  split_ifs with hwrite
  · obtain ⟨queue', new, hbuild, hbuilt, -⟩ := buildChunks_spec epoch accumulatorsEnabled hmax
      commit.randomnessSchedulables
    exact ⟨queue', new, hbuild, hbuilt, fun h => absurd (hwrite.symm.trans h) Bool.noConfusion⟩
  · refine ⟨queue, [], rfl, ⟨rfl, rfl, ?_, rfl⟩, fun _ => rfl⟩
    simp

theorem Numbered.built (h : Numbered start queue chunks) {schedulables : List Schedulable}
    (hbuilt : Built queue queue' schedulables new) : Numbered start queue' (chunks ++ new) := by
  constructor
  · rw [hbuilt.queue_eq, length_append]
    simp only [h.next, Nat.add_assoc]
  · rw [map_append, h.heights, hbuilt.heights, h.next, length_append,
      Nat.add_right_comm, range'_append_1]

theorem replacePrologue_spec (hstart : commit.StartsWithPrologue) (hmax : 0 < queue.maxTx)
    (hbuilt : Built queue queue' commit.schedulables new)
    (hparts : new.map Chunk.schedulables = Tally.chunks queue.maxTx commit.schedulables) :
    ∃ new' assigned, replacePrologue commit.consensusCommitPrologue new commit.assignedVersions =
        .ok (new', assigned) ∧ new' ≠ [] ∧ Built queue queue' commit.prologued new' := by
  obtain ⟨epoch, round, subDagIndex, rest, hrest⟩ := hstart.schedulables
  obtain ⟨epoch', round', subDagIndex', versions, assigned, hassigned⟩ := hstart.versions
  obtain ⟨parts, hfirst⟩ := Tally.chunks_cons hmax
    (.consensusCommitPrologue epoch round subDagIndex) rest
  rw [hrest, hfirst] at hparts
  unfold CheckpointCommit.prologued
  cases new with
  | nil => cases hparts
  | cons chunk new =>
    obtain ⟨schedulables, settlement, height⟩ := chunk
    obtain ⟨rfl, -⟩ := List.cons.inj hparts
    cases hprologue : commit.consensusCommitPrologue with
    | none => exact ⟨_, _, rfl, cons_ne_nil _ _, hbuilt⟩
    | some tx =>
      refine ⟨⟨.transaction tx :: rest.take (queue.maxTx - 1), settlement, height⟩ :: new,
        (.digest tx.digest, versions) :: assigned, by rw [hassigned]; rfl, cons_ne_nil _ _,
        ⟨hbuilt.queue_eq, hbuilt.heights, ?_, ?_⟩⟩
      · simpa using hbuilt.sizes
      · simpa [hrest] using hbuilt.schedulables

/-! ### A commit -/

theorem markLastOfEpoch_append (earlier : List PendingCheckpoint) (last : PendingCheckpoint) :
    markLastOfEpoch (earlier ++ [last]) =
      earlier ++ [{ last with details := { last.details with lastOfEpoch := true } }] := by
  simp [markLastOfEpoch]

theorem Packed.closed (h : Packed start queue chunks checkpoints)
    (hrun : Run queue new written now) (hnew : new ≠ []) (hdrained : now.pendingRoots = []) :
    Packed start now (chunks ++ new) (checkpoints ++ markLastOfEpoch written) ∧
      ∃ earlier last, markLastOfEpoch written = earlier ++ [last] ∧ Unmarked earlier ∧
        last.details.lastOfEpoch = true := by
  have h' := h.run hrun
  have hunmarked := hrun.unmarked
  rcases eq_nil_or_concat written with hnil | ⟨earlier, last, hlast⟩
  · exact absurd hnil (h.written_ne_nil h' hnew hdrained)
  · rw [concat_eq_append] at hlast
    subst hlast
    rw [markLastOfEpoch_append]
    refine ⟨?_, _, _, rfl, ?_, rfl⟩
    · rw [← append_assoc] at h' ⊢
      exact h'.marked
    · exact fun checkpoint hmem => hunmarked checkpoint (mem_append_left _ hmem)

theorem commitHeight_total {chunks : List Chunk} (hne : chunks ≠ []) (random : List Chunk) :
    ∃ height, commitHeight chunks random = .ok height := by
  unfold commitHeight
  rw [List.getLast?_eq_some_getLast hne]
  cases random.getLast? with
  | none => exact ⟨_, rfl⟩
  | some chunk => exact ⟨_, rfl⟩

/-- One commit: its chunks follow those before, and a final one closes the epoch. -/
theorem createPendingCheckpoints_spec (hmax : 0 < start.maxTx)
    (h : Packed start queue chunks checkpoints) (hnumbered : Numbered start queue chunks)
    {commit : CheckpointCommit} (hstart : commit.StartsWithPrologue) :
    ∃ queue' written height new,
      queue.createPendingCheckpoints epoch accumulatorsEnabled commit =
        .ok (queue', written, height) ∧
      Packed start queue' (chunks ++ new) (checkpoints ++ written) ∧
      Numbered start queue' (chunks ++ new) ∧
      new.flatMap Chunk.schedulables = commit.ordered ∧
      (commit.finalRound = false → Unmarked written) ∧
      (commit.finalRound = true → queue'.pendingRoots = [] ∧
        ∃ earlier last, written = earlier ++ [last] ∧ Unmarked earlier ∧
          last.details.lastOfEpoch = true) := by
  rw [← h.maxTx] at hmax
  obtain ⟨queue₁, built, hbuild, hbuilt, hparts⟩ := buildChunks_spec epoch accumulatorsEnabled
    hmax commit.schedulables
  have hqueue₁ := hbuilt.queue_eq
  have hmax₁ : 0 < queue₁.maxTx := by rw [hqueue₁]; exact hmax
  obtain ⟨queue₂, random, hbuildRandom, hrandom, hwritten⟩ := buildRandomnessChunks_spec epoch
    accumulatorsEnabled hmax₁ commit
  have hqueue₂ := hrandom.queue_eq
  obtain ⟨new, assigned, hreplace, hne, hbuilt'⟩ := replacePrologue_spec hstart hmax hbuilt hparts
  obtain ⟨height, hheight⟩ := commitHeight_total hne random
  -- the chunks of the commit take the heights that follow
  have hnumbered' := (hnumbered.built hbuilt').built hrandom
  have hpacked : Packed start queue₂ chunks checkpoints := by
    rw [hqueue₂, hqueue₁]
    exact ⟨h.maxTx, h.roots, h.count, h.fits, h.sizes, h.tops, h.next, h.seqs, h.sent, h.promised⟩
  have hsizes : ∀ chunk ∈ new ++ random, chunk.schedulables.length ≤ queue₂.maxTx := by
    rw [hqueue₂]
    refine forall_mem_append.mpr ⟨?_, hrandom.sizes⟩
    rw [hqueue₁]
    exact hbuilt'.sizes
  have hpushed : Run queue₂ (new ++ random) _
      (queue₂.pushCommit (Map.collect assigned) commit new random).1 :=
    pushCommit_run hsizes hwritten
  have hrun : queue.createPendingCheckpoints epoch accumulatorsEnabled commit = .ok
      ((queue₂.pushCommit (Map.collect assigned) commit new random).1,
        if commit.finalRound then
          markLastOfEpoch (queue₂.pushCommit (Map.collect assigned) commit new random).2
        else (queue₂.pushCommit (Map.collect assigned) commit new random).2, height) := by
    refine bind₂_eq_ok.mpr ⟨_, hbuild, _, hbuildRandom, ?_⟩
    exact bind₂_eq_ok.mpr ⟨_, hreplace, _, hheight, rfl⟩
  have hnumbers : Numbered start
      (queue₂.pushCommit (Map.collect assigned) commit new random).1 (chunks ++ (new ++ random)) := by
    rw [← append_assoc]
    exact ⟨hpushed.height.trans hnumbered'.next, hnumbered'.heights⟩
  have hordered : (new ++ random).flatMap Chunk.schedulables = commit.ordered := by
    rw [flatMap_append, hbuilt'.schedulables, hrandom.schedulables]
    rfl
  cases hfinal : commit.finalRound with
  | false =>
    rw [hfinal] at hrun
    exact ⟨_, _, height, new ++ random, hrun, hpacked.run hpushed, hnumbers, hordered,
      fun _ => hpushed.unmarked, nofun⟩
  | true =>
    rw [hfinal] at hrun
    have hdrained := @pushCommit_drains (Map.collect assigned) commit hfinal queue₂ new random
    obtain ⟨hmarked, hlast⟩ := hpacked.closed hpushed (by simp [hne]) hdrained
    exact ⟨_, _, height, new ++ random, hrun, hmarked, hnumbers, hordered, nofun,
      fun _ => ⟨hdrained, hlast⟩⟩

/-! ### The commits of an epoch -/

theorem processCommits_spec (hmax : 0 < start.maxTx) (h : Packed start queue chunks checkpoints)
    (hunmarked : Unmarked checkpoints) (hnumbered : Numbered start queue chunks)
    {commits : List CheckpointCommit} (hstarts : ∀ commit ∈ commits, commit.StartsWithPrologue)
    (hlast : ∀ commit ∈ commits.dropLast, commit.finalRound = false) :
    ∃ queue' written new,
      queue.processCommits epoch accumulatorsEnabled commits = .ok (queue', written) ∧
      Packed start queue' (chunks ++ new) (checkpoints ++ written) ∧
      Numbered start queue' (chunks ++ new) ∧
      new.flatMap Chunk.schedulables = commits.flatMap CheckpointCommit.ordered ∧
      (∀ commit, commits.getLast? = some commit → commit.finalRound = true →
        queue'.pendingRoots = [] ∧ ∃ earlier last, checkpoints ++ written = earlier ++ [last] ∧
          Unmarked earlier ∧ last.details.lastOfEpoch = true) := by
  -- the induction is on the commits; each before the last leaves its checkpoints unmarked
  induction commits generalizing queue chunks checkpoints with
  | nil => exact ⟨queue, [], [], rfl, by simpa using h, by simpa using hnumbered, rfl, by simp⟩
  | cons commit commits ih =>
    obtain ⟨queue₁, written₁, height, new₁, hrun₁, h₁, hnumbered₁, hordered₁, hopen, hclosed⟩ :=
      createPendingCheckpoints_spec epoch accumulatorsEnabled hmax h hnumbered
        (hstarts commit (.head _))
    rcases eq_or_ne commits [] with rfl | hne
    · refine ⟨queue₁, written₁, new₁, ?_, h₁, hnumbered₁, by simpa using hordered₁, ?_⟩
      · refine bind₂_eq_ok.mpr ⟨_, hrun₁, _, rfl, ?_⟩
        simp
      · intro last hcommit hfinal
        cases hcommit
        obtain ⟨hdrained, earlier, last, hwritten, hearlier, hmark⟩ := hclosed hfinal
        refine ⟨hdrained, checkpoints ++ earlier, last, ?_, hunmarked.append hearlier, hmark⟩
        rw [hwritten, append_assoc]
    · rw [dropLast_cons_of_ne_nil hne] at hlast
      have hunmarked₁ := hunmarked.append (hopen (hlast commit (.head _)))
      obtain ⟨queue₂, written₂, new₂, hrun₂, h₂, hnumbered₂, hordered₂, hend⟩ := ih h₁ hunmarked₁
        hnumbered₁ (fun other hother => hstarts other (.tail _ hother))
        (fun other hother => hlast other (.tail _ hother))
      rw [append_assoc] at h₂ hnumbered₂
      rw [append_assoc] at h₂
      refine ⟨queue₂, written₁ ++ written₂, new₁ ++ new₂,
        bind₂_eq_ok.mpr ⟨_, hrun₁, _, hrun₂, rfl⟩, h₂, hnumbered₂, ?_, ?_⟩
      · rw [flatMap_append, hordered₁, hordered₂, flatMap_cons]
      · rw [List.getLast?_cons_of_ne_nil hne, ← append_assoc]
        exact hend

theorem packed_new (lastBuilt height seq maxTx interval : Nat) :
    Packed (.new lastBuilt height seq maxTx interval) (.new lastBuilt height seq maxTx interval)
      [] [] :=
  ⟨rfl, rfl, rfl, Nat.zero_le _, nofun, nofun, rfl, rfl, .nil, .nil⟩

section

variable (h : Packed start queue chunks checkpoints) (hnumbered : Numbered start queue chunks)
include h hnumbered

theorem Packed.heights_sorted :
    (queue.slots checkpoints).Pairwise fun slot slot' => slot.1 < slot'.1 := by
  have hheights := congrArg (List.map CheckpointRoots.height) h.roots
  rw [map_map, show CheckpointRoots.height ∘ Chunk.toCheckpointRoots = Chunk.height from rfl,
    hnumbered.heights] at hheights
  have hslots : (queue.slots checkpoints).map Prod.fst =
      List.range' (start.height + 1) chunks.length := by
    rw [← hheights]
    simp [slots, map_flatMap, Function.comp_def]
  rw [← pairwise_map, hslots]
  exact pairwise_lt_range'

theorem Packed.tops_sorted :
    (checkpoints.map fun checkpoint => checkpoint.details.checkpointHeight).Pairwise (· < ·) := by
  have hsorted := (pairwise_append.mp (h.heights_sorted hnumbered)).1
  rw [pairwise_flatMap] at hsorted
  rw [pairwise_map]
  refine hsorted.2.imp_of_mem ?_
  intro checkpoint checkpoint' hmem hmem' hbelow
  obtain ⟨roots, hroots, htop⟩ := h.tops checkpoint hmem
  obtain ⟨roots', hroots', htop'⟩ := h.tops checkpoint' hmem'
  rw [← htop, ← htop']
  exact hbelow _ (mem_map_of_mem hroots) _ (mem_map_of_mem hroots')

end

def settlementInfos (queue : CheckpointQueue) : List SettlementBatchInfo :=
  queue.sent.filterMap SchedulerMessage.settlementInfo

theorem Packed.promise_kept (h : Packed start queue chunks checkpoints)
    (hnumbered : Numbered start queue chunks) {checkpoint : PendingCheckpoint}
    (hmem : checkpoint ∈ checkpoints) {roots : CheckpointRoots} (hroots : roots ∈ checkpoint.roots)
    {info : SettlementBatchInfo} (hinfo : info ∈ queue.settlementInfos)
    (hheight : info.checkpointHeight = roots.height) :
    info.checkpointSeq = checkpoint.details.checkpointSeq := by
  obtain ⟨message, hmessage, hsome⟩ := mem_filterMap.mp hinfo
  obtain ⟨slot, hslot, hpromise⟩ := exists_of_mem_forall₂ h.promised hmessage
  obtain ⟨hslotHeight, hslotSeq⟩ := hpromise info hsome
  have hslot' : (roots.height, checkpoint.details.checkpointSeq) ∈ queue.slots checkpoints :=
    mem_append_left _ (mem_flatMap.mpr ⟨checkpoint, hmem, mem_map_of_mem hroots⟩)
  -- the heights tell the slots apart
  have hnodup : ((queue.slots checkpoints).map Prod.fst).Nodup :=
    (pairwise_map.mpr (h.heights_sorted hnumbered)).imp Nat.ne_of_lt
  have heq := inj_on_of_nodup_map hnodup hslot hslot' (hslotHeight.symm.trans hheight)
  rw [hslotSeq, heq]

end CheckpointQueue

/-- A commit of a prologue and two updates of the randomness, which do not fit one checkpoint. -/
def sampleCheckpointCommit (round : Nat) (finalRound : Bool) : CheckpointCommit :=
  { timestamp := round
    consensusCommitRef := round
    rejectedTransactionsDigest := 0
    schedulables := [.consensusCommitPrologue 1 round 0, .accumulatorSettlement 0 round]
    randomnessSchedulables := [.randomnessStateUpdate 1 round]
    randomnessRound := some round
    dkgFailed := false
    assignedVersions := [(.consensusCommitPrologue 1 round 0, .empty)]
    consensusCommitPrologue := none
    finalRound }

end Haneul.Authority
