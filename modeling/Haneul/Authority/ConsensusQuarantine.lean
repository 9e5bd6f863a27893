import Haneul.Authority.VersionManager
import Haneul.Authority.CongestionTracker
import Haneul.Lib.Map
import Haneul.Lib.Overlay

/-!
# The quarantine of consensus outputs

Mirror of `authority/consensus_quarantine.rs`.  The outputs of consensus commits stay in a
queue in memory until the checkpoints that they end at have been executed, and then reach the
database.  Reads go through overlays that are kept beside the queue: an output that is pushed
is entered into them, an output that leaves the queue is taken out of them.

The tables of the database are functions.  A batch is written under the lock under which the
queue is drained, so a call of the quarantine is one step.  Of an output the parts are modelled
that are read back while the epoch runs; end-of-publish and reconfiguration state, random
beacon and JWK state, pending checkpoints and execution time observations are left out.
-/

namespace Haneul.Authority

open Haneul.Map Haneul.Overlay List

/-! ### Maps with reference counts -/

structure RefCountedHashMap (κ υ : Type) where
  map : κ → Option (Nat × υ)

namespace RefCountedHashMap

variable {κ υ : Type} [DecidableEq κ]

def new : RefCountedHashMap κ υ := ⟨fun _ => none⟩

variable (m : RefCountedHashMap κ υ)

def insert (key : κ) (value : υ) : RefCountedHashMap κ υ :=
  match m.map key with
  | some (refCount, _) => ⟨Function.update m.map key (some (refCount + 1, value))⟩
  | none => ⟨Function.update m.map key (some (1, value))⟩

/-- Whether the key was present, and the map without one of its references. -/
def remove (key : κ) : Bool × RefCountedHashMap κ υ :=
  match m.map key with
  | some (refCount, value) =>
    if refCount - 1 = 0 then (true, ⟨Function.update m.map key none⟩)
    else (true, ⟨Function.update m.map key (some (refCount - 1, value))⟩)
  | none => (false, m)

omit [DecidableEq κ] in
def get (key : κ) : Option υ := (m.map key).map Prod.snd

omit [DecidableEq κ] in
def containsKey (key : κ) : Bool := (m.map key).isSome

def insertAll (entries : List (κ × υ)) : RefCountedHashMap κ υ :=
  entries.foldl (fun m entry => m.insert entry.1 entry.2) m

def removeAll (keys : List κ) : RefCountedHashMap κ υ :=
  keys.foldl (fun m key => (m.remove key).2) m

end RefCountedHashMap

/-! ### Outputs, tables and the quarantine -/

abbrev MessageKey := Nat

abbrev ObjectRef := ObjectID × SequenceNumber × Nat

/-- The entries of a map, in the order in which it is iterated. -/
structure Entries (κ υ : Type) where
  list : List (κ × υ)
  nodup : (list.map Prod.fst).Nodup

def Entries.empty {κ υ : Type} : Entries κ υ := ⟨[], List.nodup_nil⟩

structure ConsensusCommitOutput where
  consensusRound : Round
  consensusMessagesProcessed : Entries MessageKey Unit
  /-- The height in `consensus_commit_stats`. -/
  statsHeight : Option Nat
  nextSharedObjectVersions : Entries ConsensusObjectSequenceKey SequenceNumber
  deferredTxns : List (DeferralKey × List Transaction)
  deletedDeferredTxns : List DeferralKey
  congestionControlObjectDebts : Entries ObjectID Nat
  congestionControlRandomnessObjectDebts : Entries ObjectID Nat
  ownedObjectLocks : Entries ObjectRef TransactionDigest
  checkpointQueueDrained : Bool

structure BuilderCheckpointSummary where
  summary : Nat
  checkpointHeight : Option Nat
deriving DecidableEq, Repr

/-- The tables of the epoch.  `written` are the outputs that have reached them. -/
structure AuthorityEpochTables where
  consensusMessageProcessed : MessageKey → Option Unit
  nextSharedObjectVersions : ConsensusObjectSequenceKey → Option SequenceNumber
  ownedObjectLockedTransactions : ObjectRef → Option TransactionDigest
  deferredTransactions : DeferralKey → Option (List Transaction)
  congestionControlObjectDebts : ObjectID → Option CongestionPerObjectDebt
  congestionControlRandomnessObjectDebts : ObjectID → Option CongestionPerObjectDebt
  builderCheckpointSummary : Nat → Option BuilderCheckpointSummary
  written : List ConsensusCommitOutput

namespace ConsensusCommitOutput

def withRound (round : Round) (debts : List (ObjectID × Nat)) :
    List (ObjectID × CongestionPerObjectDebt) :=
  debts.map fun entry => (entry.1, ⟨round, entry.2⟩)

/-! The writes of an output to the tables. -/

variable (o : ConsensusCommitOutput)

def versionWrites : ConsensusObjectSequenceKey → Option SequenceNumber :=
  collect o.nextSharedObjectVersions.list

def processedWrites : MessageKey → Option Unit := collect o.consensusMessagesProcessed.list

def lockWrites : ObjectRef → Option TransactionDigest := collect o.ownedObjectLocks.list

def debtWrites : ObjectID → Option CongestionPerObjectDebt :=
  collect (withRound o.consensusRound o.congestionControlObjectDebts.list)

def randomnessDebtWrites : ObjectID → Option CongestionPerObjectDebt :=
  collect (withRound o.consensusRound o.congestionControlRandomnessObjectDebts.list)

/-- A write to the deferred transactions deletes an entry or puts one in its place; the
    deletions of an output come first. -/
def deferredWrites : DeferralKey → Option (Option (List Transaction)) :=
  collect (o.deletedDeferredTxns.map (fun key => (key, none)) ++
    o.deferredTxns.map fun entry => (entry.1, some entry.2))

def writeToBatch (tables : AuthorityEpochTables) :
    AuthorityEpochTables where
  consensusMessageProcessed := overwrite tables.consensusMessageProcessed o.processedWrites
  nextSharedObjectVersions := overwrite tables.nextSharedObjectVersions o.versionWrites
  ownedObjectLockedTransactions := overwrite tables.ownedObjectLockedTransactions o.lockWrites
  deferredTransactions := fun key =>
    (o.deferredWrites key).getD (tables.deferredTransactions key)
  congestionControlObjectDebts := overwrite tables.congestionControlObjectDebts o.debtWrites
  congestionControlRandomnessObjectDebts :=
    overwrite tables.congestionControlRandomnessObjectDebts o.randomnessDebtWrites
  builderCheckpointSummary := tables.builderCheckpointSummary
  written := tables.written ++ [o]

end ConsensusCommitOutput

structure ConsensusOutputQuarantine where
  outputQueue : List ConsensusCommitOutput
  highestExecutedCheckpoint : Nat
  /-- A map by sequence number, in its order. -/
  builderCheckpointSummary : List (Nat × BuilderCheckpointSummary)
  sharedObjectNextVersions : RefCountedHashMap ConsensusObjectSequenceKey SequenceNumber
  congestionControlRandomnessObjectDebts : RefCountedHashMap ObjectID CongestionPerObjectDebt
  congestionControlObjectDebts : RefCountedHashMap ObjectID CongestionPerObjectDebt
  processedConsensusMessages : RefCountedHashMap MessageKey Unit
  /-- The one overlay without reference counts. -/
  ownedObjectLocks : ObjectRef → Option TransactionDigest

inductive QuarantineFault where
  | checkpointHeightUnset
  | checkpointHeightDecreased
  | commitStatsUnset
  | nextVersionNotFound
  | queueEmpty
deriving DecidableEq, Repr

namespace ConsensusOutputQuarantine

def new (highestExecutedCheckpoint : Nat) : ConsensusOutputQuarantine where
  outputQueue := []
  highestExecutedCheckpoint := highestExecutedCheckpoint
  builderCheckpointSummary := []
  sharedObjectNextVersions := .new
  congestionControlRandomnessObjectDebts := .new
  congestionControlObjectDebts := .new
  processedConsensusMessages := .new
  ownedObjectLocks := fun _ => none

/-! Entering an output into the overlays and taking it out. -/

variable (q : ConsensusOutputQuarantine)

def insertSharedObjectNextVersions (o : ConsensusCommitOutput) :
    ConsensusOutputQuarantine :=
  { q with sharedObjectNextVersions :=
      q.sharedObjectNextVersions.insertAll o.nextSharedObjectVersions.list }

def insertCongestionControlDebts (o : ConsensusCommitOutput) :
    ConsensusOutputQuarantine :=
  { q with
    congestionControlObjectDebts := q.congestionControlObjectDebts.insertAll
      (ConsensusCommitOutput.withRound o.consensusRound o.congestionControlObjectDebts.list)
    congestionControlRandomnessObjectDebts := q.congestionControlRandomnessObjectDebts.insertAll
      (ConsensusCommitOutput.withRound o.consensusRound
        o.congestionControlRandomnessObjectDebts.list) }

def removeCongestionControlDebts (o : ConsensusCommitOutput) :
    ConsensusOutputQuarantine :=
  { q with
    congestionControlObjectDebts := q.congestionControlObjectDebts.removeAll
      (o.congestionControlObjectDebts.list.map Prod.fst)
    congestionControlRandomnessObjectDebts := q.congestionControlRandomnessObjectDebts.removeAll
      (o.congestionControlRandomnessObjectDebts.list.map Prod.fst) }

def insertProcessedConsensusMessages (o : ConsensusCommitOutput) :
    ConsensusOutputQuarantine :=
  { q with processedConsensusMessages :=
      q.processedConsensusMessages.insertAll o.consensusMessagesProcessed.list }

def removeProcessedConsensusMessages (o : ConsensusCommitOutput) :
    ConsensusOutputQuarantine :=
  { q with processedConsensusMessages :=
      q.processedConsensusMessages.removeAll (o.consensusMessagesProcessed.list.map Prod.fst) }

def removeNextVersion (m : RefCountedHashMap ConsensusObjectSequenceKey SequenceNumber)
    (key : ConsensusObjectSequenceKey) :
    Except QuarantineFault (RefCountedHashMap ConsensusObjectSequenceKey SequenceNumber) :=
  if (m.remove key).1 then .ok (m.remove key).2 else .error .nextVersionNotFound

def removeSharedObjectNextVersions (o : ConsensusCommitOutput) :
    Except QuarantineFault ConsensusOutputQuarantine := do
  let versions ← (o.nextSharedObjectVersions.list.map Prod.fst).foldlM removeNextVersion
    q.sharedObjectNextVersions
  .ok { q with sharedObjectNextVersions := versions }

def insertOwnedObjectLocks (o : ConsensusCommitOutput) :
    ConsensusOutputQuarantine :=
  { q with
    ownedObjectLocks := o.ownedObjectLocks.list.foldl
      (fun locks entry => Function.update locks entry.1 (some entry.2)) q.ownedObjectLocks }

def removeOwnedObjectLocks (o : ConsensusCommitOutput) :
    ConsensusOutputQuarantine :=
  { q with
    ownedObjectLocks := (o.ownedObjectLocks.list.map Prod.fst).foldl
      (fun locks key => Function.update locks key none) q.ownedObjectLocks }

/-! Draining. -/

/-- The first loop of `commit_with_batch`: the summaries up to the executed checkpoint go to
    the database, and the height of the last of them is kept. -/
def commitSummaries (executed : Nat) :
    List (Nat × BuilderCheckpointSummary) → Option Nat → AuthorityEpochTables →
    Except QuarantineFault
      (List (Nat × BuilderCheckpointSummary) × Option Nat × AuthorityEpochTables)
  | [], highest, tables => .ok ([], highest, tables)
  | (seq, summary) :: rest, highest, tables =>
    if seq ≤ executed then
      match summary.checkpointHeight with
      | none => .error .checkpointHeightUnset
      | some height =>
        if highest.all fun h => h ≤ height then
          commitSummaries executed rest (some height) { tables with
            builderCheckpointSummary :=
              Function.update tables.builderCheckpointSummary seq (some summary) }
        else .error .checkpointHeightDecreased
    else .ok ((seq, summary) :: rest, highest, tables)

/-- The number of outputs up to the last one of the height after which the checkpoint queue
    was empty.  The source has the index of that output. -/
def drainCount (highestCommittedHeight : Nat) :
    List ConsensusCommitOutput → Nat → Nat → Except QuarantineFault Nat
  | [], _, found => .ok found
  | o :: rest, i, found =>
    match o.statsHeight with
    | none => .error .commitStatsUnset
    | some height =>
      if height > highestCommittedHeight then .ok found
      else drainCount highestCommittedHeight rest (i + 1)
        (if o.checkpointQueueDrained then i + 1 else found)

def popFront (o : ConsensusCommitOutput)
    (rest : List ConsensusCommitOutput) (tables : AuthorityEpochTables) :
    Except QuarantineFault (ConsensusOutputQuarantine × AuthorityEpochTables) := do
  let q := { q with outputQueue := rest }
  let q ← q.removeSharedObjectNextVersions o
  let q := q.removeProcessedConsensusMessages o
  let q := q.removeCongestionControlDebts o
  let q := q.removeOwnedObjectLocks o
  .ok (q, o.writeToBatch tables)

def drain : Nat → ConsensusOutputQuarantine → AuthorityEpochTables →
    Except QuarantineFault (ConsensusOutputQuarantine × AuthorityEpochTables)
  | 0, q, tables => .ok (q, tables)
  | n + 1, q, tables =>
    match q.outputQueue with
    | [] => .error .queueEmpty
    | o :: rest => do
      let (q, tables) ← q.popFront o rest tables
      drain n q tables

def commitWithBatch (tables : AuthorityEpochTables) :
    Except QuarantineFault (ConsensusOutputQuarantine × AuthorityEpochTables) := do
  let (summaries, highestCommittedHeight, tables) ←
    commitSummaries q.highestExecutedCheckpoint q.builderCheckpointSummary none tables
  let q := { q with builderCheckpointSummary := summaries }
  match highestCommittedHeight with
  | none => .ok (q, tables)
  | some height => do
    let n ← drainCount height q.outputQueue 0 0
    drain n q tables

def pushConsensusOutput (o : ConsensusCommitOutput) (tables : AuthorityEpochTables) :
    Except QuarantineFault (ConsensusOutputQuarantine × AuthorityEpochTables) :=
  let q := q.insertSharedObjectNextVersions o
  let q := q.insertCongestionControlDebts o
  let q := q.insertProcessedConsensusMessages o
  let q := q.insertOwnedObjectLocks o
  let q := { q with outputQueue := q.outputQueue ++ [o] }
  q.commitWithBatch tables

def insertSummary (seq : Nat) (summary : BuilderCheckpointSummary) :
    List (Nat × BuilderCheckpointSummary) → List (Nat × BuilderCheckpointSummary)
  | [] => [(seq, summary)]
  | (k, v) :: rest =>
    if seq < k then (seq, summary) :: (k, v) :: rest
    else if seq = k then (seq, summary) :: rest
    else (k, v) :: insertSummary seq summary rest

def insertBuilderSummary (seq : Nat)
    (summary : BuilderCheckpointSummary) : ConsensusOutputQuarantine :=
  { q with builderCheckpointSummary := insertSummary seq summary q.builderCheckpointSummary }

def updateHighestExecutedCheckpoint (checkpoint : Nat) (tables : AuthorityEpochTables) :
    Except QuarantineFault (ConsensusOutputQuarantine × AuthorityEpochTables) :=
  { q with highestExecutedCheckpoint := checkpoint }.commitWithBatch tables

end ConsensusOutputQuarantine

/-! ### Reads -/

/-- The results for the keys that are not cached, put in their places. -/
def fillFallback {κ υ : Type} (cached : κ → Option υ) : List κ → List υ → List υ
  | [], _ => []
  | key :: keys, fetched =>
    match cached key with
    | some value => value :: fillFallback cached keys fetched
    | none =>
      match fetched with
      | value :: fetched => value :: fillFallback cached keys fetched
      | [] => fillFallback cached keys []

def doFallbackLookup {κ υ : Type} (keys : List κ) (cached : κ → Option υ)
    (multiget : List κ → List υ) : List υ :=
  fillFallback cached keys (multiget (keys.filter fun key => (cached key).isNone))

namespace ConsensusOutputQuarantine

variable (q : ConsensusOutputQuarantine)

def getNextSharedObjectVersions (tables : AuthorityEpochTables)
    (keys : List ConsensusObjectSequenceKey) : List (Option SequenceNumber) :=
  doFallbackLookup keys (fun key => (q.sharedObjectNextVersions.get key).map some)
    fun keys => keys.map tables.nextSharedObjectVersions

def getOwnedObjectLocks (tables : AuthorityEpochTables)
    (refs : List ObjectRef) : List (Option TransactionDigest) :=
  doFallbackLookup refs (fun ref => (q.ownedObjectLocks ref).map some)
    fun refs => refs.map tables.ownedObjectLockedTransactions

def checkConsensusMessagesProcessed (tables : AuthorityEpochTables)
    (keys : List MessageKey) : List Bool :=
  doFallbackLookup keys
    (fun key => if q.processedConsensusMessages.containsKey key then some true else none)
    fun keys => keys.map fun key => (tables.consensusMessageProcessed key).isSome

/-- The lookup of `load_initial_object_debts`. -/
def getObjectDebts (tables : AuthorityEpochTables)
    (forRandomness : Bool) (ids : List ObjectID) : List (Option CongestionPerObjectDebt) :=
  let (hashTable, dbTable) :=
    if forRandomness then
      (q.congestionControlRandomnessObjectDebts, tables.congestionControlRandomnessObjectDebts)
    else (q.congestionControlObjectDebts, tables.congestionControlObjectDebts)
  doFallbackLookup ids (fun id => (hashTable.get id).map some) fun ids => ids.map dbTable

/-- `get_built_summary`, and the database after it. -/
def getBuiltSummary (tables : AuthorityEpochTables) (seq : Nat) :
    Option BuilderCheckpointSummary :=
  (q.builderCheckpointSummary.lookup seq).or (tables.builderCheckpointSummary seq)

end ConsensusOutputQuarantine

/-! ### Reference counts -/

namespace RefCountedHashMap

variable {κ υ : Type} [DecidableEq κ] {m : RefCountedHashMap κ υ}
  {queue : List (κ → Option υ)} {entries : List (κ × υ)}

/-- The map holds the newest writes of a queue, each with the number of writes to its key. -/
def Counts (m : RefCountedHashMap κ υ) (queue : List (κ → Option υ)) : Prop :=
  ∀ k, m.map k = (newest queue k).map fun v => (count queue k, v)

theorem map_insert (m : RefCountedHashMap κ υ) (key : κ) (value : υ) (k : κ) :
    (m.insert key value).map k =
      if k = key then some ((m.map key).elim 1 fun entry => entry.1 + 1, value) else m.map k := by
  rw [insert]
  by_cases hk : k = key
  · subst hk
    cases m.map k <;> simp
  · cases m.map key <;> simp [hk]

theorem map_remove (m : RefCountedHashMap κ υ) (key : κ) (k : κ) :
    (m.remove key).2.map k =
      if k = key then (m.map key).bind fun entry =>
        if entry.1 - 1 = 0 then none else some (entry.1 - 1, entry.2)
      else m.map k := by
  rw [remove]
  by_cases hk : k = key
  · subst hk
    cases hentry : m.map k with
    | none => simp [hentry]
    | some entry =>
      simp only [Option.bind_some]
      split_ifs <;> simp
  · cases m.map key with
    | none => simp [hk]
    | some entry =>
      simp only [Option.bind_some]
      split_ifs <;> simp [hk]

theorem map_insertAll (m : RefCountedHashMap κ υ) (hnodup : (entries.map Prod.fst).Nodup) (k : κ) :
    (m.insertAll entries).map k = match collect entries k with
      | some value => some ((m.map k).elim 1 fun entry => entry.1 + 1, value)
      | none => m.map k := by
  induction entries using List.reverseRecOn with
  | nil => rfl
  | append_singleton entries entry ih =>
    rw [map_append, nodup_append] at hnodup
    obtain ⟨hentries, _, hfresh⟩ := hnodup
    rw [insertAll, foldl_append, ← insertAll, collect_append_singleton]
    show ((m.insertAll entries).insert entry.1 entry.2).map k = _
    rw [map_insert]
    by_cases hk : k = entry.1
    · -- the key is new, so the entries before leave it as it is
      have hnone : collect entries k = none := collect_eq_none fun v hv =>
        hfresh k (mem_map_of_mem hv) entry.1 (by simp) hk
      have hkept := ih hentries
      rw [hnone] at hkept
      rw [if_pos hk, ← hk, hkept, Function.update_self]
    · rw [if_neg hk, Function.update_of_ne hk]
      exact ih hentries

theorem map_removeAll (m : RefCountedHashMap κ υ) {keys : List κ} (hnodup : keys.Nodup) (k : κ) :
    (m.removeAll keys).map k =
      if k ∈ keys then (m.map k).bind fun entry =>
        if entry.1 - 1 = 0 then none else some (entry.1 - 1, entry.2)
      else m.map k := by
  induction keys generalizing m with
  | nil => rfl
  | cons key keys ih =>
    obtain ⟨hfresh, hkeys⟩ := nodup_cons.mp hnodup
    rw [removeAll, foldl_cons, ← removeAll, ih _ hkeys, map_remove]
    by_cases hk : k = key
    · subst hk
      simp [hfresh]
    · simp [hk]

omit [DecidableEq κ] in
theorem Counts.get (h : Counts m queue) (k : κ) : m.get k = newest queue k := by
  rw [RefCountedHashMap.get, h k, Option.map_map]
  exact Option.map_id'

omit [DecidableEq κ] in
theorem Counts.containsKey (h : Counts m queue) (k : κ) :
    m.containsKey k = (newest queue k).isSome := by
  rw [RefCountedHashMap.containsKey, h k, Option.isSome_map]

omit [DecidableEq κ] in
theorem counts_new : Counts (new : RefCountedHashMap κ υ) [] := fun _ => rfl

theorem Counts.insertAll (h : Counts m queue) (hnodup : (entries.map Prod.fst).Nodup) :
    Counts (m.insertAll entries) (queue ++ [collect entries]) := by
  intro k
  rw [map_insertAll m hnodup, h k, newest_append_singleton, count_append_singleton]
  cases hentry : collect entries k with
  | none => simp
  | some value =>
    cases hnewest : newest queue k with
    | none => simp [count_eq_zero_of_newest hnewest]
    | some old => simp

theorem Counts.removeAll (h : Counts m (collect entries :: queue))
    (hnodup : (entries.map Prod.fst).Nodup) :
    Counts (m.removeAll (entries.map Prod.fst)) queue := by
  intro k
  rw [map_removeAll m hnodup, h k, newest_cons, count_cons]
  by_cases hk : k ∈ entries.map Prod.fst
  · obtain ⟨value, hvalue⟩ := exists_collect_of_mem hk
    rw [if_pos hk, hvalue]
    cases hnewest : newest queue k with
    | none => simp [count_eq_zero_of_newest hnewest]
    | some old =>
      have hpos : count queue k ≠ 0 := newest_isSome_iff.mp (by rw [hnewest]; rfl)
      simp [hpos]
  · have hnone : collect entries k = none := collect_eq_none fun v hv =>
      hk (mem_map_of_mem hv)
    simp [hk, hnone]

end RefCountedHashMap

end Haneul.Authority
