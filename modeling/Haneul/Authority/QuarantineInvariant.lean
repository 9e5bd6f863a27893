import Haneul.Authority.ConsensusQuarantine

/-!
# The invariant of the quarantine

The overlays hold the newest writes of the queue.  Pushing an output writes it over the
contents of queue and database together, and draining the queue leaves these contents as they
are.

The overlay of the owned object locks has no reference counts: an output that leaves the queue
takes a lock along that a later output may have entered again.  The database then has the lock,
for the same transaction if the outputs of the queue agree on its holder.
-/

namespace Haneul.Authority

open Haneul.Map Haneul.Overlay RefCountedHashMap List

/-! ### The overlay of the locks -/

section Locks

variable {locks base : ObjectRef → Option TransactionDigest}
  {queue : List (ObjectRef → Option TransactionDigest)}

/-- The overlay of the locks has the newest lock of the queue, unless an output that has left
    the queue took it along to the database. -/
def LocksOverlay (locks base : ObjectRef → Option TransactionDigest)
    (queue : List (ObjectRef → Option TransactionDigest)) : Prop :=
  ∀ ref, locks ref = newest queue ref ∨
    locks ref = none ∧ ∃ holder, newest queue ref = some holder ∧ base ref = some holder

theorem LocksOverlay.read (h : LocksOverlay locks base queue) (ref : ObjectRef) :
    (locks ref).or (base ref) = view base queue ref := by
  rcases h ref with heq | ⟨hnone, holder, hnewest, hbase⟩
  · rw [heq, view]
  · rw [hnone, view, hnewest, hbase]
    rfl

theorem foldl_update_some (locks : ObjectRef → Option TransactionDigest)
    (entries : List (ObjectRef × TransactionDigest)) (ref : ObjectRef) :
    (entries.foldl (fun locks entry => Function.update locks entry.1 (some entry.2)) locks :
      ObjectRef → Option TransactionDigest) ref = (collect entries ref).or (locks ref) := by
  induction entries using List.reverseRecOn with
  | nil => rfl
  | append_singleton entries entry ih =>
    rw [foldl_append, collect_append_singleton]
    by_cases href : ref = entry.1
    · simp [href]
    · simpa [href] using ih

theorem foldl_update_none (locks : ObjectRef → Option TransactionDigest) (refs : List ObjectRef)
    (ref : ObjectRef) :
    (refs.foldl (fun locks key => Function.update locks key none) locks :
      ObjectRef → Option TransactionDigest) ref = if ref ∈ refs then none else locks ref := by
  induction refs generalizing locks with
  | nil => rfl
  | cons first refs ih =>
    rw [foldl_cons, ih]
    by_cases href : ref = first
    · simp [href]
    · simp [href]

theorem LocksOverlay.push (h : LocksOverlay locks base queue)
    (entries : List (ObjectRef × TransactionDigest)) :
    LocksOverlay (entries.foldl (fun locks entry => Function.update locks entry.1 (some entry.2))
      locks) base (queue ++ [collect entries]) := by
  intro ref
  rw [foldl_update_some, newest_append_singleton]
  cases collect entries ref with
  | none => simpa using h ref
  | some holder => exact .inl rfl

/-- Taking the front output out removes locks that a later output may have too; if they agree,
    the database has them. -/
theorem LocksOverlay.pop {entries : List (ObjectRef × TransactionDigest)}
    (h : LocksOverlay locks base (collect entries :: queue))
    (hagree : Agree (collect entries :: queue)) :
    LocksOverlay ((entries.map Prod.fst).foldl (fun locks key => Function.update locks key none)
      locks) (overwrite base (collect entries)) queue := by
  intro ref
  rw [foldl_update_none, overwrite]
  by_cases href : ref ∈ entries.map Prod.fst
  · obtain ⟨holder, hholder⟩ := exists_collect_of_mem href
    rw [if_pos href, hholder]
    cases hnewest : newest queue ref with
    | none => exact .inl rfl
    | some later =>
      obtain ⟨w, hw, hlater⟩ := exists_of_newest_eq_some hnewest
      have hsame : holder = later := hagree _ mem_cons_self w (.tail _ hw)
        ref holder later hholder hlater
      exact .inr ⟨rfl, later, rfl, by rw [hsame]; rfl⟩
  · have hnone : collect entries ref = none := collect_eq_none fun v hv =>
      href (mem_map_of_mem hv)
    have hold := h ref
    rw [newest_cons, hnone, Option.or_none] at hold
    rw [if_neg href, hnone]
    exact hold

end Locks

/-! ### The invariant -/

/-- What is read of the database and the queue together. -/
structure Contents where
  processed : MessageKey → Option Unit
  versions : ConsensusObjectSequenceKey → Option SequenceNumber
  locks : ObjectRef → Option TransactionDigest
  deferred : DeferralKey → Option (List Transaction)
  debts : ObjectID → Option CongestionPerObjectDebt
  randomnessDebts : ObjectID → Option CongestionPerObjectDebt
  summaries : Nat → Option BuilderCheckpointSummary

/-- The newest write of the queue, or the database. -/
def contents (q : ConsensusOutputQuarantine) (tables : AuthorityEpochTables) : Contents where
  processed := view tables.consensusMessageProcessed (q.outputQueue.map (·.processedWrites))
  versions := view tables.nextSharedObjectVersions (q.outputQueue.map (·.versionWrites))
  locks := view tables.ownedObjectLockedTransactions (q.outputQueue.map (·.lockWrites))
  deferred := fun key =>
    (newest (q.outputQueue.map (·.deferredWrites)) key).getD (tables.deferredTransactions key)
  debts := view tables.congestionControlObjectDebts (q.outputQueue.map (·.debtWrites))
  randomnessDebts := view tables.congestionControlRandomnessObjectDebts
    (q.outputQueue.map (·.randomnessDebtWrites))
  summaries := fun seq =>
    (q.builderCheckpointSummary.lookup seq).or (tables.builderCheckpointSummary seq)

/-- The contents under one more output. -/
def Contents.write (c : Contents) (o : ConsensusCommitOutput) : Contents where
  processed := overwrite c.processed o.processedWrites
  versions := overwrite c.versions o.versionWrites
  locks := overwrite c.locks o.lockWrites
  deferred := fun key => (o.deferredWrites key).getD (c.deferred key)
  debts := overwrite c.debts o.debtWrites
  randomnessDebts := overwrite c.randomnessDebts o.randomnessDebtWrites
  summaries := c.summaries

def SortedBySeq (summaries : List (Nat × BuilderCheckpointSummary)) : Prop :=
  (summaries.map Prod.fst).Pairwise (· < ·)

/-- The overlays with reference counts hold the queue, and the summaries are ordered. -/
structure OverlayInv (q : ConsensusOutputQuarantine) : Prop where
  versions : Counts q.sharedObjectNextVersions (q.outputQueue.map (·.versionWrites))
  processed : Counts q.processedConsensusMessages (q.outputQueue.map (·.processedWrites))
  debts : Counts q.congestionControlObjectDebts (q.outputQueue.map (·.debtWrites))
  randomnessDebts : Counts q.congestionControlRandomnessObjectDebts
    (q.outputQueue.map (·.randomnessDebtWrites))
  sorted : SortedBySeq q.builderCheckpointSummary

/-- The overlay of the locks, for outputs that agree on them. -/
def LocksInv (q : ConsensusOutputQuarantine) (tables : AuthorityEpochTables) : Prop :=
  LocksOverlay q.ownedObjectLocks tables.ownedObjectLockedTransactions
    (q.outputQueue.map (·.lockWrites))

theorem nodup_withRound (round : Round) (debts : Entries ObjectID Nat) :
    ((ConsensusCommitOutput.withRound round debts.list).map Prod.fst).Nodup := by
  rw [ConsensusCommitOutput.withRound, map_map]
  exact debts.nodup

theorem keys_withRound (round : Round) (debts : List (ObjectID × Nat)) :
    (ConsensusCommitOutput.withRound round debts).map Prod.fst = debts.map Prod.fst := by
  rw [ConsensusCommitOutput.withRound, map_map]
  rfl

/-! ### Entering and taking out -/

namespace ConsensusOutputQuarantine

variable {q : ConsensusOutputQuarantine} {tables : AuthorityEpochTables}
  {o : ConsensusCommitOutput} {rest : List ConsensusCommitOutput}

def enter (q : ConsensusOutputQuarantine) (o : ConsensusCommitOutput) :
    ConsensusOutputQuarantine :=
  let q := q.insertSharedObjectNextVersions o
  let q := q.insertCongestionControlDebts o
  let q := q.insertProcessedConsensusMessages o
  let q := q.insertOwnedObjectLocks o
  { q with outputQueue := q.outputQueue ++ [o] }

theorem overlayInv_enter (h : OverlayInv q) (o : ConsensusCommitOutput) :
    OverlayInv (q.enter o) where
  versions := by
    rw [show (q.enter o).outputQueue = q.outputQueue ++ [o] from rfl, map_append]
    exact h.versions.insertAll o.nextSharedObjectVersions.nodup
  processed := by
    rw [show (q.enter o).outputQueue = q.outputQueue ++ [o] from rfl, map_append]
    exact h.processed.insertAll o.consensusMessagesProcessed.nodup
  debts := by
    rw [show (q.enter o).outputQueue = q.outputQueue ++ [o] from rfl, map_append]
    exact h.debts.insertAll (nodup_withRound _ _)
  randomnessDebts := by
    rw [show (q.enter o).outputQueue = q.outputQueue ++ [o] from rfl, map_append]
    exact h.randomnessDebts.insertAll (nodup_withRound _ _)
  sorted := h.sorted

theorem locksInv_enter (h : LocksInv q tables) (o : ConsensusCommitOutput) :
    LocksInv (q.enter o) tables := by
  rw [LocksInv, show (q.enter o).outputQueue = q.outputQueue ++ [o] from rfl, map_append]
  exact h.push o.ownedObjectLocks.list

theorem contents_enter (q : ConsensusOutputQuarantine) (o : ConsensusCommitOutput)
    (tables : AuthorityEpochTables) :
    contents (q.enter o) tables = (contents q tables).write o := by
  have hqueue : (q.enter o).outputQueue = q.outputQueue ++ [o] := rfl
  have hsummaries : (q.enter o).builderCheckpointSummary = q.builderCheckpointSummary := rfl
  simp only [contents, Contents.write, hqueue, hsummaries, map_append, map_cons,
    map_nil, view_append_singleton, newest_append_singleton, Option.getD_or]

def leave (q : ConsensusOutputQuarantine) (o : ConsensusCommitOutput)
    (rest : List ConsensusCommitOutput) : ConsensusOutputQuarantine :=
  let q := { q with
    outputQueue := rest
    sharedObjectNextVersions :=
      q.sharedObjectNextVersions.removeAll (o.nextSharedObjectVersions.list.map Prod.fst) }
  let q := q.removeProcessedConsensusMessages o
  let q := q.removeCongestionControlDebts o
  q.removeOwnedObjectLocks o

theorem foldlM_removeNextVersion {m : RefCountedHashMap ConsensusObjectSequenceKey SequenceNumber}
    {keys : List ConsensusObjectSequenceKey} (hnodup : keys.Nodup)
    (hpresent : ∀ key ∈ keys, (m.map key).isSome = true) :
    keys.foldlM removeNextVersion m = .ok (m.removeAll keys) := by
  induction keys generalizing m with
  | nil => rfl
  | cons key keys ih =>
    obtain ⟨hfresh, hkeys⟩ := nodup_cons.mp hnodup
    have hfound : removeNextVersion m key = .ok (m.remove key).2 := by
      obtain ⟨entry, hentry⟩ := Option.isSome_iff_exists.mp (hpresent key (.head _))
      have htrue : (m.remove key).1 = true := by
        rw [RefCountedHashMap.remove, hentry]
        dsimp only
        split_ifs <;> rfl
      rw [removeNextVersion, if_pos htrue]
    have hrest : ∀ k ∈ keys, ((m.remove key).2.map k).isSome = true := by
      intro k hk
      rw [map_remove, if_neg fun hkey : k = key => hfresh (hkey ▸ hk)]
      exact hpresent k (.tail key hk)
    exact foldlM_cons_eq_ok.mpr ⟨_, hfound, ih hkeys hrest⟩

theorem popFront_eq (h : OverlayInv q) (hqueue : q.outputQueue = o :: rest)
    (tables : AuthorityEpochTables) :
    q.popFront o rest tables = .ok (q.leave o rest, o.writeToBatch tables) := by
  have hcounts := h.versions
  rw [hqueue, map_cons] at hcounts
  have hpresent : ∀ key ∈ o.nextSharedObjectVersions.list.map Prod.fst,
      (q.sharedObjectNextVersions.map key).isSome = true := by
    intro key hkey
    obtain ⟨version, hversion⟩ := exists_collect_of_mem hkey
    rw [hcounts key, newest_cons, ConsensusCommitOutput.versionWrites, hversion]
    simp
  rw [popFront, removeSharedObjectNextVersions,
    foldlM_removeNextVersion o.nextSharedObjectVersions.nodup hpresent]
  rfl

theorem overlayInv_leave (h : OverlayInv q) (hqueue : q.outputQueue = o :: rest) :
    OverlayInv (q.leave o rest) := by
  obtain ⟨hversions, hprocessed, hdebts, hrandomness, hsorted⟩ := h
  rw [hqueue, map_cons] at hversions hprocessed hdebts hrandomness
  refine ⟨hversions.removeAll o.nextSharedObjectVersions.nodup,
    hprocessed.removeAll o.consensusMessagesProcessed.nodup, ?_, ?_, hsorted⟩
  · have hremoved := hdebts.removeAll (nodup_withRound _ _)
    rw [keys_withRound] at hremoved
    exact hremoved
  · have hremoved := hrandomness.removeAll (nodup_withRound _ _)
    rw [keys_withRound] at hremoved
    exact hremoved

theorem locksInv_leave (h : LocksInv q tables) (hqueue : q.outputQueue = o :: rest)
    (hagree : Agree (q.outputQueue.map (·.lockWrites))) :
    LocksInv (q.leave o rest) (o.writeToBatch tables) := by
  rw [LocksInv, hqueue] at h
  rw [hqueue] at hagree
  exact LocksOverlay.pop h hagree

theorem contents_leave (hqueue : q.outputQueue = o :: rest) (tables : AuthorityEpochTables) :
    contents (q.leave o rest) (o.writeToBatch tables) = contents q tables := by
  have hrest : (q.leave o rest).outputQueue = rest := rfl
  have hsummaries : (q.leave o rest).builderCheckpointSummary = q.builderCheckpointSummary := rfl
  simp only [contents, hqueue, hrest, hsummaries, map_cons, view_cons, newest_cons,
    Option.getD_or, ConsensusCommitOutput.writeToBatch]

/-! ### Draining -/

structure Drained (n : Nat) (q : ConsensusOutputQuarantine) (tables : AuthorityEpochTables)
    (q' : ConsensusOutputQuarantine) (tables' : AuthorityEpochTables) : Prop where
  queue : q'.outputQueue = q.outputQueue.drop n
  tables_eq : tables' = (q.outputQueue.take n).foldl (fun tables o => o.writeToBatch tables) tables
  contents_eq : contents q' tables' = contents q tables
  overlays : OverlayInv q'
  locks : Agree (q.outputQueue.map (·.lockWrites)) → LocksInv q tables → LocksInv q' tables'
  executed : q'.highestExecutedCheckpoint = q.highestExecutedCheckpoint
  summaries : q'.builderCheckpointSummary = q.builderCheckpointSummary

theorem drain_spec (h : OverlayInv q) {n : Nat} (hn : n ≤ q.outputQueue.length) :
    ∃ q' tables', drain n q tables = .ok (q', tables') ∧ Drained n q tables q' tables' := by
  induction n generalizing q tables with
  | zero => exact ⟨q, tables, rfl, rfl, rfl, rfl, h, fun _ hlocks => hlocks, rfl, rfl⟩
  | succ n ih =>
    cases hqueue : q.outputQueue with
    | nil =>
      rw [hqueue] at hn
      cases hn
    | cons o rest =>
      have hlength : n ≤ (q.leave o rest).outputQueue.length := by
        rw [hqueue] at hn
        exact Nat.le_of_succ_le_succ hn
      obtain ⟨q', tables', hdrain, hspec⟩ :=
        @ih (q.leave o rest) (o.writeToBatch tables) (overlayInv_leave h hqueue) hlength
      refine ⟨q', tables', ?_, ?_⟩
      · rw [drain, hqueue]
        exact bind_eq_ok.mpr ⟨_, popFront_eq h hqueue tables, hdrain⟩
      · refine ⟨?_, ?_, ?_, hspec.overlays, ?_, hspec.executed, hspec.summaries⟩
        · rw [hspec.queue, hqueue]
          rfl
        · rw [hspec.tables_eq, hqueue]
          rfl
        · rw [hspec.contents_eq, contents_leave hqueue]
        · intro hagree hlocks
          apply hspec.locks _ (locksInv_leave hlocks hqueue hagree)
          rw [hqueue] at hagree
          exact hagree.subset (subset_cons_self _ _)

theorem drainCount_spec {height : Nat} {queue : List ConsensusCommitOutput} {i found n : Nat}
    (h : drainCount height queue i found = .ok n) (hfound : found ≤ i) :
    n ≤ i + queue.length ∧
      ∀ o ∈ queue.take (n - i), ∃ stats, o.statsHeight = some stats ∧ stats ≤ height := by
  induction queue generalizing i found with
  | nil =>
    cases h
    exact ⟨hfound, by simp⟩
  | cons o queue ih =>
    rw [drainCount] at h
    cases hstats : o.statsHeight with
    | none =>
      rw [hstats] at h
      cases h
    | some stats =>
      rw [hstats] at h
      dsimp only at h
      split_ifs at h with hhigh hdrained
      · cases h
        have hzero : n - i = 0 := by omega
        exact ⟨by omega, by simp [hzero]⟩
      all_goals
        obtain ⟨hle, htake⟩ := ih h (by omega)
        refine ⟨by rw [length_cons]; omega, ?_⟩
        intro o' ho'
        by_cases hpos : n ≤ i
        · rw [Nat.sub_eq_zero_of_le hpos] at ho'
          cases ho'
        · rw [show n - i = n - (i + 1) + 1 by omega, take_succ_cons] at ho'
          rcases mem_cons.mp ho' with rfl | ho'
          · exact ⟨stats, hstats, by omega⟩
          · exact htake o' ho'

theorem drainCount_total {height : Nat} {queue : List ConsensusCommitOutput}
    (hstats : ∀ o ∈ queue, o.statsHeight.isSome = true) (i found : Nat) :
    ∃ n, drainCount height queue i found = .ok n := by
  induction queue generalizing i found with
  | nil => exact ⟨found, rfl⟩
  | cons o queue ih =>
    obtain ⟨stats, hsome⟩ := Option.isSome_iff_exists.mp (hstats o (.head _))
    rw [drainCount, hsome]
    dsimp only
    split_ifs with hhigh
    · exact ⟨found, rfl⟩
    all_goals exact ih (fun o' ho' => hstats o' (.tail o ho')) _ _

/-! ### Summaries -/

variable {executed : Nat} {summaries rest' : List (Nat × BuilderCheckpointSummary)}
  {highest highest' : Option Nat} {tables' : AuthorityEpochTables}

theorem lookup_cons (seq key : Nat) (summary : BuilderCheckpointSummary)
    (summaries : List (Nat × BuilderCheckpointSummary)) :
    ((key, summary) :: summaries).lookup seq =
      if seq = key then some summary else summaries.lookup seq := by
  rw [List.lookup_cons]
  by_cases hkey : seq = key
  · simp [hkey]
  · rw [beq_eq_false_iff_ne.mpr hkey, if_neg hkey]

theorem lookup_eq_none_of_lt {seq : Nat} (h : ∀ key ∈ summaries.map Prod.fst, seq < key) :
    summaries.lookup seq = none := by
  induction summaries with
  | nil => rfl
  | cons entry summaries ih =>
    have hhead : seq < entry.1 := h entry.1 (by simp)
    rw [lookup_cons, if_neg hhead.ne]
    exact ih fun key hkey => h key (.tail _ hkey)

structure SummariesCommitted (executed : Nat) (summaries : List (Nat × BuilderCheckpointSummary))
    (highest : Option Nat) (tables : AuthorityEpochTables)
    (rest : List (Nat × BuilderCheckpointSummary)) (highest' : Option Nat)
    (tables' : AuthorityEpochTables) : Prop where
  tables_eq : ∃ builder, tables' = { tables with builderCheckpointSummary := builder }
  read : ∀ seq, (rest.lookup seq).or (tables'.builderCheckpointSummary seq) =
    (summaries.lookup seq).or (tables.builderCheckpointSummary seq)
  suffix : rest <:+ summaries
  height : highest' = highest ∨
    ∃ entry ∈ summaries, entry.1 ≤ executed ∧ entry.2.checkpointHeight = highest'

theorem commitSummaries_spec (hsorted : SortedBySeq summaries)
    (h : commitSummaries executed summaries highest tables = .ok (rest', highest', tables')) :
    SummariesCommitted executed summaries highest tables rest' highest' tables' := by
  induction summaries generalizing highest tables with
  | nil =>
    cases h
    exact ⟨⟨_, rfl⟩, fun _ => rfl, suffix_refl _, .inl rfl⟩
  | cons entry summaries ih =>
    obtain ⟨seq, summary⟩ := entry
    obtain ⟨hfirst, hsorted⟩ := pairwise_cons.mp hsorted
    rw [commitSummaries] at h
    split_ifs at h with hexecuted
    · cases hheight : summary.checkpointHeight with
      | none =>
        rw [hheight] at h
        cases h
      | some height =>
        rw [hheight] at h
        dsimp only at h
        split_ifs at h with hmono
        obtain ⟨⟨builder, htables⟩, hread, hsuffix, hhighest⟩ := ih hsorted h
        refine ⟨⟨builder, htables⟩, ?_, hsuffix.trans (suffix_cons _ _), ?_⟩
        · intro seq'
          rw [hread, lookup_cons]
          by_cases hseq : seq' = seq
          · -- the summary that was taken is now in the table and not in the rest
            subst hseq
            rw [lookup_eq_none_of_lt hfirst]
            simp
          · simp [hseq]
        · right
          rcases hhighest with rfl | ⟨entry, hentry, hle, hlast⟩
          · exact ⟨_, .head _, hexecuted, hheight⟩
          · exact ⟨entry, .tail _ hentry, hle, hlast⟩
    · cases h
      exact ⟨⟨_, rfl⟩, fun _ => rfl, suffix_refl _, .inl rfl⟩

/-- Heights do not go down with the sequence numbers. -/
def HeightsOrdered (a b : Nat × BuilderCheckpointSummary) : Prop :=
  ∀ h ∈ a.2.checkpointHeight, ∀ h' ∈ b.2.checkpointHeight, h ≤ h'

theorem commitSummaries_total (hpair : summaries.Pairwise HeightsOrdered)
    (hheights : ∀ entry ∈ summaries, ∃ height, entry.2.checkpointHeight = some height ∧
      ∀ h ∈ highest, h ≤ height) (tables : AuthorityEpochTables) :
    ∃ result, commitSummaries executed summaries highest tables = .ok result := by
  induction summaries generalizing highest tables with
  | nil => exact ⟨_, rfl⟩
  | cons entry summaries ih =>
    obtain ⟨seq, summary⟩ := entry
    obtain ⟨hfirst, hpair⟩ := pairwise_cons.mp hpair
    obtain ⟨height, hheight, hmono⟩ := hheights _ (.head _)
    dsimp only at hheight
    rw [commitSummaries, hheight]
    dsimp only
    have hall : (highest.all fun h => decide (h ≤ height)) = true := by
      rw [Option.all_eq_true]
      intro h hh
      exact decide_eq_true (hmono h hh)
    rw [if_pos hall]
    split_ifs with hexecuted
    · apply ih hpair
      intro entry' hentry'
      obtain ⟨height', hheight', _⟩ := hheights entry' (.tail _ hentry')
      refine ⟨height', hheight', ?_⟩
      intro h hh
      cases hh
      exact hfirst entry' hentry' _ hheight _ hheight'
    · exact ⟨_, rfl⟩

/-! ### `commit_with_batch` -/

/-- An output ends at a height that the summaries have up to the executed checkpoint. -/
def EndsBelow (summaries : List (Nat × BuilderCheckpointSummary)) (executed : Nat)
    (o : ConsensusCommitOutput) : Prop :=
  ∃ entry ∈ summaries, entry.1 ≤ executed ∧ ∃ height stats,
    entry.2.checkpointHeight = some height ∧ o.statsHeight = some stats ∧ stats ≤ height

def withoutSummaries (tables : AuthorityEpochTables) : AuthorityEpochTables :=
  { tables with builderCheckpointSummary := fun _ => none }

structure Committed (q : ConsensusOutputQuarantine) (tables : AuthorityEpochTables)
    (q' : ConsensusOutputQuarantine) (tables' : AuthorityEpochTables) : Prop where
  drained : ∃ n, q'.outputQueue = q.outputQueue.drop n ∧
    withoutSummaries tables' = (q.outputQueue.take n).foldl (fun tables o => o.writeToBatch tables)
      (withoutSummaries tables) ∧
    ∀ o ∈ q.outputQueue.take n, EndsBelow q.builderCheckpointSummary q.highestExecutedCheckpoint o
  contents_eq : contents q' tables' = contents q tables
  overlays : OverlayInv q'
  locks : Agree (q.outputQueue.map (·.lockWrites)) → LocksInv q tables → LocksInv q' tables'
  executed : q'.highestExecutedCheckpoint = q.highestExecutedCheckpoint
  summaries : q'.builderCheckpointSummary <:+ q.builderCheckpointSummary

theorem withoutSummaries_foldl (outputs : List ConsensusCommitOutput)
    (tables : AuthorityEpochTables) :
    withoutSummaries (outputs.foldl (fun tables o => o.writeToBatch tables) tables) =
      outputs.foldl (fun tables o => o.writeToBatch tables) (withoutSummaries tables) := by
  induction outputs generalizing tables with
  | nil => rfl
  | cons o outputs ih => exact ih (o.writeToBatch tables)

theorem sortedBySeq_suffix (hsorted : SortedBySeq summaries) (h : rest' <:+ summaries) :
    SortedBySeq rest' :=
  hsorted.sublist (h.sublist.map Prod.fst)

theorem commitWithBatch_spec {q' : ConsensusOutputQuarantine} (hinv : OverlayInv q)
    (h : q.commitWithBatch tables = .ok (q', tables')) : Committed q tables q' tables' := by
  rw [commitWithBatch] at h
  obtain ⟨⟨rest', highest', tables₁⟩, hsummaries, h⟩ := bind_eq_ok.mp h
  obtain ⟨⟨builder, htables⟩, hread, hsuffix, hheight⟩ :=
    commitSummaries_spec hinv.sorted hsummaries
  have hinv₁ : OverlayInv { q with builderCheckpointSummary := rest' } :=
    ⟨hinv.versions, hinv.processed, hinv.debts, hinv.randomnessDebts,
      sortedBySeq_suffix hinv.sorted hsuffix⟩
  have hcontents : contents { q with builderCheckpointSummary := rest' } tables₁ =
      contents q tables := by
    have hsummaries := funext hread
    rw [htables] at hsummaries ⊢
    simp only [contents]
    rw [Contents.mk.injEq]
    exact ⟨rfl, rfl, rfl, rfl, rfl, rfl, hsummaries⟩
  have hwithout : withoutSummaries tables₁ = withoutSummaries tables := by
    rw [htables]
    rfl
  have hlocks : LocksInv q tables → LocksInv { q with builderCheckpointSummary := rest' } tables₁ := by
    rw [htables]
    exact id
  cases highest' with
  | none =>
    cases h
    exact ⟨⟨0, rfl, hwithout, by simp⟩, hcontents, hinv₁, fun _ => hlocks, rfl, hsuffix⟩
  | some height =>
    obtain ⟨n, hcount, hdrain⟩ := bind_eq_ok.mp h
    obtain ⟨hlength, hbelow⟩ := drainCount_spec hcount le_rfl
    rw [Nat.zero_add] at hlength
    obtain ⟨q₂, tables₂, hdrain₂, hspec⟩ := @drain_spec _ tables₁ hinv₁ n hlength
    rw [hdrain₂] at hdrain
    cases hdrain
    refine ⟨⟨n, hspec.queue, ?_, ?_⟩, hspec.contents_eq.trans hcontents, hspec.overlays,
      fun hagree hold => hspec.locks hagree (hlocks hold), hspec.executed, ?_⟩
    · rw [hspec.tables_eq, withoutSummaries_foldl, hwithout]
    · intro o ho
      obtain ⟨stats, hstats, hle⟩ := hbelow o ho
      rcases hheight with hnone | ⟨entry, hentry, hexecuted, hentryHeight⟩
      · cases hnone
      · exact ⟨entry, hentry, hexecuted, height, stats, hentryHeight, hstats, hle⟩
    · rw [hspec.summaries]
      exact hsuffix

theorem commitWithBatch_total (hinv : OverlayInv q)
    (hstats : ∀ o ∈ q.outputQueue, o.statsHeight.isSome = true)
    (hheights : ∀ entry ∈ q.builderCheckpointSummary, entry.2.checkpointHeight.isSome = true)
    (hpair : q.builderCheckpointSummary.Pairwise HeightsOrdered) (tables : AuthorityEpochTables) :
    ∃ result, q.commitWithBatch tables = .ok result := by
  have hsome : ∀ entry ∈ q.builderCheckpointSummary, ∃ height,
      entry.2.checkpointHeight = some height ∧ ∀ h ∈ (none : Option Nat), h ≤ height := by
    intro entry hentry
    obtain ⟨height, hheight⟩ := Option.isSome_iff_exists.mp (hheights entry hentry)
    exact ⟨height, hheight, by simp⟩
  obtain ⟨⟨rest', highest', tables₁⟩, hsummaries⟩ :=
    @commitSummaries_total q.highestExecutedCheckpoint _ none hpair hsome tables
  have hsuffix := (commitSummaries_spec hinv.sorted hsummaries).suffix
  have hinv₁ : OverlayInv { q with builderCheckpointSummary := rest' } :=
    ⟨hinv.versions, hinv.processed, hinv.debts, hinv.randomnessDebts,
      sortedBySeq_suffix hinv.sorted hsuffix⟩
  rw [commitWithBatch]
  cases highest' with
  | none => exact ⟨_, bind_eq_ok.mpr ⟨_, hsummaries, rfl⟩⟩
  | some height =>
    obtain ⟨n, hcount⟩ := @drainCount_total height _ hstats 0 0
    have hlength := (drainCount_spec hcount le_rfl).1
    rw [Nat.zero_add] at hlength
    obtain ⟨q₂, tables₂, hdrain, _⟩ := @drain_spec _ tables₁ hinv₁ n hlength
    exact ⟨_, bind_eq_ok.mpr ⟨_, hsummaries, bind_eq_ok.mpr ⟨n, hcount, hdrain⟩⟩⟩

/-! ### Inserting a summary -/

theorem mem_insertSummary {seq : Nat} {summary : BuilderCheckpointSummary}
    {entry : Nat × BuilderCheckpointSummary} (h : entry ∈ insertSummary seq summary summaries) :
    entry = (seq, summary) ∨ entry ∈ summaries := by
  induction summaries with
  | nil => exact .inl (mem_singleton.mp h)
  | cons first summaries ih =>
    obtain ⟨key, value⟩ := first
    rw [insertSummary] at h
    split_ifs at h with hlt heq
    · exact mem_cons.mp h
    · rcases mem_cons.mp h with h | h
      · exact .inl h
      · exact .inr (.tail _ h)
    · rcases mem_cons.mp h with h | h
      · exact .inr (h ▸ (.head _))
      · exact (ih h).imp_right (mem_cons_of_mem _)

theorem sortedBySeq_insertSummary (hsorted : SortedBySeq summaries) (seq : Nat)
    (summary : BuilderCheckpointSummary) : SortedBySeq (insertSummary seq summary summaries) := by
  induction summaries with
  | nil => exact pairwise_singleton _ _
  | cons first summaries ih =>
    obtain ⟨key, value⟩ := first
    obtain ⟨hfirst, hrest⟩ := pairwise_cons.mp hsorted
    rw [insertSummary]
    split_ifs with hlt heq
    · refine pairwise_cons.mpr ⟨?_, hsorted⟩
      intro key' hkey'
      rcases mem_cons.mp hkey' with rfl | hkey'
      · exact hlt
      · exact hlt.trans (hfirst key' hkey')
    · subst heq
      exact hsorted
    · refine pairwise_cons.mpr ⟨?_, ih hrest⟩
      intro key' hkey'
      obtain ⟨entry, hentry, rfl⟩ := mem_map.mp hkey'
      rcases mem_insertSummary hentry with rfl | hentry
      · exact lt_of_le_of_ne (not_lt.mp hlt) (Ne.symm heq)
      · exact hfirst _ (mem_map_of_mem hentry)

theorem lookup_insertSummary (hsorted : SortedBySeq summaries) (seq : Nat)
    (summary : BuilderCheckpointSummary) :
    (fun key => (insertSummary seq summary summaries).lookup key) =
      Function.update (fun key => summaries.lookup key) seq (some summary) := by
  funext key
  induction summaries with
  | nil =>
    rw [insertSummary, lookup_cons]
    by_cases hkey : key = seq <;> simp [hkey]
  | cons first summaries ih =>
    obtain ⟨k, value⟩ := first
    obtain ⟨_, hrest⟩ := pairwise_cons.mp hsorted
    have hih := ih hrest
    rw [insertSummary]
    split_ifs with hlt heq
    · by_cases hkey : key = seq <;> simp [lookup_cons, hkey]
    · subst heq
      by_cases hkey : key = seq <;> simp [lookup_cons, hkey]
    · by_cases hkey : key = seq
      · subst hkey
        rw [Function.update_self] at hih ⊢
        rw [lookup_cons, if_neg heq]
        exact hih
      · rw [Function.update_of_ne hkey] at hih ⊢
        rw [lookup_cons, lookup_cons, hih]

end ConsensusOutputQuarantine

end Haneul.Authority
