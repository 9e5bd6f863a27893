import Haneul.Authority.QuarantineInvariant

/-!
# Reads through the quarantine

Every sequence of calls of the quarantine, from the empty one over any database.  Its reads
are those of a database that each output reaches when it is pushed: `Contents.apply` says what
a call does to such a database, and draining is no part of it.

The locks are read so if no two outputs lock a reference for different transactions.  The
commit handler keeps to that; for outputs that do not, a read can return the older of two
holders.
-/

namespace Haneul.Authority

open Haneul.Map Haneul.Overlay RefCountedHashMap ConsensusOutputQuarantine List

/-! ### Calls -/

inductive QuarantineCall where
  | pushConsensusOutput (o : ConsensusCommitOutput)
  | insertBuilderSummary (seq : Nat) (summary : BuilderCheckpointSummary)
  | updateHighestExecutedCheckpoint (checkpoint : Nat)

abbrev QuarantineState := ConsensusOutputQuarantine × AuthorityEpochTables

namespace QuarantineCall

def run (s : QuarantineState) : QuarantineCall → Except QuarantineFault QuarantineState
  | .pushConsensusOutput o => s.1.pushConsensusOutput o s.2
  | .insertBuilderSummary seq summary => .ok (s.1.insertBuilderSummary seq summary, s.2)
  | .updateHighestExecutedCheckpoint checkpoint =>
    s.1.updateHighestExecutedCheckpoint checkpoint s.2

def output : QuarantineCall → Option ConsensusCommitOutput
  | .pushConsensusOutput o => some o
  | _ => none

def builderSummary : QuarantineCall → Option (Nat × BuilderCheckpointSummary)
  | .insertBuilderSummary seq summary => some (seq, summary)
  | _ => none

def executedCheckpoint : QuarantineCall → Option Nat
  | .updateHighestExecutedCheckpoint checkpoint => some checkpoint
  | _ => none

end QuarantineCall

/-- What a call does to a database without a quarantine. -/
def Contents.apply (c : Contents) : QuarantineCall → Contents
  | .pushConsensusOutput o => c.write o
  | .insertBuilderSummary seq summary =>
    { c with summaries := Function.update c.summaries seq (some summary) }
  | .updateHighestExecutedCheckpoint _ => c

variable (calls : List QuarantineCall)

def pushed : List ConsensusCommitOutput := calls.filterMap (·.output)

def built : List (Nat × BuilderCheckpointSummary) := calls.filterMap (·.builderSummary)

def runCalls (s : QuarantineState) :
    Except QuarantineFault QuarantineState :=
  calls.foldlM QuarantineCall.run s

/-- The output ends at a height that a checkpoint has which the calls built and which is
    executed: its number is at most the first watermark or one that the calls set. -/
def CheckpointExecuted (executed : Nat) (calls : List QuarantineCall) (o : ConsensusCommitOutput) :
    Prop :=
  ∃ watermark ∈ executed :: calls.filterMap (·.executedCheckpoint),
    EndsBelow (built calls) watermark o

/-! ### The invariant of a run -/

structure RunInv (executed : Nat) (start : AuthorityEpochTables) (calls : List QuarantineCall)
    (s : QuarantineState) : Prop where
  overlays : OverlayInv s.1
  contents_eq : contents s.1 s.2 = calls.foldl Contents.apply (contents (new executed) start)
  locks : Agree ((pushed calls).map (·.lockWrites)) → LocksInv s.1 s.2
  /-- The outputs left the queue in order and once. -/
  order : ∃ drained, drained ++ s.1.outputQueue = pushed calls ∧
    withoutSummaries s.2 =
      drained.foldl (fun tables o => o.writeToBatch tables) (withoutSummaries start) ∧
    ∀ o ∈ drained, CheckpointExecuted executed calls o
  summaries : ∀ entry ∈ s.1.builderCheckpointSummary, entry ∈ built calls
  watermark : s.1.highestExecutedCheckpoint ∈ executed :: calls.filterMap (·.executedCheckpoint)

section Steps

variable {executed : Nat} {start : AuthorityEpochTables} {calls : List QuarantineCall}
  {call : QuarantineCall} {s s' : QuarantineState}

theorem checkpointExecuted_append {o : ConsensusCommitOutput}
    (h : CheckpointExecuted executed calls o) (call : QuarantineCall) :
    CheckpointExecuted executed (calls ++ [call]) o := by
  obtain ⟨watermark, hwatermark, entry, hentry, hends⟩ := h
  refine ⟨watermark, ?_, entry, ?_, hends⟩
  · rw [filterMap_append, ← cons_append]
    exact mem_append_left _ hwatermark
  · rw [built, filterMap_append]
    exact mem_append_left _ hentry

theorem runInv_new (executed : Nat) (start : AuthorityEpochTables) :
    RunInv executed start [] (new executed, start) where
  overlays := ⟨counts_new, counts_new, counts_new, counts_new, List.Pairwise.nil⟩
  contents_eq := rfl
  locks := fun _ _ => .inl rfl
  order := ⟨[], rfl, rfl, by simp⟩
  summaries := nofun
  watermark := (.head _)

section

variable (h : RunInv executed start calls s)
include h

theorem RunInv.commitWithBatch
    (hcommit : s.1.commitWithBatch s.2 = .ok s') : RunInv executed start calls s' := by
  obtain ⟨⟨n, hqueue, htables, hends⟩, hcontents, hoverlays, hlocks, hexecuted, hsuffix⟩ :=
    commitWithBatch_spec h.overlays hcommit
  obtain ⟨drained, horder, hstart, hdrained⟩ := h.order
  refine ⟨hoverlays, hcontents.trans h.contents_eq, ?_, ?_, ?_, ?_⟩
  · intro hagree
    refine hlocks (hagree.subset ?_) (h.locks hagree)
    rw [← horder, map_append]
    exact subset_append_right _ _
  · refine ⟨drained ++ s.1.outputQueue.take n, ?_, ?_, ?_⟩
    · rw [hqueue, append_assoc, take_append_drop, horder]
    · rw [htables, hstart, foldl_append]
    · intro o ho
      rcases mem_append.mp ho with ho | ho
      · exact hdrained o ho
      · obtain ⟨entry, hentry, hends⟩ := hends o ho
        exact ⟨_, h.watermark, entry, h.summaries entry hentry, hends⟩
  · intro entry hentry
    exact h.summaries entry (hsuffix.subset hentry)
  · rw [hexecuted]
    exact h.watermark

theorem RunInv.enter (o : ConsensusCommitOutput) :
    RunInv executed start (calls ++ [.pushConsensusOutput o]) (s.1.enter o, s.2) := by
  have hpushed : pushed (calls ++ [.pushConsensusOutput o]) = pushed calls ++ [o] :=
    filterMap_append
  have hbuilt : built (calls ++ [.pushConsensusOutput o]) = built calls := by
    simp [built, QuarantineCall.builderSummary]
  obtain ⟨drained, horder, hstart, hdrained⟩ := h.order
  refine ⟨overlayInv_enter h.overlays o, ?_, ?_, ⟨drained, ?_, hstart, ?_⟩, ?_, ?_⟩
  · rw [contents_enter, h.contents_eq, foldl_append]
    rfl
  · intro hagree
    apply locksInv_enter
    rw [hpushed, map_append] at hagree
    exact h.locks (hagree.subset (subset_append_left _ _))
  · rw [hpushed, ← horder, append_assoc]
    rfl
  · exact fun o' ho' => checkpointExecuted_append (hdrained o' ho') _
  · rw [hbuilt]
    exact h.summaries
  · rw [filterMap_append, ← cons_append]
    exact mem_append_left _ h.watermark

theorem RunInv.insertBuilderSummary (seq : Nat) (summary : BuilderCheckpointSummary) :
    RunInv executed start (calls ++ [.insertBuilderSummary seq summary])
      (s.1.insertBuilderSummary seq summary, s.2) := by
  have hpushed : pushed (calls ++ [.insertBuilderSummary seq summary]) = pushed calls := by
    simp [pushed, QuarantineCall.output]
  have hbuilt : built (calls ++ [.insertBuilderSummary seq summary]) =
      built calls ++ [(seq, summary)] := filterMap_append
  obtain ⟨drained, horder, hstart, hdrained⟩ := h.order
  obtain ⟨hversions, hprocessed, hdebts, hrandomness, hsorted⟩ := h.overlays
  refine ⟨⟨hversions, hprocessed, hdebts, hrandomness, sortedBySeq_insertSummary hsorted seq summary⟩,
    ?_, ?_, ⟨drained, ?_, hstart, ?_⟩, ?_, ?_⟩
  · rw [foldl_append, ← h.contents_eq]
    have hread : (fun key => ((insertSummary seq summary s.1.builderCheckpointSummary).lookup key).or
        (s.2.builderCheckpointSummary key)) =
        Function.update (contents s.1 s.2).summaries seq (some summary) := by
      funext key
      rw [congrFun (lookup_insertSummary hsorted seq summary) key]
      by_cases hkey : key = seq <;> simp [hkey, contents]
    exact congrArg (fun summaries => { contents s.1 s.2 with summaries := summaries }) hread
  · rw [hpushed]
    exact h.locks
  · rw [hpushed]
    exact horder
  · exact fun o' ho' => checkpointExecuted_append (hdrained o' ho') _
  · intro entry hentry
    rw [hbuilt]
    rcases mem_insertSummary hentry with rfl | hentry
    · exact mem_concat_self
    · exact mem_append_left _ (h.summaries entry hentry)
  · rw [filterMap_append, ← cons_append]
    exact mem_append_left _ h.watermark

theorem RunInv.setWatermark (checkpoint : Nat) :
    RunInv executed start (calls ++ [.updateHighestExecutedCheckpoint checkpoint])
      ({ s.1 with highestExecutedCheckpoint := checkpoint }, s.2) := by
  have hpushed : pushed (calls ++ [.updateHighestExecutedCheckpoint checkpoint]) = pushed calls := by
    simp [pushed, QuarantineCall.output]
  have hbuilt : built (calls ++ [.updateHighestExecutedCheckpoint checkpoint]) = built calls := by
    simp [built, QuarantineCall.builderSummary]
  obtain ⟨drained, horder, hstart, hdrained⟩ := h.order
  obtain ⟨hversions, hprocessed, hdebts, hrandomness, hsorted⟩ := h.overlays
  refine ⟨⟨hversions, hprocessed, hdebts, hrandomness, hsorted⟩, ?_, ?_, ⟨drained, ?_, hstart, ?_⟩,
    ?_, ?_⟩
  · rw [foldl_append]
    exact h.contents_eq
  · rw [hpushed]
    exact h.locks
  · rw [hpushed]
    exact horder
  · exact fun o' ho' => checkpointExecuted_append (hdrained o' ho') _
  · rw [hbuilt]
    exact h.summaries
  · rw [filterMap_append]
    exact .tail _ mem_concat_self

theorem RunInv.run (hrun : call.run s = .ok s') :
    RunInv executed start (calls ++ [call]) s' := by
  cases call with
  | pushConsensusOutput o => exact (h.enter o).commitWithBatch hrun
  | insertBuilderSummary seq summary =>
    cases hrun
    exact h.insertBuilderSummary seq summary
  | updateHighestExecutedCheckpoint checkpoint =>
    exact (h.setWatermark checkpoint).commitWithBatch hrun

end

theorem runCalls_append_singleton :
    runCalls (calls ++ [call]) s = .ok s' ↔
      ∃ s₁, runCalls calls s = .ok s₁ ∧ call.run s₁ = .ok s' := by
  rw [runCalls, foldlM_append, bind_eq_ok]
  simp [runCalls]

theorem runInv_of_runCalls (h : runCalls calls (new executed, start) = .ok s) :
    RunInv executed start calls s := by
  induction calls using List.reverseRecOn generalizing s with
  | nil =>
    cases h
    exact runInv_new executed start
  | append_singleton calls call ih =>
    obtain ⟨s₁, hcalls, hcall⟩ := runCalls_append_singleton.mp h
    exact (ih hcalls).run hcall

/-- What the callers see to: the statistics of a commit and the height of a built checkpoint
    are set, and later checkpoints do not have lower heights. -/
structure HeightsSet (calls : List QuarantineCall) : Prop where
  stats : ∀ o ∈ pushed calls, o.statsHeight.isSome = true
  heights : ∀ entry ∈ built calls, entry.2.checkpointHeight.isSome = true
  ordered : ∀ entry ∈ built calls, ∀ entry' ∈ built calls, entry.1 < entry'.1 →
    HeightsOrdered entry entry'

theorem HeightsSet.of_append (h : HeightsSet (calls ++ [call])) : HeightsSet calls := by
  have hpushed : pushed calls ⊆ pushed (calls ++ [call]) := by
    rw [pushed, pushed, filterMap_append]
    exact subset_append_left _ _
  have hbuilt : built calls ⊆ built (calls ++ [call]) := by
    rw [built, built, filterMap_append]
    exact subset_append_left _ _
  exact ⟨fun o ho => h.stats o (hpushed ho), fun entry hentry => h.heights entry (hbuilt hentry),
    fun entry hentry entry' hentry' => h.ordered entry (hbuilt hentry) entry' (hbuilt hentry')⟩

theorem RunInv.commitWithBatch_total (h : RunInv executed start calls s)
    (hheights : HeightsSet calls) : ∃ s', s.1.commitWithBatch s.2 = .ok s' := by
  obtain ⟨drained, horder, _⟩ := h.order
  refine ConsensusOutputQuarantine.commitWithBatch_total h.overlays ?_ ?_ ?_ s.2
  · intro o ho
    exact hheights.stats o (horder ▸ mem_append_right drained ho)
  · intro entry hentry
    exact hheights.heights entry (h.summaries entry hentry)
  · refine (pairwise_map.mp h.overlays.sorted).imp_of_mem ?_
    intro entry entry' hentry hentry' hlt
    exact hheights.ordered entry (h.summaries entry hentry) entry' (h.summaries entry' hentry') hlt

theorem runCalls_total (executed : Nat) (start : AuthorityEpochTables)
    (hheights : HeightsSet calls) : ∃ s, runCalls calls (new executed, start) = .ok s := by
  induction calls using List.reverseRecOn with
  | nil => exact ⟨_, rfl⟩
  | append_singleton calls call ih =>
    obtain ⟨s, hcalls⟩ := ih hheights.of_append
    have hinv := runInv_of_runCalls hcalls
    have hcall : ∃ s', call.run s = .ok s' := by
      cases call with
      | pushConsensusOutput o => exact (hinv.enter o).commitWithBatch_total hheights
      | insertBuilderSummary seq summary => exact ⟨_, rfl⟩
      | updateHighestExecutedCheckpoint checkpoint =>
        exact (hinv.setWatermark checkpoint).commitWithBatch_total hheights
    obtain ⟨s', hcall⟩ := hcall
    exact ⟨s', runCalls_append_singleton.mpr ⟨s, hcalls, hcall⟩⟩

end Steps

/-! ### Reads -/

theorem doFallbackLookup_eq {κ υ : Type} (keys : List κ) (cached : κ → Option υ) (fetch : κ → υ) :
    doFallbackLookup keys cached (fun keys => keys.map fetch) =
      keys.map fun key => (cached key).getD (fetch key) := by
  rw [doFallbackLookup]
  induction keys with
  | nil => rfl
  | cons key keys ih =>
    cases hcached : cached key with
    | none =>
      rw [filter_cons_of_pos (by simp [hcached]), map_cons, map_cons]
      simp only [fillFallback, hcached, ih, Option.getD_none]
    | some value =>
      rw [filter_cons_of_neg (by simp [hcached]), map_cons]
      simp only [fillFallback, hcached, ih, Option.getD_some]

/-- The reads, other than that of the locks, return what the contents have. -/
structure ServesReads (s : QuarantineState) (c : Contents) : Prop where
  versions : ∀ keys, s.1.getNextSharedObjectVersions s.2 keys = keys.map c.versions
  processed : ∀ keys, s.1.checkConsensusMessagesProcessed s.2 keys =
    keys.map fun key => (c.processed key).isSome
  debts : ∀ ids, s.1.getObjectDebts s.2 false ids = ids.map c.debts
  randomnessDebts : ∀ ids, s.1.getObjectDebts s.2 true ids = ids.map c.randomnessDebts
  summaries : ∀ seq, s.1.getBuiltSummary s.2 seq = c.summaries seq

theorem getD_map_some {υ : Type} (found fallback : Option υ) :
    (found.map some).getD fallback = found.or fallback := by
  cases found <;> rfl

theorem servesReads_of_overlayInv {s : QuarantineState} (h : OverlayInv s.1) :
    ServesReads s (contents s.1 s.2) where
  versions := by
    intro keys
    rw [getNextSharedObjectVersions, doFallbackLookup_eq]
    refine map_congr_left fun key _ => ?_
    rw [getD_map_some, h.versions.get]
    rfl
  processed := by
    intro keys
    rw [checkConsensusMessagesProcessed, doFallbackLookup_eq]
    refine map_congr_left fun key _ => ?_
    rw [h.processed.containsKey]
    simp only [contents, view, Option.isSome_or]
    cases (newest (s.1.outputQueue.map (·.processedWrites)) key).isSome <;> rfl
  debts := by
    intro ids
    show doFallbackLookup ids _ _ = _
    rw [doFallbackLookup_eq]
    refine map_congr_left fun id _ => ?_
    rw [getD_map_some, h.debts.get]
    rfl
  randomnessDebts := by
    intro ids
    show doFallbackLookup ids _ _ = _
    rw [doFallbackLookup_eq]
    refine map_congr_left fun id _ => ?_
    rw [getD_map_some, h.randomnessDebts.get]
    rfl
  summaries := fun _ => rfl

theorem getOwnedObjectLocks_eq {s : QuarantineState} (h : LocksInv s.1 s.2)
    (refs : List ObjectRef) :
    s.1.getOwnedObjectLocks s.2 refs = refs.map (contents s.1 s.2).locks := by
  rw [getOwnedObjectLocks, doFallbackLookup_eq]
  refine map_congr_left fun ref _ => ?_
  rw [getD_map_some]
  exact h.read ref

namespace RefCountedHashMap

def refCount {κ υ : Type} (m : RefCountedHashMap κ υ) (key : κ) : Nat :=
  ((m.map key).map Prod.fst).getD 0

theorem Counts.refCount {κ υ : Type} {m : RefCountedHashMap κ υ} {queue : List (κ → Option υ)}
    (h : Counts m queue) (key : κ) : m.refCount key = count queue key := by
  rw [RefCountedHashMap.refCount, h key]
  cases hnewest : newest queue key with
  | none => exact (count_eq_zero_of_newest hnewest).symm
  | some value => rfl

end RefCountedHashMap

/-- The reference counts are the numbers of the outputs in the queue that wrote the keys. -/
structure CountsQueue (q : ConsensusOutputQuarantine) : Prop where
  versions : ∀ key, q.sharedObjectNextVersions.refCount key =
    q.outputQueue.countP fun o => (o.versionWrites key).isSome
  processed : ∀ key, q.processedConsensusMessages.refCount key =
    q.outputQueue.countP fun o => (o.processedWrites key).isSome
  debts : ∀ id, q.congestionControlObjectDebts.refCount id =
    q.outputQueue.countP fun o => (o.debtWrites id).isSome
  randomnessDebts : ∀ id, q.congestionControlRandomnessObjectDebts.refCount id =
    q.outputQueue.countP fun o => (o.randomnessDebtWrites id).isSome

theorem countsQueue_of_overlayInv {q : ConsensusOutputQuarantine} (h : OverlayInv q) :
    CountsQueue q where
  versions := fun key => (h.versions.refCount key).trans countP_map
  processed := fun key => (h.processed.refCount key).trans countP_map
  debts := fun id => (h.debts.refCount id).trans countP_map
  randomnessDebts := fun id => (h.randomnessDebts.refCount id).trans countP_map

/-! ### Transparency -/

/-- **The quarantine is transparent.**  After any calls the reads are those of a database that
    the calls reached at once, draining the queue changes none of them, and the locks are read
    so for outputs that agree on their holders.  The outputs reach the database in the order in
    which they were pushed, each once and after a checkpoint at their height is executed.  The
    reference counts are those of the queue, and calls with their heights set do not fail. -/
theorem quarantine_reads_transparent (executed : Nat) (start : AuthorityEpochTables)
    (calls : List QuarantineCall) :
    (∀ s, runCalls calls (new executed, start) = .ok s →
      contents s.1 s.2 = calls.foldl Contents.apply (contents (new executed) start) ∧
      ServesReads s (contents s.1 s.2) ∧
      (∀ s', s.1.commitWithBatch s.2 = .ok s' →
        contents s'.1 s'.2 = contents s.1 s.2 ∧ ServesReads s' (contents s.1 s.2)) ∧
      (Agree ((pushed calls).map (·.lockWrites)) →
        (∀ refs, s.1.getOwnedObjectLocks s.2 refs = refs.map (contents s.1 s.2).locks) ∧
        ∀ s', s.1.commitWithBatch s.2 = .ok s' → ∀ refs,
          s'.1.getOwnedObjectLocks s'.2 refs = s.1.getOwnedObjectLocks s.2 refs) ∧
      (∃ drained, drained ++ s.1.outputQueue = pushed calls ∧
        withoutSummaries s.2 =
          drained.foldl (fun tables o => o.writeToBatch tables) (withoutSummaries start) ∧
        ∀ o ∈ drained, CheckpointExecuted executed calls o) ∧
      CountsQueue s.1) ∧
    (HeightsSet calls → ∃ s, runCalls calls (new executed, start) = .ok s) := by
  refine ⟨?_, runCalls_total executed start⟩
  intro s hrun
  have hinv := runInv_of_runCalls hrun
  refine ⟨hinv.contents_eq, servesReads_of_overlayInv hinv.overlays, ?_, ?_, hinv.order,
    countsQueue_of_overlayInv hinv.overlays⟩
  · intro s' hcommit
    have hinv' := hinv.commitWithBatch hcommit
    have hsame : contents s'.1 s'.2 = contents s.1 s.2 :=
      hinv'.contents_eq.trans hinv.contents_eq.symm
    exact ⟨hsame, hsame ▸ servesReads_of_overlayInv hinv'.overlays⟩
  · intro hagree
    refine ⟨getOwnedObjectLocks_eq (hinv.locks hagree), ?_⟩
    intro s' hcommit refs
    have hinv' := hinv.commitWithBatch hcommit
    rw [getOwnedObjectLocks_eq (hinv'.locks hagree), getOwnedObjectLocks_eq (hinv.locks hagree),
      hinv'.contents_eq, hinv.contents_eq]

/-! A reference that two outputs lock, of which the first is drained. -/

def emptyTables : AuthorityEpochTables where
  consensusMessageProcessed := fun _ => none
  nextSharedObjectVersions := fun _ => none
  ownedObjectLockedTransactions := fun _ => none
  deferredTransactions := fun _ => none
  congestionControlObjectDebts := fun _ => none
  congestionControlRandomnessObjectDebts := fun _ => none
  builderCheckpointSummary := fun _ => none
  written := []

def lockedRef : ObjectRef := (1, 1, 0)

/-- The output of a commit that locks the reference for a transaction. -/
def lockingOutput (height : Nat) (holder : TransactionDigest) : ConsensusCommitOutput where
  consensusRound := height
  consensusMessagesProcessed := ⟨[(holder, ())], List.nodup_singleton _⟩
  statsHeight := some height
  nextSharedObjectVersions := .empty
  deferredTxns := []
  deletedDeferredTxns := []
  congestionControlObjectDebts := .empty
  congestionControlRandomnessObjectDebts := .empty
  ownedObjectLocks := ⟨[(lockedRef, holder)], List.nodup_singleton _⟩
  checkpointQueueDrained := true

def lockTwice (first second : TransactionDigest) : List QuarantineCall :=
  [.pushConsensusOutput (lockingOutput 1 first), .pushConsensusOutput (lockingOutput 2 second),
    .insertBuilderSummary 1 ⟨0, some 1⟩, .updateHighestExecutedCheckpoint 1]

theorem agree_lockTwice (holder : TransactionDigest) :
    Agree ((pushed (lockTwice holder holder)).map (·.lockWrites)) := by
  have hall : ∀ w ∈ (pushed (lockTwice holder holder)).map (·.lockWrites),
      w = collect [(lockedRef, holder)] := by
    intro w hw
    rcases mem_cons.mp hw with rfl | hw
    · rfl
    · exact mem_singleton.mp hw
  intro w hw w' hw' ref v v' hv hv'
  rw [hall w hw] at hv
  rw [hall w' hw', hv] at hv'
  exact Option.some.inj hv'

theorem quarantine_reads_transparent_relocked :
    ∃ s, runCalls (lockTwice 7 7) (new 0, emptyTables) = .ok s ∧ s.1.outputQueue.length = 1 ∧
      s.1.getOwnedObjectLocks s.2 [lockedRef] = [(contents s.1 s.2).locks lockedRef] := by
  obtain ⟨s, hrun, hlength⟩ := ok_of_any (x := runCalls (lockTwice 7 7) (new 0, emptyTables))
    (p := fun s => decide (s.1.outputQueue.length = 1)) (by decide +kernel)
  have hreads := (quarantine_reads_transparent 0 emptyTables (lockTwice 7 7)).1 s hrun
  exact ⟨s, hrun, of_decide_eq_true hlength, (hreads.2.2.2.1 (agree_lockTwice 7)).1 [lockedRef]⟩

/-- Outputs that lock a reference for different transactions: once the first has left the
    queue, its holder is read and not that of the second, which is still queued. -/
theorem locks_read_stale :
    ∃ s, runCalls (lockTwice 7 8) (new 0, emptyTables) = .ok s ∧
      s.1.getOwnedObjectLocks s.2 [lockedRef] = [some 7] ∧
      newest (s.1.outputQueue.map (·.lockWrites)) lockedRef = some 8 := by
  obtain ⟨s, hrun, hreads⟩ := ok_of_any (x := runCalls (lockTwice 7 8) (new 0, emptyTables))
    (p := fun s => decide (s.1.getOwnedObjectLocks s.2 [lockedRef] = [some 7] ∧
      newest (s.1.outputQueue.map (·.lockWrites)) lockedRef = some 8)) (by decide +kernel)
  exact ⟨s, hrun, of_decide_eq_true hreads⟩

end Haneul.Authority
