import Haneul.Authority.ConsensusFilter
import Haneul.Authority.QuarantineRuns

/-!
# Owned object locks over an epoch

A reference that was locked stays locked for the same transaction until the epoch ends.  In a
commit this follows from the two checks of `try_acquire_owned_object_locks_post_consensus`;
from commit to commit it follows from the reads of the quarantine, whatever of it has been
drained by then.  It is also what the reads themselves rest on, since the overlay of the locks
has no reference counts.
-/

namespace Haneul.Authority

open Haneul.Map Haneul.Overlay ConsensusOutputQuarantine List

/-! ### One commit -/

section Filter

variable {ctx : FilterContext} {existingLocks : ObjectRef → Option TransactionDigest}
  {st : FilterState} {item : Sequenced} {blocks : ParsedConsensusTransactions}
  {tx : PlainTransactionWithClaims} {verdict : Verdict}

def Verdict.Locked (verdict : Verdict) : Prop := ∃ newLocks, verdict = .locked newLocks

def Verdict.Conflicts (verdict : Verdict) : Prop :=
  ∃ refs conflict, verdict = .lockConflict refs conflict

variable {currentCommitLocks : ObjectRef → Option TransactionDigest} {digest : TransactionDigest}

theorem conflictOn_eq_none {ref : ObjectRef}
    (h : conflictOn digest currentCommitLocks existingLocks ref = none) :
    (∀ holder, currentCommitLocks ref = some holder → holder = digest) ∧
      ∀ holder, existingLocks ref = some holder → holder = digest := by
  rw [conflictOn, Option.map_eq_none_iff, Option.or_eq_none_iff, Option.filter_eq_none_iff,
    Option.filter_eq_none_iff] at h
  simpa using h

theorem conflictOn_eq_some {ref : ObjectRef} {conflict : ObjectLockConflict}
    (h : conflictOn digest currentCommitLocks existingLocks ref = some conflict) :
    ∃ holder, holder ≠ digest ∧
      (currentCommitLocks ref = some holder ∨ existingLocks ref = some holder) := by
  rw [conflictOn, Option.map_eq_some_iff] at h
  obtain ⟨holder, hholder, _⟩ := h
  rw [Option.or_eq_some_iff, Option.filter_eq_some_iff, Option.filter_eq_some_iff] at hholder
  rcases hholder with ⟨hcurrent, hne⟩ | ⟨_, hexisting, hne⟩
  · exact ⟨holder, by simpa using hne, .inl hcurrent⟩
  · exact ⟨holder, by simpa using hne, .inr hexisting⟩

/-- The locks let the transaction through, or one of them is held by another transaction. -/
inductive LockCase (existingLocks : ObjectRef → Option TransactionDigest) (st : FilterState)
    (tx : PlainTransactionWithClaims) : Verdict → Prop
  | invalid (hrefs : ownedObjectRefsToLock tx = none) : LockCase existingLocks st tx .invalidInput
  | locked {refs : List ObjectRef} (hrefs : ownedObjectRefsToLock tx = some refs)
      (hfree : ∀ ref ∈ refs,
        (∀ holder, st.ownedObjectLocks.get ref = some holder → holder = tx.digest) ∧
        ∀ holder, existingLocks ref = some holder → holder = tx.digest) :
      LockCase existingLocks st tx (.locked (refs.map fun ref => (ref, tx.digest)))
  | conflict {refs : List ObjectRef} {conflict : ObjectLockConflict}
      (hrefs : ownedObjectRefsToLock tx = some refs) {ref : ObjectRef} (hmem : ref ∈ refs)
      {holder : TransactionDigest} (hne : holder ≠ tx.digest)
      (hheld : st.ownedObjectLocks.get ref = some holder ∨ existingLocks ref = some holder) :
      LockCase existingLocks st tx (.lockConflict refs conflict)

theorem judgeLocks_cases (existingLocks : ObjectRef → Option TransactionDigest) (st : FilterState)
    (tx : PlainTransactionWithClaims) :
    LockCase existingLocks st tx (judgeLocks existingLocks st tx) := by
  rw [judgeLocks]
  cases hrefs : ownedObjectRefsToLock tx with
  | none => exact .invalid hrefs
  | some refs =>
    dsimp only
    rw [tryAcquireOwnedObjectLocksPostConsensus]
    cases hfind : refs.findSome? (conflictOn tx.digest st.ownedObjectLocks.get existingLocks) with
    | none =>
      rw [List.findSome?_eq_none_iff] at hfind
      exact .locked hrefs fun ref href => conflictOn_eq_none (hfind ref href)
    | some conflict =>
      obtain ⟨ref, hmem, hconflict⟩ := exists_of_findSome?_eq_some hfind
      obtain ⟨holder, hne, hheld⟩ := conflictOn_eq_some hconflict
      exact .conflict hrefs hmem hne hheld

theorem judge_cases (ctx : FilterContext) (existingLocks : ObjectRef → Option TransactionDigest)
    (st : FilterState) (item : Sequenced) :
    (∃ tx, item.parsed.kind = .userTransactionV2 tx ∧ checkBeforeLocks ctx item = none ∧
      LockCase existingLocks st tx (judge ctx existingLocks st item)) ∨
    ((∀ tx, item.parsed.kind = .userTransactionV2 tx → ∃ verdict,
        checkBeforeLocks ctx item = some verdict) ∧
      ¬ (judge ctx existingLocks st item).Locked ∧ ¬ (judge ctx existingLocks st item).Conflicts) := by
  cases hcheck : checkBeforeLocks ctx item with
  | some verdict =>
    right
    refine ⟨fun tx _ => ⟨verdict, rfl⟩, ?_⟩
    rw [judge, hcheck]
    rw [checkBeforeLocks] at hcheck
    split_ifs at hcheck <;> cases hcheck <;> simp [Verdict.Locked, Verdict.Conflicts]
  | none =>
    rw [judge, hcheck]
    dsimp only
    cases hkind : item.parsed.kind with
    | userTransactionV2 tx => exact .inl ⟨tx, rfl, rfl, judgeLocks_cases existingLocks st tx⟩
    | _ => exact .inr ⟨by simp, by simp [Verdict.Locked], by simp [Verdict.Conflicts]⟩

structure FilterInv (ctx : FilterContext) (existingLocks : ObjectRef → Option TransactionDigest)
    (blocks : ParsedConsensusTransactions) (st : FilterState) : Prop where
  /-- The locks of the commit are those of its transactions that got their locks. -/
  taken : ∀ ref digest, st.ownedObjectLocks.get ref = some digest → ∃ entry ∈ st.verdicts,
    entry.2.Locked ∧ ∃ tx refs, entry.1.parsed.kind = .userTransactionV2 tx ∧
      ownedObjectRefsToLock tx = some refs ∧ tx.digest = digest ∧ ref ∈ refs
  compatible : ∀ ref digest holder, st.ownedObjectLocks.get ref = some digest →
    existingLocks ref = some holder → holder = digest
  locked : ∀ entry ∈ st.verdicts, entry.2.Locked → ∀ tx,
    entry.1.parsed.kind = .userTransactionV2 tx → ∃ refs, ownedObjectRefsToLock tx = some refs ∧
      ∀ ref ∈ refs, st.ownedObjectLocks.get ref = some tx.digest
  conflict : ∀ entry ∈ st.verdicts, entry.2.Conflicts → ∃ tx refs,
    entry.1.parsed.kind = .userTransactionV2 tx ∧ ownedObjectRefsToLock tx = some refs ∧
      ∃ ref ∈ refs, ∃ holder, holder ≠ tx.digest ∧
        (st.ownedObjectLocks.get ref = some holder ∨ existingLocks ref = some holder)
  /-- A user transaction that is not dropped has its locks. -/
  survivors : ∀ tx author, (ConsensusTransactionKind.userTransactionV2 tx, author) ∈ st.transactions →
    ∃ entry ∈ st.verdicts, entry.2.Locked ∧ entry.1.parsed.kind = .userTransactionV2 tx
  /-- A copy that gets past the first checks is judged by its locks. -/
  judged : ∀ entry ∈ st.verdicts, ∀ tx, entry.1.parsed.kind = .userTransactionV2 tx →
    checkBeforeLocks ctx entry.1 = none →
      entry.2.Locked ∨ entry.2.Conflicts ∨ ownedObjectRefsToLock tx = none ∧ entry.2 = .invalidInput
  listed : ∀ entry ∈ st.verdicts, ∃ block ∈ blocks, entry.1.parsed ∈ block.2

theorem filterInv_new (ctx : FilterContext)
    (existingLocks : ObjectRef → Option TransactionDigest) (blocks : ParsedConsensusTransactions) :
    FilterInv ctx existingLocks blocks .new where
  taken := fun _ _ h => absurd h (by simp [FilterState.new, Entries.get, Entries.empty, collect])
  compatible := fun _ _ _ h => absurd h (by simp [FilterState.new, Entries.get, Entries.empty, collect])
  locked := by simp [FilterState.new]
  conflict := by simp [FilterState.new]
  survivors := by simp [FilterState.new]
  judged := by simp [FilterState.new]
  listed := by simp [FilterState.new]

theorem record_locks_of_not_locked (h : ¬ verdict.Locked) :
    (record st item verdict).ownedObjectLocks = st.ownedObjectLocks := by
  rw [record]
  dsimp only
  cases hkind : item.parsed.kind with
  | userTransactionV2 tx =>
    cases verdict with
    | locked newLocks => exact absurd ⟨newLocks, rfl⟩ h
    | _ => rfl
  | _ => cases verdict <;> rfl

theorem record_locks_of_locked {newLocks : List (ObjectRef × TransactionDigest)}
    (hkind : item.parsed.kind = .userTransactionV2 tx) :
    (record st item (.locked newLocks)).ownedObjectLocks = st.ownedObjectLocks.extend newLocks := by
  rw [record]
  dsimp only
  rw [hkind]
  rfl

theorem mem_record_transactions {author : Nat}
    (h : (ConsensusTransactionKind.userTransactionV2 tx, author) ∈ (record st item verdict).transactions) :
    (ConsensusTransactionKind.userTransactionV2 tx, author) ∈ st.transactions ∨
      verdict.Locked ∧ item.parsed.kind = .userTransactionV2 tx := by
  rw [record] at h
  dsimp only at h
  cases hkind : item.parsed.kind with
  | userTransactionV2 tx' =>
    rw [hkind] at h
    cases verdict with
    | locked newLocks =>
      rcases mem_append.mp h with h | h
      · exact .inl h
      · rw [mem_singleton, hkind, Prod.mk.injEq] at h
        exact .inr ⟨⟨newLocks, rfl⟩, h.1.symm⟩
    | _ => exact .inl h
  | _ =>
    rw [hkind] at h
    cases verdict with
    | passed =>
      rcases mem_append.mp h with h | h
      · exact .inl h
      · simp at h
    | _ => exact .inl h

section

variable (h : FilterInv ctx existingLocks blocks st)
  (hlisted : ∃ block ∈ blocks, item.parsed ∈ block.2)
  (hconflict : verdict.Conflicts → ∃ tx refs,
    item.parsed.kind = .userTransactionV2 tx ∧ ownedObjectRefsToLock tx = some refs ∧
      ∃ ref ∈ refs, ∃ holder, holder ≠ tx.digest ∧
        (st.ownedObjectLocks.get ref = some holder ∨ existingLocks ref = some holder))
include h hlisted hconflict

theorem FilterInv.record
    (hkept : ∀ ref digest, st.ownedObjectLocks.get ref = some digest →
      (record st item verdict).ownedObjectLocks.get ref = some digest)
    (htaken : ∀ ref digest, (record st item verdict).ownedObjectLocks.get ref = some digest →
      st.ownedObjectLocks.get ref = some digest ∨ verdict.Locked ∧ ∃ tx refs,
        item.parsed.kind = .userTransactionV2 tx ∧ ownedObjectRefsToLock tx = some refs ∧
          tx.digest = digest ∧ ref ∈ refs ∧ ∀ holder, existingLocks ref = some holder → holder = digest)
    (hlocked : verdict.Locked → ∀ tx, item.parsed.kind = .userTransactionV2 tx →
      ∃ refs, ownedObjectRefsToLock tx = some refs ∧
        ∀ ref ∈ refs, (record st item verdict).ownedObjectLocks.get ref = some tx.digest)
    (hjudged : ∀ tx, item.parsed.kind = .userTransactionV2 tx → checkBeforeLocks ctx item = none →
      verdict.Locked ∨ verdict.Conflicts ∨ ownedObjectRefsToLock tx = none ∧ verdict = .invalidInput) :
    FilterInv ctx existingLocks blocks (record st item verdict) := by
  have hverdicts : (Authority.record st item verdict).verdicts = st.verdicts ++ [(item, verdict)] := by
    show FilterState.verdicts _ ++ [_] = _
    cases item.parsed.kind <;> cases verdict <;> rfl
  constructor <;> try rw [hverdicts]
  · intro ref digest hget
    rcases htaken ref digest hget with hold | ⟨hnew, tx, refs, hkind, hrefs, hdigest, hmem, _⟩
    · obtain ⟨entry, hentry, hfacts⟩ := h.taken ref digest hold
      exact ⟨entry, mem_append_left _ hentry, hfacts⟩
    · exact ⟨_, mem_concat_self, hnew, tx, refs, hkind, hrefs, hdigest, hmem⟩
  · intro ref digest holder hget hexisting
    rcases htaken ref digest hget with hold | ⟨_, _, _, _, _, _, _, hfree⟩
    · exact h.compatible ref digest holder hold hexisting
    · exact hfree holder hexisting
  · refine forall_mem_append.mpr ⟨fun entry hentry hverdict tx hkind => ?_,
      forall_mem_singleton.mpr hlocked⟩
    obtain ⟨refs, hrefs, hheld⟩ := h.locked entry hentry hverdict tx hkind
    exact ⟨refs, hrefs, fun ref href => hkept ref _ (hheld ref href)⟩
  · intro entry hentry hverdict
    obtain ⟨tx, refs, hkind, hrefs, ref, href, holder, hne, hheld⟩ := forall_mem_append.mpr
      ⟨h.conflict, forall_mem_singleton.mpr hconflict⟩ entry hentry hverdict
    exact ⟨tx, refs, hkind, hrefs, ref, href, holder, hne, hheld.imp_left (hkept ref holder)⟩
  · intro tx author hmem
    rcases mem_record_transactions hmem with hmem | ⟨hverdict, hkind⟩
    · obtain ⟨entry, hentry, hfacts⟩ := h.survivors tx author hmem
      exact ⟨entry, mem_append_left _ hentry, hfacts⟩
    · exact ⟨_, mem_concat_self, hverdict, hkind⟩
  · exact forall_mem_append.mpr ⟨h.judged, forall_mem_singleton.mpr hjudged⟩
  · exact forall_mem_append.mpr ⟨h.listed, forall_mem_singleton.mpr hlisted⟩

theorem FilterInv.record_of_not_locked (hnot : ¬ verdict.Locked)
    (hjudged : ∀ tx, item.parsed.kind = .userTransactionV2 tx → checkBeforeLocks ctx item = none →
      verdict.Conflicts ∨ ownedObjectRefsToLock tx = none ∧ verdict = .invalidInput) :
    FilterInv ctx existingLocks blocks (Authority.record st item verdict) := by
  have hsame := @record_locks_of_not_locked st item verdict hnot
  refine h.record hlisted hconflict ?_ ?_ (fun hlocked => absurd hlocked hnot)
    (fun tx hkind hcheck => .inr (hjudged tx hkind hcheck))
  · rw [hsame]
    exact fun _ _ hget => hget
  · rw [hsame]
    exact fun _ _ hget => .inl hget

end

theorem FilterInv.filterTransaction (h : FilterInv ctx existingLocks blocks st)
    (hlisted : ∃ block ∈ blocks, item.parsed ∈ block.2) :
    FilterInv ctx existingLocks blocks (filterTransaction ctx existingLocks st item) := by
  rw [Authority.filterTransaction]
  rcases judge_cases ctx existingLocks st item with ⟨tx, hkind, hcheck, hcase⟩ | ⟨hchecked, hnot, hnoConflict⟩
  · generalize judge ctx existingLocks st item = verdict at hcase ⊢
    cases hcase with
    | invalid hrefs =>
      refine h.record_of_not_locked hlisted (by simp [Verdict.Conflicts]) (by simp [Verdict.Locked]) ?_
      intro tx' hkind' _
      rw [hkind, ConsensusTransactionKind.userTransactionV2.injEq] at hkind'
      exact .inr ⟨hkind' ▸ hrefs, rfl⟩
    | @conflict refs c hrefs ref hmem holder hne hheld =>
      exact h.record_of_not_locked hlisted
        (fun _ => ⟨tx, refs, hkind, hrefs, ref, hmem, holder, hne, hheld⟩)
        (by simp [Verdict.Locked]) (fun _ _ _ => .inl ⟨refs, c, rfl⟩)
    | @locked refs hrefs hfree =>
      have hget : ∀ ref, (Authority.record st item (.locked (refs.map fun ref => (ref, tx.digest)))
          ).ownedObjectLocks.get ref =
            if ref ∈ refs then some tx.digest else st.ownedObjectLocks.get ref := by
        intro ref
        rw [record_locks_of_locked hkind, Entries.get_extend_map]
        by_cases href : ref ∈ refs <;> simp [href]
      refine h.record hlisted (by simp [Verdict.Conflicts]) ?_ ?_ ?_ (fun _ _ _ => .inl ⟨_, rfl⟩)
      · intro ref digest hold
        rw [hget]
        split_ifs with href
        · rw [(hfree ref href).1 digest hold]
        · exact hold
      · intro ref digest hnew
        rw [hget] at hnew
        split_ifs at hnew with href
        · cases hnew
          exact .inr ⟨⟨_, rfl⟩, tx, refs, hkind, hrefs, rfl, href, (hfree ref href).2⟩
        · exact .inl hnew
      · intro _ tx' hkind'
        rw [hkind, ConsensusTransactionKind.userTransactionV2.injEq] at hkind'
        subst hkind'
        exact ⟨refs, hrefs, fun ref href => by rw [hget, if_pos href]⟩
  · refine h.record_of_not_locked hlisted (fun hconflict => absurd hconflict hnoConflict) hnot ?_
    intro tx hkind hnone
    obtain ⟨verdict, hsome⟩ := hchecked tx hkind
    rw [hnone] at hsome
    cases hsome

theorem parsed_mem_of_mem_sequence {block : BlockRef} {parsed : List ParsedTransaction}
    (h : item ∈ sequence block parsed) : item.parsed ∈ parsed := by
  obtain ⟨entry, hentry, rfl⟩ := mem_map.mp h
  exact (mem_zipIdx hentry).2.2 ▸ getElem_mem _

theorem FilterInv.filterBlock (h : FilterInv ctx existingLocks blocks st)
    {entry : BlockRef × List ParsedTransaction} (hentry : entry ∈ blocks) :
    FilterInv ctx existingLocks blocks (filterBlock ctx existingLocks st entry) := by
  rw [Authority.filterBlock]
  refine List.foldlRecOn _ _ ?_ ?_
  · exact ⟨h.taken, h.compatible, h.locked, h.conflict, h.survivors, h.judged, h.listed⟩
  · intro st' hst' item hitem
    exact hst'.filterTransaction ⟨entry, hentry, parsed_mem_of_mem_sequence hitem⟩

theorem filterInv_filterConsensusTxns (ctx : FilterContext) (q : ConsensusOutputQuarantine)
    (tables : AuthorityEpochTables) (blocks : ParsedConsensusTransactions) :
    FilterInv ctx (getOwnedObjectLocksMap q tables (prefetchRefs blocks)) blocks
      (filterConsensusTxns ctx q tables blocks) := by
  rw [filterConsensusTxns]
  refine List.foldlRecOn _ _ (filterInv_new ctx _ blocks) ?_
  intro st hst entry hentry
  exact hst.filterBlock hentry

variable {entry entry' : Sequenced × Verdict}

section

variable (h : FilterInv ctx existingLocks blocks st) (hentry : entry ∈ st.verdicts)
  (hentry' : entry' ∈ st.verdicts)
include h hentry hentry'

/-- A transaction does not get its locks in one place and lose one of them in another. -/
theorem FilterInv.not_locked_of_conflicts
    {tx tx' : PlainTransactionWithClaims} (hkind : entry.1.parsed.kind = .userTransactionV2 tx)
    (hkind' : entry'.1.parsed.kind = .userTransactionV2 tx') (hdigest : tx.digest = tx'.digest)
    (hrefs : ownedObjectRefsToLock tx = ownedObjectRefsToLock tx') (hlocked : entry.2.Locked)
    (hconflict : entry'.2.Conflicts) : False := by
  obtain ⟨refs, hsome, hheld⟩ := h.locked entry hentry hlocked tx hkind
  obtain ⟨tx₂, refs₂, hkind₂, hsome₂, ref, href, holder, hne, hother⟩ :=
    h.conflict entry' hentry' hconflict
  rw [hkind', ConsensusTransactionKind.userTransactionV2.injEq] at hkind₂
  subst hkind₂
  rw [← hrefs, hsome] at hsome₂
  cases hsome₂
  rcases hother with hcurrent | hexisting
  · rw [hheld ref href] at hcurrent
    exact hne ((Option.some.inj hcurrent).symm.trans hdigest)
  · exact hne ((h.compatible ref _ holder (hheld ref href) hexisting).trans hdigest)

/-- Copies with the same claims that get to the locks have the same fate. -/
theorem FilterInv.same_status (hkind : entry.1.parsed.kind = .userTransactionV2 tx)
    (hkind' : entry'.1.parsed.kind = .userTransactionV2 tx)
    (hcheck : checkBeforeLocks ctx entry.1 = none)
    (hcheck' : checkBeforeLocks ctx entry'.1 = none) :
    entry.2.status = entry'.2.status := by
  have hinvalid : ownedObjectRefsToLock tx = none → ∀ e ∈ st.verdicts,
      e.1.parsed.kind = .userTransactionV2 tx → ¬ e.2.Locked := by
    intro hnone e he hk hl
    obtain ⟨refs, hsome, _⟩ := h.locked e he hl tx hk
    rw [hnone] at hsome
    cases hsome
  have hdropped : ∀ v : Verdict, v.Conflicts → v.status = .dropped := by
    rintro v ⟨refs, conflict, rfl⟩
    rfl
  have hfinalized : ∀ v : Verdict, v.Locked → v.status = .finalized := by
    rintro v ⟨newLocks, rfl⟩
    rfl
  rcases h.judged entry hentry tx hkind hcheck with hl | hc | ⟨hnone, hv⟩ <;>
    rcases h.judged entry' hentry' tx hkind' hcheck' with hl' | hc' | ⟨hnone', hv'⟩
  · rw [hfinalized _ hl, hfinalized _ hl']
  · exact (h.not_locked_of_conflicts hentry hentry' hkind hkind' rfl rfl hl hc').elim
  · exact absurd hl (hinvalid hnone' entry hentry hkind)
  · exact (h.not_locked_of_conflicts hentry' hentry hkind' hkind rfl rfl hl' hc).elim
  · rw [hdropped _ hc, hdropped _ hc']
  · rw [hdropped _ hc, hv']
    rfl
  · exact absurd hl' (hinvalid hnone entry' hentry' hkind')
  · rw [hdropped _ hc', hv]
    rfl
  · rw [hv, hv']

end

end Filter

/-! ### The holders of references -/

/-- The transaction for which the reference is locked, as the handler reads it. -/
def recordedHolder (s : QuarantineState) (ref : ObjectRef) : Option TransactionDigest :=
  getOwnedObjectLocksMap s.1 s.2 [ref] ref

theorem getOwnedObjectLocksMap_eq {s : QuarantineState} {refs : List ObjectRef}
    {locks : ObjectRef → Option TransactionDigest}
    (h : s.1.getOwnedObjectLocks s.2 refs = refs.map locks) {ref : ObjectRef} (href : ref ∈ refs) :
    getOwnedObjectLocksMap s.1 s.2 refs ref = locks ref := by
  have hmem : ∀ digest, (ref, digest) ∈ (refs.zip (refs.map locks)).filterMap (fun entry =>
      entry.2.map fun lock => (entry.1, lock)) ↔ locks ref = some digest := by
    intro digest
    rw [← map_prod_left_eq_zip, filterMap_map, mem_filterMap]
    constructor
    · rintro ⟨other, _, hother⟩
      obtain ⟨lock, hlock, heq⟩ := Option.map_eq_some_iff.mp hother
      cases heq
      exact hlock
    · intro hlock
      exact ⟨ref, href, Option.map_eq_some_iff.mpr ⟨digest, hlock, rfl⟩⟩
  rw [getOwnedObjectLocksMap, h]
  cases hlock : locks ref with
  | none =>
    refine collect_eq_none fun digest hdigest => ?_
    rw [hmem, hlock] at hdigest
    cases hdigest
  | some digest =>
    refine collect_eq_some ((hmem digest).mpr hlock) fun other hother => ?_
    rw [hmem, hlock] at hother
    exact (Option.some.inj hother).symm

theorem getOwnedObjectLocksMap_eq_none {s : QuarantineState} {refs : List ObjectRef}
    {ref : ObjectRef} (href : ref ∉ refs) : getOwnedObjectLocksMap s.1 s.2 refs ref = none := by
  refine collect_eq_none fun digest hmem => ?_
  obtain ⟨entry, hentry, hlock⟩ := mem_filterMap.mp hmem
  obtain ⟨lock, _, heq⟩ := Option.map_eq_some_iff.mp hlock
  cases heq
  exact href (of_mem_zip hentry).1

/-! ### Epochs -/

structure HandledCommit where
  ctx : FilterContext
  blocks : ParsedConsensusTransactions
  /-- The quarantine and the database when the commit was filtered. -/
  before : QuarantineState
  filtered : FilterState

/-- The state of an epoch, with the calls and commits so far. -/
structure EpochState where
  state : QuarantineState
  calls : List QuarantineCall
  handling : Option HandledCommit
  /-- The commits, each with the state after its push. -/
  commits : List (HandledCommit × QuarantineState)

def EpochState.start (executed : Nat) (tables : AuthorityEpochTables) : EpochState where
  state := (new executed, tables)
  calls := []
  handling := none
  commits := []

/-- Commits are handled one after the other.  The other calls, which drain the quarantine, come
    at any point, also while a commit is handled. -/
inductive EpochStep : EpochState → EpochState → Prop
  | call {e : EpochState} {call : QuarantineCall} {state : QuarantineState}
      (hother : call.output = none) (hrun : call.run e.state = .ok state) :
      EpochStep e { e with state := state, calls := e.calls ++ [call] }
  | filter {e : EpochState} (hidle : e.handling = none) (ctx : FilterContext)
      (blocks : ParsedConsensusTransactions) :
      EpochStep e { e with
        handling := some
          ⟨ctx, blocks, e.state, filterConsensusTxns ctx e.state.1 e.state.2 blocks⟩ }
  | push {e : EpochState} {c : HandledCommit} {o : ConsensusCommitOutput} {state : QuarantineState}
      (hhandling : e.handling = some c) (hlocks : o.ownedObjectLocks = c.filtered.ownedObjectLocks)
      (hrun : (QuarantineCall.pushConsensusOutput o).run e.state = .ok state) :
      EpochStep e ⟨state, e.calls ++ [.pushConsensusOutput o], none, e.commits ++ [(c, state)]⟩

abbrev EpochSteps := Relation.ReflTransGen EpochStep

/-- The user transaction is handed on by the filter. -/
def FilterState.Survives (st : FilterState) (tx : PlainTransactionWithClaims) : Prop :=
  ∃ author, (ConsensusTransactionKind.userTransactionV2 tx, author) ∈ st.transactions

/-- The facts about a commit that stay once it was filtered. -/
structure CommitFiltered (c : HandledCommit) (locks : ObjectRef → Option TransactionDigest) :
    Prop where
  reads : ∀ ref, recordedHolder c.before ref = locks ref
  filtered : FilterInv c.ctx (fun ref => if ref ∈ prefetchRefs c.blocks then locks ref else none)
    c.blocks c.filtered

structure EpochInv (executed : Nat) (tables : AuthorityEpochTables) (e : EpochState) : Prop where
  run : RunInv executed tables e.calls e.state
  /-- Every lock that was pushed is still what is read. -/
  holders : ∀ o ∈ pushed e.calls, ∀ ref digest, o.lockWrites ref = some digest →
    (contents e.state.1 e.state.2).locks ref = some digest
  handling : ∀ c, e.handling = some c → CommitFiltered c (contents e.state.1 e.state.2).locks
  commits : ∀ c ∈ e.commits, ∃ locks, CommitFiltered c.1 locks ∧
    (∀ ref, recordedHolder c.2 ref = (c.1.filtered.ownedObjectLocks.get ref).or (locks ref)) ∧
    ∀ ref digest, c.1.filtered.ownedObjectLocks.get ref = some digest →
      (contents e.state.1 e.state.2).locks ref = some digest

section Epochs

variable {executed : Nat} {tables : AuthorityEpochTables} {e e' : EpochState}
  {state : QuarantineState} {ref : ObjectRef} {o : ConsensusCommitOutput} {c : HandledCommit}
  {tx : PlainTransactionWithClaims} {digest : TransactionDigest}

theorem EpochInv.agree (h : EpochInv executed tables e) :
    Agree ((pushed e.calls).map (·.lockWrites)) := by
  intro w hw w' hw' ref digest digest' hdigest hdigest'
  obtain ⟨o, ho, rfl⟩ := mem_map.mp hw
  obtain ⟨o', ho', rfl⟩ := mem_map.mp hw'
  have hread := h.holders o ho ref digest hdigest
  rw [h.holders o' ho' ref digest' hdigest'] at hread
  exact (Option.some.inj hread).symm

theorem EpochInv.reads (h : EpochInv executed tables e) {refs : List ObjectRef}
    (href : ref ∈ refs) :
    getOwnedObjectLocksMap e.state.1 e.state.2 refs ref =
      (contents e.state.1 e.state.2).locks ref :=
  getOwnedObjectLocksMap_eq (getOwnedObjectLocks_eq (h.run.locks h.agree) refs) href

theorem EpochInv.recordedHolder_eq (h : EpochInv executed tables e) (ref : ObjectRef) :
    recordedHolder e.state ref = (contents e.state.1 e.state.2).locks ref :=
  h.reads (mem_singleton_self ref)

theorem epochInv_start (executed : Nat) (tables : AuthorityEpochTables) :
    EpochInv executed tables (.start executed tables) where
  run := runInv_new executed tables
  holders := nofun
  handling := fun _ hc => nomatch hc
  commits := nofun

theorem locks_call {call : QuarantineCall} (hinv : RunInv executed tables e.calls e.state)
    (hother : call.output = none) (hrun : call.run e.state = .ok state) :
    (contents state.1 state.2).locks = (contents e.state.1 e.state.2).locks := by
  rw [(hinv.run hrun).contents_eq, foldl_append, ← hinv.contents_eq]
  cases call with
  | pushConsensusOutput o => cases hother
  | insertBuilderSummary seq summary => rfl
  | updateHighestExecutedCheckpoint checkpoint => rfl

theorem locks_push (hinv : RunInv executed tables e.calls e.state)
    (hrun : (QuarantineCall.pushConsensusOutput o).run e.state = .ok state) (ref : ObjectRef) :
    (contents state.1 state.2).locks ref =
      (o.lockWrites ref).or ((contents e.state.1 e.state.2).locks ref) := by
  rw [(hinv.run hrun).contents_eq, foldl_append, ← hinv.contents_eq]
  rfl

theorem mem_prefetchRefs {blocks : ParsedConsensusTransactions} {item : Sequenced}
    (hlisted : ∃ block ∈ blocks, item.parsed ∈ block.2)
    (hkind : item.parsed.kind = .userTransactionV2 tx) {refs : List ObjectRef}
    (hrefs : ownedObjectRefsToLock tx = some refs) (href : ref ∈ refs) :
    ref ∈ prefetchRefs blocks := by
  obtain ⟨block, hblock, hparsed⟩ := hlisted
  rw [prefetchRefs, mem_dedup]
  refine mem_flatMap.mpr ⟨block, hblock, mem_flatMap.mpr ⟨item.parsed, hparsed, ?_⟩⟩
  rw [hkind]
  dsimp only
  rw [hrefs]
  exact href

variable {locks : ObjectRef → Option TransactionDigest}

theorem CommitFiltered.compatible (h : CommitFiltered c locks) {digest holder : TransactionDigest}
    (hget : c.filtered.ownedObjectLocks.get ref = some digest) (hholder : locks ref = some holder) :
    holder = digest := by
  obtain ⟨entry, hentry, _, tx, refs, hkind, hrefs, _, href⟩ := h.filtered.taken ref digest hget
  have hprefetched := mem_prefetchRefs (h.filtered.listed entry hentry) hkind hrefs href
  exact h.filtered.compatible ref digest holder hget (by rw [if_pos hprefetched, hholder])

theorem EpochInv.call {call : QuarantineCall} (h : EpochInv executed tables e)
    (hother : call.output = none) (hrun : call.run e.state = .ok state) :
    EpochInv executed tables { e with state := state, calls := e.calls ++ [call] } := by
  have hlocks := locks_call h.run hother hrun
  have hpushed : pushed (e.calls ++ [call]) = pushed e.calls := by
    simp [pushed, hother]
  exact ⟨h.run.run hrun, hpushed ▸ hlocks ▸ h.holders, hlocks ▸ h.handling, hlocks ▸ h.commits⟩

theorem EpochInv.filter (h : EpochInv executed tables e) (ctx : FilterContext)
    (blocks : ParsedConsensusTransactions) :
    EpochInv executed tables { e with
      handling := some
        ⟨ctx, blocks, e.state, filterConsensusTxns ctx e.state.1 e.state.2 blocks⟩ } := by
  refine ⟨h.run, h.holders, ?_, h.commits⟩
  intro c hc
  cases hc
  refine ⟨h.recordedHolder_eq, ?_⟩
  have hexisting : getOwnedObjectLocksMap e.state.1 e.state.2 (prefetchRefs blocks) = fun ref =>
      if ref ∈ prefetchRefs blocks then (contents e.state.1 e.state.2).locks ref else none := by
    funext ref
    split_ifs with href
    · exact h.reads href
    · exact getOwnedObjectLocksMap_eq_none href
  have hfiltered := filterInv_filterConsensusTxns ctx e.state.1 e.state.2 blocks
  rw [hexisting] at hfiltered
  exact hfiltered

theorem lockWrites_eq (hlocks : o.ownedObjectLocks = c.filtered.ownedObjectLocks) :
    o.lockWrites = c.filtered.ownedObjectLocks.get := by
  rw [ConsensusCommitOutput.lockWrites, hlocks]
  rfl

section

variable (h : EpochInv executed tables e) (hhandling : e.handling = some c)
  (hlocks : o.ownedObjectLocks = c.filtered.ownedObjectLocks)
  (hrun : (QuarantineCall.pushConsensusOutput o).run e.state = .ok state)
include h hhandling hlocks hrun

/-- What was locked stays locked, since the locks of the commit agree with it. -/
theorem EpochInv.locks_kept (hold : (contents e.state.1 e.state.2).locks ref = some digest) :
    (contents state.1 state.2).locks ref = some digest := by
  rw [locks_push h.run hrun, lockWrites_eq hlocks]
  cases hget : c.filtered.ownedObjectLocks.get ref with
  | none => exact hold
  | some new =>
    rw [(h.handling c hhandling).compatible hget hold]
    rfl

theorem EpochInv.push :
    EpochInv executed tables
      ⟨state, e.calls ++ [.pushConsensusOutput o], none, e.commits ++ [(c, state)]⟩ := by
  have hread := locks_push h.run hrun
  rw [lockWrites_eq hlocks] at hread
  have hnew : ∀ ref digest, c.filtered.ownedObjectLocks.get ref = some digest →
      (contents state.1 state.2).locks ref = some digest := by
    intro ref digest hget
    rw [hread, hget]
    rfl
  have hholders : ∀ o' ∈ pushed (e.calls ++ [.pushConsensusOutput o]), ∀ ref digest,
      o'.lockWrites ref = some digest → (contents state.1 state.2).locks ref = some digest := by
    rw [pushed, filterMap_append]
    refine forall_mem_append.mpr ⟨fun o' ho' ref digest hdigest =>
      h.locks_kept hhandling hlocks hrun (h.holders o' ho' ref digest hdigest), ?_⟩
    exact forall_mem_singleton.mpr (lockWrites_eq hlocks ▸ hnew)
  have hinv : EpochInv executed tables ⟨state, e.calls ++ [.pushConsensusOutput o], none, []⟩ :=
    ⟨h.run.run hrun, hholders, (fun _ hc => by cases hc), forall_mem_nil _⟩
  refine ⟨hinv.run, hholders, (fun _ hc => by cases hc),
    forall_mem_append.mpr ⟨fun c' hc' => ?_, forall_mem_singleton.mpr ?_⟩⟩
  · obtain ⟨locks, hcommit, hafter, hheld⟩ := h.commits c' hc'
    exact ⟨locks, hcommit, hafter, fun ref digest hget =>
      h.locks_kept hhandling hlocks hrun (hheld ref digest hget)⟩
  · refine ⟨_, h.handling c hhandling, ?_, hnew⟩
    intro ref
    rw [hinv.recordedHolder_eq, hread]

end

theorem EpochInv.step (h : EpochInv executed tables e) (hstep : EpochStep e e') :
    EpochInv executed tables e' := by
  cases hstep with
  | call hother hrun => exact h.call hother hrun
  | filter _ ctx blocks => exact h.filter ctx blocks
  | push hhandling hlocks hrun => exact h.push hhandling hlocks hrun

theorem epochInv_of_steps (h : EpochSteps (.start executed tables) e) :
    EpochInv executed tables e := by
  induction h with
  | refl => exact epochInv_start executed tables
  | tail _ hstep ih => exact ih.step hstep

theorem EpochInv.holder_kept (h : EpochInv executed tables e) (hstep : EpochStep e e')
    (hheld : recordedHolder e.state ref = some digest) :
    recordedHolder e'.state ref = some digest := by
  rw [(h.step hstep).recordedHolder_eq]
  rw [h.recordedHolder_eq] at hheld
  cases hstep with
  | call hother hrun =>
    rw [locks_call h.run hother hrun]
    exact hheld
  | filter _ ctx blocks => exact hheld
  | push hhandling hlocks hrun => exact h.locks_kept hhandling hlocks hrun hheld

theorem EpochInv.holder_kept_steps (h : EpochInv executed tables e) (hsteps : EpochSteps e e')
    (hheld : recordedHolder e.state ref = some digest) :
    recordedHolder e'.state ref = some digest := by
  induction hsteps using Relation.ReflTransGen.head_induction_on with
  | refl => exact hheld
  | head hstep _ ih => exact ih (h.step hstep) (h.holder_kept hstep hheld)

theorem EpochInv.survivor_holds (h : EpochInv executed tables e)
    {c : HandledCommit × QuarantineState} (hc : c ∈ e.commits)
    (hsurvives : c.1.filtered.Survives tx) :
    ∃ refs, ownedObjectRefsToLock tx = some refs ∧
      ∀ ref ∈ refs, recordedHolder e.state ref = some tx.digest := by
  obtain ⟨locks, hcommit, _, hheld⟩ := h.commits c hc
  obtain ⟨author, hmem⟩ := hsurvives
  obtain ⟨entry, hentry, hlocked, hkind⟩ := hcommit.filtered.survivors tx author hmem
  obtain ⟨refs, hrefs, hlocks⟩ := hcommit.filtered.locked entry hentry hlocked tx hkind
  refine ⟨refs, hrefs, fun ref href => ?_⟩
  rw [h.recordedHolder_eq]
  exact hheld ref tx.digest (hlocks ref href)

/-- A transaction that was dropped for a conflict, in copies with the same claims, has only
    locks from before the commit. -/
theorem CommitFiltered.dropped_holds (h : CommitFiltered c locks) {entry : Sequenced × Verdict}
    (hentry : entry ∈ c.filtered.verdicts) (hconflict : entry.2.Conflicts)
    (hkind : entry.1.parsed.kind = .userTransactionV2 tx)
    (hclaims : ∀ entry' ∈ c.filtered.verdicts, ∀ tx',
      entry'.1.parsed.kind = .userTransactionV2 tx' → tx'.digest = tx.digest → tx' = tx)
    (ref : ObjectRef) : c.filtered.ownedObjectLocks.get ref ≠ some tx.digest := by
  intro hget
  obtain ⟨entry', hentry', hlocked, tx', refs, hkind', _, hdigest, _⟩ :=
    h.filtered.taken ref tx.digest hget
  have hsame := hclaims entry' hentry' tx' hkind' hdigest
  subst hsame
  exact h.filtered.not_locked_of_conflicts hentry' hentry hkind' hkind rfl rfl hlocked hconflict

end Epochs

/-- **Owned object locks are exclusive over an epoch.**  In every state of an epoch: two
    transactions that were handed on and have a reference to lock in common are one; every
    transaction that was handed on holds its references; a holder that is recorded stays so in
    every later state; the locks of a commit are those of the transactions that it hands on, so
    that a transaction which loses a conflict in copies with the same claims holds after the
    commit what it held before; and of copies with the same claims that get as far as the locks,
    all are handed on or all are dropped. -/
theorem owned_object_locks_exclusive (executed : Nat) (tables : AuthorityEpochTables)
    (e : EpochState) (hreach : EpochSteps (.start executed tables) e) :
    (∀ c ∈ e.commits, ∀ c' ∈ e.commits, ∀ tx tx' refs refs' ref,
      c.1.filtered.Survives tx → c'.1.filtered.Survives tx' →
      ownedObjectRefsToLock tx = some refs → ownedObjectRefsToLock tx' = some refs' →
      ref ∈ refs → ref ∈ refs' → tx.digest = tx'.digest) ∧
    (∀ c ∈ e.commits, ∀ tx, c.1.filtered.Survives tx → ∃ refs, ownedObjectRefsToLock tx = some refs ∧
      ∀ ref ∈ refs, recordedHolder e.state ref = some tx.digest) ∧
    (∀ e', EpochSteps e e' → ∀ ref digest, recordedHolder e.state ref = some digest →
      recordedHolder e'.state ref = some digest) ∧
    (∀ c ∈ e.commits, ∀ ref digest, c.1.filtered.ownedObjectLocks.get ref = some digest →
      ∃ entry ∈ c.1.filtered.verdicts, entry.2.Locked ∧ ∃ tx refs,
        entry.1.parsed.kind = .userTransactionV2 tx ∧ ownedObjectRefsToLock tx = some refs ∧
        tx.digest = digest ∧ ref ∈ refs) ∧
    (∀ c ∈ e.commits, ∀ entry ∈ c.1.filtered.verdicts, entry.2.Conflicts → ∀ tx,
      entry.1.parsed.kind = .userTransactionV2 tx →
      (∀ entry' ∈ c.1.filtered.verdicts, ∀ tx', entry'.1.parsed.kind = .userTransactionV2 tx' →
        tx'.digest = tx.digest → tx' = tx) →
      ∀ ref, recordedHolder c.2 ref = some tx.digest →
        recordedHolder c.1.before ref = some tx.digest) ∧
    (∀ c ∈ e.commits, ∀ entry ∈ c.1.filtered.verdicts, ∀ entry' ∈ c.1.filtered.verdicts, ∀ tx,
      entry.1.parsed.kind = .userTransactionV2 tx → entry'.1.parsed.kind = .userTransactionV2 tx →
      checkBeforeLocks c.1.ctx entry.1 = none → checkBeforeLocks c.1.ctx entry'.1 = none →
      entry.2.status = entry'.2.status) := by
  have hinv := epochInv_of_steps hreach
  refine ⟨?_, ?_, ?_, ?_, ?_, ?_⟩
  · intro c hc c' hc' tx tx' refs refs' ref hsurvives hsurvives' hrefs hrefs' href href'
    obtain ⟨refs₁, hrefs₁, hheld⟩ := hinv.survivor_holds hc hsurvives
    obtain ⟨refs₂, hrefs₂, hheld'⟩ := hinv.survivor_holds hc' hsurvives'
    rw [hrefs, Option.some.injEq] at hrefs₁
    rw [hrefs', Option.some.injEq] at hrefs₂
    have hsame := hheld ref (hrefs₁ ▸ href)
    rw [hheld' ref (hrefs₂ ▸ href')] at hsame
    exact (Option.some.inj hsame).symm
  · exact fun c hc tx hsurvives => hinv.survivor_holds hc hsurvives
  · exact fun e' hsteps ref digest hheld => hinv.holder_kept_steps hsteps hheld
  · intro c hc
    obtain ⟨locks, hcommit, _⟩ := hinv.commits c hc
    exact hcommit.filtered.taken
  · intro c hc entry hentry hconflict tx hkind hclaims ref hafter
    obtain ⟨locks, hcommit, hread, _⟩ := hinv.commits c hc
    rw [hread, Option.or_eq_some_iff] at hafter
    rcases hafter with hget | ⟨_, hold⟩
    · exact absurd hget (hcommit.dropped_holds hentry hconflict hkind hclaims ref)
    · rw [hcommit.reads]
      exact hold
  · intro c hc entry hentry entry' hentry' tx hkind hkind' hcheck hcheck'
    obtain ⟨locks, hcommit, _⟩ := hinv.commits c hc
    exact hcommit.filtered.same_status hentry hentry' hkind hkind' hcheck hcheck'

/-! Two transactions that spend one object. -/

def spend (digest : TransactionDigest) : PlainTransactionWithClaims where
  digest := digest
  inputObjects := some [.immOrOwnedMoveObject lockedRef]
  gas := []
  claims := []

/-- A block with one transaction, from the author. -/
def spendBlock (author : Nat) (digest : TransactionDigest) : BlockRef × List ParsedTransaction :=
  (⟨1, author, author⟩, [⟨.userTransactionV2 (spend digest), false⟩])

def doubleSpend : FilterState :=
  filterConsensusTxns ⟨.acceptAllCerts, fun _ => false⟩ (new 0) emptyTables
    [spendBlock 0 7, spendBlock 1 8]

theorem owned_object_locks_exclusive_double_spend :
    ∃ e, EpochSteps (.start 0 emptyTables) e ∧ e.commits.length = 1 ∧
      recordedHolder e.state lockedRef = some 7 := by
  let o : ConsensusCommitOutput :=
    { lockingOutput 1 7 with ownedObjectLocks := doubleSpend.ownedObjectLocks }
  obtain ⟨state, hrun⟩ := ok_of_toBool
    (x := (QuarantineCall.pushConsensusOutput o).run (new 0, emptyTables)) (by decide +kernel)
  have hsteps : EpochSteps (.start 0 emptyTables) _ :=
    (Relation.ReflTransGen.single (EpochStep.filter rfl ⟨.acceptAllCerts, fun _ => false⟩
      [spendBlock 0 7, spendBlock 1 8])).tail (EpochStep.push rfl rfl hrun)
  have hsurvives : doubleSpend.Survives (spend 7) := ⟨0, by decide +kernel⟩
  obtain ⟨refs, hrefs, hheld⟩ := (owned_object_locks_exclusive 0 emptyTables _ hsteps).2.1 _
    (mem_singleton_self _) (spend 7) hsurvives
  have href : lockedRef ∈ refs := by
    cases hrefs
    exact mem_singleton_self _
  exact ⟨_, hsteps, rfl, hheld lockedRef href⟩

/-- Copies of one transaction: the author of the first has sent its `EndOfPublish`, so this
    copy is dropped before the locks, and the second is handed on. -/
theorem copies_judged_by_author :
    ((filterConsensusTxns ⟨.acceptAllCerts, fun author => author == 0⟩ (new 0) emptyTables
      [spendBlock 0 7, spendBlock 1 7]).verdicts.map fun entry =>
        (entry.1.parsed, entry.2.status)) =
      [(⟨.userTransactionV2 (spend 7), false⟩, .dropped),
        (⟨.userTransactionV2 (spend 7), false⟩, .finalized)] := by
  decide +kernel

end Haneul.Authority
