import Haneul.Authority.DeferralScheduler

/-!
# No transaction is lost by deferral

Over every sequence of commits, each user transaction is in one place: deferred under one key,
scheduled, or given up when the epoch is closed by its deadline.  A commit moves what it loads
and its new transactions to its two lists and to entries of the map; that no entry which it
loads is also one that it enters is what keeps the deletions apart from the insertions.

The keys in the map stand for the rounds since which their transactions wait.  A key for a
consensus round is loaded by the next commit, so a transaction without randomness cannot wait
for longer than the limit.
-/

namespace Haneul.Authority

open Haneul.Map Haneul.Buckets List

/-! ### Decisions -/

section Decisions

variable {cfg : SchedulerConfig} {commit : ScheduledCommit}
  {previouslyDeferred : TransactionDigest → Option DeferralKey} {forRandomness : Bool}
  {bumped : List Transaction} {tx : Transaction} {key : DeferralKey}

/-- The keys under which a transaction is deferred. -/
def DefersTo (cfg : SchedulerConfig) (commit : ScheduledCommit)
    (previouslyDeferred : TransactionDigest → Option DeferralKey) (key : DeferralKey)
    (tx : Transaction) : Prop :=
  key = nextRoundKey commit previouslyDeferred tx ∧
      withinLimit cfg commit previouslyDeferred tx = true ∨
    key = .randomness (deferredFrom commit previouslyDeferred tx) ∧
      randomnessNotReady cfg commit tx = true

theorem defersTo_of_handle
    (h : handleDeferralAndCancellation cfg commit previouslyDeferred forRandomness bumped tx =
      .defer key) : DefersTo cfg commit previouslyDeferred key tx := by
  rw [handleDeferralAndCancellation] at h
  split_ifs at h with hunpaid hcontested hrandomness hwithin
  · cases h
    exact .inl ⟨rfl, (Bool.and_eq_true_iff.mp hunpaid).2⟩
  · cases h
    exact .inl ⟨rfl, (Bool.and_eq_true_iff.mp hcontested).2⟩
  · cases h
    exact .inr ⟨rfl, hrandomness⟩
  · cases hcongested : commit.congestedObjects forRandomness bumped tx with
    | none =>
      rw [hcongested] at h
      cases h
    | some congested =>
      rw [hcongested] at h
      cases h
      exact .inl ⟨rfl, hwithin⟩
  · cases hcongested : commit.congestedObjects forRandomness bumped tx <;>
      rw [hcongested] at h <;> cases h

end Decisions

/-! ### The loops -/

/-- Every entry has transactions, for which the property holds with its key. -/
def EntriesMeet (P : DeferralKey → Transaction → Prop) (m : DeferredMap) : Prop :=
  ∀ e ∈ m, e.2 ≠ [] ∧ ∀ tx ∈ e.2, P e.1 tx

structure Looped (P : DeferralKey → Transaction → Prop) (st : Scheduling) (txns : List Transaction)
    (st' : Scheduling) : Prop where
  nodup : NodupKeys st'.deferred
  entries : EntriesMeet P st'.deferred
  placed : (contents st'.deferred ++ st'.scheduled).Perm
    (contents st.deferred ++ st.scheduled ++ txns)
  kept : st.scheduled ⊆ st'.scheduled
  cancelled : ∀ c ∈ st'.cancelled, c ∈ st.cancelled ∨ ∃ tx ∈ st'.scheduled, tx.digest = c.1

section Loops

variable {P : DeferralKey → Transaction → Prop} {st : Scheduling}

theorem entriesMeet_append {m : DeferredMap} (hnodup : NodupKeys m) (h : EntriesMeet P m)
    {key : DeferralKey} {tx : Transaction} (hP : P key tx) :
    EntriesMeet P (Buckets.append DeferralKey.lt key [tx] m) := by
  intro e he
  rcases mem_append.mp he with rfl | ⟨hold, _⟩
  · refine ⟨by simp, fun tx' htx' => ?_⟩
    rcases mem_append.mp htx' with hold | hnew
    · cases hget : get key m with
      | none =>
        rw [hget] at hold
        cases hold
      | some txns =>
        rw [hget] at hold
        exact (h _ ((get_eq_some_iff hnodup).mp hget)).2 tx' hold
    · rw [mem_singleton.mp hnew]
      exact hP
  · exact h e hold

theorem place_looped (hnodup : NodupKeys st.deferred) (hentries : EntriesMeet P st.deferred)
    {tx : Transaction} {decision : Decision} (hP : ∀ key, decision = .defer key → P key tx) :
    Looped P st [tx] (st.place tx decision) := by
  cases decision with
  | defer key =>
    refine ⟨hnodup.append, entriesMeet_append hnodup hentries (hP key rfl), ?_, fun _ h => h,
      fun c hc => .inl hc⟩
    have happend := @contents_append _ _ _ DeferralKey.lt _ hnodup key [tx]
    refine (happend.append_right _).trans ?_
    rw [append_assoc, append_assoc]
    exact perm_append_comm.append_left _
  | cancel reason =>
    refine ⟨hnodup, hentries, ?_, subset_append_left _ _, ?_⟩
    · rw [Scheduling.place, append_assoc]
    · intro c hc
      rcases mem_append.mp hc with hc | hc
      · exact .inl hc
      · rw [mem_singleton.mp hc]
        exact .inr ⟨tx, mem_concat_self, rfl⟩
  | schedule =>
    refine ⟨hnodup, hentries, ?_, subset_append_left _ _, fun c hc => .inl hc⟩
    rw [Scheduling.place, append_assoc]

theorem Looped.trans {st₁ st₂ : Scheduling} {txns txns' : List Transaction}
    (h : Looped P st txns st₁) (h' : Looped P st₁ txns' st₂) : Looped P st (txns ++ txns') st₂ := by
  refine ⟨h'.nodup, h'.entries, ?_, fun tx htx => h'.kept (h.kept htx), ?_⟩
  · refine h'.placed.trans ?_
    rw [← append_assoc]
    exact h.placed.append_right txns'
  · intro c hc
    rcases h'.cancelled c hc with hc | hc
    · rcases h.cancelled c hc with hc | ⟨tx, htx, hdigest⟩
      · exact .inl hc
      · exact .inr ⟨tx, h'.kept htx, hdigest⟩
    · exact .inr hc

theorem foldl_looped {turn : Scheduling → Transaction → Scheduling}
    (hturn : ∀ st tx, ∃ decision, turn st tx = st.place tx decision ∧
      ∀ key, decision = .defer key → P key tx)
    (hnodup : NodupKeys st.deferred) (hentries : EntriesMeet P st.deferred)
    (txns : List Transaction) : Looped P st txns (txns.foldl turn st) := by
  induction txns generalizing st with
  | nil => exact ⟨hnodup, hentries, by simp, fun _ h => h, fun c hc => .inl hc⟩
  | cons tx txns ih =>
    obtain ⟨decision, hplace, hP⟩ := hturn st tx
    have hone := place_looped hnodup hentries hP
    rw [← hplace] at hone
    exact hone.trans (ih hone.nodup hone.entries)

end Loops

/-! ### Entering what is deferred -/

theorem enterDeferred_looped {cfg : SchedulerConfig} (hmerge : cfg.mergeCollidingDeferrals = true)
    {m d : DeferredMap} (hm : NodupKeys m) (hd : NodupKeys d)
    (staged : List (DeferralKey × List Transaction)) :
    NodupKeys (d.foldl (enterDeferred cfg) (m, staged)).1 ∧
    (contents (d.foldl (enterDeferred cfg) (m, staged)).1).Perm (contents m ++ contents d) ∧
    (∀ key, get key (d.foldl (enterDeferred cfg) (m, staged)).1 =
      match get key d with
      | some txns => some ((get key m).getD [] ++ txns)
      | none => get key m) ∧
    (d.foldl (enterDeferred cfg) (m, staged)).2 =
      staged ++ d.map fun e => (e.1, (get e.1 m).getD [] ++ e.2) := by
  induction d generalizing m staged with
  | nil => exact ⟨hm, by simp [contents], fun _ => rfl, by simp⟩
  | cons e d ih =>
    obtain ⟨key, txns⟩ := e
    obtain ⟨hfresh, hrest⟩ := nodup_cons.mp hd
    have hstep : enterDeferred cfg (m, staged) (key, txns) =
        (Buckets.append DeferralKey.lt key txns m,
          staged ++ [(key, (get key m).getD [] ++ txns)]) := by
      simp [enterDeferred, hmerge, Buckets.append]
    have hget : ∀ k, get k (Buckets.append DeferralKey.lt key txns m) =
        if k = key then some ((get key m).getD [] ++ txns) else get k m :=
      fun k => get_insert hm k
    rw [foldl_cons, hstep]
    obtain ⟨hnodup, hperm, hgets, hstaged⟩ := ih hm.append hrest
      (staged ++ [(key, (get key m).getD [] ++ txns)])
    refine ⟨hnodup, ?_, ?_, ?_⟩
    · refine hperm.trans (((contents_append hm key txns).append_right _).trans ?_)
      rw [append_assoc]
      exact .refl _
    · intro k
      rw [hgets, hget]
      have hcons : get k ((key, txns) :: d) = if k = key then some txns else get k d := by
        rw [Buckets.get, lookup_cons]
        by_cases hk : k = key
        · simp [hk]
        · rw [beq_eq_false_iff_ne.mpr hk, if_neg hk]
          rfl
      rw [hcons]
      by_cases hk : k = key
      · have hnone : get k d = none := get_eq_none_of_forall fun e he heq =>
          hfresh (mem_map.mpr ⟨e, he, heq.trans hk⟩)
        simp [hk, hk ▸ hnone]
      · simp [hk]
    · rw [hstaged, append_assoc]
      congr 1
      rw [singleton_append, map_cons]
      congr 1
      refine map_congr_left fun e he => ?_
      have hne : e.1 ≠ key := fun heq => hfresh (mem_map.mpr ⟨e, he, heq⟩)
      rw [hget, if_neg hne]

/-! ### Loading -/

theorem inRangeForUpToConsensusRound_iff {round : Round} {key : DeferralKey} :
    key.inRangeForUpToConsensusRound round = true ↔
      ∃ future deferred, key = .consensusRound future deferred ∧ future ≤ round := by
  cases key <;> simp [DeferralKey.inRangeForUpToConsensusRound, DeferralKey.inRange, DeferralKey.lt]

theorem inFullRangeForRandomness_iff {key : DeferralKey} :
    key.inFullRangeForRandomness = true ↔ ∃ deferred, key = .randomness deferred ∧ deferred < u64Max := by
  cases key <;> simp [DeferralKey.inFullRangeForRandomness, DeferralKey.inRange, DeferralKey.lt]

section Collect

variable {cfg : SchedulerConfig} {m : DeferredMap} {commit : ScheduledCommit}
  {e : DeferralKey × List Transaction}

def loads (commit : ScheduledCommit) (key : DeferralKey) : Bool :=
  key.inRangeForUpToConsensusRound commit.round ||
    ((commit.dkgFailed || commit.generatingRandomness) && key.inFullRangeForRandomness)

theorem mem_loadForRandomness :
    e ∈ loadForRandomness m commit ↔ e ∈ m ∧
      ((commit.dkgFailed || commit.generatingRandomness) && e.1.inFullRangeForRandomness) = true := by
  rw [loadForRandomness]
  split_ifs with hready
  · rw [mem_filter, hready, Bool.true_and]
  · simp [hready]

theorem mem_loaded :
    e ∈ loadForRound m commit ++ loadForRandomness m commit ↔ e ∈ m ∧ loads commit e.1 = true := by
  rw [mem_append, loadForRound, mem_filter, mem_loadForRandomness, loads,
    Bool.or_eq_true, and_or_left]

theorem mem_loadedKeys_iff (he : e ∈ m) :
    e.1 ∈ loadedKeys m commit ↔ loads commit e.1 = true := by
  rw [loadedKeys, ← map_append, mem_map]
  constructor
  · rintro ⟨e', he', hkey⟩
    exact hkey ▸ (mem_loaded.mp he').2
  · intro hloads
    exact ⟨e, mem_loaded.mpr ⟨he, hloads⟩, rfl⟩

variable {key : DeferralKey}

theorem loads_of_mem_loadedKeys (h : key ∈ loadedKeys m commit) :
    loads commit key = true := by
  rw [loadedKeys, ← map_append] at h
  obtain ⟨e, he, rfl⟩ := mem_map.mp h
  exact (mem_loaded.mp he).2

theorem loaded_perm (hm : NodupKeys m) :
    (loadForRound m commit ++ loadForRandomness m commit).Perm (m.filter fun e => loads commit e.1) := by
  have hnodup : (loadForRound m commit ++ loadForRandomness m commit).Nodup := by
    rw [nodup_append]
    refine ⟨(hm.filter _).nodup, ?_, ?_⟩
    · rw [loadForRandomness]
      split_ifs
      · exact (hm.filter _).nodup
      · exact nodup_nil
    · rintro e he e' he' rfl
      obtain ⟨_, hround⟩ := mem_filter.mp he
      obtain ⟨future, deferred, hkey, _⟩ := inRangeForUpToConsensusRound_iff.mp hround
      obtain ⟨_, hrandomness⟩ := mem_loadForRandomness.mp he'
      obtain ⟨deferred', hkey', _⟩ :=
        inFullRangeForRandomness_iff.mp (Bool.and_eq_true_iff.mp hrandomness).2
      rw [hkey] at hkey'
      cases hkey'
  rw [perm_ext_iff_of_nodup hnodup (hm.filter _).nodup]
  intro e
  rw [mem_loaded, mem_filter]

theorem reorder_perm (txns : List Transaction) : (reorder cfg txns).Perm txns := by
  rw [reorder]
  split_ifs
  · exact mergeSort_perm _ _
  · exact .refl _

theorem ordered_perm (cfg : SchedulerConfig) (m : DeferredMap) (commit : ScheduledCommit) :
    (orderedTxns cfg m commit ++ orderedRandomnessTxns cfg m commit).Perm
      (contents (loadForRound m commit ++ loadForRandomness m commit) ++ commit.userTransactions) := by
  refine ((reorder_perm _).append (reorder_perm _)).trans ?_
  have hloaded := filter_append_perm Transaction.usesRandomness (contents (loadForRound m commit))
  have huser := filter_append_perm Transaction.usesRandomness commit.userTransactions
  rw [perm_iff_count]
  intro tx
  have hl := hloaded.count_eq tx
  have hu := huser.count_eq tx
  have hcontents : contents (loadForRound m commit ++ loadForRandomness m commit) =
      contents (loadForRound m commit) ++ contents (loadForRandomness m commit) :=
    flatMap_append
  rw [hcontents]
  simp only [count_append] at hl hu ⊢
  omega

theorem schedule_looped (cfg : SchedulerConfig) (m : DeferredMap) (commit : ScheduledCommit) :
    NodupKeys (scheduleRandomnessTxns cfg m commit).deferred ∧
    EntriesMeet (DefersTo cfg commit (previouslyDeferredTxDigests m commit))
      (scheduleRandomnessTxns cfg m commit).deferred ∧
    (contents (scheduleRandomnessTxns cfg m commit).deferred ++
      (scheduleTxns cfg m commit).scheduled ++ (scheduleRandomnessTxns cfg m commit).scheduled).Perm
      (orderedTxns cfg m commit ++ orderedRandomnessTxns cfg m commit) ∧
    ∀ c ∈ (scheduleRandomnessTxns cfg m commit).cancelled,
      ∃ tx ∈ (scheduleTxns cfg m commit).scheduled ++ (scheduleRandomnessTxns cfg m commit).scheduled,
        tx.digest = c.1 := by
  have hfirst : Looped (DefersTo cfg commit (previouslyDeferredTxDigests m commit)) ⟨[], [], [], []⟩
      (orderedTxns cfg m commit) (scheduleTxns cfg m commit) := by
    have hnodup : NodupKeys (⟨[], [], [], []⟩ : Scheduling).deferred := nodup_nil
    refine foldl_looped ?_ hnodup (nofun) _
    exact fun st tx => ⟨_, rfl, fun key hkey => defersTo_of_handle hkey⟩
  have hsecond : Looped (DefersTo cfg commit (previouslyDeferredTxDigests m commit))
      { scheduleTxns cfg m commit with scheduled := [], bumped := [] }
      (orderedRandomnessTxns cfg m commit) (scheduleRandomnessTxns cfg m commit) := by
    have hnodup : NodupKeys (Scheduling.deferred
        { scheduleTxns cfg m commit with scheduled := [], bumped := [] }) := hfirst.nodup
    refine foldl_looped ?_ hnodup hfirst.entries _
    intro st tx
    rw [handleRandomnessTransaction]
    split_ifs
    · exact ⟨_, rfl, fun _ hkey => nomatch hkey⟩
    · exact ⟨_, rfl, fun key hkey => defersTo_of_handle hkey⟩
  refine ⟨hsecond.nodup, hsecond.entries, ?_, ?_⟩
  · rw [perm_iff_count]
    intro tx
    have h₁ := hfirst.placed.count_eq tx
    have h₂ := hsecond.placed.count_eq tx
    simp only [count_append, contents, flatMap_nil, count_nil] at h₁ h₂ ⊢
    omega
  · intro c hc
    rcases hsecond.cancelled c hc with hc | ⟨tx, htx, hdigest⟩
    · rcases hfirst.cancelled c hc with hc | ⟨tx, htx, hdigest⟩
      · cases hc
      · exact ⟨tx, mem_append_left _ htx, hdigest⟩
    · exact ⟨tx, mem_append_right _ htx, hdigest⟩

theorem not_loads_of_defersTo {previouslyDeferred : TransactionDigest → Option DeferralKey}
    {tx : Transaction} (h : DefersTo cfg commit previouslyDeferred key tx) :
    loads commit key = false := by
  rcases h with ⟨rfl, _⟩ | ⟨rfl, hready⟩
  · -- loads reach up to the round of the commit, and this key is for the one after
    simp [loads, nextRoundKey, DeferralKey.inRangeForUpToConsensusRound,
      DeferralKey.inFullRangeForRandomness, DeferralKey.inRange, DeferralKey.lt]
  · -- the entries for randomness are loaded only in commits that have none to wait for
    simp only [randomnessNotReady, Bool.and_eq_true, Bool.not_eq_true'] at hready
    simp [loads, hready, DeferralKey.inRangeForUpToConsensusRound, DeferralKey.inRange, DeferralKey.lt]

theorem not_mem_loadedKeys
    (hkey : ∃ e ∈ (scheduleRandomnessTxns cfg m commit).deferred, e.1 = key) :
    key ∉ loadedKeys m commit := by
  obtain ⟨e, he, rfl⟩ := hkey
  intro hloaded
  obtain ⟨hne, hdefers⟩ := (schedule_looped cfg m commit).2.1 e he
  obtain ⟨tx, htx⟩ := exists_mem_of_ne_nil e.2 hne
  have := loads_of_mem_loadedKeys hloaded
  rw [not_loads_of_defersTo (hdefers tx htx)] at this
  cases this

def kept (m : DeferredMap) (commit : ScheduledCommit) : DeferredMap :=
  m.filter fun e => !loads commit e.1

theorem contents_kept (hm : NodupKeys m) :
    (contents (loadForRound m commit ++ loadForRandomness m commit) ++ contents (kept m commit)).Perm
      (contents m) :=
  ((contents_perm (loaded_perm hm)).append_right _).trans (contents_filter_perm _ m)

theorem get_kept (hm : NodupKeys m) (key : DeferralKey) :
    get key (kept m commit) = if key ∈ loadedKeys m commit then none else get key m := by
  rw [kept, get_filter hm (fun key => !loads commit key)]
  by_cases hloaded : key ∈ loadedKeys m commit
  · rw [if_pos hloaded, loads_of_mem_loadedKeys hloaded]
    rfl
  · rw [if_neg hloaded]
    cases hloads : loads commit key with
    | false => rfl
    | true =>
      -- a key that would be loaded and was not is not in the map
      refine (get_eq_none_of_forall fun e he heq => hloaded ?_).symm
      exact heq ▸ (mem_loadedKeys_iff he).mpr (heq ▸ hloads)

section

variable (hmerge : cfg.mergeCollidingDeferrals = true) (hm : NodupKeys m)
include hmerge hm

theorem get_remaining (key : DeferralKey) :
    get key (remaining (collectTransactionsToSchedule cfg m commit)) =
      match get key (scheduleRandomnessTxns cfg m commit).deferred with
      | some txns => some ((get key (kept m commit)).getD [] ++ txns)
      | none => get key (kept m commit) := by
  have hd := (schedule_looped cfg m commit).1
  obtain ⟨hnodup, _, hget, _⟩ := enterDeferred_looped hmerge hm hd []
  have hremaining : get key (remaining (collectTransactionsToSchedule cfg m commit)) =
      if key ∈ loadedKeys m commit then none
      else get key (collectTransactionsToSchedule cfg m commit).deferred := by
    refine (get_filter hnodup (fun key => decide (key ∉ loadedKeys m commit)) key).trans ?_
    by_cases hloaded : key ∈ loadedKeys m commit
    · simp [hloaded]
    · simp only [hloaded, not_false_eq_true, decide_true, if_true, if_false]
      rfl
  rw [hremaining, get_kept hm]
  show (if key ∈ loadedKeys m commit then none else get key
    ((scheduleRandomnessTxns cfg m commit).deferred.foldl (enterDeferred cfg) (m, [])).1) = _
  rw [hget key]
  cases hentered : get key (scheduleRandomnessTxns cfg m commit).deferred with
  | some txns =>
    have hnot := not_mem_loadedKeys ⟨_, (get_eq_some_iff hd).mp hentered, rfl⟩
    rw [if_neg hnot, if_neg hnot]
  | none => rfl

theorem nodupKeys_remaining :
    NodupKeys (remaining (collectTransactionsToSchedule cfg m commit)) :=
  (enterDeferred_looped hmerge hm (schedule_looped cfg m commit).1 []).1.filter _

/-- **A commit moves its transactions and loses none.** -/
theorem collected_perm :
    (contents (remaining (collectTransactionsToSchedule cfg m commit)) ++
      (collectTransactionsToSchedule cfg m commit).transactionsToSchedule ++
      (collectTransactionsToSchedule cfg m commit).randomnessTransactionsToSchedule).Perm
      (contents m ++ commit.userTransactions) := by
  have hd := (schedule_looped cfg m commit).1
  obtain ⟨hnodup, hperm, hget, _⟩ := enterDeferred_looped hmerge (hm.filter _) hd []
  have hremaining := contents_perm (perm_of_get_eq (nodupKeys_remaining hmerge hm) hnodup fun key =>
    (get_remaining hmerge hm key).trans (hget key).symm)
  have hplaced := (schedule_looped cfg m commit).2.2.1
  have hordered := ordered_perm cfg m commit
  have hkept := @contents_kept m commit hm
  rw [perm_iff_count]
  intro tx
  have h₁ := (hremaining.trans hperm).count_eq tx
  have h₂ := (hplaced.trans hordered).count_eq tx
  have h₃ := hkept.count_eq tx
  simp only [count_append, kept] at h₁ h₂ h₃ ⊢
  show _ + (scheduleTxns cfg m commit).scheduled.count tx +
    (scheduleRandomnessTxns cfg m commit).scheduled.count tx = _
  omega

end

end Collect

/-! ### The outcome of a commit -/

inductive CommitCase (s : HandlerState) (c : Collected) (out : CommitOutcome) : Prop
  | recorded (hpush : out.makeCheckpoint = true) (hstaged : out.staged = c.staged)
      (habandoned : out.abandoned = []) (hdeferred : out.state.deferred = remaining c)
      (hclosed : out.state.closed = true → s.closed = true ∨ c.deferred = [])
  | abandoned (hpush : out.makeCheckpoint = true)
      (hstaged : out.staged = (abandonDeferredTransactions c).1)
      (habandoned : out.abandoned = contents (remaining c)) (hdeferred : out.state.deferred = [])
  | ignored (hpush : out.makeCheckpoint = false) (hclosed : s.closed = true)
      (habandoned : out.abandoned = []) (hdeferred : out.state.deferred = c.deferred)

theorem filter_abandoned (c : Collected) :
    (c.deferred.filter fun e => e.1 ∉ (abandonDeferredTransactions c).1.deletedDeferredTxns) = [] := by
  refine filter_eq_nil_iff.mpr fun e he => ?_
  have hmem : e.1 ∈ c.staged.deletedDeferredTxns ++ (remaining c).map Prod.fst := by
    by_cases hdeleted : e.1 ∈ c.staged.deletedDeferredTxns
    · exact mem_append_left _ hdeleted
    · refine mem_append_right _ (mem_map_of_mem ?_)
      exact mem_filter.mpr ⟨he, decide_eq_true hdeleted⟩
  rw [decide_eq_true_iff, not_not]
  exact hmem

variable (cfg : SchedulerConfig)

theorem handleCommit_cases (s : HandlerState) (commit : ScheduledCommit) :
    CommitCase s (collectTransactionsToSchedule cfg s.deferred commit)
      (handleCommit cfg s commit) := by
  generalize hc : collectTransactionsToSchedule cfg s.deferred commit = c
  cases hfinal : (finalRound s commit c).1 with
  | true =>
    cases hdeferred : (finalRound s commit c).2 with
    | true =>
      refine .abandoned ?_ ?_ ?_ ?_
      · simp [handleCommit, hc, hfinal]
      · simp [handleCommit, hc, hfinal, hdeferred]
      · simp [handleCommit, hc, hfinal, hdeferred, abandonDeferredTransactions]
      · simp only [handleCommit, hc, hfinal, hdeferred, Bool.and_self, if_true, Bool.or_true]
        exact filter_abandoned c
    | false =>
      refine .recorded ?_ ?_ ?_ ?_ ?_
      · simp [handleCommit, hc, hfinal]
      · simp [handleCommit, hc, hfinal, hdeferred]
      · simp [handleCommit, hc, hfinal, hdeferred]
      · simp [handleCommit, hc, hfinal, hdeferred, remaining]
      · intro _
        right
        simp only [finalRound, Bool.or_eq_false_iff, Bool.not_eq_false', List.isEmpty_iff]
          at hdeferred
        exact hdeferred.2
  | false =>
    by_cases hignored : (commit.closing && s.closed) = true
    · obtain ⟨hclosing, hclosed⟩ := Bool.and_eq_true_iff.mp hignored
      exact .ignored (by simp [handleCommit, hc, hfinal, hclosing, hclosed]) hclosed
        (by simp [handleCommit, hc, hfinal]) (by simp [handleCommit, hc, hfinal, hclosing, hclosed])
    · have hpush : (!commit.closing || !s.closed) = true := by
        rw [← Bool.not_and, Bool.not_eq_true', ← Bool.not_eq_true]
        exact hignored
      refine .recorded ?_ ?_ ?_ ?_ ?_
      · simp [handleCommit, hc, hfinal, hpush]
      · simp [handleCommit, hc, hfinal]
      · simp [handleCommit, hc, hfinal]
      · simp [handleCommit, hc, hfinal, hpush, remaining]
      · intro hclosed
        left
        simpa [handleCommit, hc, hfinal] using hclosed

theorem collected_of_empty {commit : ScheduledCommit} (hnone : commit.userTransactions = []) :
    (collectTransactionsToSchedule cfg [] commit).deferred = [] ∧
    (collectTransactionsToSchedule cfg [] commit).transactionsToSchedule = [] ∧
    (collectTransactionsToSchedule cfg [] commit).randomnessTransactionsToSchedule = [] := by
  have hrandomness : loadForRandomness [] commit = [] := by
    rw [loadForRandomness]
    split_ifs <;> rfl
  have hreorder : reorder cfg [] = [] := perm_nil.mp (reorder_perm [])
  have hordered : orderedTxns cfg [] commit = [] := by
    simp [orderedTxns, loadForRound, contents, hnone, hreorder]
  have horderedRandomness : orderedRandomnessTxns cfg [] commit = [] := by
    simp [orderedRandomnessTxns, loadForRound, hrandomness, contents, hnone, hreorder]
  simp [collectTransactionsToSchedule, scheduleRandomnessTxns, scheduleTxns, hordered, horderedRandomness]

/-! ### The staged writes -/

section Staged

variable {cfg : SchedulerConfig} {m : DeferredMap} {commit : ScheduledCommit}

theorem collect_entries {d : DeferredMap} (hd : NodupKeys d)
    (f : DeferralKey × List Transaction → List Transaction) (key : DeferralKey) :
    collect (d.map fun e => (e.1, some (f e))) key =
      (get key d).map fun txns => some (f (key, txns)) := by
  cases hget : get key d with
  | none =>
    refine collect_eq_none fun v hv => ?_
    obtain ⟨e, he, heq⟩ := mem_map.mp hv
    cases heq
    rw [(get_eq_some_iff hd).mpr he] at hget
    cases hget
  | some txns =>
    have hmem := (get_eq_some_iff hd).mp hget
    refine collect_eq_some (mem_map.mpr ⟨_, hmem, rfl⟩) fun v hv => ?_
    obtain ⟨e, he, heq⟩ := mem_map.mp hv
    cases heq
    have hsame := (get_eq_some_iff hd).mpr he
    rw [hget, Option.some.injEq] at hsame
    rw [hsame]

theorem writes_collected (hmerge : cfg.mergeCollidingDeferrals = true) (hm : NodupKeys m)
    (key : DeferralKey) :
    ((collectTransactionsToSchedule cfg m commit).staged.writes key).getD (get key m) =
      get key (remaining (collectTransactionsToSchedule cfg m commit)) := by
  have hd := (schedule_looped cfg m commit).1
  have hstaged := (enterDeferred_looped hmerge hm hd []).2.2.2
  rw [nil_append] at hstaged
  have hwrites : (collectTransactionsToSchedule cfg m commit).staged.writes key =
      ((get key (scheduleRandomnessTxns cfg m commit).deferred).map fun txns =>
        some ((get key m).getD [] ++ txns)).or
        (if key ∈ loadedKeys m commit then some none else none) := by
    rw [StagedDeferrals.writes, collect_append]
    show (collect (List.map _ ((scheduleRandomnessTxns cfg m commit).deferred.foldl
      (enterDeferred cfg) (m, [])).2) key).or (collect (List.map _ (loadedKeys m commit)) key) = _
    rw [hstaged, map_map, collect_map_const]
    congr 1
    exact collect_entries hd (fun e => (get e.1 m).getD [] ++ e.2) key
  rw [hwrites, get_remaining hmerge hm, get_kept hm]
  cases hentered : get key (scheduleRandomnessTxns cfg m commit).deferred with
  | some txns =>
    simp [not_mem_loadedKeys ⟨_, (get_eq_some_iff hd).mp hentered, rfl⟩]
  | none => split_ifs <;> rfl

theorem writes_abandoned (hmerge : cfg.mergeCollidingDeferrals = true) (hm : NodupKeys m)
    (key : DeferralKey) :
    ((abandonDeferredTransactions (collectTransactionsToSchedule cfg m commit)).1.writes key).getD
      (get key m) = none := by
  have hwrites : (abandonDeferredTransactions (collectTransactionsToSchedule cfg m commit)).1.writes key =
      if key ∈ loadedKeys m commit ++
        (remaining (collectTransactionsToSchedule cfg m commit)).map Prod.fst then some none
      else none := by
    rw [StagedDeferrals.writes, collect_append]
    show (none : Option (Option (List Transaction))).or (collect (List.map _ (_ ++ _)) key) = _
    rw [collect_map_const]
    rfl
  rw [hwrites]
  split_ifs with hdeleted
  · rfl
  · rw [mem_append, not_or] at hdeleted
    obtain ⟨hloaded, hremaining⟩ := hdeleted
    -- an entry that was not loaded would remain
    cases hget : get key m with
    | none => rfl
    | some txns =>
      exfalso
      have hkept : get key (kept m commit) = some txns := by
        rw [get_kept hm, if_neg hloaded, hget]
      have hrest : ∃ rest, get key (remaining (collectTransactionsToSchedule cfg m commit)) =
          some rest := by
        rw [get_remaining hmerge hm, hkept]
        cases get key (scheduleRandomnessTxns cfg m commit).deferred <;> exact ⟨_, rfl⟩
      obtain ⟨rest, hrest⟩ := hrest
      exact hremaining (mem_map_of_mem ((get_eq_some_iff (nodupKeys_remaining hmerge hm)).mp hrest))

end Staged

/-! ### Runs -/

/-- The state between commits, with the transactions so far: those that were given, each with
    the round of its commit, and those that were scheduled or abandoned. -/
structure DeferralState where
  handler : HandlerState
  /-- The table of deferred transactions under the outputs so far. -/
  table : DeferralKey → Option (List Transaction)
  given : List (Round × Transaction)
  scheduled : List Transaction
  abandoned : List Transaction
  lastRound : Round

def DeferralState.start : DeferralState := ⟨⟨[], false⟩, fun _ => none, [], [], [], 0⟩

def DeferralState.next (r : DeferralState) (commit : ScheduledCommit) :
    DeferralState :=
  let out := handleCommit cfg r.handler commit
  { handler := out.state
    table := if out.makeCheckpoint then fun key => (out.staged.writes key).getD (r.table key)
      else r.table
    given := r.given ++ commit.userTransactions.map fun tx => (commit.round, tx)
    scheduled := r.scheduled ++ out.collected.transactionsToSchedule ++
      out.collected.randomnessTransactionsToSchedule
    abandoned := r.abandoned ++ out.abandoned
    lastRound := commit.round }

/-- What is known of a commit: its round is new, and so are its user transactions, of which
    the filter hands on none once all transactions are rejected. -/
structure Follows (r : DeferralState) (commit : ScheduledCommit) : Prop where
  increasing : r.lastRound < commit.round
  fresh : ((r.given ++ commit.userTransactions.map fun tx => (commit.round, tx)).map
    fun g => g.2.digest).Nodup
  closed : r.handler.closed = true → commit.userTransactions = []

inductive DeferralReachable (cfg : SchedulerConfig) : DeferralState → Prop
  | start : DeferralReachable cfg .start
  | commit {r : DeferralState} {commit : ScheduledCommit} (hr : DeferralReachable cfg r)
      (hcommit : Follows r commit) : DeferralReachable cfg (r.next cfg commit)

/-- A key under which the transaction may wait after a commit of the round. -/
def WaitsUnder (lastRound : Round) : DeferralKey → Transaction → Prop
  | .consensusRound future deferred, _ =>
    future = lastRound + 1 ∧ future - deferred ≤ cfg.maxDeferralRoundsForCongestionControl
  | .randomness _, tx => tx.usesRandomness = true

structure DeferralInv (cfg : SchedulerConfig) (r : DeferralState) : Prop where
  nodup : NodupKeys r.handler.deferred
  entries : EntriesMeet (fun key tx => (key.deferredFromRound, tx) ∈ r.given ∧
    WaitsUnder cfg r.lastRound key tx) r.handler.deferred
  places : (contents r.handler.deferred ++ r.scheduled ++ r.abandoned).Perm (r.given.map Prod.snd)
  distinct : (r.given.map fun g => g.2.digest).Nodup
  table : ∀ key, r.table key = get key r.handler.deferred
  closed : r.handler.closed = true → r.handler.deferred = []

section Runs

variable {cfg : SchedulerConfig} {r : DeferralState} {commit : ScheduledCommit}

theorem eq_of_digest_eq {given : List (Round × Transaction)}
    (hdistinct : (given.map fun g => g.2.digest).Nodup) {g g' : Round × Transaction}
    (hg : g ∈ given) (hg' : g' ∈ given) (hdigest : g.2.digest = g'.2.digest) : g = g' :=
  inj_on_of_nodup_map hdistinct hg hg' hdigest

/-- The key that is looked up for a digest is one under which a transaction with it was loaded. -/
theorem loaded_of_previouslyDeferred {m : DeferredMap} {digest : TransactionDigest}
    {key : DeferralKey} (h : previouslyDeferredTxDigests m commit digest = some key) :
    ∃ txns tx, (key, txns) ∈ m ∧ tx ∈ txns ∧ tx.digest = digest := by
  obtain ⟨e, he, hmem⟩ := mem_flatMap.mp (mem_of_collect_eq_some h)
  obtain ⟨tx, htx, heq⟩ := mem_map.mp hmem
  cases heq
  exact ⟨e.2, tx, (mem_loaded.mp he).1, htx, rfl⟩

section

variable (h : DeferralInv cfg r) (hcommit : Follows r commit)
include h hcommit

theorem DeferralInv.deferredFrom_mem {tx : Transaction}
    (htx : tx ∈ contents (loadForRound r.handler.deferred commit ++
      loadForRandomness r.handler.deferred commit) ++ commit.userTransactions) :
    (deferredFrom commit (previouslyDeferredTxDigests r.handler.deferred commit) tx, tx) ∈
      r.given ++ commit.userTransactions.map fun tx => (commit.round, tx) := by
  rw [deferredFrom]
  rcases mem_append.mp htx with hloaded | huser
  · obtain ⟨e, he, htx⟩ := mem_contents.mp hloaded
    have hgiven := ((h.entries e (mem_loaded.mp he).1).2 tx htx).1
    have hpair : tx.digest ∈ ((loadForRound r.handler.deferred commit ++
        loadForRandomness r.handler.deferred commit).flatMap fun e =>
          e.2.map fun tx => (tx.digest, e.1)).map Prod.fst :=
      mem_map.mpr ⟨(tx.digest, e.1), mem_flatMap.mpr ⟨e, he, mem_map.mpr ⟨tx, htx, rfl⟩⟩, rfl⟩
    obtain ⟨key, hkey⟩ := exists_collect_of_mem hpair
    obtain ⟨txns, tx', hmem, htx', hdigest⟩ := loaded_of_previouslyDeferred hkey
    have hgiven' := ((h.entries _ hmem).2 tx' htx').1
    have hsame := eq_of_digest_eq h.distinct hgiven' hgiven hdigest
    rw [Prod.mk.injEq] at hsame
    refine mem_append_left _ ?_
    rw [previouslyDeferredTxDigests, hkey]
    show (key.deferredFromRound, tx) ∈ r.given
    rw [hsame.1]
    exact hgiven
  · cases hkey : previouslyDeferredTxDigests r.handler.deferred commit tx.digest with
    | none => exact mem_append_right _ (mem_map.mpr ⟨tx, huser, rfl⟩)
    | some key =>
      -- a new transaction was not deferred before
      exfalso
      obtain ⟨txns, tx', hmem, htx', hdigest⟩ := loaded_of_previouslyDeferred hkey
      have hgiven' := ((h.entries _ hmem).2 tx' htx').1
      have hfresh := hcommit.fresh
      rw [map_append, nodup_append] at hfresh
      refine hfresh.2.2 _ (mem_map_of_mem hgiven') tx.digest ?_ hdigest
      rw [map_map]
      exact mem_map.mpr ⟨tx, huser, rfl⟩

theorem DeferralInv.waits_of_defersTo {key : DeferralKey} {tx : Transaction}
    (htx : tx ∈ contents (loadForRound r.handler.deferred commit ++
      loadForRandomness r.handler.deferred commit) ++ commit.userTransactions)
    (hdefers : DefersTo cfg commit (previouslyDeferredTxDigests r.handler.deferred commit) key tx) :
    (key.deferredFromRound, tx) ∈ (r.next cfg commit).given ∧
      WaitsUnder cfg commit.round key tx := by
  have hgiven := h.deferredFrom_mem hcommit htx
  rcases hdefers with ⟨rfl, hwithin⟩ | ⟨rfl, hready⟩
  · exact ⟨hgiven, rfl, of_decide_eq_true hwithin⟩
  · exact ⟨hgiven, (Bool.and_eq_true_iff.mp hready).2⟩

/-- The entries that a commit does not load are for randomness. -/
theorem DeferralInv.kept_entry {e : DeferralKey × List Transaction}
    (he : e ∈ kept r.handler.deferred commit) {tx : Transaction} (htx : tx ∈ e.2) :
    (e.1.deferredFromRound, tx) ∈ (r.next cfg commit).given ∧ WaitsUnder cfg commit.round e.1 tx := by
  obtain ⟨hmem, hnot⟩ := mem_filter.mp he
  obtain ⟨hgiven, hwaits⟩ := (h.entries e hmem).2 tx htx
  refine ⟨mem_append_left _ hgiven, ?_⟩
  obtain ⟨key, txns⟩ := e
  cases key with
  | randomness deferred => exact hwaits
  | consensusRound future deferred =>
    -- such a key is for the round after the last commit, so this commit loads it
    exfalso
    have hloads : loads commit (.consensusRound future deferred) = true := by
      rw [loads, Bool.or_eq_true]
      refine .inl (inRangeForUpToConsensusRound_iff.mpr ⟨future, deferred, rfl, ?_⟩)
      rw [hwaits.1]
      exact hcommit.increasing
    rw [hloads] at hnot
    cases hnot

end

theorem DeferralInv.entries_remaining (hmerge : cfg.mergeCollidingDeferrals = true)
    (h : DeferralInv cfg r) (hcommit : Follows r commit) :
    EntriesMeet (fun key tx => (key.deferredFromRound, tx) ∈ (r.next cfg commit).given ∧
      WaitsUnder cfg commit.round key tx)
      (remaining (collectTransactionsToSchedule cfg r.handler.deferred commit)) := by
  have hlooped := schedule_looped cfg r.handler.deferred commit
  have hkeptNodup : NodupKeys (kept r.handler.deferred commit) := h.nodup.filter _
  rintro ⟨key, txns⟩ he
  have hget := (get_eq_some_iff (nodupKeys_remaining hmerge h.nodup)).mpr he
  rw [get_remaining hmerge h.nodup] at hget
  cases hentered : get key (scheduleRandomnessTxns cfg r.handler.deferred commit).deferred with
  | none =>
    rw [hentered] at hget
    have hmem := (get_eq_some_iff hkeptNodup).mp hget
    exact ⟨(h.entries _ (mem_filter.mp hmem).1).1, fun tx htx => h.kept_entry hcommit hmem htx⟩
  | some new =>
    rw [hentered] at hget
    cases hget
    have hmem := (get_eq_some_iff hlooped.1).mp hentered
    obtain ⟨hne, hdefers⟩ := hlooped.2.1 _ hmem
    refine ⟨fun hnil => hne (append_eq_nil_iff.mp hnil).2, fun tx htx => ?_⟩
    rcases mem_append.mp htx with hold | hnew
    · cases hkept : get key (kept r.handler.deferred commit) with
      | none =>
        rw [hkept] at hold
        cases hold
      | some old =>
        rw [hkept] at hold
        exact h.kept_entry hcommit ((get_eq_some_iff hkeptNodup).mp hkept) hold
    · refine h.waits_of_defersTo hcommit ?_ (hdefers tx hnew)
      rw [← (ordered_perm cfg r.handler.deferred commit).mem_iff, ← hlooped.2.2.1.mem_iff]
      exact mem_append_left _ (mem_append_left _ (mem_contents.mpr ⟨_, hmem, hnew⟩))

theorem given_next_snd (cfg : SchedulerConfig) (r : DeferralState) (commit : ScheduledCommit) :
    (r.next cfg commit).given.map Prod.snd = r.given.map Prod.snd ++ commit.userTransactions := by
  simp [DeferralState.next, Function.comp_def]

/-- The places of the transactions after a commit, from the entries that it leaves and the
    transactions that it abandons. -/
theorem DeferralInv.places_next (hmerge : cfg.mergeCollidingDeferrals = true)
    (h : DeferralInv cfg r) {deferred : DeferredMap} {abandoned : List Transaction}
    (hleft : (contents deferred ++ abandoned).Perm
      (contents (remaining (collectTransactionsToSchedule cfg r.handler.deferred commit)))) :
    (contents deferred ++ (r.next cfg commit).scheduled ++ (r.abandoned ++ abandoned)).Perm
      ((r.next cfg commit).given.map Prod.snd) := by
  rw [given_next_snd, perm_iff_count]
  intro tx
  have h₁ := hleft.count_eq tx
  have h₂ := (@collected_perm cfg r.handler.deferred commit hmerge h.nodup).count_eq tx
  have h₃ := h.places.count_eq tx
  have hscheduled : (r.next cfg commit).scheduled = r.scheduled ++
      (collectTransactionsToSchedule cfg r.handler.deferred commit).transactionsToSchedule ++
      (collectTransactionsToSchedule cfg r.handler.deferred commit).randomnessTransactionsToSchedule :=
    rfl
  rw [hscheduled]
  simp only [count_append] at h₁ h₂ h₃ ⊢
  omega

theorem remaining_of_deferred_nil {c : Collected} (h : c.deferred = []) : remaining c = [] := by
  rw [remaining, h]
  rfl

theorem DeferralInv.next (hmerge : cfg.mergeCollidingDeferrals = true) (h : DeferralInv cfg r)
    (hcommit : Follows r commit) : DeferralInv cfg (r.next cfg commit) := by
  have hclosed : r.handler.closed = true →
      (collectTransactionsToSchedule cfg r.handler.deferred commit).deferred = [] := by
    intro hclosed
    rw [h.closed hclosed]
    exact (collected_of_empty cfg (hcommit.closed hclosed)).1
  have htable : r.table = fun key => get key r.handler.deferred := funext h.table
  have hcases := handleCommit_cases cfg r.handler commit
  cases hcases with
  | recorded hpush hstaged habandoned hdeferred hfinal =>
    have hnext : (r.next cfg commit).handler.deferred =
        remaining (collectTransactionsToSchedule cfg r.handler.deferred commit) := hdeferred
    refine ⟨?_, ?_, ?_, hcommit.fresh, ?_, ?_⟩
    · rw [hnext]
      exact nodupKeys_remaining hmerge h.nodup
    · rw [hnext]
      exact h.entries_remaining hmerge hcommit
    · rw [hnext]
      refine h.places_next hmerge ?_
      rw [habandoned, append_nil]
    · intro key
      rw [hnext, ← writes_collected hmerge h.nodup]
      simp only [DeferralState.next, hpush, hstaged, htable, if_true]
    · intro hclose
      rw [hnext]
      exact remaining_of_deferred_nil ((hfinal hclose).elim hclosed id)
  | abandoned hpush hstaged habandoned hdeferred =>
    have hnext : (r.next cfg commit).handler.deferred = [] := hdeferred
    refine ⟨?_, ?_, ?_, hcommit.fresh, ?_, fun _ => hnext⟩
    · rw [hnext]
      exact nodup_nil
    · rw [hnext]
      exact forall_mem_nil _
    · rw [hnext]
      refine h.places_next hmerge ?_
      rw [habandoned]
      exact .refl _
    · intro key
      rw [hnext]
      refine Eq.trans ?_ (@writes_abandoned cfg r.handler.deferred commit hmerge h.nodup key)
      simp only [DeferralState.next, hpush, hstaged, htable, if_true]
  | ignored hpush hwasClosed habandoned hdeferred =>
    have hnext : (r.next cfg commit).handler.deferred = [] := hdeferred.trans (hclosed hwasClosed)
    refine ⟨?_, ?_, ?_, hcommit.fresh, ?_, fun _ => hnext⟩
    · rw [hnext]
      exact nodup_nil
    · rw [hnext]
      exact forall_mem_nil _
    · rw [hnext]
      refine h.places_next hmerge ?_
      rw [habandoned, remaining_of_deferred_nil (hclosed hwasClosed)]
      exact .refl _
    · intro key
      rw [hnext]
      have hsame : (r.next cfg commit).table = r.table := by
        simp [DeferralState.next, hpush]
      rw [hsame, h.table, h.closed hwasClosed]

theorem deferralInv_of_reachable (hmerge : cfg.mergeCollidingDeferrals = true)
    (h : DeferralReachable cfg r) : DeferralInv cfg r := by
  induction h with
  | start =>
    exact ⟨nodup_nil, nofun, .refl _, nodup_nil,
      fun _ => rfl, fun _ => rfl⟩
  | commit _ hcommit ih => exact ih.next hmerge hcommit

end Runs

/-- **Deferral loses no transaction and schedules none twice.**  After every commit, the
    transactions so far are those in the entries of the map, those that were scheduled and
    those that were abandoned, each once; the table under the staged deletions and insertions
    has the entries of the map; a transaction without randomness that has waited for longer
    than the limit is not in the map any more; and a commit cancels only transactions that it
    schedules. -/
theorem deferral_exactly_one_place (hmerge : cfg.mergeCollidingDeferrals = true) (r : DeferralState)
    (hreach : DeferralReachable cfg r) :
    ((contents r.handler.deferred ++ r.scheduled ++ r.abandoned).map Transaction.digest).Nodup ∧
    (∀ tx, tx ∈ contents r.handler.deferred ++ r.scheduled ++ r.abandoned ↔
      ∃ round, (round, tx) ∈ r.given) ∧
    (NodupKeys r.handler.deferred ∧ ∀ key, r.table key = get key r.handler.deferred) ∧
    (∀ round tx, (round, tx) ∈ r.given → tx.usesRandomness = false →
      r.lastRound + 1 - round > cfg.maxDeferralRoundsForCongestionControl →
      tx ∈ r.scheduled ∨ tx ∈ r.abandoned) ∧
    ∀ commit, ∀ c ∈ (collectTransactionsToSchedule cfg r.handler.deferred commit).cancelledTxns,
      ∃ tx ∈ (collectTransactionsToSchedule cfg r.handler.deferred commit).transactionsToSchedule ++
        (collectTransactionsToSchedule cfg r.handler.deferred commit).randomnessTransactionsToSchedule,
        tx.digest = c.1 := by
  have hinv := deferralInv_of_reachable hmerge hreach
  have hmem : ∀ tx, tx ∈ contents r.handler.deferred ++ r.scheduled ++ r.abandoned ↔
      ∃ round, (round, tx) ∈ r.given := by
    intro tx
    rw [hinv.places.mem_iff, mem_map]
    constructor
    · rintro ⟨⟨round, tx'⟩, hgiven, rfl⟩
      exact ⟨round, hgiven⟩
    · rintro ⟨round, hgiven⟩
      exact ⟨_, hgiven, rfl⟩
  refine ⟨?_, hmem, ⟨hinv.nodup, hinv.table⟩, ?_, ?_⟩
  · rw [(hinv.places.map Transaction.digest).nodup_iff, map_map]
    exact hinv.distinct
  · intro round tx hgiven hplain hlate
    rcases mem_append.mp ((hmem tx).mpr ⟨round, hgiven⟩) with hplace | habandoned
    · rcases mem_append.mp hplace with hdeferred | hscheduled
      · exfalso
        obtain ⟨⟨key, txns⟩, he, htx⟩ := mem_contents.mp hdeferred
        obtain ⟨hgiven', hwaits⟩ := (hinv.entries _ he).2 tx htx
        have hsame := eq_of_digest_eq hinv.distinct hgiven' hgiven rfl
        rw [Prod.mk.injEq] at hsame
        cases key with
        | randomness deferred =>
          have hrandomness : tx.usesRandomness = true := hwaits
          rw [hplain] at hrandomness
          cases hrandomness
        | consensusRound future deferred =>
          obtain ⟨hfuture, hlimit⟩ := hwaits
          have hround : deferred = round := hsame.1
          rw [hfuture, hround] at hlimit
          exact absurd hlimit (Nat.not_le.mpr hlate)
      · exact .inl hscheduled
    · exact .inr habandoned
  · intro commit
    exact (schedule_looped cfg r.handler.deferred commit).2.2.2

/-! A transaction that is deferred for a double spend, and cancelled for congestion after the
limit. -/

def oneRoundLimit : SchedulerConfig where
  deferUnpaidAmplification := true
  deferOwnedObjectDoubleSpend := true
  randomnessStateEnabled := true
  mergeCollidingDeferrals := true
  maxDeferralRoundsForCongestionControl := 1
  orderByGasPrice := true
  referenceGasPrice := 1000

def contestedCommit : ScheduledCommit where
  round := 1
  userTransactions := [⟨7, [⟨1, 1, .mutable⟩], [], [], 1000, false⟩]
  dkgFailed := false
  generatingRandomness := false
  occurrenceCounts := fun _ => some 1
  contested := fun digest => digest == 7
  congestedObjects := fun _ _ _ => none
  closing := false
  deadlineReached := false

def congestedCommit : ScheduledCommit := { contestedCommit with
  round := 2
  userTransactions := []
  contested := fun _ => false
  congestedObjects := fun _ _ _ => some [1] }

theorem deferral_exactly_one_place_cancelled :
    ∃ r, DeferralReachable oneRoundLimit r ∧ r.lastRound = 2 ∧
      ∀ tx ∈ contestedCommit.userTransactions, tx ∈ r.scheduled ∨ tx ∈ r.abandoned := by
  have hfirst : Follows .start contestedCommit := ⟨by decide, by decide, by decide⟩
  have hreach : DeferralReachable oneRoundLimit (DeferralState.start.next oneRoundLimit contestedCommit) :=
    .commit .start hfirst
  have hsecond : Follows (DeferralState.start.next oneRoundLimit contestedCommit) congestedCommit :=
    ⟨by decide, by decide, fun _ => rfl⟩
  have hreach' := DeferralReachable.commit hreach hsecond
  refine ⟨_, hreach', rfl, fun tx htx => ?_⟩
  have hone := deferral_exactly_one_place oneRoundLimit rfl _ hreach'
  rw [contestedCommit, mem_singleton] at htx
  subst htx
  exact hone.2.2.2.1 1 _ (by decide) (by decide) (by decide)

end Haneul.Authority
