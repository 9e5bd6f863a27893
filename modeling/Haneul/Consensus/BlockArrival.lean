import Haneul.Consensus.BlockManagerRuns

/-!
# Runs of the block manager

A run interleaves the calls of the block manager with the other changes of the
`DagState`.  The bookkeeping holds in every state of a run, and no call aborts.

Where blocks only arrive, the outcome does not depend on their order: it is the settled
state of the blocks that waited at the start and of those that arrived.
-/

namespace Haneul.Consensus

open Quorum DagState BlockManager List

namespace ManagedDag

variable {context : Context} {U : BlockUniverse context}

theorem Bookkeeping.evolves {s : ManagedDag} (h : Bookkeeping U none s) {dag : DagState}
    (hevolves : Evolves U s.dag dag) : Bookkeeping U none { s with dag := dag } where
  accepting := hevolves.accepting
  linked := h.linked
  missing := h.missing
  block_mem := h.block_mem
  waits := h.waits
  accepted := by
    intro r sb hsb a ha hround
    have hbefore := hevolves.gcRound_le.trans_lt hround
    refine (h.accepted hsb a ha hbefore).imp_right fun hk => .inl ?_
    exact hevolves.kept (h.accepting.tracked a hk hbefore) hround
  fresh := fun r hr hk => h.fresh r hr (hevolves.known hk)
  absent := fun r hr hne hk => h.absent r hr hne (hevolves.known hk)
  batches := h.batches

inductive Step (U : BlockUniverse context) (s : ManagedDag) : ManagedDag → Prop where
  | tryAcceptBlocks {blocks : List VerifiedBlock} {progress : Progress}
      (verified : ∀ b ∈ blocks, b ∈ U.blocks)
      (run : ManagedDag.tryAcceptBlocks context s blocks = .ok progress) : Step U s progress.node
  | tryAcceptCommittedBlocks {blocks : List VerifiedBlock} {progress : Progress}
      (batch : CommittedBatch U s blocks)
      (run : ManagedDag.tryAcceptCommittedBlocks context s blocks = .ok progress) :
      Step U s progress.node
  | tryFindBlocks (blockRefs : List BlockRef) :
      Step U s (ManagedDag.tryFindBlocks context s blockRefs).1
  | tryUnsuspendBlocksForLatestGcRound {s' : ManagedDag}
      (run : ManagedDag.tryUnsuspendBlocksForLatestGcRound context s = .ok s') : Step U s s'
  | setCommitted {r : BlockRef} {dag : DagState} {new : Bool}
      (run : s.dag.setCommitted r = .ok (dag, new)) : Step U s { s with dag := dag }
  | addCommit {commit : Commit} {dag : DagState} (advances : Advances context s.dag commit)
      (run : s.dag.addCommit commit = .ok dag) : Step U s { s with dag := dag }
  | flush (otherPending : Bool) : Step U s { s with dag := s.dag.flush context otherPending }

/-- The states of a run.  It starts with an empty manager, on a new or a recovered
    `DagState`. -/
inductive Reachable (U : BlockUniverse context) : ManagedDag → Prop where
  | init {dag : DagState} (accepting : Accepting U dag) : Reachable U { dag := dag }
  | step {s s' : ManagedDag} (reachable : Reachable U s) (step : Step U s s') : Reachable U s'

theorem bookkeeping_init {dag : DagState} (h : Accepting U dag) :
    Bookkeeping U none { dag := dag } where
  accepting := h
  linked := ⟨by simp, by simp, by simp⟩
  missing := by simp
  block_mem := by simp
  waits := by simp
  accepted := by simp
  fresh := by simp
  absent := by simp
  batches := by simp

theorem Bookkeeping.step (hquorum : 0 < context.committee.quorumThreshold) {s s' : ManagedDag}
    (h : Bookkeeping U none s) (hstep : Step U s s') : Bookkeeping U none s' := by
  cases hstep with
  | tryAcceptBlocks verified run =>
    rcases tryAcceptBlocks_spec hquorum h verified with ⟨panic, herror, -⟩ | ⟨progress, hok, hkeeps⟩
    · rw [run] at herror
      cases herror
    · rw [run] at hok
      cases hok
      exact hkeeps.bookkeeping
  | tryAcceptCommittedBlocks batch run =>
    rcases tryAcceptCommittedBlocks_spec hquorum h batch with
      ⟨panic, herror, -⟩ | ⟨progress, hok, hkeeps⟩
    · rw [run] at herror
      cases herror
    · rw [run] at hok
      cases hok
      exact hkeeps.bookkeeping
  | tryFindBlocks blockRefs => exact (tryFindBlocks_spec h blockRefs).bookkeeping
  | tryUnsuspendBlocksForLatestGcRound run =>
    rcases tryUnsuspendBlocksForLatestGcRound_spec hquorum h with
      ⟨panic, herror, -⟩ | ⟨progress, hok, hkeeps, -⟩
    · rw [run] at herror
      cases herror
    · rw [run] at hok
      cases hok
      exact hkeeps.bookkeeping
  | setCommitted run =>
    exact h.evolves (Evolves.sameBlocks h.accepting (setCommitted_sameBlocks run))
  | addCommit advances run => exact h.evolves (Evolves.addCommit h.accepting advances run)
  | flush otherPending => exact h.evolves (Evolves.flush h.accepting otherPending)

theorem Reachable.bookkeeping (hquorum : 0 < context.committee.quorumThreshold) {s : ManagedDag}
    (h : Reachable U s) : Bookkeeping U none s := by
  induction h with
  | init accepting => exact bookkeeping_init accepting
  | step _ step ih => exact ih.step hquorum step

/-! ### The order of arrival -/

/-- What is waited for after some blocks have arrived at `start`, as if none had been
    released since. -/
def awaited (context : Context) (start : ManagedDag) (arrived : List VerifiedBlock)
    (r : BlockRef) : Option (Finset BlockRef) :=
  match start.pool r with
  | some missing => some missing
  | none =>
    if start.dag.containsBlock context r ∨ r.round ≤ start.dag.gcRound context then none
    else (arrived.find? fun b => b.reference = r).map fun b =>
      (missingAncestorsOf context start.dag b).toFinset

variable {start : ManagedDag} {arrived : List VerifiedBlock}

theorem awaited_eq_some
    (harrived : ∀ b ∈ arrived, b ∈ U.blocks) {r : BlockRef} {m : Finset BlockRef} :
    awaited context start arrived r = some m ↔
      start.pool r = some m ∨
      start.pool r = none ∧ ¬ (start.dag.containsBlock context r = true ∨
        r.round ≤ start.dag.gcRound context) ∧
      ∃ b ∈ arrived, b.reference = r ∧ (missingAncestorsOf context start.dag b).toFinset = m := by
  unfold awaited
  cases hpool : start.pool r with
  | some missing => simp
  | none =>
    dsimp only
    split_ifs with hold
    · simp [hold]
    · rw [Option.map_eq_some_iff]
      simp only [false_or, true_and, hold, not_false_eq_true]
      constructor
      · rintro ⟨b, hb, rfl⟩
        exact ⟨b, mem_of_find?_eq_some hb, by simpa using List.find?_some hb, rfl⟩
      · rintro ⟨b, hb, rfl, rfl⟩
        have hsome : (arrived.find? fun b' => b'.reference = b.reference).isSome :=
          List.find?_isSome.mpr ⟨b, hb, decide_eq_true rfl⟩
        obtain ⟨b', hb'⟩ := Option.isSome_iff_exists.mp hsome
        have href : b'.reference = b.reference := by simpa using List.find?_some hb'
        have heq := U.reference_inj (harrived b' (mem_of_find?_eq_some hb')) (harrived b hb) href
        exact ⟨b', hb', by rw [heq]⟩

theorem awaited_congr {arrived arrived' : List VerifiedBlock}
    (harrived : ∀ b ∈ arrived, b ∈ U.blocks) (hsame : ∀ b, b ∈ arrived ↔ b ∈ arrived') :
    awaited context start arrived = awaited context start arrived' := by
  funext r
  refine Option.ext fun m => ?_
  rw [awaited_eq_some harrived, awaited_eq_some fun b hb => harrived b ((hsame b).mpr hb)]
  simp only [hsame]

theorem Bookkeeping.awaited_round (h : Bookkeeping U none start)
    (harrived : ∀ b ∈ arrived, b ∈ U.blocks) {r : BlockRef} {m : Finset BlockRef}
    (hm : awaited context start arrived r = some m) :
    ∀ a ∈ m, a.round < r.round := by
  intro a ha
  rcases (awaited_eq_some harrived).mp hm with hpool | ⟨-, -, b, hb, rfl, rfl⟩
  · obtain ⟨sb, hsb, rfl⟩ := pool_eq_some.mp hpool
    have hlower := (U.wellFormed (h.block_mem hsb)).ancestor_round a (h.waits hsb a ha)
    rw [← VerifiedBlock.reference_round, h.linked.reference hsb] at hlower
    exact hlower
  · have hmem := (mem_missingAncestorsOf h.accepting (harrived b hb)).mp (mem_toFinset.mp ha)
    exact (U.wellFormed (harrived b hb)).ancestor_round a hmem.1

theorem Bookkeeping.settles_arrival {start s s' : ManagedDag} (h : Bookkeeping U none start)
    (harrived : ∀ b ∈ arrived, b ∈ U.blocks) {block : VerifiedBlock} (hblock : block ∈ U.blocks)
    (hkeeps : Keeps U start s)
    (hsettles : Settles (awaited context start arrived) {r | Known start.dag r}
      s.pool {r | Known s.dag r}) (harrives : Arrives context s block s') :
    Settles (awaited context start (arrived ++ [block])) {r | Known start.dag r}
      s'.pool {r | Known s'.dag r} := by
  have harrived' : ∀ b ∈ arrived ++ [block], b ∈ U.blocks :=
    forall_mem_append.mpr ⟨harrived, forall_mem_singleton.mpr hblock⟩
  have hgc := hkeeps.gcRound
  cases harrives with
  | old ignored hpool hknown =>
    -- the block was waiting or accepted, or is of no use
    have hagain : start.pool block.reference = none →
        ¬ (start.dag.containsBlock context block.reference = true ∨
          block.round ≤ start.dag.gcRound context) →
        ∃ b ∈ arrived, b.reference = block.reference := by
      intro hnone hfresh
      obtain ⟨hcontains, hround⟩ := not_or.mp hfresh
      have hsome : ∃ m, awaited context start arrived block.reference = some m := by
        rcases ignored with hin | hk | hlow
        · obtain ⟨sb, hsb⟩ := (Map.mem_iff _ _).mp hin
          obtain ⟨m, hm, -⟩ := hsettles.waiting.mp (pool_eq_some.mpr ⟨sb, hsb, rfl⟩)
          exact ⟨m, hm⟩
        · rcases hsettles.grounded hk with hk | ⟨m, hm, -⟩
          · exact absurd ((h.known_iff (Nat.lt_of_not_le hround)).mpr hk) hcontains
          · exact ⟨m, hm⟩
        · exact absurd (hgc ▸ hlow) hround
      obtain ⟨m, hm⟩ := hsome
      rcases (awaited_eq_some harrived).mp hm with hm | ⟨-, -, b, hb, href, -⟩
      · rw [hnone] at hm
        cases hm
      · exact ⟨b, hb, href⟩
    have hsame : awaited context start (arrived ++ [block]) = awaited context start arrived := by
      funext r
      refine Option.ext fun m => ?_
      rw [awaited_eq_some harrived', awaited_eq_some harrived]
      refine or_congr_right (and_congr_right fun hnone => and_congr_right fun hfresh => ?_)
      constructor
      · rintro ⟨b, hb, rfl, hm⟩
        rcases mem_append.mp hb with hb | hb
        · exact ⟨b, hb, rfl, hm⟩
        · rw [mem_singleton.mp hb] at hnone hfresh hm ⊢
          obtain ⟨b', hb', href⟩ := hagain hnone hfresh
          exact ⟨b', hb', href, by rw [U.reference_inj (harrived b' hb') hblock href]; exact hm⟩
      · rintro ⟨b, hb, hm⟩
        exact ⟨b, mem_append_left _ hb, hm⟩
    have hset : {r | Known s'.dag r} = {r | Known s.dag r} := Set.ext hknown
    rw [hsame, hpool, hset]
    exact hsettles
  | new fresh missing mem_missing settles =>
    obtain ⟨hnot, hunknown, hround⟩ := fresh
    have hnone : awaited context start arrived block.reference = none := by
      cases hm : awaited context start arrived block.reference with
      | none => rfl
      | some m =>
        rcases hsettles.accepted_or_waiting hm with hk | ⟨m', hm', -⟩
        · exact absurd hk hunknown
        · obtain ⟨sb, hsb, -⟩ := pool_eq_some.mp hm'
          exact absurd (Map.mem_of_get hsb) hnot
    have hpool : start.pool block.reference = none := by
      cases hm : start.pool block.reference with
      | none => rfl
      | some m => rw [(awaited_eq_some harrived).mpr (.inl hm)] at hnone; cases hnone
    have hfresh : ¬ (start.dag.containsBlock context block.reference = true ∨
        block.round ≤ start.dag.gcRound context) := by
      rw [hgc] at hround
      rintro (hcontains | hlow)
      · exact hunknown (hkeeps.known ((h.known_iff hround).mp hcontains))
      · omega
    have hupdate : awaited context start (arrived ++ [block]) =
        Function.update (awaited context start arrived) block.reference
          (some (missingAncestorsOf context start.dag block).toFinset) := by
      funext r
      by_cases hr : r = block.reference
      · subst hr
        rw [Function.update_self]
        exact (awaited_eq_some harrived').mpr (.inr ⟨hpool, hfresh, block, by simp, rfl, rfl⟩)
      · rw [Function.update_of_ne hr]
        refine Option.ext fun m => ?_
        rw [awaited_eq_some harrived', awaited_eq_some harrived]
        refine or_congr_right (and_congr_right fun _ => and_congr_right fun _ => ?_)
        constructor
        · rintro ⟨b, hb, rfl, hm⟩
          rcases mem_append.mp hb with hb | hb
          · exact ⟨b, hb, rfl, hm⟩
          · exact absurd (congrArg VerifiedBlock.reference (mem_singleton.mp hb)) hr
        · rintro ⟨b, hb, hm⟩
          exact ⟨b, mem_append_left _ hb, hm⟩
    rw [hupdate]
    refine hsettles.arrive hnone (fun a => ?_) settles
    rw [mem_missing a, mem_toFinset, mem_missingAncestorsOf h.accepting hblock, hgc]
    constructor
    · rintro ⟨ha, habove, hk⟩
      exact ⟨⟨ha, habove, fun hk₀ => hk (hkeeps.known hk₀)⟩, hk⟩
    · rintro ⟨⟨ha, habove, -⟩, hk⟩
      exact ⟨ha, habove, hk⟩

theorem Bookkeeping.settles_arrivals (hquorum : 0 < context.committee.quorumThreshold)
    {start : ManagedDag} (h : Bookkeeping U none start) {blocks : List VerifiedBlock}
    (hblocks : ∀ b ∈ blocks, b ∈ U.blocks) :
    ∀ {arrived : List VerifiedBlock} {progress progress' : Progress},
      (∀ b ∈ arrived, b ∈ U.blocks) → Keeps U start progress.node →
      Settles (awaited context start arrived) {r | Known start.dag r}
        progress.node.pool {r | Known progress.node.dag r} →
      blocks.foldlM (processBlock context) progress = .ok progress' →
      Keeps U start progress'.node ∧
        Settles (awaited context start (arrived ++ blocks)) {r | Known start.dag r}
          progress'.node.pool {r | Known progress'.node.dag r} := by
  induction blocks with
  | nil =>
    intro arrived progress progress' _ hkeeps hsettles hrun
    cases hrun
    rw [append_nil]
    exact ⟨hkeeps, hsettles⟩
  | cons block rest ih =>
    intro arrived progress progress' harrived hkeeps hsettles hrun
    have hblock := hblocks block (.head _)
    obtain ⟨progress₁, hfirst, hrest⟩ := foldlM_cons_eq_ok.mp hrun
    rcases processBlock_spec hquorum hkeeps.bookkeeping hblock with
      ⟨panic, herror, -⟩ | ⟨progress₂, hok, hkeeps₁, harrives⟩
    · rw [hfirst] at herror
      cases herror
    · rw [hfirst] at hok
      cases hok
      have hsettles₁ := h.settles_arrival harrived hblock hkeeps hsettles harrives
      rw [← singleton_append, ← append_assoc]
      exact ih (fun b hb => hblocks b (.tail block hb))
        (forall_mem_append.mpr ⟨harrived, forall_mem_singleton.mpr hblock⟩)
        (hkeeps.trans hkeeps₁) hsettles₁ hrest

/-- Blocks that arrive in batches. -/
def acceptBatch (context : Context) (s : ManagedDag) (batch : List VerifiedBlock) :
    Except ManagerPanic ManagedDag := do
  let progress ← tryAcceptBlocks context s batch
  return progress.node

def acceptBatches (context : Context) (s : ManagedDag) (batches : List (List VerifiedBlock)) :
    Except ManagerPanic ManagedDag :=
  batches.foldlM (acceptBatch context) s

theorem Bookkeeping.settles_batches (hquorum : 0 < context.committee.quorumThreshold)
    {start : ManagedDag} (h : Bookkeeping U none start) {batches : List (List VerifiedBlock)}
    (hblocks : ∀ b ∈ batches.flatten, b ∈ U.blocks) :
    ∀ {arrived : List VerifiedBlock} {s s' : ManagedDag},
      (∀ b ∈ arrived, b ∈ U.blocks) → Keeps U start s →
      Settles (awaited context start arrived) {r | Known start.dag r} s.pool {r | Known s.dag r} →
      acceptBatches context s batches = .ok s' →
      Keeps U start s' ∧
        Settles (awaited context start (arrived ++ batches.flatten)) {r | Known start.dag r}
          s'.pool {r | Known s'.dag r} := by
  induction batches with
  | nil =>
    intro arrived s s' _ hkeeps hsettles hrun
    cases hrun
    rw [flatten_nil, append_nil]
    exact ⟨hkeeps, hsettles⟩
  | cons batch rest ih =>
    intro arrived s s' harrived hkeeps hsettles hrun
    rw [flatten_cons] at hblocks ⊢
    have hbatch : ∀ b ∈ sortByRound batch, b ∈ U.blocks := fun b hb =>
      hblocks b (mem_append_left _ (mem_sortByRound.mp hb))
    obtain ⟨s₁, hfirst, hrest⟩ := foldlM_cons_eq_ok.mp hrun
    obtain ⟨progress, hprogress, hs₁⟩ := bind_eq_ok.mp hfirst
    cases hs₁
    obtain ⟨hkeeps₁, hsettles₁⟩ := @Bookkeeping.settles_arrivals context U hquorum start h
      (sortByRound batch) hbatch arrived { node := s } progress harrived hkeeps hsettles hprogress
    have harrived₁ : ∀ b ∈ arrived ++ sortByRound batch, b ∈ U.blocks :=
      forall_mem_append.mpr ⟨harrived, hbatch⟩
    have hperm : awaited context start (arrived ++ sortByRound batch) =
        awaited context start (arrived ++ batch) :=
      awaited_congr harrived₁ fun b => by
        rw [mem_append, mem_append, mem_sortByRound]
    rw [hperm] at hsettles₁
    rw [← append_assoc]
    refine ih (fun b hb => hblocks b (mem_append_right _ hb)) (fun b hb => ?_) hkeeps₁
      hsettles₁ hrest
    exact harrived₁ b (mem_append.mpr ((mem_append.mp hb).imp_right mem_sortByRound.mpr))

theorem suspendedBlocks_eq {s₁ s₂ : ManagedDag} (h₁ : Bookkeeping U none s₁)
    (h₂ : Bookkeeping U none s₂) (hpool : s₁.pool = s₂.pool) :
    s₁.manager.suspendedBlocks = s₂.manager.suspendedBlocks := by
  have hsub : ∀ {s s' : ManagedDag}, Bookkeeping U none s → Bookkeeping U none s' →
      s.pool = s'.pool → ∀ {r : BlockRef} {sb : SuspendedBlock},
        s.manager.suspendedBlocks[r]? = some sb → s'.manager.suspendedBlocks[r]? = some sb := by
    intro s s' h h' hsame r sb hsb
    have hm := pool_eq_some.mpr ⟨sb, hsb, rfl⟩
    rw [hsame] at hm
    obtain ⟨sb', hsb', hmissing⟩ := pool_eq_some.mp hm
    have hblock := U.reference_inj (h'.block_mem hsb') (h.block_mem hsb)
      ((h'.linked.reference hsb').trans (h.linked.reference hsb).symm)
    rw [hsb']
    cases sb
    cases sb'
    exact congrArg some (congrArg₂ SuspendedBlock.mk hblock hmissing)
  refine Std.ExtTreeMap.ext_getElem? fun r => Option.ext fun sb => ?_
  exact ⟨fun hsb => hsub h₁ h₂ hpool hsb, fun hsb => hsub h₂ h₁ hpool.symm hsb⟩

/-- A call returns, unless the node itself has signed two blocks for one slot. -/
def Returns {α : Type} (U : BlockUniverse context) (s : ManagedDag)
    (result : Except ManagerPanic α) : Prop :=
  (∃ panic, result = .error panic ∧ OwnSlotOccupied U s panic) ∨ ∃ value, result = .ok value

/-- **The block manager over every run.**  The missing blocks are those that are waited
    for and not suspended, and the two maps agree; every batch was causally ordered, and
    what is accepted has its ancestors above the gc round accepted; the calls return; and
    blocks that arrive in any order and any batches lead to one accepted and one suspended
    set. -/
theorem block_manager_suspension (U : BlockUniverse context)
    (hquorum : 0 < context.committee.quorumThreshold) {s : ManagedDag} (h : Reachable U s) :
    (∀ r, r ∈ s.manager.missingBlocks ↔
      r ∈ s.manager.missingAncestors ∧ r ∉ s.manager.suspendedBlocks) ∧
    (∀ a b : BlockRef, (∃ waiting, s.manager.missingAncestors[a]? = some waiting ∧ b ∈ waiting) ↔
      ∃ sb : SuspendedBlock, s.manager.suspendedBlocks[b]? = some sb ∧ a ∈ sb.missingAncestors) ∧
    ((∀ e ∈ s.batches, CausallyOrdered context e.1 e.2) ∧
      ∀ (r : BlockRef) (info : BlockInfo), s.dag.recentBlocks[r]? = some info →
        ∀ a ∈ info.block.ancestors, s.dag.gcRound context < a.round → a ∈ s.dag.recentBlocks) ∧
    ((∀ blocks : List VerifiedBlock, (∀ b ∈ blocks, b ∈ U.blocks) →
        Returns U s (tryAcceptBlocks context s blocks)) ∧
      (∀ blocks : List VerifiedBlock, CommittedBatch U s blocks →
        Returns U s (tryAcceptCommittedBlocks context s blocks)) ∧
      Returns U s (tryUnsuspendBlocksForLatestGcRound context s)) ∧
    ∀ (batches₁ batches₂ : List (List VerifiedBlock)) (s₁ s₂ : ManagedDag),
      (∀ b ∈ batches₁.flatten, b ∈ U.blocks) →
      (∀ b, b ∈ batches₁.flatten ↔ b ∈ batches₂.flatten) →
      acceptBatches context s batches₁ = .ok s₁ → acceptBatches context s batches₂ = .ok s₂ →
      (∀ r, Known s₁.dag r ↔ Known s₂.dag r) ∧
        s₁.manager.suspendedBlocks = s₂.manager.suspendedBlocks := by
  have hbook := h.bookkeeping hquorum
  refine ⟨fun r => ?_, hbook.linked.links, ⟨hbook.batches, fun r info => hbook.accepting.valid.closed⟩,
    ⟨fun blocks hblocks => ?_, fun blocks hbatch => ?_, ?_⟩, ?_⟩
  · rw [hbook.missing r]
    simp
  · refine (tryAcceptBlocks_spec hquorum hbook hblocks).imp_right ?_
    exact fun ⟨progress, hok, _⟩ => ⟨progress, hok⟩
  · refine (tryAcceptCommittedBlocks_spec hquorum hbook hbatch).imp_right ?_
    exact fun ⟨progress, hok, _⟩ => ⟨progress, hok⟩
  · refine (tryUnsuspendBlocksForLatestGcRound_spec hquorum hbook).imp_right ?_
    exact fun ⟨s', hok, _⟩ => ⟨s', hok⟩
  · intro batches₁ batches₂ s₁ s₂ hblocks₁ hsame hrun₁ hrun₂
    have hblocks₂ : ∀ b ∈ batches₂.flatten, b ∈ U.blocks := fun b hb =>
      hblocks₁ b ((hsame b).mpr hb)
    have hstart : Settles (awaited context s []) {r | Known s.dag r} s.pool {r | Known s.dag r} := by
      have hnone : awaited context s [] = s.pool := by
        funext r
        refine Option.ext fun m => ?_
        rw [@awaited_eq_some context U s [] (by simp)]
        simp
      rw [hnone]
      exact hbook.settles
    have hnil : ∀ b ∈ ([] : List VerifiedBlock), b ∈ U.blocks := by simp
    obtain ⟨hkeeps₁, hsettles₁⟩ := hbook.settles_batches hquorum hblocks₁ hnil (Keeps.refl hbook)
      hstart hrun₁
    obtain ⟨hkeeps₂, hsettles₂⟩ := hbook.settles_batches hquorum hblocks₂ hnil (Keeps.refl hbook)
      hstart hrun₂
    rw [nil_append] at hsettles₁ hsettles₂
    rw [← awaited_congr hblocks₁ hsame] at hsettles₂
    obtain ⟨hknown, hpool⟩ := Settles.unique (hbook.awaited_round hblocks₁) hsettles₁ hsettles₂
    exact ⟨fun r => Set.ext_iff.mp hknown r,
      suspendedBlocks_eq hkeeps₁.bookkeeping hkeeps₂.bookkeeping hpool⟩

def soloDag : ManagedDag := { dag := { ownIndex := 0, cachedRounds := 10 } }

/-- Three blocks that arrive in two orders. -/
theorem block_manager_suspension_solo :
    ∃ s₁ s₂, acceptBatches (Solo.context true) soloDag
        [[Solo.block true 3, Solo.block true 2], [Solo.block true 1]] = .ok s₁ ∧
      acceptBatches (Solo.context true) soloDag
        [[Solo.block true 1], [Solo.block true 3], [Solo.block true 2]] = .ok s₂ ∧
      (∀ r, Known s₁.dag r ↔ Known s₂.dag r) ∧
      s₁.manager.suspendedBlocks = s₂.manager.suspendedBlocks := by
  obtain ⟨-, -, -, -, hconfluent⟩ := block_manager_suspension Solo.v3Universe.toBlockUniverse
    Solo.v3Universe.quorum_pos (Reachable.init (accepting_init 0 10))
  have hrun₁ : (acceptBatches (Solo.context true) soloDag
      [[Solo.block true 3, Solo.block true 2], [Solo.block true 1]]).toBool = true := by
    decide +kernel
  have hrun₂ : (acceptBatches (Solo.context true) soloDag
      [[Solo.block true 1], [Solo.block true 3], [Solo.block true 2]]).toBool = true := by
    decide +kernel
  obtain ⟨s₁, hs₁⟩ := ok_of_toBool hrun₁
  obtain ⟨s₂, hs₂⟩ := ok_of_toBool hrun₂
  refine ⟨s₁, s₂, hs₁, hs₂, hconfluent _ _ s₁ s₂ (fun b hb => ?_) (fun b => ?_) hs₁ hs₂⟩
  · simp only [flatten_cons, flatten_nil, append_nil, cons_append,
      nil_append, mem_cons, not_mem_nil, or_false] at hb
    rcases hb with rfl | rfl | rfl
    · exact ⟨2, by decide, rfl⟩
    · exact ⟨1, by decide, rfl⟩
    · exact ⟨0, by decide, rfl⟩
  · simp only [flatten_cons, flatten_nil, append_nil, cons_append,
      nil_append, mem_cons, not_mem_nil, or_false]
    tauto

end ManagedDag

end Haneul.Consensus
