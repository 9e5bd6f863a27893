import Haneul.Consensus.BlockManager

/-!
# The bookkeeping of the block manager over whole runs

`Bookkeeping` is what holds between the calls: the maps of the manager agree with each
other and with the `DagState`.  Each call keeps it, and hands over causally ordered
batches.  Where a call is about to accept or collect one reference, the invariant holds
up to that reference.
-/

namespace Haneul.Consensus

open Map Std.ExtTreeMap

open Function (update update_self update_of_ne)

open Quorum DagState BlockManager List

namespace ManagedDag

variable {context : Context} {U : BlockUniverse context} {block : VerifiedBlock} {dag : DagState}

/-- The bookkeeping of a node.  `root` is the reference that a call is about to release
    from, if there is one. -/
structure Bookkeeping (U : BlockUniverse context) (root : Option BlockRef) (s : ManagedDag) :
    Prop where
  accepting : Accepting U s.dag
  linked : Linked s.manager
  missing : ∀ r, r ∈ s.manager.missingBlocks ↔
    r ∈ s.manager.missingAncestors ∧ r ∉ s.manager.suspendedBlocks ∧ root ≠ some r
  block_mem : ∀ {r : BlockRef} {sb : SuspendedBlock}, s.manager.suspendedBlocks[r]? = some sb →
    sb.block ∈ U.blocks
  waits : ∀ {r : BlockRef} {sb : SuspendedBlock}, s.manager.suspendedBlocks[r]? = some sb →
    ∀ a ∈ sb.missingAncestors, a ∈ sb.block.ancestors
  accepted : ∀ {r : BlockRef} {sb : SuspendedBlock}, s.manager.suspendedBlocks[r]? = some sb →
    ∀ a ∈ sb.block.ancestors, s.dag.gcRound context < a.round →
      a ∈ sb.missingAncestors ∨ Known s.dag a
  fresh : ∀ r ∈ s.manager.suspendedBlocks, ¬ Known s.dag r
  absent : ∀ r ∈ s.manager.missingAncestors, root ≠ some r → ¬ Known s.dag r
  batches : ∀ e ∈ s.batches, CausallyOrdered context e.1 e.2

/-- The only abort: the node itself has signed two blocks for one slot. -/
def OwnSlotOccupied (U : BlockUniverse context) (s : ManagedDag) (panic : ManagerPanic) : Prop :=
  (∃ r, panic = .dagState (.ownSlotOccupied r)) ∧ s.dag.ownIndex ∈ U.faulty

variable {r : BlockRef}

theorem Bookkeeping.known_iff {root : Option BlockRef} {s : ManagedDag}
    (h : Bookkeeping U root s) (hround : s.dag.gcRound context < r.round) :
    s.dag.containsBlock context r = true ↔ Known s.dag r :=
  (containsBlock_iff h.accepting.tracked hround).trans
    ⟨.inl, fun hr => h.accepting.tracked r hr hround⟩

/-! ### Handing over a batch -/

variable {s : ManagedDag}

theorem causallyOrdered_singleton {dag : DagState} {block : VerifiedBlock}
    (h : ∀ a ∈ block.ancestors, dag.gcRound context < a.round → a ∈ dag.recentBlocks) :
    CausallyOrdered context dag [block] := by
  intro before b after hsplit a ha hround
  have hb : b = block := mem_singleton.mp (by rw [hsplit]; simp)
  rw [hb] at ha
  exact .inl (h a ha hround)

variable {manager : BlockManager} {first unsuspended : List VerifiedBlock}

theorem Bookkeeping.causallyOrdered {root : BlockRef} (h : Bookkeeping U (some root) s)
    (hfirst : CausallyOrdered context s.dag first)
    (hroot : root.round ≤ s.dag.gcRound context ∨ Known s.dag root ∨
      root ∈ first.map VerifiedBlock.reference) {done : Finset BlockRef}
    (hreleasing : Releasing s.manager root done ⟨manager, [], unsuspended⟩) :
    CausallyOrdered context s.dag (first ++ unsuspended) := by
  have hreleased : ∀ before b after, unsuspended = before ++ b :: after →
      ∀ a ∈ b.ancestors, s.dag.gcRound context < a.round →
        a ∈ s.dag.recentBlocks ∨ a ∈ (first ++ before).map VerifiedBlock.reference := by
    intro before b after hsplit a ha hround
    obtain ⟨sb, hsb, rfl, hbefore⟩ := hreleasing.ordered before b after hsplit
    rw [map_append, mem_append]
    rcases h.accepted hsb a ha hround with hmissing | hknown
    · rcases hbefore a hmissing with rfl | hin
      · rcases hroot with hlow | hknown | hin
        · omega
        · exact .inl (h.accepting.tracked a hknown hround)
        · exact .inr (.inl hin)
      · exact .inr (.inr hin)
    · exact .inl (h.accepting.tracked a hknown hround)
  intro before b after hsplit
  rcases append_eq_append_iff.mp hsplit with ⟨between, rfl, hrest⟩ | ⟨between, hold, hrest⟩
  · exact hreleased between b after hrest
  · cases between with
    | nil =>
      rw [append_nil] at hold
      rw [← hold, ← append_nil first]
      exact hreleased [] b after hrest.symm
    | cons c between =>
      obtain ⟨rfl, -⟩ := hrest
      exact hfirst before b between hold

theorem Bookkeeping.release {root : BlockRef} (h : Bookkeeping U (some root) s)
    (hfirst : ∀ b ∈ first, b.reference = root) (hnot : root ∉ s.manager.suspendedBlocks)
    (hroot : root.round ≤ s.dag.gcRound context ∨ Known s.dag root ∨
      root ∈ first.map VerifiedBlock.reference)
    (hreleasing : Releasing s.manager root (gone root unsuspended) ⟨manager, [], unsuspended⟩)
    (haccepting : Accepting U dag) (hgc : dag.gcRound context = s.dag.gcRound context)
    (hknown : ∀ r, Known dag r ↔
      Known s.dag r ∨ r ∈ (first ++ unsuspended).map VerifiedBlock.reference)
    (hordered : CausallyOrdered context s.dag (first ++ unsuspended)) :
    Bookkeeping U none ⟨manager, dag, s.batches ++ [(s.dag, first ++ unsuspended)]⟩ := by
  have hlinked := hreleasing.linked h.linked
  -- what is known now was known, or has been processed
  have hold : ∀ {r}, Known dag r → Known s.dag r ∨ r ∈ gone root unsuspended := by
    intro r hr
    refine ((hknown r).mp hr).imp_right fun hin => ?_
    rw [map_append, mem_append] at hin
    rcases hin with hin | hin
    · obtain ⟨b, hb, rfl⟩ := mem_map.mp hin
      exact mem_gone.mpr (.inl (hfirst b hb))
    · exact mem_gone.mpr (.inr hin)
  have hsuspended : ∀ {r : BlockRef} {sb : SuspendedBlock},
      manager.suspendedBlocks[r]? = some sb → ∃ sb₀ : SuspendedBlock,
        s.manager.suspendedBlocks[r]? = some sb₀ ∧ sb.block = sb₀.block ∧
        sb.missingAncestors = sb₀.missingAncestors \ gone root unsuspended := by
    intro r sb hsb
    rw [hreleasing.suspended] at hsb
    obtain ⟨sb₀, hsb₀, hsb⟩ := Option.bind_eq_some_iff.mp hsb
    exact ⟨sb₀, hsb₀, SuspendedBlock.without_eq_some hsb⟩
  have hkey : ∀ a, a ∈ manager.missingAncestors ↔
      a ∉ gone root unsuspended ∧ a ∈ s.manager.missingAncestors :=
    hreleasing.mem_missingAncestors
  constructor
  case accepting => exact haccepting
  case linked => exact hlinked
  case missing =>
    intro r
    rw [hreleasing.missing, h.missing, hkey]
    constructor
    · rintro ⟨hin, hnot, hne⟩
      refine ⟨⟨fun hgone => ?_, hin⟩, fun hmem => ?_, by simp⟩
      · rcases mem_gone.mp hgone with rfl | hgone
        · exact hne rfl
        · obtain ⟨sb, hsb, -⟩ := (hreleasing.released r).mp hgone
          exact hnot (mem_of_get hsb)
      · obtain ⟨sb, hsb⟩ := (mem_iff _ r).mp hmem
        obtain ⟨sb₀, hsb₀, -⟩ := hsuspended hsb
        exact hnot (mem_of_get hsb₀)
    · rintro ⟨⟨hgone, hin⟩, hnot, -⟩
      refine ⟨hin, fun hmem => ?_, fun heq => hgone ?_⟩
      · obtain ⟨sb, hsb⟩ := (mem_iff _ r).mp hmem
        by_cases hempty : sb.missingAncestors ⊆ gone root unsuspended
        · exact hgone (mem_gone.mpr (.inr ((hreleasing.released r).mpr ⟨sb, hsb, hempty⟩)))
        · refine hnot ((mem_iff _ r).mpr
            ⟨⟨sb.block, sb.missingAncestors \ gone root unsuspended⟩, ?_⟩)
          rw [hreleasing.suspended, hsb, Option.bind_some, SuspendedBlock.without,
            if_neg (mt Finset.sdiff_eq_empty_iff_subset.mp hempty)]
      · exact mem_gone.mpr (.inl (Option.some.inj heq).symm)
  case block_mem =>
    intro r sb hsb
    obtain ⟨sb₀, hsb₀, hblock, -⟩ := hsuspended hsb
    rw [hblock]
    exact h.block_mem hsb₀
  case waits =>
    intro r sb hsb a ha
    obtain ⟨sb₀, hsb₀, hblock, hmissing⟩ := hsuspended hsb
    rw [hblock]
    rw [hmissing] at ha
    exact h.waits hsb₀ a (Finset.mem_sdiff.mp ha).1
  case accepted =>
    intro r sb hsb a ha hround
    obtain ⟨sb₀, hsb₀, hblock, hmissing⟩ := hsuspended hsb
    rw [hblock] at ha
    rw [hgc] at hround
    rcases h.accepted hsb₀ a ha hround with hin | hin
    · by_cases hgone : a ∈ gone root unsuspended
      · right
        rcases mem_gone.mp hgone with rfl | hgone
        · rcases hroot with hlow | hroot | hroot
          · omega
          · exact (hknown a).mpr (.inl hroot)
          · exact (hknown a).mpr (.inr (by simp [hroot]))
        · exact (hknown a).mpr (.inr (by rw [map_append]; exact mem_append_right _ hgone))
      · left
        rw [hmissing]
        exact Finset.mem_sdiff.mpr ⟨hin, hgone⟩
    · exact .inr ((hknown a).mpr (.inl hin))
  case fresh =>
    intro r hr hk
    obtain ⟨sb, hsb⟩ := (mem_iff _ r).mp hr
    obtain ⟨sb₀, hsb₀, -⟩ := hsuspended hsb
    rcases hold hk with hk | hk
    · exact h.fresh r (mem_of_get hsb₀) hk
    · exact hreleasing.fresh hnot hsb (mem_gone.mp hk)
  case absent =>
    intro r hr _ hk
    obtain ⟨hgone, hin⟩ := (hkey r).mp hr
    refine h.absent r hin (fun heq => hgone ?_) ((hold hk).resolve_right hgone)
    exact mem_gone.mpr (.inl (Option.some.inj heq).symm)
  case batches =>
    exact forall_mem_append.mpr ⟨h.batches, forall_mem_singleton.mpr hordered⟩

/-- **Releasing from a root.**  The release ends and its batch is accepted, unless the
    node's own slot is taken. -/
theorem Bookkeeping.handOver (hquorum : 0 < context.committee.quorumThreshold) {s : ManagedDag}
    {root : BlockRef} (h : Bookkeeping U (some root) s)
    {first : List VerifiedBlock} (hfirst : ∀ b ∈ first, b.reference = root ∧ b ∈ U.blocks)
    (hordered : CausallyOrdered context s.dag first) (hnot : root ∉ s.manager.suspendedBlocks)
    (hroot : root.round ≤ s.dag.gcRound context ∨ Known s.dag root ∨
      root ∈ first.map VerifiedBlock.reference) :
    ∃ manager unsuspended,
      s.manager.tryUnsuspendChildrenBlocks root = .ok (manager, unsuspended) ∧
      Releasing s.manager root (gone root unsuspended) ⟨manager, [], unsuspended⟩ ∧
      ((∃ panic, acceptBlocks context { s with manager := manager } (first ++ unsuspended) =
          .error panic ∧ OwnSlotOccupied U s panic) ∨
        ∃ node : ManagedDag,
          acceptBlocks context { s with manager := manager } (first ++ unsuspended) = .ok node ∧
          node.manager = manager ∧ Bookkeeping U none node ∧
          node.dag.ownIndex = s.dag.ownIndex ∧
          node.dag.gcRound context = s.dag.gcRound context ∧
          ∀ r, Known node.dag r ↔
            Known s.dag r ∨ r ∈ (first ++ unsuspended).map VerifiedBlock.reference) := by
  obtain ⟨manager, unsuspended, hrun, hreleasing⟩ := tryUnsuspendChildrenBlocks_spec h.linked hnot
  have hbatch := h.causallyOrdered hordered hroot hreleasing
  have hblocks : ∀ b ∈ first ++ unsuspended, b ∈ U.blocks := by
    refine forall_mem_append.mpr ⟨fun b hb => (hfirst b hb).2, fun b hb => ?_⟩
    obtain ⟨before, after, hsplit⟩ := append_of_mem hb
    obtain ⟨sb, hsb, rfl, -⟩ := hreleasing.ordered before b after hsplit
    exact h.block_mem hsb
  refine ⟨manager, unsuspended, hrun, hreleasing, ?_⟩
  unfold ManagedDag.acceptBlocks
  rcases acceptBlocks_total hquorum hblocks h.accepting hbatch with
    ⟨r, herror, hfaulty⟩ | ⟨dag, hok, haccepting, hown, hgc, hknown, -⟩
  · rw [herror]
    exact .inl ⟨_, rfl, ⟨r, rfl⟩, hfaulty⟩
  · rw [hok]
    exact .inr ⟨_, rfl, rfl,
      h.release (fun b hb => (hfirst b hb).1) hnot hroot hreleasing haccepting hgc hknown hbatch,
      hown, hgc, hknown⟩

theorem acceptUnsuspended_spec (hquorum : 0 < context.committee.quorumThreshold)
    {progress : Progress} {root : BlockRef} (h : Bookkeeping U (some root) progress.node)
    {first : List VerifiedBlock} (hfirst : ∀ b ∈ first, b.reference = root ∧ b ∈ U.blocks)
    (hordered : CausallyOrdered context progress.node.dag first)
    (hnot : root ∉ progress.node.manager.suspendedBlocks)
    (hroot : root.round ≤ progress.node.dag.gcRound context ∨ Known progress.node.dag root ∨
      root ∈ first.map VerifiedBlock.reference) :
    (∃ panic, acceptUnsuspended context progress root first = .error panic ∧
        OwnSlotOccupied U progress.node panic) ∨
      ∃ (node : ManagedDag) (unsuspended : List VerifiedBlock),
        acceptUnsuspended context progress root first =
          .ok ⟨node, progress.acceptedBlocks ++ (first ++ unsuspended), progress.missingBlocks⟩ ∧
        Bookkeeping U none node ∧
        Releasing progress.node.manager root (gone root unsuspended)
          ⟨node.manager, [], unsuspended⟩ ∧
        node.dag.ownIndex = progress.node.dag.ownIndex ∧
        node.dag.gcRound context = progress.node.dag.gcRound context ∧
        ∀ r, Known node.dag r ↔
          Known progress.node.dag r ∨ r ∈ (first ++ unsuspended).map VerifiedBlock.reference := by
  obtain ⟨manager, unsuspended, hrun, hreleasing, hcases⟩ :=
    h.handOver hquorum hfirst hordered hnot hroot
  unfold acceptUnsuspended
  rw [hrun]
  rcases hcases with ⟨panic, herror, hpanic⟩ | ⟨node, hok, rfl, h', hown, hgc, hknown⟩
  · refine .inl ⟨panic, ?_, hpanic⟩
    simp only [bind, Except.bind, herror]
  · refine .inr ⟨node, unsuspended, ?_, h', hreleasing, hown, hgc, hknown⟩
    simp only [bind, Except.bind, hok]
    rfl

/-! ### Receiving a block -/

theorem addMissingAncestors_spec (blockRef : BlockRef) {missing : List BlockRef} :
    ∀ {manager : BlockManager} {fetch : Finset BlockRef},
      ∃ (manager' : BlockManager) (fetch' : Finset BlockRef),
        missing.foldl (addMissingAncestor blockRef) (manager, fetch) = (manager', fetch') ∧
        manager'.suspendedBlocks = manager.suspendedBlocks ∧
        (∀ a b, (∃ c, manager'.missingAncestors[a]? = some c ∧ b ∈ c) ↔
          (∃ c, manager.missingAncestors[a]? = some c ∧ b ∈ c) ∨ a ∈ missing ∧ b = blockRef) ∧
        (∀ a, a ∈ manager'.missingAncestors ↔ a ∈ manager.missingAncestors ∨ a ∈ missing) ∧
        ∀ r, r ∈ manager'.missingBlocks ↔
          r ∈ manager.missingBlocks ∨ r ∈ missing ∧ r ∉ manager.suspendedBlocks := by
  induction missing with
  | nil => exact fun {manager fetch} => ⟨manager, fetch, rfl, rfl, by simp, by simp, by simp⟩
  | cons ancestor rest ih =>
    intro manager fetch
    -- the effect of the first ancestor
    obtain ⟨manager₁, fetch₁, hfirst, hsuspended₁, hancestors₁, hmissing₁⟩ :
        ∃ (manager₁ : BlockManager) (fetch₁ : Finset BlockRef),
          addMissingAncestor blockRef (manager, fetch) ancestor = (manager₁, fetch₁) ∧
          manager₁.suspendedBlocks = manager.suspendedBlocks ∧
          manager₁.missingAncestors = manager.missingAncestors.insert ancestor
            (insert blockRef (manager.missingAncestors.getD ancestor ∅)) ∧
          ∀ r, r ∈ manager₁.missingBlocks ↔
            r ∈ manager.missingBlocks ∨ r = ancestor ∧ r ∉ manager.suspendedBlocks := by
      unfold addMissingAncestor
      dsimp only
      by_cases hin : ancestor ∈ manager.suspendedBlocks
      · rw [if_neg (not_not.mpr hin)]
        refine ⟨_, _, rfl, rfl, rfl, fun r => (or_iff_left ?_).symm⟩
        rintro ⟨rfl, hnot⟩
        exact hnot hin
      · rw [if_pos hin]
        refine ⟨_, _, rfl, rfl, rfl, fun r => ?_⟩
        rw [Finset.mem_insert, or_comm]
        exact or_congr_right (and_iff_left_of_imp (by rintro rfl; exact hin)).symm
    obtain ⟨manager', fetch', hrest, hsuspended, hancestors, hkeys, hmissing⟩ := @ih manager₁ fetch₁
    refine ⟨manager', fetch', by rw [foldl_cons, hfirst, hrest],
      hsuspended.trans hsuspended₁, fun a b => ?_, fun a => ?_, fun r => ?_⟩
    · rw [hancestors a b, hancestors₁, get_insert]
      by_cases ha : ancestor = a
      · subst ha
        rw [if_pos rfl, getD_eq_getD_getElem?]
        cases manager.missingAncestors[ancestor]? with
        | none => simp
        | some c =>
          simp only [Option.some.injEq, exists_eq_left', Option.getD_some, Finset.mem_insert,
            mem_cons, true_or, true_and]
          tauto
      · rw [if_neg ha]
        simp [Ne.symm ha]
    · rw [hkeys a, hancestors₁, mem_insert, compare_eq_iff_eq, mem_cons, or_assoc]
      exact or_left_comm.trans (or_congr_right (or_congr_left eq_comm))
    · rw [hmissing r, hmissing₁ r, hsuspended₁, mem_cons]
      tauto

theorem mem_missingAncestorsOf (h : Accepting U dag) (hblock : block ∈ U.blocks) {a : BlockRef} :
    a ∈ missingAncestorsOf context dag block ↔
      a ∈ block.ancestors ∧ dag.gcRound context < a.round ∧ ¬ Known dag a := by
  simp only [missingAncestorsOf, mem_filter, decide_eq_true_eq, Bool.not_eq_true]
  constructor
  · rintro ⟨⟨ha, hgenesis | hround⟩, hcontains⟩
    · have hmem := (U.wellFormed hblock).ancestor_genesis a ha hgenesis
      rw [containsBlock_genesis hmem] at hcontains
      cases hcontains
    · refine ⟨ha, hround, fun hknown => ?_⟩
      rw [containsBlock_of_mem (h.tracked a hknown hround)] at hcontains
      cases hcontains
  · rintro ⟨ha, hround, hknown⟩
    refine ⟨⟨ha, .inr hround⟩, ?_⟩
    rw [← Bool.not_eq_true, containsBlock_iff h.tracked hround]
    exact fun hmem => hknown (.inl hmem)

theorem Bookkeeping.expect (h : Bookkeeping U none s) (root : BlockRef) :
    Bookkeeping U (some root) { s with
      manager := { s.manager with missingBlocks := s.manager.missingBlocks.erase root } } :=
  { h with
    linked := ⟨h.linked.links, h.linked.reference, h.linked.waiting⟩
    missing := by
      intro r
      rw [Finset.mem_erase, h.missing]
      constructor
      · rintro ⟨hne, hin, hnot, -⟩
        exact ⟨hin, hnot, fun heq => hne (Option.some.inj heq).symm⟩
      · rintro ⟨hin, hnot, hne⟩
        exact ⟨fun heq => hne (congrArg some heq.symm), hin, hnot, by simp⟩
    absent := fun r hr _ => h.absent r hr (by simp) }

/-- What the suspended blocks wait for. -/
def pool (s : ManagedDag) (r : BlockRef) : Option (Finset BlockRef) :=
  s.manager.suspendedBlocks[r]?.map SuspendedBlock.missingAncestors

theorem pool_eq_some {m : Finset BlockRef} :
    s.pool r = some m ↔ ∃ sb : SuspendedBlock, s.manager.suspendedBlocks[r]? = some sb ∧
      sb.missingAncestors = m := by
  rw [pool, Option.map_eq_some_iff]

theorem Bookkeeping.suspend (h : Bookkeeping U none s) (hblock : block ∈ U.blocks)
    (hnot : block.reference ∉ s.manager.suspendedBlocks) (hfresh : ¬ Known s.dag block.reference)
    (hmissing : missingAncestorsOf context s.dag block ≠ [])
    (hsuspended : manager.suspendedBlocks = s.manager.suspendedBlocks)
    (hancestors : ∀ a b, (∃ c, manager.missingAncestors[a]? = some c ∧ b ∈ c) ↔
      (∃ c, s.manager.missingAncestors[a]? = some c ∧ b ∈ c) ∨
        a ∈ missingAncestorsOf context s.dag block ∧ b = block.reference)
    (hkeys : ∀ a, a ∈ manager.missingAncestors ↔
      a ∈ s.manager.missingAncestors ∨ a ∈ missingAncestorsOf context s.dag block)
    (hblocks : ∀ r, r ∈ manager.missingBlocks ↔
      r ∈ s.manager.missingBlocks ∨
        r ∈ missingAncestorsOf context s.dag block ∧ r ∉ s.manager.suspendedBlocks) :
    Bookkeeping U none { s with
      manager := { manager with
        missingBlocks := manager.missingBlocks.erase block.reference
        suspendedBlocks := manager.suspendedBlocks.insert block.reference
          ⟨block, (missingAncestorsOf context s.dag block).toFinset⟩ } } := by
  have hmem : ∀ {a}, a ∈ missingAncestorsOf context s.dag block ↔
      a ∈ block.ancestors ∧ s.dag.gcRound context < a.round ∧ ¬ Known s.dag a :=
    mem_missingAncestorsOf h.accepting hblock
  -- an entry is the new block's or an old one
  have hentry : ∀ {r : BlockRef} {sb : SuspendedBlock},
      (manager.suspendedBlocks.insert block.reference
        ⟨block, (missingAncestorsOf context s.dag block).toFinset⟩)[r]? = some sb →
      block.reference = r ∧ sb = ⟨block, (missingAncestorsOf context s.dag block).toFinset⟩ ∨
      block.reference ≠ r ∧ s.manager.suspendedBlocks[r]? = some sb := by
    intro r sb hsb
    rw [get_insert, hsuspended] at hsb
    split_ifs at hsb with heq
    · exact .inl ⟨heq, (Option.some.inj hsb).symm⟩
    · exact .inr ⟨heq, hsb⟩
  constructor
  case accepting => exact h.accepting
  case linked =>
    refine ⟨fun a b => ?_, ?_, ?_⟩
    · dsimp only
      rw [hancestors a b, h.linked.links a b, hsuspended, get_insert]
      by_cases hb : block.reference = b
      · subst hb
        rw [if_pos rfl]
        constructor
        · rintro (⟨sb, hsb, -⟩ | ⟨ha, -⟩)
          · exact absurd (mem_of_get hsb) hnot
          · exact ⟨_, rfl, mem_toFinset.mpr ha⟩
        · rintro ⟨sb, hsb, ha⟩
          cases hsb
          exact .inr ⟨mem_toFinset.mp ha, rfl⟩
      · rw [if_neg hb]
        simp [Ne.symm hb]
    · intro r sb hsb
      rcases hentry hsb with ⟨rfl, rfl⟩ | ⟨-, hsb⟩
      · rfl
      · exact h.linked.reference hsb
    · intro r sb hsb
      rcases hentry hsb with ⟨-, rfl⟩ | ⟨-, hsb⟩
      · exact toFinset_nonempty_iff _ |>.mpr hmissing
      · exact h.linked.waiting hsb
  case missing =>
    intro r
    rw [Finset.mem_erase, hblocks, h.missing, hkeys, mem_insert, hsuspended, compare_eq_iff_eq]
    constructor
    · rintro ⟨hne, ⟨hin, hout, -⟩ | ⟨hin, hout⟩⟩
      · exact ⟨.inl hin, not_or.mpr ⟨Ne.symm hne, hout⟩, by simp⟩
      · exact ⟨.inr hin, not_or.mpr ⟨Ne.symm hne, hout⟩, by simp⟩
    · rintro ⟨hin, hout, -⟩
      obtain ⟨hne, hout⟩ := not_or.mp hout
      exact ⟨Ne.symm hne, hin.imp (fun hin => ⟨hin, hout, by simp⟩) (fun hin => ⟨hin, hout⟩)⟩
  case block_mem =>
    intro r sb hsb
    rcases hentry hsb with ⟨-, rfl⟩ | ⟨-, hsb⟩
    · exact hblock
    · exact h.block_mem hsb
  case waits =>
    intro r sb hsb a ha
    rcases hentry hsb with ⟨-, rfl⟩ | ⟨-, hsb⟩
    · exact (hmem.mp (mem_toFinset.mp ha)).1
    · exact h.waits hsb a ha
  case accepted =>
    intro r sb hsb a ha hround
    rcases hentry hsb with ⟨-, rfl⟩ | ⟨-, hsb⟩
    · by_cases hk : Known s.dag a
      · exact .inr hk
      · exact .inl (mem_toFinset.mpr (hmem.mpr ⟨ha, hround, hk⟩))
    · exact h.accepted hsb a ha hround
  case fresh =>
    intro r hr
    obtain ⟨sb, hsb⟩ := (mem_iff _ r).mp hr
    rcases hentry hsb with ⟨rfl, -⟩ | ⟨-, hsb⟩
    · exact hfresh
    · exact h.fresh r (mem_of_get hsb)
  case absent =>
    intro r hr _
    rcases (hkeys r).mp hr with hr | hr
    · exact h.absent r hr (by simp)
    · exact (hmem.mp hr).2.2
  case batches => exact h.batches

theorem Bookkeeping.settles (h : Bookkeeping U none s) :
    Settles s.pool {r | Known s.dag r} s.pool {r | Known s.dag r} := by
  refine Settles.idle fun {r m} hm => ?_
  obtain ⟨sb, hsb, rfl⟩ := pool_eq_some.mp hm
  refine ⟨h.linked.waiting hsb, fun a ha => ?_⟩
  obtain ⟨children, hchildren, -⟩ := (h.linked.links a r).mpr ⟨sb, hsb, ha⟩
  exact h.absent a (mem_of_get hchildren) (by simp)

/-- A release settles the waiting blocks, with the root as a block that waits for nothing. -/
theorem Bookkeeping.settles_release {s node : ManagedDag} {root : BlockRef}
    (h : Bookkeeping U (some root) s) (hnot : root ∉ s.manager.suspendedBlocks)
    {unsuspended : List VerifiedBlock}
    (hreleasing : Releasing s.manager root (gone root unsuspended) ⟨node.manager, [], unsuspended⟩)
    (hknown : ∀ r, Known node.dag r ↔ Known s.dag r ∨ r ∈ gone root unsuspended) :
    Settles (update s.pool root (some ∅)) {r | Known s.dag r} node.pool {r | Known node.dag r} := by
  have hne : ∀ {r : BlockRef} {sb : SuspendedBlock}, s.manager.suspendedBlocks[r]? = some sb →
      r ≠ root := by
    rintro r sb hsb rfl
    exact hnot (mem_of_get hsb)
  -- what a block waits for is known afterwards only if the release has processed it
  have hwaited : ∀ {r : BlockRef} {sb : SuspendedBlock}, s.manager.suspendedBlocks[r]? = some sb →
      ∀ a ∈ sb.missingAncestors, Known node.dag a ↔ a ∈ gone root unsuspended := by
    intro r sb hsb a ha
    rw [hknown a, or_iff_right_iff_imp]
    intro hk
    obtain ⟨children, hchildren, -⟩ := (h.linked.links a r).mpr ⟨sb, hsb, ha⟩
    by_contra hgone
    exact h.absent a (mem_of_get hchildren)
      (fun heq => hgone (mem_gone.mpr (.inl (Option.some.inj heq).symm))) hk
  constructor
  case mono => exact fun r hr => (hknown r).mpr (.inl hr)
  case grounded =>
    intro x hx
    refine ((hknown x).mp hx).imp_right fun hgone => ?_
    rcases mem_gone.mp hgone with rfl | hin
    · exact ⟨∅, update_self .., by simp⟩
    · obtain ⟨sb, hsb, hsub⟩ := (hreleasing.released x).mp hin
      refine ⟨sb.missingAncestors, ?_, fun a ha => (hknown a).mpr (.inr (hsub ha))⟩
      rw [update_of_ne (hne hsb)]
      exact pool_eq_some.mpr ⟨sb, hsb, rfl⟩
  case closed =>
    intro x m hx hall
    by_cases hxr : x = root
    · exact (hknown x).mpr (.inr (mem_gone.mpr (.inl hxr)))
    · rw [update_of_ne hxr] at hx
      obtain ⟨sb, hsb, rfl⟩ := pool_eq_some.mp hx
      have hin := (hreleasing.released x).mpr
        ⟨sb, hsb, fun a ha => (hwaited hsb a ha).mp (hall a ha)⟩
      exact (hknown x).mpr (.inr (mem_gone.mpr (.inr hin)))
  case waiting =>
    intro x m'
    rw [pool_eq_some, hreleasing.suspended]
    constructor
    · rintro ⟨sb', hsb', rfl⟩
      have hnonempty := (hreleasing.linked h.linked).waiting ((hreleasing.suspended x).trans hsb')
      obtain ⟨sb, hsb, hwithout⟩ := Option.bind_eq_some_iff.mp hsb'
      rw [(SuspendedBlock.without_eq_some hwithout).2] at hnonempty ⊢
      refine ⟨sb.missingAncestors, ?_, fun a => ?_, hnonempty⟩
      · rw [update_of_ne (hne hsb)]
        exact pool_eq_some.mpr ⟨sb, hsb, rfl⟩
      · rw [Finset.mem_sdiff]
        exact and_congr_right fun ha => not_congr (hwaited hsb a ha).symm
    · rintro ⟨m, hm, hmem, hnonempty⟩
      have hxr : x ≠ root := by
        rintro rfl
        rw [update_self] at hm
        cases hm
        obtain ⟨a, ha⟩ := hnonempty
        exact Finset.notMem_empty a ((hmem a).mp ha).1
      rw [update_of_ne hxr] at hm
      obtain ⟨sb, hsb, rfl⟩ := pool_eq_some.mp hm
      have hrest : sb.missingAncestors \ gone root unsuspended = m' := by
        ext a
        rw [Finset.mem_sdiff, hmem a]
        exact and_congr_right fun ha => not_congr (hwaited hsb a ha).symm
      refine ⟨⟨sb.block, m'⟩, ?_, rfl⟩
      rw [hsb, Option.bind_some, SuspendedBlock.without, hrest, if_neg hnonempty.ne_empty]

/-- What the arrival of a block does to the waiting and the accepted blocks. -/
inductive Arrives (context : Context) (s : ManagedDag) (block : VerifiedBlock) (s' : ManagedDag) :
    Prop where
  | old (ignored : block.reference ∈ s.manager.suspendedBlocks ∨ Known s.dag block.reference ∨
      block.round ≤ s.dag.gcRound context)
      (pool : s'.pool = s.pool) (known : ∀ r, Known s'.dag r ↔ Known s.dag r)
  | new (fresh : block.reference ∉ s.manager.suspendedBlocks ∧ ¬ Known s.dag block.reference ∧
      s.dag.gcRound context < block.round)
      (missing : Finset BlockRef)
      (mem_missing : ∀ a, a ∈ missing ↔
        a ∈ block.ancestors ∧ s.dag.gcRound context < a.round ∧ ¬ Known s.dag a)
      (settles : Settles (Function.update s.pool block.reference (some missing))
        {r | Known s.dag r} s'.pool {r | Known s'.dag r})

/-- A call, or a step of one, keeps the bookkeeping and the configuration. -/
structure Keeps (U : BlockUniverse context) (s s' : ManagedDag) : Prop where
  bookkeeping : Bookkeeping U none s'
  ownIndex : s'.dag.ownIndex = s.dag.ownIndex
  gcRound : s'.dag.gcRound context = s.dag.gcRound context
  known : ∀ {r}, Known s.dag r → Known s'.dag r

theorem Keeps.trans {s s' s'' : ManagedDag} (h : Keeps U s s') (h' : Keeps U s' s'') :
    Keeps U s s'' where
  bookkeeping := h'.bookkeeping
  ownIndex := h'.ownIndex.trans h.ownIndex
  gcRound := h'.gcRound.trans h.gcRound
  known := fun hr => h'.known (h.known hr)

theorem processBlock_spec (hquorum : 0 < context.committee.quorumThreshold) {progress : Progress}
    (h : Bookkeeping U none progress.node) (hblock : block ∈ U.blocks) :
    (∃ panic, processBlock context progress block = .error panic ∧
        OwnSlotOccupied U progress.node panic) ∨
      ∃ progress', processBlock context progress block = .ok progress' ∧
        Keeps U progress.node progress'.node ∧
        Arrives context progress.node block progress'.node := by
  unfold processBlock tryAcceptOneBlock
  dsimp only
  by_cases hprocessed : block.reference ∈ progress.node.manager.suspendedBlocks ∨
      progress.node.dag.containsBlock context block.reference = true
  · rw [if_pos hprocessed]
    refine .inr ⟨_, rfl, ⟨h, rfl, rfl, id⟩, .old ?_ rfl fun r => Iff.rfl⟩
    refine hprocessed.imp_right fun hcontains => .inl (known_of_containsBlock hcontains ?_)
    exact Nat.ne_of_gt (U.wellFormed hblock).round_pos
  rw [if_neg hprocessed]
  obtain ⟨hnot, hcontains⟩ := not_or.mp hprocessed
  by_cases hlow : block.round ≤ progress.node.dag.gcRound context
  · rw [if_pos hlow]
    exact .inr ⟨_, rfl, ⟨h, rfl, rfl, id⟩, .old (.inr (.inr hlow)) rfl fun r => Iff.rfl⟩
  rw [if_neg hlow]
  have hround : progress.node.dag.gcRound context < block.round := Nat.lt_of_not_le hlow
  have hfresh : ¬ Known progress.node.dag block.reference := fun hk =>
    hcontains ((h.known_iff hround).mpr hk)
  have hmem : ∀ a, a ∈ (missingAncestorsOf context progress.node.dag block).toFinset ↔
      a ∈ block.ancestors ∧ progress.node.dag.gcRound context < a.round ∧
        ¬ Known progress.node.dag a :=
    fun a => mem_toFinset.trans (mem_missingAncestorsOf h.accepting hblock)
  obtain ⟨manager, fetch, hfold, hsuspended, hancestors, hkeys, hmissing⟩ :=
    @addMissingAncestors_spec block.reference
      (missingAncestorsOf context progress.node.dag block) progress.node.manager ∅
  rw [hfold]
  by_cases hnone : missingAncestorsOf context progress.node.dag block = []
  · rw [hnone] at hfold hmem
    obtain ⟨rfl, -⟩ := Prod.mk.inj hfold
    rw [hnone]
    have hordered : CausallyOrdered context progress.node.dag [block] := by
      refine causallyOrdered_singleton fun a ha hgc => h.accepting.tracked a ?_ hgc
      by_contra hk
      exact absurd ((hmem a).mpr ⟨ha, hgc, hk⟩) (by simp)
    rcases @acceptUnsuspended_spec context U hquorum { progress with
        node := { progress.node with
          manager := { progress.node.manager with
            missingBlocks := progress.node.manager.missingBlocks.erase block.reference } } }
        block.reference (h.expect block.reference) [block] (by simp [hblock]) hordered hnot
        (.inr (.inr (by simp))) with hoccupied | ⟨node, unsuspended, hrun, h', hreleasing, hown, hgc, hknown⟩
    · exact .inl hoccupied
    · refine .inr ⟨_, hrun, ⟨h', hown, hgc, fun hr => (hknown _).mpr (.inl hr)⟩,
        .new ⟨hnot, hfresh, hround⟩ ∅ (by simpa using hmem) ?_⟩
      refine (h.expect block.reference).settles_release hnot hreleasing fun r => ?_
      rw [hknown r, mem_gone]
      simp
  · rw [if_pos hnone]
    have h' := h.suspend hblock hnot hfresh hnone hsuspended hancestors hkeys hmissing
    refine .inr ⟨_, rfl, ⟨h', rfl, rfl, id⟩, .new ⟨hnot, hfresh, hround⟩ _ hmem ?_⟩
    have hsettles := h'.settles
    have hpool : pool { progress.node with
        manager := { manager with
          missingBlocks := manager.missingBlocks.erase block.reference
          suspendedBlocks := manager.suspendedBlocks.insert block.reference
            ⟨block, (missingAncestorsOf context progress.node.dag block).toFinset⟩ } } =
        update progress.node.pool block.reference
          (some (missingAncestorsOf context progress.node.dag block).toFinset) := by
      funext r
      unfold pool
      rw [get_insert, hsuspended]
      by_cases hr : block.reference = r
      · subst hr
        rw [if_pos rfl, update_self, Option.map_some]
      · rw [if_neg hr, update_of_ne (Ne.symm hr)]
    rw [← hpool]
    exact hsettles

theorem Keeps.refl (h : Bookkeeping U none s) : Keeps U s s := ⟨h, rfl, rfl, id⟩

theorem Keeps.ownSlotOccupied {s s' : ManagedDag} (h : Keeps U s s') {panic : ManagerPanic}
    (hpanic : OwnSlotOccupied U s' panic) : OwnSlotOccupied U s panic :=
  ⟨hpanic.1, h.ownIndex ▸ hpanic.2⟩

theorem mem_sortByRound {blocks : List VerifiedBlock} {b : VerifiedBlock} :
    b ∈ sortByRound blocks ↔ b ∈ blocks :=
  mem_insertionSort _

theorem tryAcceptBlocks_spec (hquorum : 0 < context.committee.quorumThreshold) {s : ManagedDag}
    (h : Bookkeeping U none s) {blocks : List VerifiedBlock}
    (hblocks : ∀ b ∈ blocks, b ∈ U.blocks) :
    (∃ panic, tryAcceptBlocks context s blocks = .error panic ∧ OwnSlotOccupied U s panic) ∨
      ∃ progress, tryAcceptBlocks context s blocks = .ok progress ∧ Keeps U s progress.node := by
  refine foldlM_total_or (fun progress : Progress => Keeps U s progress.node) (fun b hb progress hkeeps => ?_)
    (Keeps.refl h)
  rcases processBlock_spec hquorum hkeeps.bookkeeping (hblocks b (mem_sortByRound.mp hb)) with
    ⟨panic, herror, hpanic⟩ | ⟨progress', hok, hkeeps', -⟩
  · exact .inl ⟨panic, herror, hkeeps.ownSlotOccupied hpanic⟩
  · exact .inr ⟨progress', hok, hkeeps.trans hkeeps'⟩

/-! ### Committed blocks -/

theorem removeReferences_spec (blockRef : BlockRef) {ancestors : List BlockRef} :
    ∀ {manager : BlockManager}, ∃ manager' : BlockManager,
      ancestors.foldl (removeReference blockRef) manager = manager' ∧
      manager'.suspendedBlocks = manager.suspendedBlocks ∧
      manager'.missingBlocks = manager.missingBlocks ∧
      (∀ a b, (∃ c, manager'.missingAncestors[a]? = some c ∧ b ∈ c) ↔
        (∃ c, manager.missingAncestors[a]? = some c ∧ b ∈ c) ∧ ¬ (a ∈ ancestors ∧ b = blockRef)) ∧
      ∀ a, a ∈ manager'.missingAncestors ↔ a ∈ manager.missingAncestors := by
  induction ancestors with
  | nil => exact fun {manager} => ⟨manager, rfl, rfl, rfl, by simp, by simp⟩
  | cons ancestor rest ih =>
    intro manager
    obtain ⟨manager₁, hfirst, hsuspended₁, hmissing₁, hancestors₁⟩ :
        ∃ manager₁ : BlockManager, removeReference blockRef manager ancestor = manager₁ ∧
          manager₁.suspendedBlocks = manager.suspendedBlocks ∧
          manager₁.missingBlocks = manager.missingBlocks ∧
          ∀ a : BlockRef, manager₁.missingAncestors[a]? = if ancestor = a then
            manager.missingAncestors[a]?.map fun c => c.erase blockRef
            else manager.missingAncestors[a]? := by
      unfold removeReference
      cases hc : manager.missingAncestors[ancestor]? with
      | none =>
        refine ⟨manager, rfl, rfl, rfl, fun a => ?_⟩
        split_ifs with ha
        · rw [← ha, hc, Option.map_none]
        · rfl
      | some c =>
        refine ⟨_, rfl, rfl, rfl, fun a => ?_⟩
        rw [get_insert]
        split_ifs with ha
        · rw [← ha, hc, Option.map_some]
        · rfl
    obtain ⟨manager', hrest, hsuspended, hmissing, hancestors, hkeys⟩ := @ih manager₁
    refine ⟨manager', by rw [foldl_cons, hfirst, hrest], hsuspended.trans hsuspended₁,
      hmissing.trans hmissing₁, fun a b => ?_, fun a => ?_⟩
    · rw [hancestors a b, hancestors₁ a]
      by_cases ha : ancestor = a
      · subst ha
        rw [if_pos rfl]
        cases manager.missingAncestors[ancestor]? with
        | none => simp
        | some c =>
          simp only [Option.map_some, Option.some.injEq, exists_eq_left', Finset.mem_erase,
            mem_cons, true_or, true_and]
          tauto
      · rw [if_neg ha]
        simp [Ne.symm ha]
    · rw [hkeys a, mem_iff, mem_iff, hancestors₁ a]
      split_ifs with ha
      · simp
      · rfl

theorem Bookkeeping.forgetBlock (h : Bookkeeping U none s) (root : BlockRef) :
    Bookkeeping U (some root) { s with manager := s.manager.forgetBlock root } ∧
      root ∉ (s.manager.forgetBlock root).suspendedBlocks := by
  unfold BlockManager.forgetBlock
  dsimp only
  cases hroot : s.manager.suspendedBlocks[root]? with
  | none =>
    refine ⟨h.expect root, fun hmem => ?_⟩
    obtain ⟨sb, hsb⟩ := (mem_iff _ root).mp hmem
    rw [hroot] at hsb
    cases hsb
  | some sb₀ =>
    obtain ⟨manager, hfold, hsuspended, hmissing, hancestors, hkeys⟩ :=
      @removeReferences_spec root (sb₀.missingAncestors.sort (· ≤ ·))
        { s.manager with
          missingBlocks := s.manager.missingBlocks.erase root
          suspendedBlocks := s.manager.suspendedBlocks.erase root }
    dsimp only at hfold hsuspended hmissing hancestors hkeys ⊢
    rw [hfold]
    have hentry : ∀ {r : BlockRef} {sb : SuspendedBlock},
        manager.suspendedBlocks[r]? = some sb ↔
          root ≠ r ∧ s.manager.suspendedBlocks[r]? = some sb := by
      intro r sb
      rw [hsuspended, get_erase]
      split_ifs with hr <;> simp [hr]
    have hmem : ∀ {r : BlockRef}, r ∈ manager.suspendedBlocks ↔
        root ≠ r ∧ r ∈ s.manager.suspendedBlocks := by
      intro r
      rw [mem_iff, mem_iff]
      simp only [hentry, exists_and_left]
    refine ⟨{ h with
      linked := ?linked
      missing := ?missing
      block_mem := fun hsb => h.block_mem (hentry.mp hsb).2
      waits := fun hsb => h.waits (hentry.mp hsb).2
      accepted := fun hsb => h.accepted (hentry.mp hsb).2
      fresh := fun r hr => h.fresh r (hmem.mp hr).2
      absent := fun r hr _ => h.absent r ((hkeys r).mp hr) (by simp) },
      fun hin => (hmem.mp hin).1 rfl⟩
    case linked =>
      refine ⟨fun a b => ?_, fun hsb => h.linked.reference (hentry.mp hsb).2,
        fun hsb => h.linked.waiting (hentry.mp hsb).2⟩
      rw [hancestors a b, h.linked.links a b, Finset.mem_sort]
      constructor
      · rintro ⟨⟨sb, hsb, ha⟩, hnot⟩
        refine ⟨sb, hentry.mpr ⟨?_, hsb⟩, ha⟩
        rintro rfl
        rw [hroot] at hsb
        cases hsb
        exact hnot ⟨ha, rfl⟩
      · rintro ⟨sb, hsb, ha⟩
        obtain ⟨hne, hsb⟩ := hentry.mp hsb
        exact ⟨⟨sb, hsb, ha⟩, fun hand => hne hand.2.symm⟩
    case missing =>
      intro r
      rw [hmissing, Finset.mem_erase, h.missing, hkeys, hmem]
      constructor
      · rintro ⟨hne, hin, hnot, -⟩
        exact ⟨hin, fun hand => hnot hand.2, fun heq => hne (Option.some.inj heq).symm⟩
      · rintro ⟨hin, hnot, hne⟩
        have hne' : root ≠ r := fun heq => hne (congrArg some heq)
        exact ⟨Ne.symm hne', hin, fun hsus => hnot ⟨hne', hsus⟩, by simp⟩

/-- A committed block is accepted at once: its ancestors have been. -/
theorem Bookkeeping.acceptRoot {root : BlockRef}
    (h : Bookkeeping U (some root) s) (hnot : root ∉ s.manager.suspendedBlocks)
    (haccepting : Accepting U dag) (hgc : dag.gcRound context = s.dag.gcRound context)
    (hknown : ∀ r, Known dag r ↔ Known s.dag r ∨ r = root) {batch : List VerifiedBlock}
    (hordered : CausallyOrdered context s.dag batch) :
    Bookkeeping U (some root) ⟨s.manager, dag, s.batches ++ [(s.dag, batch)]⟩ :=
  { h with
    accepting := haccepting
    accepted := by
      intro r sb hsb a ha hround
      rw [hgc] at hround
      exact (h.accepted hsb a ha hround).imp_right fun hk => (hknown a).mpr (.inl hk)
    fresh := by
      intro r hr hk
      rcases (hknown r).mp hk with hk | rfl
      · exact h.fresh r hr hk
      · exact hnot hr
    absent := by
      intro r hr hne hk
      rcases (hknown r).mp hk with hk | rfl
      · exact h.absent r hr hne hk
      · exact hne rfl
    batches := forall_mem_append.mpr ⟨h.batches, forall_mem_singleton.mpr hordered⟩ }

theorem processCommittedBlock_spec (hquorum : 0 < context.committee.quorumThreshold)
    {progress : Progress} (h : Bookkeeping U none progress.node) (hblock : block ∈ U.blocks)
    (hancestors : ∀ a ∈ block.ancestors, progress.node.dag.gcRound context < a.round →
      Known progress.node.dag a) :
    (∃ panic, processCommittedBlock context progress block = .error panic ∧
        OwnSlotOccupied U progress.node panic) ∨
      ∃ progress', processCommittedBlock context progress block = .ok progress' ∧
        Keeps U progress.node progress'.node ∧ Known progress'.node.dag block.reference ∧
        progress'.missingBlocks = progress.missingBlocks := by
  unfold processCommittedBlock tryAcceptOneCommittedBlock
  by_cases hcontains : progress.node.dag.containsBlock context block.reference = true
  · rw [if_pos hcontains]
    refine .inr ⟨_, rfl, Keeps.refl h, known_of_containsBlock hcontains ?_, rfl⟩
    exact Nat.ne_of_gt (U.wellFormed hblock).round_pos
  · rw [if_neg hcontains]
    obtain ⟨hforget, hnot⟩ := h.forgetBlock block.reference
    have hordered : CausallyOrdered context progress.node.dag [block] :=
      causallyOrdered_singleton fun a ha hround =>
        h.accepting.tracked a (hancestors a ha hround) hround
    have hsingle : ∀ b ∈ [block], b ∈ U.blocks := by simp [hblock]
    rcases acceptBlocks_total hquorum hsingle h.accepting hordered with
      ⟨r, herror, hfaulty⟩ | ⟨dag, hok, haccepting, hown, hgc, hknown, -⟩
    · refine .inl ⟨_, ?_, ⟨r, rfl⟩, hfaulty⟩
      simp only [ManagedDag.acceptBlocks, bind, Except.bind, herror]
    · have hroot := hforget.acceptRoot hnot haccepting hgc (by simpa using hknown) hordered
      rcases @acceptUnsuspended_spec context U hquorum
          ⟨⟨progress.node.manager.forgetBlock block.reference, dag,
            progress.node.batches ++ [(progress.node.dag, [block])]⟩,
            progress.acceptedBlocks ++ [block], progress.missingBlocks⟩
          block.reference hroot [] (by simp) (by simp [CausallyOrdered]) hnot
          (.inr (.inl ((hknown _).mpr (.inr (by simp))))) with
        ⟨panic, hpanic, hfault⟩ | ⟨node, unsuspended, hrun, h', -, hown', hgc', hknown'⟩
      · refine .inl ⟨panic, ?_, hfault.1, hown ▸ hfault.2⟩
        simp only [ManagedDag.acceptBlocks, bind, Except.bind, hok]
        exact hpanic
      · have hmem : Known dag block.reference := (hknown _).mpr (.inr (by simp))
        refine .inr ⟨⟨node, progress.acceptedBlocks ++ [block] ++ ([] ++ unsuspended),
          progress.missingBlocks⟩, ?_, ⟨h', hown'.trans hown, hgc'.trans hgc, fun {r} hr =>
          (hknown' r).mpr (.inl ((hknown r).mpr (.inl hr)))⟩,
          (hknown' _).mpr (.inl hmem), rfl⟩
        simp only [ManagedDag.acceptBlocks, bind, Except.bind, hok]
        exact hrun

/-- The promise for the blocks of a certified commit: their ancestors above the gc round
    are accepted or come with them. -/
structure CommittedBatch (U : BlockUniverse context) (s : ManagedDag)
    (blocks : List VerifiedBlock) : Prop where
  block_mem : ∀ b ∈ blocks, b ∈ U.blocks
  ancestors : ∀ b ∈ blocks, ∀ a ∈ b.ancestors, s.dag.gcRound context < a.round →
    Known s.dag a ∨ a ∈ blocks.map VerifiedBlock.reference

theorem processCommittedBlocks_spec (hquorum : 0 < context.committee.quorumThreshold)
    {blocks : List VerifiedBlock} :
    ∀ {progress : Progress}, Bookkeeping U none progress.node →
      CommittedBatch U progress.node blocks → (blocks.Pairwise fun a b => a.round ≤ b.round) →
      (∃ panic, blocks.foldlM (processCommittedBlock context) progress = .error panic ∧
        OwnSlotOccupied U progress.node panic) ∨
      ∃ progress', blocks.foldlM (processCommittedBlock context) progress = .ok progress' ∧
        Keeps U progress.node progress'.node ∧
        progress'.missingBlocks = progress.missingBlocks := by
  induction blocks with
  | nil => exact fun h _ _ => .inr ⟨_, rfl, Keeps.refl h, rfl⟩
  | cons block rest ih =>
    intro progress h hbatch hsorted
    obtain ⟨hfirst, hrest⟩ := pairwise_cons.mp hsorted
    have hblock := hbatch.block_mem block (.head _)
    -- no block of the rest is an ancestor: their rounds are not lower
    have hancestors : ∀ a ∈ block.ancestors, progress.node.dag.gcRound context < a.round →
        Known progress.node.dag a := by
      intro a ha hround
      refine (hbatch.ancestors block mem_cons_self a ha hround).resolve_right fun hin => ?_
      obtain ⟨b, hb, rfl⟩ := mem_map.mp hin
      have hlower : b.round < block.round := (U.wellFormed hblock).ancestor_round _ ha
      rcases mem_cons.mp hb with rfl | hb
      · exact Nat.lt_irrefl _ hlower
      · exact absurd (hfirst b hb) (Nat.not_le.mpr hlower)
    rcases processCommittedBlock_spec hquorum h hblock hancestors with
      ⟨panic, herror, hpanic⟩ | ⟨progress₁, hok, hkeeps, hknown, hmissing⟩
    · exact .inl ⟨panic, by rw [foldlM_cons, herror]; rfl, hpanic⟩
    · have hbatch₁ : CommittedBatch U progress₁.node rest := by
        refine ⟨fun b hb => hbatch.block_mem b (.tail block hb), ?_⟩
        intro b hb a ha hround
        rw [hkeeps.gcRound] at hround
        rcases hbatch.ancestors b (.tail block hb) a ha hround with hk | hin
        · exact .inl (hkeeps.known hk)
        · rcases mem_cons.mp hin with rfl | hin
          · exact .inl hknown
          · exact .inr hin
      rw [foldlM_cons, hok]
      rcases ih hkeeps.bookkeeping hbatch₁ hrest with
        ⟨panic, herror, hpanic⟩ | ⟨progress', hrun, hkeeps', hmissing'⟩
      · exact .inl ⟨panic, herror, hkeeps.ownSlotOccupied hpanic⟩
      · exact .inr ⟨progress', hrun, hkeeps.trans hkeeps', hmissing'.trans hmissing⟩

theorem tryAcceptCommittedBlocks_spec (hquorum : 0 < context.committee.quorumThreshold)
    {s : ManagedDag} (h : Bookkeeping U none s) {blocks : List VerifiedBlock}
    (hbatch : CommittedBatch U s blocks) :
    (∃ panic, tryAcceptCommittedBlocks context s blocks = .error panic ∧
        OwnSlotOccupied U s panic) ∨
      ∃ progress, tryAcceptCommittedBlocks context s blocks = .ok progress ∧
        Keeps U s progress.node := by
  have hsorted : (sortByRound blocks).Pairwise fun a b => a.round ≤ b.round :=
    pairwise_insertionSort (fun a b : VerifiedBlock => a.round ≤ b.round) blocks
  have hbatch' : CommittedBatch U s (sortByRound blocks) := by
    refine ⟨fun b hb => hbatch.block_mem b (mem_sortByRound.mp hb), fun b hb a ha hround => ?_⟩
    refine (hbatch.ancestors b (mem_sortByRound.mp hb) a ha hround).imp_right fun hin => ?_
    obtain ⟨b', hb', rfl⟩ := mem_map.mp hin
    exact mem_map_of_mem (mem_sortByRound.mpr hb')
  unfold tryAcceptCommittedBlocks
  rcases @processCommittedBlocks_spec context U hquorum (sortByRound blocks) { node := s } h hbatch'
      hsorted with ⟨panic, herror, hpanic⟩ | ⟨progress, hrun, hkeeps, hmissing⟩
  · exact .inl ⟨panic, by rw [herror]; rfl, hpanic⟩
  · refine .inr ⟨progress, ?_, hkeeps⟩
    refine bind_eq_ok.mpr ⟨progress, hrun, ?_⟩
    rw [hmissing]
    rfl

/-! ### Finding blocks -/

theorem Bookkeeping.findBlock (h : Bookkeeping U none s) {blockRef : BlockRef}
    (hround : s.dag.gcRound context < blockRef.round) (found : Finset BlockRef) :
    ∃ (manager : BlockManager) (found' : Finset BlockRef),
      ManagedDag.findBlock context s.dag (s.manager, found) blockRef = (manager, found') ∧
      Bookkeeping U none { s with manager := manager } ∧
      manager.suspendedBlocks = s.manager.suspendedBlocks := by
  unfold ManagedDag.findBlock
  dsimp only
  split_ifs with hknown hmissing
  · exact ⟨s.manager, found, rfl, h, rfl⟩
  · exact ⟨s.manager, _, rfl, h, rfl⟩
  · obtain ⟨hcontains, hnot⟩ := not_or.mp hknown
    refine ⟨_, _, rfl, ?_, rfl⟩
    have hkey : ∀ r, r ∈ s.manager.missingAncestors.insert blockRef
        (s.manager.missingAncestors.getD blockRef ∅) ↔
          r = blockRef ∨ r ∈ s.manager.missingAncestors := by
      intro r
      rw [mem_insert, compare_eq_iff_eq, eq_comm]
    refine { h with linked := ?linked, missing := ?missing, absent := ?absent }
    case linked =>
      refine ⟨fun a b => ?_, h.linked.reference, h.linked.waiting⟩
      rw [← h.linked.links a b, get_insert]
      by_cases ha : blockRef = a
      · subst ha
        rw [if_pos rfl, getD_eq_getD_getElem?]
        cases s.manager.missingAncestors[blockRef]? with
        | none => simp
        | some c => simp
      · rw [if_neg ha]
    case missing =>
      intro r
      rw [Finset.mem_insert, h.missing, hkey]
      constructor
      · rintro (rfl | ⟨hin, hout, -⟩)
        · exact ⟨.inl rfl, hnot, by simp⟩
        · exact ⟨.inr hin, hout, by simp⟩
      · rintro ⟨hin, hout, -⟩
        exact hin.imp_right fun hin => ⟨hin, hout, by simp⟩
    case absent =>
      intro r hr _
      rcases (hkey r).mp hr with rfl | hr
      · exact fun hk => hcontains ((h.known_iff hround).mpr hk)
      · exact h.absent r hr (by simp)

theorem Bookkeeping.findBlocks {refs : List BlockRef} :
    ∀ {s : ManagedDag}, Bookkeeping U none s →
      (∀ r ∈ refs, s.dag.gcRound context < r.round) → ∀ found : Finset BlockRef,
      ∃ (manager : BlockManager) (found' : Finset BlockRef),
        refs.foldl (ManagedDag.findBlock context s.dag) (s.manager, found) = (manager, found') ∧
        Bookkeeping U none { s with manager := manager } := by
  induction refs with
  | nil => exact fun {s} h _ found => ⟨s.manager, found, rfl, h⟩
  | cons r rest ih =>
    intro s h hround found
    obtain ⟨manager, found₁, hfirst, h₁, -⟩ := h.findBlock (hround r (.head _)) found
    rw [foldl_cons, hfirst]
    exact ih h₁ (fun r' hr' => hround r' (.tail r hr')) found₁

theorem tryFindBlocks_spec (h : Bookkeeping U none s) (refs : List BlockRef) :
    Keeps U s (tryFindBlocks context s refs).1 := by
  unfold tryFindBlocks
  dsimp only
  obtain ⟨manager, found, hfold, h'⟩ := @Bookkeeping.findBlocks context U
    ((refs.filter fun blockRef => blockRef.round > s.dag.gcRound context).insertionSort
      fun a b => a.round ≤ b.round) s h (fun r hr => by
        exact of_decide_eq_true (mem_filter.mp ((mem_insertionSort _).mp hr)).2) ∅
  rw [hfold]
  exact ⟨h', rfl, rfl, id⟩

/-! ### Collecting garbage -/

/-- The lowest missing block is not suspended: it would wait for a lower one. -/
theorem Bookkeeping.lowest_not_suspended (h : Bookkeeping U none s)
    (hlowest : ∀ a ∈ s.manager.missingAncestors, r.round ≤ a.round) :
    r ∉ s.manager.suspendedBlocks := by
  intro hr
  obtain ⟨sb, hsb⟩ := (mem_iff _ r).mp hr
  obtain ⟨a, ha⟩ := h.linked.waiting hsb
  obtain ⟨children, hchildren, -⟩ := (h.linked.links a r).mpr ⟨sb, hsb, ha⟩
  have hlower : a.round < sb.block.round :=
    (U.wellFormed (h.block_mem hsb)).ancestor_round a (h.waits hsb a ha)
  have hround : sb.block.round = r.round := congrArg BlockRef.round (h.linked.reference hsb)
  have hle := hlowest a (mem_of_get hchildren)
  omega

theorem head_keys_round {missingAncestors : Std.ExtTreeMap BlockRef (Finset BlockRef) compare}
    (h : missingAncestors.keys.head? = some r) :
    r ∈ missingAncestors ∧ ∀ a ∈ missingAncestors, r.round ≤ a.round := by
  obtain ⟨rest, hrest⟩ := List.head?_eq_some_iff.mp h
  have hordered := missingAncestors.ordered_keys
  rw [hrest, pairwise_cons] at hordered
  refine ⟨mem_keys.mp (by rw [hrest]; exact .head _), fun a ha => ?_⟩
  have hmem := mem_keys.mpr ha
  rw [hrest] at hmem
  rcases mem_cons.mp hmem with rfl | hmem
  · exact Nat.le_refl _
  · exact BlockRef.round_le_of_le (compare_lt_iff_lt.mp (hordered.1 a hmem)).le

theorem gcTurn_spec (hquorum : 0 < context.committee.quorumThreshold) {s : ManagedDag}
    (h : Bookkeeping U none s) :
    (∃ panic, gcTurn context (s.dag.gcRound context) s = .error panic ∧
        OwnSlotOccupied U s panic) ∨
      (gcTurn context (s.dag.gcRound context) s = .ok (.done s) ∧
        ∀ a ∈ s.manager.missingAncestors, s.dag.gcRound context < a.round) ∨
      ∃ s', gcTurn context (s.dag.gcRound context) s = .ok (.continue s') ∧ Keeps U s s' ∧
        ∃ r ∈ s.manager.missingAncestors, ∀ a ∈ s'.manager.missingAncestors,
          a ≠ r ∧ a ∈ s.manager.missingAncestors := by
  unfold gcTurn
  cases hhead : s.manager.missingAncestors.keys.head? with
  | none =>
    refine .inr (.inl ⟨rfl, fun a ha => ?_⟩)
    have hmem := mem_keys.mpr ha
    rw [List.head?_eq_none_iff.mp hhead] at hmem
    exact nomatch hmem
  | some r =>
    dsimp only
    obtain ⟨hkey, hlowest⟩ := head_keys_round hhead
    by_cases hround : r.round > s.dag.gcRound context
    · rw [if_pos hround]
      exact .inr (.inl ⟨rfl, fun a ha => Nat.lt_of_lt_of_le hround (hlowest a ha)⟩)
    · have hnot := h.lowest_not_suspended hlowest
      rw [if_neg hround, if_neg hnot]
      have hroot : Bookkeeping U (some r) { s with
          manager := { s.manager with missingBlocks := s.manager.missingBlocks.erase r } } :=
        h.expect r
      obtain ⟨manager, unsuspended, hrun, hreleasing, hcases⟩ :=
        @Bookkeeping.handOver context U hquorum _ r hroot [] (by simp)
          (by simp [CausallyOrdered]) hnot (.inl (Nat.le_of_not_lt hround))
      rw [nil_append] at hcases
      rw [hrun]
      rcases hcases with ⟨panic, herror, hpanic⟩ | ⟨node, hok, rfl, h', hown, hgc, hknown⟩
      · refine .inl ⟨panic, ?_, hpanic⟩
        simp only [bind, Except.bind, herror]
      · refine .inr (.inr ⟨node, ?_, ⟨h', hown, hgc, fun {a} ha => (hknown a).mpr (.inl ha)⟩,
          r, hkey, fun a ha => ?_⟩)
        · simp only [bind, Except.bind, hok]
          rfl
        · obtain ⟨hgone, hin⟩ := (hreleasing.mem_missingAncestors a).mp ha
          exact ⟨fun heq => hgone (mem_gone.mpr (.inl heq)), hin⟩

/-- The garbage collection ends, and leaves nothing that waits for a collected block. -/
theorem tryUnsuspendBlocksForLatestGcRound_spec (hquorum : 0 < context.committee.quorumThreshold)
    {s : ManagedDag} (h : Bookkeeping U none s) :
    (∃ panic, tryUnsuspendBlocksForLatestGcRound context s = .error panic ∧
        OwnSlotOccupied U s panic) ∨
      ∃ s', tryUnsuspendBlocksForLatestGcRound context s = .ok s' ∧ Keeps U s s' ∧
        ∀ a ∈ s'.manager.missingAncestors, s'.dag.gcRound context < a.round := by
  -- each turn removes a key of `missingAncestors`
  let Inv : Nat → ManagedDag → Prop := fun n node => Keeps U s node ∧
    node.manager.missingAncestors.keys.toFinset.card = n
  have hturn : ∀ n node, Inv n node →
      (∃ panic, gcTurn context (s.dag.gcRound context) node = .error panic ∧
        OwnSlotOccupied U s panic) ∨
      (∃ result, gcTurn context (s.dag.gcRound context) node = .ok (.done result) ∧
        (Keeps U s result ∧
          ∀ a ∈ result.manager.missingAncestors, result.dag.gcRound context < a.round)) ∨
      ∃ m node', gcTurn context (s.dag.gcRound context) node = .ok (.continue node') ∧ m < n ∧
        Inv m node' := by
    rintro n node ⟨hkeeps, rfl⟩
    rw [← hkeeps.gcRound]
    rcases gcTurn_spec hquorum hkeeps.bookkeeping with
      ⟨panic, herror, hpanic⟩ | ⟨hdone, habove⟩ | ⟨node', hnext, hkeeps', r, hr, hkeys⟩
    · exact .inl ⟨panic, herror, hkeeps.ownSlotOccupied hpanic⟩
    · exact .inr (.inl ⟨node, hdone, hkeeps, habove⟩)
    · refine .inr (.inr ⟨_, node', hnext, Finset.card_lt_card ?_, hkeeps.trans hkeeps', rfl⟩)
      refine (Finset.ssubset_iff_of_subset fun a ha => ?_).mpr ⟨r, ?_, fun hin => ?_⟩
      · rw [mem_toFinset, Std.ExtTreeMap.mem_keys] at ha ⊢
        exact (hkeys a ha).2
      · rw [mem_toFinset, Std.ExtTreeMap.mem_keys]
        exact hr
      · rw [mem_toFinset, Std.ExtTreeMap.mem_keys] at hin
        exact (hkeys r hin).1 rfl
  have hfuel : s.manager.missingAncestors.keys.toFinset.card <
      s.manager.missingAncestors.size + 1 := by
    rw [← Std.ExtTreeMap.length_keys]
    exact Nat.lt_succ_of_le (toFinset_card_le _)
  exact loop_total_or Inv hturn ⟨Keeps.refl h, rfl⟩ hfuel

end ManagedDag

end Haneul.Consensus
