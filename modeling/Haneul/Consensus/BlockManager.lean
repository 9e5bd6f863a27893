import Haneul.Lib.Suspension
import Haneul.Consensus.DagAccept

/-!
# The block manager

Mirror of `consensus/core/src/block_manager.rs`.  A block is suspended until its
ancestors above the gc round are accepted; accepting a block, or collecting a missing
one as garbage, releases the blocks that waited for it, and those that waited for them.

Two maps hold who waits for whom, in opposite directions.  The theorems about the
release loop say how it changes both, in terms of the set of references it has
processed; `received_block_rounds` and the timestamps of suspended blocks are read by
metrics only and are left out.
-/

namespace Haneul.Consensus

open Quorum List VerifiedBlock

structure SuspendedBlock where
  block : VerifiedBlock
  missingAncestors : Finset BlockRef
deriving DecidableEq

inductive ManagerPanic where
  | outOfFuel
  | notSuspended (block : BlockRef)
  | notMissing (block dependency : BlockRef)
  | suspendedMissingAncestor (block : BlockRef)
  | committedNotAccepted (block : BlockRef)
  | committedMissing (blocks : Finset BlockRef)
  | dagState (panic : Panic)
deriving DecidableEq

inductive TryAcceptResult where
  | accepted (block : VerifiedBlock)
  | suspended (ancestorsToFetch : Finset BlockRef)
  | processed
  | skipped
deriving DecidableEq

structure BlockManager where
  suspendedBlocks : Std.ExtTreeMap BlockRef SuspendedBlock compare := ∅
  missingAncestors : Std.ExtTreeMap BlockRef (Finset BlockRef) compare := ∅
  missingBlocks : Finset BlockRef := ∅

namespace BlockManager

variable (context : Context)

/-! ### Releasing suspended blocks -/

variable (manager : BlockManager)

/-- Removes an accepted dependency of a suspended block, and the block itself if that
    was the last one. -/
def tryUnsuspendBlock (blockRef acceptedDependency : BlockRef) :
    Except ManagerPanic (BlockManager × Option SuspendedBlock) :=
  match manager.suspendedBlocks[blockRef]? with
  | none => .error (.notSuspended blockRef)
  | some suspended =>
    if acceptedDependency ∉ suspended.missingAncestors then
      .error (.notMissing blockRef acceptedDependency)
    else
      let suspended := { suspended with
        missingAncestors := suspended.missingAncestors.erase acceptedDependency }
      if suspended.missingAncestors = ∅ then
        .ok ({ manager with suspendedBlocks := manager.suspendedBlocks.erase blockRef },
          some suspended)
      else
        .ok ({ manager with
          suspendedBlocks := manager.suspendedBlocks.insert blockRef suspended }, none)

structure Release where
  manager : BlockManager
  toProcess : List BlockRef
  unsuspended : List VerifiedBlock := []

variable (blockRef : BlockRef)

def unsuspendChild (release : Release) (child : BlockRef) :
    Except ManagerPanic Release := do
  match ← tryUnsuspendBlock release.manager child blockRef with
  | (manager, some suspended) =>
    return ⟨manager, suspended.block.reference :: release.toProcess,
      release.unsuspended ++ [suspended.block]⟩
  | (manager, none) => return { release with manager := manager }

def unsuspendTurn (release : Release) :
    Except ManagerPanic (Turn Release (BlockManager × List VerifiedBlock)) :=
  match release.toProcess with
  | [] => .ok (.done (release.manager, release.unsuspended))
  | blockRef :: rest =>
    match release.manager.missingAncestors[blockRef]? with
    | none => .ok (.continue { release with toProcess := rest })
    | some children => do
      let manager := { release.manager with
        missingAncestors := release.manager.missingAncestors.erase blockRef }
      let release ← (children.sort (· ≤ ·)).foldlM (unsuspendChild blockRef)
        ⟨manager, rest, release.unsuspended⟩
      return .continue release

/-- Releases the blocks that waited for `acceptedBlock`, directly or through others. -/
def tryUnsuspendChildrenBlocks (acceptedBlock : BlockRef) :
    Except ManagerPanic (BlockManager × List VerifiedBlock) :=
  loop .outOfFuel unsuspendTurn (manager.suspendedBlocks.size + 2)
    { manager := manager, toProcess := [acceptedBlock] }

/-! ### One block -/

/-- Records that a block waits for one of its ancestors. -/
def addMissingAncestor (found : BlockManager × Finset BlockRef)
    (ancestor : BlockRef) : BlockManager × Finset BlockRef :=
  let (manager, ancestorsToFetch) := found
  let manager := { manager with
    missingAncestors := manager.missingAncestors.insert ancestor
      (insert blockRef (manager.missingAncestors.getD ancestor ∅)) }
  if ancestor ∉ manager.suspendedBlocks then
    ({ manager with missingBlocks := insert ancestor manager.missingBlocks },
      insert ancestor ancestorsToFetch)
  else (manager, ancestorsToFetch)

def missingAncestorsOf (dag : DagState) (block : VerifiedBlock) : List BlockRef :=
  let gcRound := dag.gcRound context
  let ancestors := block.ancestors.filter fun ancestor =>
    ancestor.round = GENESIS_ROUND ∨ ancestor.round > gcRound
  ancestors.filter fun ancestor => ¬ dag.containsBlock context ancestor

def tryAcceptOneBlock (dag : DagState) (block : VerifiedBlock) :
    BlockManager × TryAcceptResult :=
  let blockRef := block.reference
  if blockRef ∈ manager.suspendedBlocks ∨ dag.containsBlock context blockRef then
    (manager, .processed)
  else if block.round ≤ dag.gcRound context then (manager, .skipped)
  else
    let missing := missingAncestorsOf context dag block
    let (manager, ancestorsToFetch) := missing.foldl (addMissingAncestor blockRef) (manager, ∅)
    let manager := { manager with missingBlocks := manager.missingBlocks.erase blockRef }
    if missing ≠ [] then
      ({ manager with
        suspendedBlocks := manager.suspendedBlocks.insert blockRef ⟨block, missing.toFinset⟩ },
        .suspended ancestorsToFetch)
    else (manager, .accepted block)

def removeReference (manager : BlockManager) (ancestor : BlockRef) :
    BlockManager :=
  match manager.missingAncestors[ancestor]? with
  | none => manager
  | some references =>
    { manager with
      missingAncestors := manager.missingAncestors.insert ancestor (references.erase blockRef) }

/-- Takes a committed block out of the bookkeeping, before it is accepted. -/
def forgetBlock (blockRef : BlockRef) : BlockManager :=
  let manager := { manager with missingBlocks := manager.missingBlocks.erase blockRef }
  match manager.suspendedBlocks[blockRef]? with
  | none => manager
  | some suspended =>
    (suspended.missingAncestors.sort (· ≤ ·)).foldl (removeReference blockRef)
      { manager with suspendedBlocks := manager.suspendedBlocks.erase blockRef }

/-! ### The calls -/

end BlockManager

/-- A block manager and the DAG state it shares with the rest of the node.  `batches`
    records every call of `accept_blocks`, with the state it found; nothing reads it. -/
structure ManagedDag where
  manager : BlockManager := {}
  dag : DagState
  batches : List (DagState × List VerifiedBlock) := []

namespace ManagedDag

open BlockManager

variable (context : Context) (s : ManagedDag)

def acceptBlocks (blocks : List VerifiedBlock) : Except ManagerPanic ManagedDag :=
  match s.dag.acceptBlocks context blocks with
  | .error panic => .error (.dagState panic)
  | .ok dag => .ok { s with dag := dag, batches := s.batches ++ [(s.dag, blocks)] }

def tryAcceptOneCommittedBlock (block : VerifiedBlock) :
    Except ManagerPanic (ManagedDag × TryAcceptResult) :=
  if s.dag.containsBlock context block.reference then .ok (s, .processed)
  else do
    let s := { s with manager := s.manager.forgetBlock block.reference }
    let s ← acceptBlocks context s [block]
    return (s, .accepted block)

structure Progress where
  node : ManagedDag
  acceptedBlocks : List VerifiedBlock := []
  missingBlocks : Finset BlockRef := ∅

variable (progress : Progress)

/-- Releases the blocks that waited for an accepted one and hands them over, after
    `blocksToAccept`. -/
def acceptUnsuspended (blockRef : BlockRef)
    (blocksToAccept : List VerifiedBlock) : Except ManagerPanic Progress := do
  let (manager, unsuspendedBlocks) ← progress.node.manager.tryUnsuspendChildrenBlocks blockRef
  let batch := blocksToAccept ++ unsuspendedBlocks
  let node ← acceptBlocks context { progress.node with manager := manager } batch
  return { progress with node := node, acceptedBlocks := progress.acceptedBlocks ++ batch }

def processBlock (block : VerifiedBlock) : Except ManagerPanic Progress :=
  match progress.node.manager.tryAcceptOneBlock context progress.node.dag block with
  | (manager, .accepted block) =>
    acceptUnsuspended context
      { progress with node := { progress.node with manager := manager } } block.reference [block]
  | (manager, .suspended ancestorsToFetch) =>
    .ok { progress with
      node := { progress.node with manager := manager }
      missingBlocks := progress.missingBlocks ∪ ancestorsToFetch }
  | (manager, .processed) | (manager, .skipped) =>
    .ok { progress with node := { progress.node with manager := manager } }

def processCommittedBlock (block : VerifiedBlock) :
    Except ManagerPanic Progress := do
  match ← tryAcceptOneCommittedBlock context progress.node block with
  | (node, .accepted block) =>
    acceptUnsuspended context
      { progress with node := node, acceptedBlocks := progress.acceptedBlocks ++ [block] }
      block.reference []
  | (node, .processed) => return { progress with node := node }
  | (_, .suspended _) | (_, .skipped) => .error (.committedNotAccepted block.reference)

def sortByRound (blocks : List VerifiedBlock) : List VerifiedBlock :=
  blocks.insertionSort fun a b => a.round ≤ b.round

/-- The blocks accepted, in order, and the ancestors to fetch. -/
def tryAcceptBlocks (blocks : List VerifiedBlock) :
    Except ManagerPanic Progress :=
  (sortByRound blocks).foldlM (processBlock context) { node := s }

def tryAcceptCommittedBlocks (blocks : List VerifiedBlock) :
    Except ManagerPanic Progress := do
  let progress ← (sortByRound blocks).foldlM (processCommittedBlock context) { node := s }
  if progress.missingBlocks ≠ ∅ then .error (.committedMissing progress.missingBlocks)
  else return progress

def findBlock (dag : DagState) (found : BlockManager × Finset BlockRef) (blockRef : BlockRef) :
    BlockManager × Finset BlockRef :=
  let (manager, missingBlocks) := found
  if dag.containsBlock context blockRef ∨ blockRef ∈ manager.suspendedBlocks then found
  else
    let missingBlocks := insert blockRef missingBlocks
    if blockRef ∈ manager.missingBlocks then (manager, missingBlocks)
    else
      ({ manager with
        missingBlocks := insert blockRef manager.missingBlocks
        missingAncestors := manager.missingAncestors.insert blockRef
          (manager.missingAncestors.getD blockRef ∅) }, missingBlocks)

def tryFindBlocks (blockRefs : List BlockRef) : ManagedDag × Finset BlockRef :=
  let blockRefs := (blockRefs.filter fun blockRef => blockRef.round > s.dag.gcRound context)
  let sorted := blockRefs.insertionSort fun a b => a.round ≤ b.round
  let (manager, missingBlocks) := sorted.foldl (findBlock context s.dag) (s.manager, ∅)
  ({ s with manager := manager }, missingBlocks)

/-- Collects the lowest missing block if it is at or below the gc round. -/
def gcTurn (gcRound : Nat) (s : ManagedDag) :
    Except ManagerPanic (Turn ManagedDag ManagedDag) :=
  match s.manager.missingAncestors.keys.head? with
  | none => .ok (.done s)
  | some blockRef =>
    if blockRef.round > gcRound then .ok (.done s)
    else if blockRef ∈ s.manager.suspendedBlocks then
      .error (.suspendedMissingAncestor blockRef)
    else do
      let manager := { s.manager with missingBlocks := s.manager.missingBlocks.erase blockRef }
      let (manager, unsuspendedBlocks) ← manager.tryUnsuspendChildrenBlocks blockRef
      let s ← acceptBlocks context { s with manager := manager } unsuspendedBlocks
      return .continue s

def tryUnsuspendBlocksForLatestGcRound : Except ManagerPanic ManagedDag :=
  loop .outOfFuel (gcTurn context (s.dag.gcRound context)) (s.manager.missingAncestors.size + 1) s

end ManagedDag

/-! ### What the release loop does -/

/-- A suspended block after some dependencies are gone; `none` if it is released. -/
def SuspendedBlock.without (done : Finset BlockRef) (s : SuspendedBlock) : Option SuspendedBlock :=
  if s.missingAncestors \ done = ∅ then none
  else some { s with missingAncestors := s.missingAncestors \ done }

theorem SuspendedBlock.without_empty {s : SuspendedBlock} (h : s.missingAncestors.Nonempty) :
    s.without ∅ = some s := by
  rw [SuspendedBlock.without, Finset.sdiff_empty, if_neg h.ne_empty]

theorem SuspendedBlock.without_without (s : SuspendedBlock) (done done' : Finset BlockRef) :
    (s.without done).bind (SuspendedBlock.without done') = s.without (done ∪ done') := by
  have hsdiff : s.missingAncestors \ (done ∪ done') = (s.missingAncestors \ done) \ done' := by
    ext a
    simp [and_assoc]
  unfold SuspendedBlock.without
  rw [hsdiff]
  by_cases h : s.missingAncestors \ done = ∅
  · simp [h]
  · simp [h]

theorem SuspendedBlock.without_eq_some {s s' : SuspendedBlock} {done : Finset BlockRef}
    (h : s.without done = some s') :
    s'.block = s.block ∧ s'.missingAncestors = s.missingAncestors \ done := by
  unfold SuspendedBlock.without at h
  split_ifs at h
  cases h
  exact ⟨rfl, rfl⟩

namespace BlockManager

variable {initial : BlockManager} {release : Release}

/-- The two maps say the same about who waits for whom. -/
structure Linked (manager : BlockManager) : Prop where
  links : ∀ a b, (∃ children, manager.missingAncestors[a]? = some children ∧ b ∈ children) ↔
    ∃ s : SuspendedBlock, manager.suspendedBlocks[b]? = some s ∧ a ∈ s.missingAncestors
  reference : ∀ {r : BlockRef} {s : SuspendedBlock}, manager.suspendedBlocks[r]? = some s →
    s.block.reference = r
  waiting : ∀ {r : BlockRef} {s : SuspendedBlock}, manager.suspendedBlocks[r]? = some s →
    s.missingAncestors.Nonempty

theorem tryUnsuspendBlock_spec {manager : BlockManager} {child dependency : BlockRef}
    {s : SuspendedBlock} (hs : manager.suspendedBlocks[child]? = some s)
    (hdep : dependency ∈ s.missingAncestors) :
    ∃ manager', manager'.missingAncestors = manager.missingAncestors ∧
      manager'.missingBlocks = manager.missingBlocks ∧
      (∀ r, manager'.suspendedBlocks[r]? =
        if child = r then s.without {dependency} else manager.suspendedBlocks[r]?) ∧
      ((s.missingAncestors \ {dependency} = ∅ ∧ ∃ s' : SuspendedBlock, s'.block = s.block ∧
          tryUnsuspendBlock manager child dependency = .ok (manager', some s')) ∨
        (s.missingAncestors \ {dependency} ≠ ∅ ∧
          tryUnsuspendBlock manager child dependency = .ok (manager', none))) := by
  unfold tryUnsuspendBlock
  rw [hs]
  dsimp only
  rw [if_neg (not_not.mpr hdep), ← Finset.sdiff_singleton_eq_erase]
  by_cases hlast : s.missingAncestors \ {dependency} = ∅
  · rw [if_pos hlast]
    refine ⟨{ manager with suspendedBlocks := manager.suspendedBlocks.erase child }, rfl, rfl,
      fun r => ?_, .inl ⟨hlast, ⟨s.block, s.missingAncestors \ {dependency}⟩, rfl, rfl⟩⟩
    rw [SuspendedBlock.without, if_pos hlast, Map.get_erase]
  · rw [if_neg hlast]
    refine ⟨{ manager with
      suspendedBlocks := manager.suspendedBlocks.insert child
        ⟨s.block, s.missingAncestors \ {dependency}⟩ }, rfl, rfl, fun r => ?_, .inr ⟨hlast, rfl⟩⟩
    rw [SuspendedBlock.without, if_neg hlast, Map.get_insert]

/-- The loop over the children of one reference: each of them loses the dependency, and
    those without another one are released. -/
theorem unsuspendChildren_spec {dependency : BlockRef} {children : List BlockRef} :
    ∀ {release : Release}, children.Nodup →
      (∀ {r : BlockRef} {s : SuspendedBlock}, release.manager.suspendedBlocks[r]? = some s →
        s.block.reference = r) →
      (∀ r ∈ children, ∃ s : SuspendedBlock, release.manager.suspendedBlocks[r]? = some s ∧
        dependency ∈ s.missingAncestors) →
      ∃ (manager : BlockManager) (new : List VerifiedBlock),
        children.foldlM (unsuspendChild dependency) release =
          .ok ⟨manager, (new.map reference).reverse ++ release.toProcess,
            release.unsuspended ++ new⟩ ∧
        manager.missingAncestors = release.manager.missingAncestors ∧
        manager.missingBlocks = release.manager.missingBlocks ∧
        (∀ r, manager.suspendedBlocks[r]? =
          if r ∈ children then
            release.manager.suspendedBlocks[r]?.bind (SuspendedBlock.without {dependency})
          else release.manager.suspendedBlocks[r]?) ∧
        (new.map reference).Sublist children ∧
        ∀ b, b ∈ new ↔ ∃ s : SuspendedBlock, b.reference ∈ children ∧
          release.manager.suspendedBlocks[b.reference]? = some s ∧ s.block = b ∧
          s.missingAncestors \ {dependency} = ∅ := by
  induction children with
  | nil =>
    intro release _ _ _
    exact ⟨release.manager, [], by simp; rfl, rfl, rfl, by simp, .slnil, by simp⟩
  | cons child rest ih =>
    intro release hnodup href hwaits
    obtain ⟨hnot, hrest⟩ := nodup_cons.mp hnodup
    obtain ⟨s, hs, hdep⟩ := hwaits child (.head _)
    obtain ⟨manager₁, hancestors₁, hmissing₁, hget₁, hcases⟩ := tryUnsuspendBlock_spec hs hdep
    have hsref := href hs
    -- the other children are as before
    have hother : ∀ r ∈ rest, manager₁.suspendedBlocks[r]? =
        release.manager.suspendedBlocks[r]? := by
      intro r hr
      have hne : child ≠ r := fun heq => hnot (by rw [heq]; exact hr)
      rw [hget₁, if_neg hne]
    have href₁ : ∀ {r : BlockRef} {s' : SuspendedBlock},
        manager₁.suspendedBlocks[r]? = some s' → s'.block.reference = r := by
      intro r s' hs'
      rw [hget₁] at hs'
      split_ifs at hs' with heq
      · unfold SuspendedBlock.without at hs'
        split_ifs at hs'
        cases hs'
        exact heq ▸ hsref
      · exact href hs'
    have hwaits₁ : ∀ r ∈ rest, ∃ s : SuspendedBlock,
        manager₁.suspendedBlocks[r]? = some s ∧ dependency ∈ s.missingAncestors := by
      intro r hr
      rw [hother r hr]
      exact hwaits r (.tail child hr)
    have hget : ∀ {manager : BlockManager}, (∀ r, manager.suspendedBlocks[r]? =
        if r ∈ rest then
          manager₁.suspendedBlocks[r]?.bind (SuspendedBlock.without {dependency})
        else manager₁.suspendedBlocks[r]?) →
        ∀ r, manager.suspendedBlocks[r]? = if r ∈ child :: rest then
          release.manager.suspendedBlocks[r]?.bind (SuspendedBlock.without {dependency})
        else release.manager.suspendedBlocks[r]? := by
      intro manager hmanager r
      rw [hmanager r]
      by_cases hr : r ∈ rest
      · rw [if_pos hr, if_pos (.tail child hr), hother r hr]
      · rw [if_neg hr, hget₁]
        by_cases heq : child = r
        · subst heq
          rw [if_pos rfl, if_pos (.head _), hs, Option.bind_some]
        · rw [if_neg heq, if_neg]
          simp [hr, Ne.symm heq]
    rcases hcases with ⟨hlast, s', hblock, hrun⟩ | ⟨hlast, hrun⟩
    · obtain ⟨manager, new, hfold, hancestors, hmissing, hmanager, hsub, hnew⟩ :=
        @ih ⟨manager₁, s'.block.reference :: release.toProcess, release.unsuspended ++ [s'.block]⟩
          hrest href₁ hwaits₁
      rw [hblock] at hfold
      refine ⟨manager, s.block :: new, foldlM_cons_eq_ok.mpr
        ⟨⟨manager₁, s.block.reference :: release.toProcess, release.unsuspended ++ [s.block]⟩,
          bind_eq_ok.mpr ⟨_, hrun, by dsimp only; rw [hblock]; rfl⟩, ?_⟩,
        hancestors.trans hancestors₁, hmissing.trans hmissing₁, hget hmanager, ?_, fun b => ?_⟩
      · rw [hfold]
        simp
      · rw [map_cons, hsref]
        exact hsub.cons_cons child
      · rw [mem_cons, hnew b]
        constructor
        · rintro (rfl | ⟨t, hmem, ht, hb⟩)
          · exact ⟨s, by rw [hsref]; exact .head _, by rw [hsref]; exact hs, rfl, hlast⟩
          · exact ⟨t, mem_cons_of_mem child hmem, by rw [← hother _ hmem]; exact ht, hb⟩
        · rintro ⟨t, hmem, ht, hb, hempty⟩
          rcases mem_cons.mp hmem with heq | hmem
          · rw [heq, hs] at ht
            cases ht
            exact .inl hb.symm
          · exact .inr ⟨t, hmem, (hother _ hmem).trans ht, hb, hempty⟩
    · obtain ⟨manager, new, hfold, hancestors, hmissing, hmanager, hsub, hnew⟩ :=
        @ih ⟨manager₁, release.toProcess, release.unsuspended⟩ hrest href₁ hwaits₁
      refine ⟨manager, new, foldlM_cons_eq_ok.mpr ⟨_, ?_, hfold⟩,
        hancestors.trans hancestors₁, hmissing.trans hmissing₁, hget hmanager,
        hsub.cons child, fun b => ?_⟩
      · exact bind_eq_ok.mpr ⟨_, hrun, rfl⟩
      · rw [hnew b]
        constructor
        · rintro ⟨t, hmem, ht, hb⟩
          exact ⟨t, mem_cons_of_mem child hmem, by rw [← hother _ hmem]; exact ht, hb⟩
        · rintro ⟨t, hmem, ht, hb, hempty⟩
          rcases mem_cons.mp hmem with heq | hmem
          · rw [heq, hs] at ht
            cases ht
            exact absurd hempty hlast
          · exact ⟨t, hmem, (hother _ hmem).trans ht, hb, hempty⟩

/-- The release loop after the references in `done` have been processed: they are gone
    from both maps, and what waited for nothing else is released, each block after all
    that it waited for. -/
structure Releasing (initial : BlockManager) (root : BlockRef) (done : Finset BlockRef)
    (release : Release) : Prop where
  suspended : ∀ r : BlockRef, release.manager.suspendedBlocks[r]? =
    initial.suspendedBlocks[r]?.bind (SuspendedBlock.without done)
  ancestors : ∀ a : BlockRef, release.manager.missingAncestors[a]? =
    if a ∈ done then none else initial.missingAncestors[a]?
  missing : release.manager.missingBlocks = initial.missingBlocks
  released : ∀ r : BlockRef, r ∈ release.unsuspended.map VerifiedBlock.reference ↔
    ∃ s : SuspendedBlock, initial.suspendedBlocks[r]? = some s ∧ s.missingAncestors ⊆ done
  stack : release.toProcess.Nodup
  stacked : ∀ r, r ∈ release.toProcess ↔
    (r = root ∨ r ∈ release.unsuspended.map VerifiedBlock.reference) ∧ r ∉ done
  processed : ∀ r ∈ done, r = root ∨ r ∈ release.unsuspended.map VerifiedBlock.reference
  ordered : ∀ before b after, release.unsuspended = before ++ b :: after →
    ∃ s : SuspendedBlock, initial.suspendedBlocks[b.reference]? = some s ∧ s.block = b ∧
      ∀ a ∈ s.missingAncestors, a = root ∨ a ∈ before.map VerifiedBlock.reference

theorem releasing_start (hlinked : Linked initial) (root : BlockRef) :
    Releasing initial root ∅ { manager := initial, toProcess := [root] } where
  suspended := by
    intro r
    cases hr : initial.suspendedBlocks[r]? with
    | none => rfl
    | some s => exact (SuspendedBlock.without_empty (hlinked.waiting hr)).symm
  ancestors := by simp
  missing := rfl
  released := by
    intro r
    simp only [map_nil, not_mem_nil, Finset.subset_empty, false_iff, not_exists, not_and]
    exact fun s hs hempty => (hlinked.waiting hs).ne_empty hempty
  stack := nodup_singleton root
  stacked := by simp
  processed := by simp
  ordered := by
    intro before b after h
    simp at h

theorem Releasing.linked (hlinked : Linked initial) {root : BlockRef}
    {done : Finset BlockRef} (h : Releasing initial root done release) :
    Linked release.manager := by
  constructor
  case links =>
    intro a b
    rw [h.ancestors, h.suspended]
    by_cases ha : a ∈ done
    · rw [if_pos ha]
      simp only [reduceCtorEq, false_and, exists_false, false_iff, not_exists, not_and]
      intro s hs hmem
      obtain ⟨s₀, -, hs⟩ := Option.bind_eq_some_iff.mp hs
      rw [(SuspendedBlock.without_eq_some hs).2] at hmem
      exact (Finset.mem_sdiff.mp hmem).2 ha
    · rw [if_neg ha, hlinked.links a b]
      constructor
      · rintro ⟨s, hs, hmem⟩
        have hmem' : a ∈ s.missingAncestors \ done := Finset.mem_sdiff.mpr ⟨hmem, ha⟩
        refine ⟨⟨s.block, s.missingAncestors \ done⟩, ?_, hmem'⟩
        rw [hs, Option.bind_some, SuspendedBlock.without, if_neg (Finset.ne_empty_of_mem hmem')]
      · rintro ⟨s, hs, hmem⟩
        obtain ⟨s₀, hs₀, hs⟩ := Option.bind_eq_some_iff.mp hs
        rw [(SuspendedBlock.without_eq_some hs).2] at hmem
        exact ⟨s₀, hs₀, (Finset.mem_sdiff.mp hmem).1⟩
  case reference =>
    intro r s hs
    rw [h.suspended] at hs
    obtain ⟨s₀, hs₀, hs⟩ := Option.bind_eq_some_iff.mp hs
    rw [(SuspendedBlock.without_eq_some hs).1]
    exact hlinked.reference hs₀
  case waiting =>
    intro r s hs
    rw [h.suspended] at hs
    obtain ⟨s₀, hs₀, hs⟩ := Option.bind_eq_some_iff.mp hs
    unfold SuspendedBlock.without at hs
    split_ifs at hs with hne
    cases hs
    exact Finset.nonempty_iff_ne_empty.mpr hne

theorem Releasing.mem_missingAncestors {root : BlockRef} {done : Finset BlockRef}
    (h : Releasing initial root done release) (a : BlockRef) :
    a ∈ release.manager.missingAncestors ↔ a ∉ done ∧ a ∈ initial.missingAncestors := by
  rw [Map.mem_iff, Map.mem_iff, h.ancestors]
  split_ifs with ha
  · simp [ha]
  · simp [ha]

theorem Releasing.fresh {root : BlockRef} (hroot : root ∉ initial.suspendedBlocks)
    {done : Finset BlockRef} (h : Releasing initial root done release) {r : BlockRef}
    {s : SuspendedBlock} (hs : release.manager.suspendedBlocks[r]? = some s) :
    ¬ (r = root ∨ r ∈ release.unsuspended.map reference) := by
  rw [h.suspended] at hs
  obtain ⟨s₀, hs₀, hs⟩ := Option.bind_eq_some_iff.mp hs
  rintro (rfl | hr)
  · exact hroot (Std.ExtTreeMap.mem_iff_isSome_getElem?.mpr (by rw [hs₀]; rfl))
  · obtain ⟨s₁, hs₁, hsub⟩ := (h.released r).mp hr
    rw [hs₀] at hs₁
    cases hs₁
    rw [SuspendedBlock.without, if_pos (Finset.sdiff_eq_empty_iff_subset.mpr hsub)] at hs
    cases hs

/-- Processing `y`: what waited for `y` alone is released. -/
theorem Releasing.advance (hlinked : Linked initial) {root : BlockRef}
    (hroot : root ∉ initial.suspendedBlocks) {done : Finset BlockRef} {release release' : Release}
    (h : Releasing initial root done release) {y : BlockRef} {rest : List BlockRef}
    (hstack : release.toProcess = y :: rest) {new : List VerifiedBlock}
    (hsuspended : ∀ r : BlockRef, release'.manager.suspendedBlocks[r]? =
      release.manager.suspendedBlocks[r]?.bind (SuspendedBlock.without {y}))
    (hancestors : ∀ a : BlockRef, release'.manager.missingAncestors[a]? =
      if y = a then none else release.manager.missingAncestors[a]?)
    (hmissing : release'.manager.missingBlocks = release.manager.missingBlocks)
    (hunsuspended : release'.unsuspended = release.unsuspended ++ new)
    (hprocess : release'.toProcess = (new.map reference).reverse ++ rest)
    (hnodup : (new.map reference).Nodup) (hnew : ∀ b, b ∈ new ↔ ∃ s : SuspendedBlock,
      release.manager.suspendedBlocks[b.reference]? = some s ∧ s.block = b ∧
        y ∈ s.missingAncestors ∧ s.missingAncestors \ {y} = ∅) :
    Releasing initial root (insert y done) release' := by
  obtain ⟨hyfrom, hydone⟩ := (h.stacked y).mp (by rw [hstack]; exact .head _)
  obtain ⟨hyrest, hrest⟩ := nodup_cons.mp (hstack ▸ h.stack)
  -- a released block, in terms of the initial state
  have hnew₀ : ∀ b ∈ new, ∃ s : SuspendedBlock, initial.suspendedBlocks[b.reference]? = some s ∧
      s.block = b ∧ s.missingAncestors ⊆ insert y done := by
    intro b hb
    obtain ⟨s, hs, hblock, -, hlast⟩ := (hnew b).mp hb
    rw [h.suspended] at hs
    obtain ⟨s₀, hs₀, hs⟩ := Option.bind_eq_some_iff.mp hs
    obtain ⟨hb₀, hm₀⟩ := SuspendedBlock.without_eq_some hs
    refine ⟨s₀, hs₀, hb₀ ▸ hblock, ?_⟩
    rw [hm₀, Finset.sdiff_eq_empty_iff_subset] at hlast
    intro a ha
    by_cases hd : a ∈ done
    · exact Finset.mem_insert_of_mem hd
    · have hay := Finset.mem_singleton.mp (hlast (Finset.mem_sdiff.mpr ⟨ha, hd⟩))
      exact Finset.mem_insert.mpr (.inl hay)
  have hfresh : ∀ r ∈ new.map reference,
      ¬ (r = root ∨ r ∈ release.unsuspended.map reference) := by
    intro r hr
    obtain ⟨b, hb, rfl⟩ := mem_map.mp hr
    obtain ⟨s, hs, -⟩ := (hnew b).mp hb
    exact h.fresh hroot hs
  have hstacked : ∀ r, r ∈ rest ↔
      (r = root ∨ r ∈ release.unsuspended.map reference) ∧ r ∉ insert y done := by
    intro r
    have hr := h.stacked r
    rw [hstack, mem_cons] at hr
    rw [Finset.mem_insert, not_or]
    constructor
    · intro hmem
      obtain ⟨hfrom, hdone⟩ := hr.mp (.inr hmem)
      exact ⟨hfrom, fun heq => hyrest (heq ▸ hmem), hdone⟩
    · rintro ⟨hfrom, hne, hdone⟩
      exact (hr.mpr ⟨hfrom, hdone⟩).resolve_left hne
  have hdone : ∀ r ∈ insert y done,
      r = root ∨ r ∈ release.unsuspended.map reference := by
    intro r hr
    rcases Finset.mem_insert.mp hr with rfl | hr
    · exact hyfrom
    · exact h.processed r hr
  constructor
  case suspended =>
    intro r
    rw [hsuspended, h.suspended, Option.bind_assoc, Finset.insert_eq, Finset.union_comm]
    congr 1
    funext s
    exact s.without_without done {y}
  case ancestors =>
    intro a
    rw [hancestors, h.ancestors]
    by_cases hay : y = a
    · rw [if_pos hay, if_pos (Finset.mem_insert.mpr (.inl hay.symm))]
    · rw [if_neg hay]
      simp [Ne.symm hay]
  case missing => exact hmissing.trans h.missing
  case released =>
    intro r
    rw [hunsuspended, map_append, mem_append, h.released]
    constructor
    · rintro (⟨s, hs, hsub⟩ | hr)
      · exact ⟨s, hs, hsub.trans (Finset.subset_insert y done)⟩
      · obtain ⟨b, hb, rfl⟩ := mem_map.mp hr
        obtain ⟨s, hs, -, hsub⟩ := hnew₀ b hb
        exact ⟨s, hs, hsub⟩
    · rintro ⟨s, hs, hsub⟩
      by_cases hys : s.missingAncestors ⊆ done
      · exact .inl ⟨s, hs, hys⟩
      · have hnonempty : s.missingAncestors \ done ≠ ∅ :=
          fun hempty => hys (Finset.sdiff_eq_empty_iff_subset.mp hempty)
        have hrest' : s.missingAncestors \ done ⊆ {y} := by
          intro a ha
          obtain ⟨ha, hd⟩ := Finset.mem_sdiff.mp ha
          exact Finset.mem_singleton.mpr ((Finset.mem_insert.mp (hsub ha)).resolve_right hd)
        have hymem : y ∈ s.missingAncestors \ done := by
          obtain ⟨a, ha⟩ := Finset.nonempty_iff_ne_empty.mpr hnonempty
          exact Finset.mem_singleton.mp (hrest' ha) ▸ ha
        refine .inr (mem_map.mpr ⟨s.block, (hnew s.block).mpr
          ⟨⟨s.block, s.missingAncestors \ done⟩, ?_, rfl, hymem,
            Finset.sdiff_eq_empty_iff_subset.mpr hrest'⟩, hlinked.reference hs⟩)
        rw [hlinked.reference hs, h.suspended, hs, Option.bind_some, SuspendedBlock.without,
          if_neg hnonempty]
  case stack =>
    rw [hprocess]
    refine (nodup_reverse.mpr hnodup).append hrest fun r hr hmem => ?_
    exact hfresh r (mem_reverse.mp hr) ((hstacked r).mp hmem).1
  case stacked =>
    intro r
    rw [hprocess, hunsuspended, mem_append, mem_reverse, hstacked, map_append, mem_append]
    constructor
    · rintro (hr | ⟨hfrom, hr⟩)
      · exact ⟨.inr (.inr hr), fun hin => hfresh r hr (hdone r hin)⟩
      · exact ⟨hfrom.imp_right .inl, hr⟩
    · rintro ⟨hroot' | hold | hr, hnot⟩
      · exact .inr ⟨.inl hroot', hnot⟩
      · exact .inr ⟨.inr hold, hnot⟩
      · exact .inl hr
  case processed =>
    intro r hr
    rw [hunsuspended, map_append, mem_append]
    exact (hdone r hr).imp_right .inl
  case ordered =>
    intro before b after hsplit
    rw [hunsuspended] at hsplit
    rcases append_eq_append_iff.mp hsplit with ⟨between, hbefore, hrest'⟩ | ⟨between, hold, hrest'⟩
    · have hb : b ∈ new := by rw [hrest']; simp
      obtain ⟨s, hs, hblock, hsub⟩ := hnew₀ b hb
      refine ⟨s, hs, hblock, fun a ha => ?_⟩
      rw [hbefore, map_append, mem_append]
      exact (hdone a (hsub ha)).imp_right .inl
    · cases between with
      | nil =>
        have hb : b ∈ new := by rw [← nil_append new, ← hrest']; simp
        obtain ⟨s, hs, hblock, hsub⟩ := hnew₀ b hb
        refine ⟨s, hs, hblock, fun a ha => ?_⟩
        rw [append_nil] at hold
        rw [← hold]
        exact hdone a (hsub ha)
      | cons c between =>
        rw [cons_append, List.cons.injEq] at hrest'
        obtain ⟨rfl, -⟩ := hrest'
        exact h.ordered before b between hold

theorem Releasing.turn (hlinked : Linked initial) {root : BlockRef}
    (hroot : root ∉ initial.suspendedBlocks) {done : Finset BlockRef}
    (h : Releasing initial root done release) {y : BlockRef} {rest : List BlockRef}
    (hstack : release.toProcess = y :: rest) :
    ∃ release', unsuspendTurn release = .ok (.continue release') ∧
      Releasing initial root (insert y done) release' := by
  have hnow := h.linked hlinked
  -- a block that does not wait for `y` is as before
  have hkept : ∀ {r : BlockRef}, (∀ s : SuspendedBlock,
      release.manager.suspendedBlocks[r]? = some s → y ∉ s.missingAncestors) →
      release.manager.suspendedBlocks[r]? =
        release.manager.suspendedBlocks[r]?.bind (SuspendedBlock.without {y}) := by
    intro r hnot
    cases hs : release.manager.suspendedBlocks[r]? with
    | none => rfl
    | some s =>
      have hsame : s.missingAncestors \ {y} = s.missingAncestors :=
        Finset.sdiff_eq_self_of_disjoint (Finset.disjoint_singleton_right.mpr (hnot s hs))
      rw [Option.bind_some, SuspendedBlock.without, hsame, if_neg (hnow.waiting hs).ne_empty]
  unfold unsuspendTurn
  rw [hstack]
  dsimp only
  cases hchildren : release.manager.missingAncestors[y]? with
  | none =>
    have hnone : ∀ (r : BlockRef) (s : SuspendedBlock),
        release.manager.suspendedBlocks[r]? = some s → y ∉ s.missingAncestors := by
      intro r s hs hmem
      obtain ⟨children, hc, -⟩ := (hnow.links y r).mpr ⟨s, hs, hmem⟩
      rw [hchildren] at hc
      cases hc
    refine ⟨_, rfl, @Releasing.advance initial hlinked root hroot done release _ h y rest hstack
      [] (fun r => hkept (hnone r)) (fun a => ?_) rfl (by simp) (by simp) (by simp)
      (fun b => ?_)⟩
    · by_cases hay : y = a
      · rw [if_pos hay, ← hay, hchildren]
      · rw [if_neg hay]
    · simp only [not_mem_nil, false_iff, not_exists, not_and]
      exact fun s hs _ hmem => absurd hmem (hnone _ s hs)
  | some children =>
    have hmem : ∀ r, r ∈ children ↔ ∃ s : SuspendedBlock,
        release.manager.suspendedBlocks[r]? = some s ∧ y ∈ s.missingAncestors := by
      intro r
      rw [← hnow.links y r, hchildren]
      simp
    obtain ⟨manager, new, hfold, hancestors, hmissing, hsuspended, hsub, hnew⟩ :=
      @unsuspendChildren_spec y (children.sort (· ≤ ·))
        ⟨{ release.manager with
          missingAncestors := release.manager.missingAncestors.erase y }, rest,
          release.unsuspended⟩ (Finset.sort_nodup _ _) hnow.reference
        (fun r hr => (hmem r).mp ((Finset.mem_sort _).mp hr))
    refine ⟨_, bind_eq_ok.mpr ⟨_, hfold, rfl⟩, @Releasing.advance initial hlinked root hroot done
      release _ h y rest hstack new (fun r => ?_) (fun a => ?_) hmissing rfl rfl
      (hsub.nodup (Finset.sort_nodup _ _)) (fun b => ?_)⟩
    · rw [hsuspended r]
      split_ifs with hr
      · rfl
      · refine hkept fun s hs hin => hr ?_
        exact (Finset.mem_sort _).mpr ((hmem r).mpr ⟨s, hs, hin⟩)
    · rw [hancestors]
      exact Map.get_erase ..
    · rw [hnew b]
      constructor
      · rintro ⟨s, hr, hs, hb, hlast⟩
        obtain ⟨s', hs', hin⟩ := (hmem _).mp ((Finset.mem_sort _).mp hr)
        rw [hs] at hs'
        cases hs'
        exact ⟨s, hs, hb, hin, hlast⟩
      · rintro ⟨s, hs, hb, hin, hlast⟩
        exact ⟨s, (Finset.mem_sort _).mpr ((hmem _).mpr ⟨s, hs, hin⟩), hs, hb, hlast⟩

/-- The references that a release loop from `root` has processed when it ends. -/
def gone (root : BlockRef) (unsuspended : List VerifiedBlock) : Finset BlockRef :=
  insert root (unsuspended.map VerifiedBlock.reference).toFinset

theorem mem_gone {root r : BlockRef} {unsuspended : List VerifiedBlock} :
    r ∈ gone root unsuspended ↔ r = root ∨ r ∈ unsuspended.map reference := by
  rw [gone, Finset.mem_insert, mem_toFinset]

/-- **The release loop.**  It ends without an abort, and has released all that waited
    for the root and for released blocks only. -/
theorem tryUnsuspendChildrenBlocks_spec (hlinked : Linked initial)
    {root : BlockRef} (hroot : root ∉ initial.suspendedBlocks) :
    ∃ manager unsuspended, tryUnsuspendChildrenBlocks initial root = .ok (manager, unsuspended) ∧
      Releasing initial root (gone root unsuspended) ⟨manager, [], unsuspended⟩ := by
  -- the loop processes the root and references of suspended blocks, each of them once
  let Inv : Nat → Release → Prop := fun n release => ∃ done : Finset BlockRef,
    Releasing initial root done release ∧ done.card + n = initial.suspendedBlocks.size + 1
  have hbound : ∀ {done : Finset BlockRef} {release : Release},
      Releasing initial root done release → done.card ≤ initial.suspendedBlocks.size + 1 := by
    intro done release h
    have hsub : done ⊆ insert root initial.suspendedBlocks.keys.toFinset := by
      intro r hr
      rw [Finset.mem_insert, mem_toFinset, Std.ExtTreeMap.mem_keys]
      refine (h.processed r hr).imp_right fun hmem => ?_
      obtain ⟨s, hs, -⟩ := (h.released r).mp hmem
      exact Map.mem_of_get hs
    calc done.card ≤ (insert root initial.suspendedBlocks.keys.toFinset).card :=
          Finset.card_le_card hsub
      _ ≤ initial.suspendedBlocks.keys.toFinset.card + 1 := Finset.card_insert_le _ _
      _ ≤ initial.suspendedBlocks.size + 1 := by
          rw [← Std.ExtTreeMap.length_keys]
          exact Nat.succ_le_succ (toFinset_card_le _)
  let Post : BlockManager × List VerifiedBlock → Prop := fun result =>
    Releasing initial root (gone root result.2) ⟨result.1, [], result.2⟩
  have hturn : ∀ n release, Inv n release →
      (∃ result, unsuspendTurn release = .ok (.done result) ∧ Post result) ∨
      ∃ m release', unsuspendTurn release = .ok (.continue release') ∧ m < n ∧ Inv m release' := by
    rintro n release ⟨done, h, hn⟩
    cases hstack : release.toProcess with
    | nil =>
      left
      refine ⟨(release.manager, release.unsuspended), by unfold unsuspendTurn; rw [hstack], ?_⟩
      have hdone : gone root release.unsuspended = done := by
        ext r
        rw [mem_gone]
        refine ⟨fun hr => ?_, h.processed r⟩
        by_contra hnot
        have hmem := (h.stacked r).mpr ⟨hr, hnot⟩
        rw [hstack] at hmem
        exact not_mem_nil hmem
      show Releasing initial root (gone root release.unsuspended)
        ⟨release.manager, [], release.unsuspended⟩
      rw [hdone, ← hstack]
      exact h
    | cons y rest =>
      right
      obtain ⟨release', hturn, h'⟩ := h.turn hlinked hroot hstack
      have hydone : y ∉ done := ((h.stacked y).mp (by rw [hstack]; exact .head _)).2
      have hcard := hbound h'
      rw [Finset.card_insert_of_notMem hydone] at hcard
      refine ⟨n - 1, release', hturn, by omega, insert y done, h', ?_⟩
      rw [Finset.card_insert_of_notMem hydone]
      omega
  have hstart : Inv (initial.suspendedBlocks.size + 1) { manager := initial, toProcess := [root] } :=
    ⟨∅, releasing_start hlinked root, by simp⟩
  obtain ⟨result, hrun, hpost⟩ := loop_total Inv hturn hstart (Nat.lt_succ_self _)
  exact ⟨result.1, result.2, hrun, hpost⟩

end BlockManager

end Haneul.Consensus
