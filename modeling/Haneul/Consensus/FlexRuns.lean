import Haneul.Consensus.FlexNode
import Haneul.Lib.Tally

/-!
# The commits of a v3 node

The commits of a run are those of the commit rule on the universe of blocks, and they
linearize its DAG: no block is in two of them, and each holds what its leaders reach
through blocks that were not committed before.

A node that is behind does not decide these commits itself.  It takes them, certified by
a quorum, from nodes that did (`handleCertifiedCommit`), and gets the same sub-dags.
-/

namespace Haneul.Consensus

open DagState FlexCommitter List

namespace FlexCommitter

theorem commitCertified_spec {refs : List BlockRef} {state : DagState} (hnodup : refs.Nodup)
    (h : ∀ r ∈ refs, r ∈ state.recentBlocks ∧ state.committedFlag r = false) :
    ∃ marked, refs.foldlM commitCertified state = .ok marked ∧ Marks state marked refs := by
  refine foldlM_prefix (fun before s => Marks state s before) (Marks.refl state)
    fun before r after s hrefs hmarks => ?_
  obtain ⟨hmem, hflag⟩ := h r (by simp [hrefs])
  have hfresh : r ∉ before := by
    rw [hrefs] at hnodup
    exact fun hr => (nodup_append.mp hnodup).2.2 r hr r mem_cons_self rfl
  rcases setCommitted_spec ((hmarks.same.mem r).mpr hmem) with ⟨hmarked, -⟩ | ⟨-, s', hset, hmarks'⟩
  · simp [hmarks.flag, hflag, hfresh] at hmarked
  · exact ⟨s', by rw [commitCertified, hset]; rfl, hmarks.trans hmarks'⟩

theorem loadCommitted_of_cached {context : Context} {U : BlockUniverse context} {state : DagState}
    (hvalid : Valid U state) {blocks : List VerifiedBlock} (h : ∀ b ∈ blocks, Cached state b) :
    (blocks.map VerifiedBlock.reference).mapM (loadCommitted context state) = .ok blocks := by
  have hload : ∀ b ∈ blocks, loadCommitted context state b.reference = .ok b := by
    intro b hb
    obtain ⟨block, hget, hcached, href⟩ := getBlock_of_mem hvalid (h b hb).mem
    rw [loadCommitted, hget, U.reference_inj (hcached.mem_blocks hvalid)
      ((h b hb).mem_blocks hvalid) href]
  have hmap := mapM_eq_map (g := id) hload
  rw [map_id] at hmap
  rw [mapM_map]
  exact hmap

end FlexCommitter

section Runs

variable {context : Context} {U : V3Universe context} {hashes : CommitHashes} {shuffle : Shuffle}
  {schedule : LeaderSchedule} {node node' : Node} {pending : PendingCommitState}
  {built : BuiltCommit}

/-- **The bookkeeping of a node is exact.**  In every state of a run, above the gc round, the
    cache is closed under ancestors, the votes and stakes that are kept are those of the
    cached blocks, and the committed flags are those of the commits. -/
theorem flex_bookkeeping_exact (h : Reachable U hashes shuffle schedule node) :
    Valid U.toBlockUniverse node.dag ∧ VoteIndex U.toBlockUniverse node.dag ∧
    ∀ r : BlockRef, node.dag.gcRound context < r.round →
      (node.dag.committedFlag r = true ↔ InCommits node.commits r) :=
  ⟨h.inv.valid, h.inv.voteIndex, h.inv.flags⟩

theorem flex_bookkeeping_exact_solo : ∃ node : Node, node.commits.length = 1 ∧
    VoteIndex Solo.v3Universe.toBlockUniverse node.dag := by
  obtain ⟨node, h, hlength⟩ := soloRun_reaches (fun node => node.commits.length) (v := 1)
    (show 3 ≤ 6 by decide) (by decide +kernel)
  exact ⟨node, hlength, (flex_bookkeeping_exact h).2.1⟩

/-! ### The commit rule -/

/-- The commit rule with the leaders that are allowed after these commits. -/
def ruleAfter (U : V3Universe context) (shuffle : Shuffle) (schedule : LeaderSchedule)
    (commits : List LeaderCommit) : AnchoredRule Nat BlockRef :=
  U.rule (shuffle.leaders (schedule.allowedLeaders (commits.map LeaderCommit.subDag)))

/-- The commit is of the first round with a committed slot, and its leaders are the blocks
    of all such slots of the round. -/
structure FollowsRule (R : AnchoredRule Nat BlockRef) (earlier : List LeaderCommit)
    (commit : LeaderCommit) : Prop where
  round : R.CommitRound ((lastIndexAndRound (earlier.map LeaderCommit.subDag)).2 + 1)
    commit.subDag.leader.round
  leaders : ∀ r, r ∈ commit.leaders.map VerifiedBlock.reference ↔
    ∃ i ∈ R.leaders commit.subDag.leader.round, R.Decided commit.subDag.leader.round i (some r)

theorem Node.Inv.followsRule (h : node.Inv U hashes shuffle schedule)
    (htry : node.tryCommit hashes shuffle schedule context = .ok (pending, some built)) :
    FollowsRule (ruleAfter U shuffle schedule node.commits) node.commits
      ⟨built.leaders, built.subDag⟩ := by
  obtain ⟨roundState, traversal, leader, timestampMs, hb⟩ := h.builds htry
  have hrule : U.rule (pending.leaders shuffle) = ruleAfter U shuffle schedule node.commits := by
    rw [PendingCommitState.leaders, hb.next]
    rfl
  have hround : built.subDag.leader.round = roundState.round := by
    rw [hb.eq]
    exact hb.round
  have hleaders : built.leaders = committedBlocks roundState := by rw [hb.eq]; rfl
  have hcommit := hb.commitRound
  rw [hb.next, hrule] at hcommit
  refine ⟨hround ▸ hcommit, fun r => ?_⟩
  dsimp only
  rw [← hrule, hround, hleaders, mem_map]
  constructor
  · rintro ⟨block, hblock, rfl⟩
    obtain ⟨leaderSlot, hmem, hcase⟩ := mem_committedBlocks.mp hblock
    have hstatus := hb.sound.status leaderSlot hmem
    have hslot := mem_map_of_mem (f := LeaderSlot.slot) hmem
    rw [hb.sound.slots] at hslot
    obtain ⟨i, hi, hslot⟩ := mem_map.mp hslot
    rw [hcase, ← hslot] at hstatus
    exact ⟨i, hi, hstatus.2.2.1⟩
  · rintro ⟨i, hi, hdecided⟩
    obtain ⟨k, hk⟩ := mem_iff_getElem?.mp hi
    obtain ⟨leaderSlot, hat, hslot⟩ := hb.sound.leader_at hk
    have hmem := mem_of_getElem? hat
    have hstatus := hb.sound.status leaderSlot hmem
    have hclosed := hb.closed.isDecided hb.sound hmem
    rw [hslot] at hstatus
    rcases hcase : leaderSlot.leaderStatus with block | slot | slot
    · rw [hcase] at hstatus
      have href := hstatus.2.2.1.unique hdecided
      exact ⟨block, mem_committedBlocks.mpr ⟨leaderSlot, hmem, hcase⟩, Option.some.inj href⟩
    · rw [hcase] at hstatus
      exact absurd (hstatus.2.unique hdecided) (by simp)
    · rw [hcase] at hclosed
      simp [LeaderStatus.isDecided] at hclosed

/-- **The commits of a run follow the commit rule.**  The rule is that of the universe of
    blocks, whatever part of it the node sees.  Up to the leader round of a commit it skips
    every slot after the commit before, and the leaders are all blocks that it commits in
    that round. -/
theorem flex_commits_follow_rule (h : Reachable U hashes shuffle schedule node) :
    ∀ k commit, node.commits[k]? = some commit →
      FollowsRule (ruleAfter U shuffle schedule (node.commits.take k)) (node.commits.take k)
        commit := by
  intro k commit hk
  obtain ⟨builder, pending, built, hinv, hcommits, htry, rfl⟩ := h.history k commit hk
  exact hcommits ▸ hinv.followsRule htry

theorem flex_commits_follow_rule_solo : ∃ (node : Node) (commit : LeaderCommit),
    node.commits[0]? = some commit ∧
    FollowsRule (ruleAfter Solo.v3Universe soloShuffle soloSchedule []) [] commit := by
  obtain ⟨node, h, hlength⟩ :=
    soloRun_reaches (fun node => node.commits.length) (v := 1) (show 3 ≤ 6 by decide)
      (by decide +kernel)
  have hget := List.getElem?_eq_getElem (l := node.commits) (i := 0) (by omega)
  exact ⟨node, _, hget, flex_commits_follow_rule h 0 _ hget⟩

/-! ### Linearization -/

/-- The gc round of a node with these commits. -/
def gcRoundAfter (context : Context) (commits : List LeaderCommit) : Nat :=
  calculateGcRound context (lastIndexAndRound (commits.map LeaderCommit.subDag)).2

/-- The blocks of a commit, in terms of the commits before it. -/
structure Linearizes (U : V3Universe context) (earlier : List LeaderCommit)
    (commit : LeaderCommit) : Prop where
  nodup : (commit.subDag.blocks.map VerifiedBlock.reference).Nodup
  sorted : commit.subDag.blocks.Pairwise fun a b => a.round ≤ b.round
  fresh : ∀ r ∈ commit.subDag.blocks.map VerifiedBlock.reference,
    gcRoundAfter context earlier < r.round ∧ ¬ InCommits earlier r
  exact : ∀ r, r ∈ commit.subDag.blocks.map VerifiedBlock.reference ↔
    ∃ leader ∈ commit.leaders, Relation.ReflTransGen (fun b a => a ∈ U.ancestors b ∧
      gcRoundAfter context earlier < a.round ∧ ¬ InCommits earlier a) leader.reference r

theorem Node.Inv.gcRound_eq (h : node.Inv U hashes shuffle schedule) :
    node.dag.gcRound context = gcRoundAfter context node.commits := by
  rw [gcRound, h.last.round_eq]
  rfl

theorem Node.Inv.unmarked_iff (h : node.Inv U hashes shuffle schedule) {r : BlockRef}
    (hround : gcRoundAfter context node.commits < r.round) :
    node.dag.committedFlag r = false ↔ ¬ InCommits node.commits r := by
  rw [← h.flags r (h.gcRound_eq ▸ hround), Bool.not_eq_true]

theorem Node.Inv.linearizes (h : node.Inv U hashes shuffle schedule)
    (htry : node.tryCommit hashes shuffle schedule context = .ok (pending, some built)) :
    Linearizes U node.commits ⟨built.leaders, built.subDag⟩ := by
  obtain ⟨roundState, traversal, leader, timestampMs, hb⟩ := h.builds htry
  have hcollected := collected_of_ok h.valid hb.committable hb.collect
  have hperm := hb.blocks.1.map VerifiedBlock.reference
  rw [h.gcRound_eq] at hcollected
  refine ⟨hperm.nodup_iff.mpr hcollected.nodup, ?_, fun r hr => ?_, fun r => ?_⟩
  · rw [hb.eq]
    exact sortCommittedBlocks_sorted _ _ _
  · obtain ⟨b, hmem, rfl⟩ := mem_map.mp (hperm.mem_iff.mp hr)
    obtain ⟨hround, hunmarked⟩ := hcollected.unmarked b hmem
    exact ⟨hround, (h.unmarked_iff hround).mp hunmarked⟩
  · have hedge : WalkEdge U.toBlockUniverse (gcRoundAfter context node.commits) node.dag =
        fun b a => a ∈ U.ancestors b ∧ gcRoundAfter context node.commits < a.round ∧
          ¬ InCommits node.commits a := by
      funext b a
      exact propext (and_congr_right fun _ => and_congr_right h.unmarked_iff)
    rw [← hedge, hperm.mem_iff, hcollected.exact r, hb.eq]
    rfl

/-- **The commits of a run linearize the DAG.**  No block is committed twice.  Each
    commit, in the order of the rounds, holds exactly the blocks that its leaders reach
    above the gc round through blocks of no earlier commit. -/
theorem flex_commits_linearize (h : Reachable U hashes shuffle schedule node) :
    (node.commits.flatMap fun commit =>
      commit.subDag.blocks.map VerifiedBlock.reference).Nodup ∧
    ∀ k commit, node.commits[k]? = some commit → Linearizes U (node.commits.take k) commit := by
  have hlin : ∀ k commit, node.commits[k]? = some commit →
      Linearizes U (node.commits.take k) commit := by
    intro k commit hk
    obtain ⟨builder, pending, built, hinv, hcommits, htry, rfl⟩ := h.history k commit hk
    exact hcommits ▸ hinv.linearizes htry
  refine ⟨nodup_flatMap.mpr ⟨?_, pairwise_iff_getElem.mpr ?_⟩, hlin⟩
  · intro commit hcommit
    obtain ⟨k, hk⟩ := mem_iff_getElem?.mp hcommit
    exact (hlin k commit hk).nodup
  · intro i j hi hj hij r hri hrj
    refine ((hlin j _ (List.getElem?_eq_getElem hj)).fresh r hrj).2 ⟨node.commits[i], ?_, hri⟩
    exact mem_take_iff_getElem.mpr ⟨i, by omega, rfl⟩

theorem flex_commits_linearize_solo : ∃ node : Node,
    node.commits.map LeaderCommit.leaders = [[Solo.block true 1]] ∧
    (node.commits.flatMap fun commit =>
      commit.subDag.blocks.map VerifiedBlock.reference).Nodup := by
  obtain ⟨node, h, hleaders⟩ :=
    soloRun_reaches (fun node => node.commits.map LeaderCommit.leaders)
      (v := [[Solo.block true 1]]) (show 3 ≤ 6 by decide) (by decide +kernel)
  exact ⟨node, hleaders, (flex_commits_linearize h).1⟩

/-! ### Certified commits -/

/-- **Certified commits are replayed.**  A node with the same commits that has the blocks
    of a commit of another node finds that the commit follows its own last one.  It marks
    and reads the blocks without aborting, and gets the sub-dag that the other node built. -/
theorem certified_commit_replays (h : Reachable U hashes shuffle schedule node)
    (h' : Reachable U hashes shuffle schedule node') (hcommits : node.commits = node'.commits)
    (htry : node.tryCommit hashes shuffle schedule context = .ok (pending, some built))
    (hblocks : ∀ b ∈ built.subDag.blocks, Cached node'.dag b) :
    built.commit.previousDigest = node'.dag.lastCommitDigest hashes ∧
    ∃ marked, handleCertifiedCommit context hashes node'.dag built.commit =
        .ok (marked, { built.subDag with decidedWithLocalBlocks := false }) ∧
      Marks node'.dag marked built.commit.blocks := by
  have hlin := h.inv.linearizes htry
  obtain ⟨roundState, traversal, leader, timestampMs, hb⟩ := h.inv.builds htry
  have hrefs : built.commit.blocks = built.subDag.blocks.map VerifiedBlock.reference := by
    rw [hb.eq]
    rfl
  have hunmarked : ∀ r ∈ built.commit.blocks,
      r ∈ node'.dag.recentBlocks ∧ node'.dag.committedFlag r = false := by
    intro r hr
    rw [hrefs] at hr
    obtain ⟨hround, hfresh⟩ := hlin.fresh r hr
    rw [hcommits] at hround hfresh
    obtain ⟨b, hmem, rfl⟩ := mem_map.mp hr
    exact ⟨(hblocks b hmem).mem, (h'.inv.unmarked_iff hround).mpr hfresh⟩
  obtain ⟨marked, hfold, hmarks⟩ := commitCertified_spec (hrefs ▸ hlin.nodup) hunmarked
  have hload := loadCommitted_of_cached (h'.inv.valid.sameBlocks hmarks.same)
    fun b hmem => hmarks.cached.mpr (hblocks b hmem)
  refine ⟨?_, marked, ?_, hmarks⟩
  · have hlast := h.inv.last
    rw [Node.subDags, hcommits] at hlast
    have hsummary : lastCommitSummary hashes node.dag = lastCommitSummary hashes node'.dag :=
      hlast.trans h'.inv.last.symm
    rw [lastCommitDigest_eq, ← hsummary, ← lastCommitDigest_eq, hb.eq]
    rfl
  · rw [handleCertifiedCommit, hfold]
    simp only [bind, Except.bind, hrefs, hload]
    rw [hb.eq]
    rfl

/-- The second commit of the observer, replayed by the node that could have built it. -/
theorem certified_commit_replays_solo : ∃ (node : Node) (built : BuiltCommit) (marked : DagState),
    node.commits.length = 1 ∧
    handleCertifiedCommit (Solo.context true) soloHashes node.dag built.commit =
      .ok (marked, { built.subDag with decidedWithLocalBlocks := false }) := by
  obtain ⟨node, h, hnode⟩ := soloRun_reaches (fun node => (node.commits.length,
      (node.tryCommit soloHashes soloShuffle soloSchedule (Solo.context true)).toOption.any
        fun result => result.2.isSome)) (v := (1, true)) (show 4 ≤ 6 by decide) (by decide +kernel)
  rw [Prod.mk.injEq] at hnode
  obtain ⟨⟨pending, result⟩, htry, hsome⟩ := ok_of_any hnode.2
  obtain ⟨built, rfl⟩ := Option.isSome_iff_exists.mp hsome
  obtain ⟨_, _, _, _, hb⟩ := h.inv.builds htry
  have hcollected := collected_of_ok h.inv.valid hb.committable hb.collect
  obtain ⟨-, marked, hmarked, -⟩ := certified_commit_replays h h rfl htry
    fun b hmem => hcollected.cached b (hb.blocks.1.mem_iff.mp hmem)
  exact ⟨node, built, marked, hnode.1, hmarked⟩

end Runs

end Haneul.Consensus
