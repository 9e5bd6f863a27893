import Haneul.Consensus.FlexBuild

/-!
# Runs of a v3 node

A node accepts blocks, runs `try_commit`, adds the commits it builds and flushes its
state, in any order (`Step`).  In every state that a run reaches, the bookkeeping of
the DAG is exact, the pending decisions are those of the commit rule, and the
committed flags above the gc round are the blocks of the commits so far (`Node.Inv`).

Two nodes never decide a slot differently for the same commit index, and the commits
of one are a prefix of the commits of the other.
-/

namespace Haneul.Consensus

open DagState LeaderSlotDecider FlexCommitter List

/-- The leaders allowed for the next commit, as a function of the commits so far. -/
structure LeaderSchedule where
  allowedLeaders : List CommittedSubDag → List Nat
  nodup : ∀ commits, (allowedLeaders commits).Nodup

/-- Index and leader round of the last commit, zero before the first one. -/
def lastIndexAndRound (commits : List CommittedSubDag) : Nat × Nat :=
  match commits.getLast? with
  | some commit => (commit.commitRef.index, commit.leader.round)
  | none => (0, 0)

def LeaderSchedule.nextCommitLeaderSchedule (schedule : LeaderSchedule)
    (commits : List CommittedSubDag) : NextCommitLeaderSchedule where
  nextCommitIndex := (lastIndexAndRound commits).1 + 1
  minNextLeaderRound := (lastIndexAndRound commits).2 + 1
  allowedLeaders := schedule.allowedLeaders commits

/-- A commit with its leaders in slot order. -/
structure LeaderCommit where
  leaders : List VerifiedBlock
  subDag : CommittedSubDag

structure Node where
  dag : DagState
  pending : PendingCommitState := {}
  commits : List LeaderCommit := []

namespace Node

def init (ownIndex cachedRounds : Nat) : Node := { dag := { ownIndex, cachedRounds } }

def subDags (node : Node) : List CommittedSubDag := node.commits.map LeaderCommit.subDag

end Node

/-- The commits have consecutive indexes and rising leader rounds. -/
structure CommitChain (commits : List CommittedSubDag) : Prop where
  index : ∀ {k : Nat} {commit : CommittedSubDag}, commits[k]? = some commit →
    commit.commitRef.index = k + 1
  rounds : commits.Pairwise fun earlier later => earlier.leader.round < later.leader.round
  round_pos : ∀ commit ∈ commits, 0 < commit.leader.round

/-- What the DAG state keeps of its last commit: reference, timestamp and leader. -/
def lastCommitSummary (hashes : CommitHashes) (dag : DagState) :
    Option (CommitRef × Nat × BlockRef) :=
  dag.lastCommit.map fun commit =>
    (⟨commit.index, hashes.commitDigest commit⟩, commit.timestampMs, commit.leader)

/-- The last commit of the DAG state is the last one of the node. -/
def LastCommit (hashes : CommitHashes) (dag : DagState) (commits : List CommittedSubDag) : Prop :=
  lastCommitSummary hashes dag = commits.getLast?.map fun subDag =>
    (subDag.commitRef, subDag.timestampMs, subDag.leader)

/-- A block of some commit. -/
def InCommits (commits : List LeaderCommit) (r : BlockRef) : Prop :=
  ∃ commit ∈ commits, r ∈ commit.subDag.blocks.map VerifiedBlock.reference

theorem inCommits_append (commits : List LeaderCommit) (commit : LeaderCommit) (r : BlockRef) :
    InCommits (commits ++ [commit]) r ↔
      InCommits commits r ∨ r ∈ commit.subDag.blocks.map VerifiedBlock.reference := by
  simp only [InCommits, mem_append, mem_singleton, or_and_right, exists_or, exists_eq_left]

section Runs

variable {context : Context} (U : V3Universe context) (hashes : CommitHashes) (shuffle : Shuffle)
  (schedule : LeaderSchedule)

/-- `try_commit` of a node, with the schedule for its next commit. -/
def Node.tryCommit (context : Context) (node : Node) :
    Except Panic (PendingCommitState × Option BuiltCommit) :=
  FlexCommitter.tryCommit context hashes shuffle node.dag node.pending
    (schedule.nextCommitLeaderSchedule node.subDags)

/-- The steps of a node.  A block is accepted once its ancestors above the gc round
    are; an aborting call ends the run. -/
inductive Step : Node → Node → Prop
  | accept {node : Node} {block : VerifiedBlock} {dag : DagState} (hblock : block ∈ U.blocks)
      (hancestors : AncestorsAccepted context node.dag block)
      (haccept : acceptBlock context node.dag block = .ok dag) : Step node { node with dag := dag }
  | tryCommit {node : Node} {pending : PendingCommitState}
      (htry : node.tryCommit hashes shuffle schedule context = .ok (pending, none)) :
      Step node { node with pending := pending }
  | commit {node : Node} {pending : PendingCommitState} {built : BuiltCommit} {dag : DagState}
      (htry : node.tryCommit hashes shuffle schedule context = .ok (pending, some built))
      (hadd : built.state.addCommit built.commit = .ok dag) :
      Step node ⟨dag, pending, node.commits ++ [⟨built.leaders, built.subDag⟩]⟩
  | flush {node : Node} (otherPending : Bool) :
      Step node { node with dag := node.dag.flush context otherPending }

inductive Command where
  | accept (block : VerifiedBlock)
  | tryCommit
  | flush (otherPending : Bool)

/-- One call; a block whose ancestors are missing stays outside. -/
def Command.exec (context : Context) (node : Node) : Command → Except Panic Node
  | .accept block =>
    if ∀ a ∈ block.ancestors, node.dag.gcRound context < a.round → a ∈ node.dag.recentBlocks then do
      let dag ← acceptBlock context node.dag block
      return { node with dag := dag }
    else .ok node
  | .tryCommit => do
    match ← node.tryCommit hashes shuffle schedule context with
    | (pending, none) => return { node with pending := pending }
    | (pending, some built) =>
      let dag ← built.state.addCommit built.commit
      return ⟨dag, pending, node.commits ++ [⟨built.leaders, built.subDag⟩]⟩
  | .flush otherPending => .ok { node with dag := node.dag.flush context otherPending }

/-- The states that the run of a node reaches from the start of the epoch. -/
inductive Reachable : Node → Prop
  | init (ownIndex cachedRounds : Nat) : Reachable (.init ownIndex cachedRounds)
  | step {node node' : Node} (hreach : Reachable node)
      (hstep : Step U hashes shuffle schedule node node') : Reachable node'

structure Node.Inv (node : Node) : Prop where
  valid : Valid U.toBlockUniverse node.dag
  voteIndex : VoteIndex U.toBlockUniverse node.dag
  sound : node.pending.Sound U node.dag shuffle
  last : LastCommit hashes node.dag node.subDags
  chain : CommitChain node.subDags
  flags : ∀ r : BlockRef, node.dag.gcRound context < r.round →
    (node.dag.committedFlag r = true ↔ InCommits node.commits r)
  blocks : ∀ commit ∈ node.commits, ∀ b ∈ commit.subDag.blocks, b.round ≤ commit.subDag.leader.round
  pending : node.pending = {} ∨ ∃ earlier, earlier <+: node.subDags ∧
    node.pending.nextCommitLeaders = schedule.nextCommitLeaderSchedule earlier

end Runs

/-! ### The chain of commits -/

namespace CommitChain

variable {commits : List CommittedSubDag} {earlier : List CommittedSubDag}

section

variable (h : CommitChain commits)
include h

theorem initial (hpre : earlier <+: commits) : CommitChain earlier := by
  refine ⟨?_, h.rounds.sublist hpre.sublist, fun c hc => h.round_pos c (hpre.subset hc)⟩
  intro k commit hk
  obtain ⟨rest, rfl⟩ := hpre
  apply h.index
  rw [List.getElem?_append_left (List.getElem?_eq_some_iff.mp hk).1]
  exact hk

theorem lastIndex_eq : (lastIndexAndRound commits).1 = commits.length := by
  rw [lastIndexAndRound, List.getLast?_eq_getElem?]
  rcases hlast : commits[commits.length - 1]? with _ | commit
  · rw [List.getElem?_eq_none_iff] at hlast
    have hnil : commits.length = 0 := by omega
    rw [hnil]
  · have hindex := h.index hlast
    have hlt := (List.getElem?_eq_some_iff.mp hlast).1
    dsimp only
    omega

theorem lastRound_lt (hpre : earlier <+: commits) (hlt : earlier.length < commits.length) :
    (lastIndexAndRound earlier).2 < (lastIndexAndRound commits).2 := by
  obtain ⟨rest, rfl⟩ := hpre
  have hrest : rest ≠ [] := by
    rintro rfl
    simp at hlt
  obtain ⟨last, hlast⟩ := Option.isSome_iff_exists.mp (List.getLast?_isSome.mpr hrest)
  have hlastMem := mem_of_getLast? hlast
  have hlastRound : (lastIndexAndRound (earlier ++ rest)).2 = last.leader.round := by
    rw [lastIndexAndRound, List.getLast?_append_of_ne_nil _ hrest, hlast]
  rw [hlastRound, lastIndexAndRound]
  rcases hearlier : earlier.getLast? with _ | commit
  · exact h.round_pos last (mem_append_right earlier hlastMem)
  · exact (pairwise_append.mp h.rounds).2.2 commit (mem_of_getLast? hearlier) last hlastMem

theorem precedes (schedule : LeaderSchedule) (hpre : earlier <+: commits) :
    Precedes (schedule.nextCommitLeaderSchedule earlier)
      (schedule.nextCommitLeaderSchedule commits) := by
  rcases Nat.lt_or_eq_of_le hpre.length_le with hlt | heq
  · refine .inr ⟨?_, ?_⟩
    · have hindex := (h.initial hpre).lastIndex_eq
      have hindex' := h.lastIndex_eq
      simp only [LeaderSchedule.nextCommitLeaderSchedule]
      omega
    · have hround := h.lastRound_lt hpre hlt
      simp only [LeaderSchedule.nextCommitLeaderSchedule]
      omega
  · rw [hpre.eq_of_length heq]
    exact .inl rfl

theorem round_le_last {commit : CommittedSubDag}
    (hcommit : commit ∈ commits) : commit.leader.round ≤ (lastIndexAndRound commits).2 := by
  obtain ⟨before, last, rfl⟩ := (eq_nil_or_concat' commits).resolve_left (ne_nil_of_mem hcommit)
  have hlast : (lastIndexAndRound (before ++ [last])).2 = last.leader.round := by
    simp [lastIndexAndRound]
  rw [hlast]
  rcases mem_append.mp hcommit with hbefore | hlastMem
  · exact Nat.le_of_lt ((pairwise_append.mp h.rounds).2.2 commit hbefore last (.head _))
  · rw [mem_singleton] at hlastMem
    exact hlastMem ▸ le_rfl

theorem append {commit : CommittedSubDag}
    (hindex : commit.commitRef.index = (lastIndexAndRound commits).1 + 1)
    (hround : (lastIndexAndRound commits).2 < commit.leader.round) :
    CommitChain (commits ++ [commit]) := by
  refine ⟨?_, ?_, ?_⟩
  · intro k c hk
    rw [List.getElem?_append] at hk
    split_ifs at hk with hlt
    · exact h.index hk
    · rw [List.getElem?_singleton] at hk
      split_ifs at hk with hzero
      rw [Option.some.injEq] at hk
      rw [← hk, hindex, h.lastIndex_eq]
      omega
  · refine pairwise_append.mpr ⟨h.rounds, pairwise_singleton _ _, fun c hc => ?_⟩
    exact forall_mem_singleton.mpr ((h.round_le_last hc).trans_lt hround)
  · exact forall_mem_append.mpr ⟨h.round_pos, forall_mem_singleton.mpr (Nat.zero_lt_of_lt hround)⟩

end

end CommitChain

/-! ### The last commit -/

section LastCommit

variable {hashes : CommitHashes} {dag dag' : DagState} {commits : List CommittedSubDag}

theorem lastCommitRound_eq (hashes : CommitHashes) (dag : DagState) :
    dag.lastCommitRound = ((lastCommitSummary hashes dag).map fun last => last.2.2.round).getD 0 := by
  unfold lastCommitSummary lastCommitRound
  cases dag.lastCommit <;> rfl

theorem lastCommitDigest_eq (hashes : CommitHashes) (dag : DagState) :
    dag.lastCommitDigest hashes =
      ((lastCommitSummary hashes dag).map fun last => last.1.digest).getD 0 := by
  unfold lastCommitSummary lastCommitDigest
  cases dag.lastCommit <;> rfl

theorem lastCommitTimestampMs_eq (hashes : CommitHashes) (dag : DagState) :
    dag.lastCommitTimestampMs = ((lastCommitSummary hashes dag).map fun last => last.2.1).getD 0 := by
  unfold lastCommitSummary lastCommitTimestampMs
  cases dag.lastCommit <;> rfl

section

variable (h : LastCommit hashes dag commits)
include h

theorem LastCommit.congr
    (hlast : dag'.lastCommit = dag.lastCommit) : LastCommit hashes dag' commits := by
  rw [LastCommit, lastCommitSummary, hlast]
  exact h

theorem LastCommit.round_eq :
    dag.lastCommitRound = (lastIndexAndRound commits).2 := by
  rw [lastCommitRound_eq hashes, h, lastIndexAndRound]
  cases commits.getLast? <;> rfl

theorem LastCommit.index_eq :
    dag.lastCommitIndex = (lastIndexAndRound commits).1 := by
  have hindex : dag.lastCommitIndex =
      ((lastCommitSummary hashes dag).map fun last => last.1.index).getD 0 := by
    unfold lastCommitSummary lastCommitIndex
    cases dag.lastCommit <;> rfl
  rw [hindex, h, lastIndexAndRound]
  cases commits.getLast? <;> rfl

theorem LastCommit.gcRound_lt (context : Context) (schedule : LeaderSchedule) :
    dag.gcRound context < (schedule.nextCommitLeaderSchedule commits).minNextLeaderRound := by
  simp only [gcRound, calculateGcRound, LeaderSchedule.nextCommitLeaderSchedule, h.round_eq]
  omega

end

end LastCommit

/-! ### The invariant holds along a run -/

section Inv

variable {context : Context} {U : V3Universe context} {hashes : CommitHashes} {shuffle : Shuffle}
  {schedule : LeaderSchedule} {node : Node}

theorem inv_init (ownIndex cachedRounds : Nat) :
    Node.Inv U hashes shuffle schedule (.init ownIndex cachedRounds) where
  valid := valid_init ownIndex cachedRounds
  voteIndex := voteIndex_init ownIndex cachedRounds
  sound := ⟨nodup_nil, by simp [Node.init], by simp [Node.init]⟩
  last := rfl
  chain := ⟨by simp [Node.init, Node.subDags], List.Pairwise.nil, by simp [Node.init, Node.subDags]⟩
  flags := by simp [Node.init, committedFlag, InCommits]
  blocks := by simp [Node.init]
  pending := .inl rfl

theorem Node.Inv.accept (h : node.Inv U hashes shuffle schedule) {block : VerifiedBlock}
    {dag : DagState} (hblock : block ∈ U.blocks)
    (hancestors : AncestorsAccepted context node.dag block)
    (haccept : acceptBlock context node.dag block = .ok dag) :
    Node.Inv U hashes shuffle schedule { node with dag := dag } := by
  have hextends := acceptBlock_extends haccept
  exact { h with
    valid := h.valid.acceptBlock hblock hancestors haccept
    voteIndex := h.voteIndex.acceptBlock U.enableV3 h.valid hblock haccept
    sound := h.sound.retains hextends.retains
    last := h.last.congr hextends.lastCommit
    flags := by
      intro r hround
      rw [gcRound_congr hextends.lastCommit] at hround
      rw [hextends.committedFlag_eq]
      exact h.flags r hround }

theorem Node.Inv.flush (h : node.Inv U hashes shuffle schedule) (otherPending : Bool) :
    Node.Inv U hashes shuffle schedule { node with dag := node.dag.flush context otherPending } :=
  { h with
    valid := h.valid.flush otherPending
    voteIndex := h.voteIndex.flush otherPending
    sound := h.sound.retains (flush_retains node.dag otherPending)
    last := h.last.congr (flush_lastCommit otherPending)
    flags := by
      intro r hround
      rw [flush_gcRound] at hround
      rw [DagState.committedFlag, flush_get hround]
      exact h.flags r hround }

/-! ### Committing -/

variable {result : Option BuiltCommit}

theorem tryCommit_cases {context : Context} {dag : DagState} {pending pending' : PendingCommitState}
    {next : NextCommitLeaderSchedule}
    (h : FlexCommitter.tryCommit context hashes shuffle dag pending next = .ok (pending', result)) :
    FlexCommitter.decide context shuffle dag pending next = .ok pending' ∧
      (result = none ∨ ∃ round built, findCommitLeaderRound pending'.rounds = some round ∧
        buildCommit context hashes dag pending' round = .ok built ∧ result = some built) := by
  unfold FlexCommitter.tryCommit at h
  obtain ⟨decided, hdecided, h⟩ := bind_eq_ok.mp h
  split at h
  · next round hround =>
      obtain ⟨built, hbuilt, h⟩ := bind_eq_ok.mp h
      cases h
      exact ⟨hdecided, .inr ⟨round, built, hround, hbuilt, rfl⟩⟩
  · cases h
    exact ⟨hdecided, .inl rfl⟩

theorem Node.Inv.decide_sound (h : node.Inv U hashes shuffle schedule) :
    ∃ pending, FlexCommitter.decide context shuffle node.dag node.pending
        (schedule.nextCommitLeaderSchedule node.subDags) = .ok pending ∧
      pending.Sound U node.dag shuffle ∧
      pending.nextCommitLeaders = schedule.nextCommitLeaderSchedule node.subDags := by
  refine FlexCommitter.decide_sound h.valid h.sound h.voteIndex (schedule.nodup _) ?_
    (h.last.gcRound_lt context schedule)
  rcases h.pending with hinit | ⟨earlier, hpre, hnext⟩
  · rw [hinit]
    refine .inr ⟨?_, ?_⟩ <;> simp [LeaderSchedule.nextCommitLeaderSchedule]
  · rw [hnext]
    exact h.chain.precedes schedule hpre

variable {pending : PendingCommitState}

theorem Node.Inv.tryCommit (h : node.Inv U hashes shuffle schedule)
    (htry : node.tryCommit hashes shuffle schedule context = .ok (pending, result)) :
    Node.Inv U hashes shuffle schedule { node with pending := pending } ∧
      pending.nextCommitLeaders = schedule.nextCommitLeaderSchedule node.subDags := by
  obtain ⟨decided, hdecided, hsound, hnext⟩ := h.decide_sound
  obtain ⟨hpending, -⟩ := tryCommit_cases htry
  rw [hdecided] at hpending
  cases hpending
  exact ⟨{ h with
    sound := hsound
    pending := .inr ⟨node.subDags, prefix_rfl, hnext⟩ }, hnext⟩

structure Builds (U : V3Universe context) (hashes : CommitHashes) (shuffle : Shuffle)
    (schedule : LeaderSchedule) (node : Node) (pending : PendingCommitState) (built : BuiltCommit)
    (roundState : RoundState) (traversal : Traversal) (leader : VerifiedBlock)
    (timestampMs : Nat) : Prop where
  next : pending.nextCommitLeaders = schedule.nextCommitLeaderSchedule node.subDags
  sound : roundState.Sound U node.dag (pending.leaders shuffle)
  closed : Closed roundState
  commitRound : (U.rule (pending.leaders shuffle)).CommitRound
    pending.nextCommitLeaders.minNextLeaderRound roundState.round
  committable : Committable context node.dag (committedBlocks roundState)
  collect : collectBlocks context node.dag (committedBlocks roundState) = .ok traversal
  last : (sortCommittedBlocks hashes (hashes.sortSeed ((committedBlocks roundState).map
    VerifiedBlock.digest)) traversal.toCommit).getLast? = some leader
  round : leader.round = roundState.round
  timestamp : calculateCommitTimestamp context traversal.state (committedBlocks roundState) =
    .ok timestampMs
  eq : built = assembleCommit hashes node.dag pending (committedBlocks roundState)
    traversal.state (sortCommittedBlocks hashes (hashes.sortSeed ((committedBlocks roundState).map
      VerifiedBlock.digest)) traversal.toCommit) leader.reference timestampMs

theorem Node.Inv.flag_round_le (h : node.Inv U hashes shuffle schedule) {r : BlockRef}
    (hflag : node.dag.committedFlag r = true) : r.round ≤ node.dag.lastCommitRound := by
  by_cases hgc : node.dag.gcRound context < r.round
  · obtain ⟨commit, hcommit, hr⟩ := (h.flags r hgc).mp hflag
    obtain ⟨b, hb, rfl⟩ := mem_map.mp hr
    have hblock := h.blocks commit hcommit b hb
    have hlast := h.chain.round_le_last (mem_map_of_mem (f := LeaderCommit.subDag) hcommit)
    rw [h.last.round_eq]
    exact hblock.trans hlast
  · exact (not_lt.mp hgc).trans (Nat.sub_le _ _)

theorem Node.Inv.builds (h : node.Inv U hashes shuffle schedule) {built : BuiltCommit}
    (htry : node.tryCommit hashes shuffle schedule context = .ok (pending, some built)) :
    ∃ roundState traversal leader timestampMs,
      Builds U hashes shuffle schedule node pending built roundState traversal leader
        timestampMs := by
  obtain ⟨hinv, hnext⟩ := h.tryCommit htry
  have hsound : pending.Sound U node.dag shuffle := hinv.sound
  obtain ⟨-, hresult⟩ := tryCommit_cases htry
  rcases hresult with hnone | ⟨round, built', hround, hbuild, heq⟩
  · simp at hnone
  · cases heq
    obtain ⟨hcommitRound, state, hstate, hstateRound, hclosed, -⟩ :=
      findCommitLeaderRound_sound hsound.round_eq hsound.rounds hround
    obtain ⟨roundState, leaders, traversal, toCommit, leader, timestampMs, hget, hleaders, -,
      hcollect, rfl, hlast, hleaderRound, hts, rfl⟩ := buildCommit_cases hbuild
    -- the round state that is read is the one found
    have hsame : roundState = state := by
      obtain ⟨k, hk⟩ := mem_iff_getElem?.mp hstate
      have hindex := hsound.round_eq hk
      rw [PendingCommitState.getRoundState, if_neg (not_lt.mpr hcommitRound.1)] at hget
      rw [show round - pending.nextCommitLeaders.minNextLeaderRound = k by omega, hk] at hget
      exact (Except.ok.inj hget).symm
    subst hsame
    have hstateSound := hsound.rounds roundState hstate
    rw [committedLeaders_eq fun leaderSlot hmem => hclosed.isDecided hstateSound hmem] at hleaders
    cases hleaders
    have hmin := hcommitRound.1
    rw [hnext] at hmin
    have hgc := (h.last.gcRound_lt context schedule).trans_le hmin
    obtain ⟨hcommittable, -⟩ := committedBlocks_committable hstateSound
      (shuffle.leaders_nodup hsound.allowed _) (hstateRound ▸ hgc) (by
        intro r hflag
        have hle := h.flag_round_le hflag
        rw [h.last.round_eq] at hle
        simp only [LeaderSchedule.nextCommitLeaderSchedule] at hmin
        omega)
    subst hstateRound
    exact ⟨roundState, traversal, leader, timestampMs, hnext, hstateSound, hclosed, hcommitRound,
      hcommittable, hcollect, hlast, hleaderRound, hts, rfl⟩

section Committing

variable {pending : PendingCommitState} {built : BuiltCommit} {roundState : RoundState}
  {traversal : Traversal} {leader : VerifiedBlock} {timestampMs : Nat}

section

variable (h : Builds U hashes shuffle schedule node pending built roundState traversal leader timestampMs)
include h

/-- The blocks of a commit are those collected, none of them higher than its leader. -/
theorem Builds.blocks :
    built.subDag.blocks.Perm traversal.toCommit ∧
      ∀ b ∈ built.subDag.blocks, b.round ≤ leader.round := by
  rw [h.eq]
  refine ⟨sortCommittedBlocks_perm _ _ _, fun b hb => ?_⟩
  exact round_le_of_getLast (sortCommittedBlocks_sorted _ _ _) h.last hb

theorem Builds.round_gt : (lastIndexAndRound node.subDags).2 < leader.round := by
  have hmin := h.commitRound.1
  rw [h.next, ← h.round] at hmin
  exact hmin

end

variable {dag : DagState}

theorem Node.Inv.commit_dag (h : node.Inv U hashes shuffle schedule)
    (hb : Builds U hashes shuffle schedule node pending built roundState traversal leader
      timestampMs) (hadd : built.state.addCommit built.commit = .ok dag) :
    dag = { traversal.state with
      lastCommit := some built.commit
      commitsToWrite := traversal.state.commitsToWrite ++ [built.commit] } ∧
    built.commit.leader = leader.reference ∧
    node.dag.lastCommitRound < built.commit.leader.round := by
  have hmarks := (collected_of_ok h.valid hb.committable hb.collect).marks
  have hstate : built.state = traversal.state := by rw [hb.eq]; rfl
  have hcommitLeader : built.commit.leader = leader.reference := by rw [hb.eq]; rfl
  have hindex : built.commit.index = node.dag.lastCommitIndex + 1 := by
    rw [hb.eq, h.last.index_eq]
    exact congrArg NextCommitLeaderSchedule.nextCommitIndex hb.next
  refine ⟨?_, hcommitLeader, ?_⟩
  · -- the commit has the next index, so it is not dropped as an old one
    rcases addCommit_cases hadd with ⟨last, hlast, hold, -⟩ | hdag
    · rw [hstate, hmarks.same.lastCommit] at hlast
      rw [hindex, lastCommitIndex, hlast] at hold
      exact absurd hold (by simp)
    · rw [hdag, hstate]
  · rw [hcommitLeader, h.last.round_eq]
    exact hb.round_gt

section

variable (h : node.Inv U hashes shuffle schedule)
  (htry : node.tryCommit hashes shuffle schedule context = .ok (pending, some built))
  (hadd : built.state.addCommit built.commit = .ok dag)
include h htry hadd

theorem Node.Inv.commit_retains : Retains context node.dag dag := by
  obtain ⟨roundState, traversal, leader, timestampMs, hb⟩ := h.builds htry
  obtain ⟨rfl, -, hrise⟩ := h.commit_dag hb hadd
  exact (collected_of_ok h.valid hb.committable hb.collect).marks.retains_addCommit
    (Nat.le_of_lt hrise) _

theorem Node.Inv.commit :
    Node.Inv U hashes shuffle schedule
      ⟨dag, pending, node.commits ++ [⟨built.leaders, built.subDag⟩]⟩ := by
  obtain ⟨hinv, hnext⟩ := h.tryCommit htry
  obtain ⟨roundState, traversal, leader, timestampMs, hb⟩ := h.builds htry
  have hcollected := collected_of_ok h.valid hb.committable hb.collect
  have hmarks := hcollected.marks
  obtain ⟨hperm, hle⟩ := hb.blocks
  obtain ⟨hdag, hcommitLeader, hrise⟩ := h.commit_dag hb hadd
  have hleaderMem : leader ∈ traversal.toCommit := by
    rw [← hperm.mem_iff, hb.eq]
    exact mem_of_getLast? hb.last
  have hgc : node.dag.gcRound context < built.commit.leader.round := (Nat.sub_le _ _).trans_lt hrise
  have hleaderCached : built.commit.leader ∈ node.dag.recentBlocks :=
    hcommitLeader ▸ (hcollected.cached leader hleaderMem).mem
  subst hdag
  exact {
    valid := hmarks.valid_addCommit hrise.le h.valid _
    voteIndex := hmarks.voteIndex_addCommit hrise.le h.voteIndex hleaderCached hgc _
    sound := hinv.sound.retains (hmarks.retains_addCommit hrise.le _)
    last := by
      simp only [LastCommit, lastCommitSummary, Node.subDags, map_append, map_cons,
        map_nil, List.getLast?_append, List.getLast?_singleton, Option.map_some,
        Option.some_or, hb.eq]
      rfl
    chain := by
      rw [Node.subDags, map_append]
      refine h.chain.append ?_ ?_
      · rw [hb.eq]
        exact congrArg NextCommitLeaderSchedule.nextCommitIndex hb.next
      · rw [hb.eq]
        exact hb.round_gt
    flags := by
      intro r hround
      have hflag := hmarks.flag r
      rw [h.flags r ((hmarks.retains_addCommit hrise.le _).gcRound_le.trans_lt hround),
        ← (hperm.map _).mem_iff] at hflag
      exact hflag.trans (inCommits_append node.commits ⟨built.leaders, built.subDag⟩ r).symm
    blocks := by
      refine forall_mem_append.mpr ⟨h.blocks, forall_mem_singleton.mpr ?_⟩
      rw [show built.subDag.leader = leader.reference by rw [hb.eq]; rfl]
      exact hle
    pending := by
      refine .inr ⟨node.subDags, ?_, hnext⟩
      rw [Node.subDags, Node.subDags, map_append]
      exact prefix_append _ _ }

end

end Committing

variable {node₁ node₂ : Node}

/-- Two nodes with the same commits build the same next commit. -/
theorem Builds.agree (h₁ : node₁.Inv U hashes shuffle schedule)
    (h₂ : node₂.Inv U hashes shuffle schedule) (hcommits : node₁.commits = node₂.commits)
    {pending₁ pending₂ : PendingCommitState} {built₁ built₂ : BuiltCommit}
    (htry₁ : node₁.tryCommit hashes shuffle schedule context = .ok (pending₁, some built₁))
    (htry₂ : node₂.tryCommit hashes shuffle schedule context = .ok (pending₂, some built₂)) :
    built₁.leaders = built₂.leaders ∧ built₁.subDag = built₂.subDag := by
  have hsubDags : node₁.subDags = node₂.subDags := by rw [Node.subDags, Node.subDags, hcommits]
  obtain ⟨state₁, traversal₁, leader₁, ts₁, hb₁⟩ := h₁.builds htry₁
  obtain ⟨state₂, traversal₂, leader₂, ts₂, hb₂⟩ := h₂.builds htry₂
  have hnext : pending₁.nextCommitLeaders = pending₂.nextCommitLeaders := by
    rw [hb₁.next, hb₂.next, hsubDags]
  have hrule : PendingCommitState.leaders shuffle pending₁ =
      PendingCommitState.leaders shuffle pending₂ := by
    rw [PendingCommitState.leaders, PendingCommitState.leaders, hnext]
  have hround : state₁.round = state₂.round := by
    have hcommitRound := hb₁.commitRound
    rw [hrule, hnext] at hcommitRound
    exact hcommitRound.unique hb₂.commitRound
  have hleaders : committedBlocks state₁ = committedBlocks state₂ := by
    have hsound := hb₁.sound
    rw [hrule] at hsound
    rw [committedBlocks, committedBlocks,
      leaderStatus_agree hsound hb₂.sound hround hb₁.closed hb₂.closed]
  have hlast₂ : LastCommit hashes node₂.dag node₁.subDags := hsubDags ▸ h₂.last
  have hsummary : lastCommitSummary hashes node₁.dag = lastCommitSummary hashes node₂.dag :=
    h₁.last.trans hlast₂.symm
  have hgc : node₁.dag.gcRound context = node₂.dag.gcRound context := by
    simp only [gcRound, lastCommitRound_eq hashes, hsummary]
  have hflags : SameFlags (node₁.dag.gcRound context) node₁.dag node₂.dag := by
    intro r hr _ _
    rw [Bool.eq_iff_iff, h₁.flags r hr, h₂.flags r (hgc ▸ hr), hcommits]
  have hcommittable₂ := hb₂.committable
  have hcollect₂ := hb₂.collect
  rw [← hleaders] at hcommittable₂ hcollect₂
  have htoCommit := collectBlocks_agree h₁.valid h₂.valid hgc hflags hb₁.committable hcommittable₂
    hb₁.collect hcollect₂
  have hleader : leader₁ = leader₂ := by
    have hlast := hb₁.last
    rw [hleaders, htoCommit, hb₂.last] at hlast
    exact (Option.some.inj hlast).symm
  have hsame₁ := (collected_of_ok h₁.valid hb₁.committable hb₁.collect).marks.same
  have hsame₂ := (collected_of_ok h₂.valid hb₂.committable hb₂.collect).marks.same
  have hts : ts₁ = ts₂ := by
    have htimestamp := hb₁.timestamp
    rw [hleaders] at htimestamp
    refine calculateCommitTimestamp_agree (h₁.valid.sameBlocks hsame₁)
      (h₂.valid.sameBlocks hsame₂) ?_ htimestamp hb₂.timestamp
    simp only [lastCommitTimestampMs_eq hashes, lastCommitSummary, hsame₁.lastCommit,
      hsame₂.lastCommit]
    exact congrArg (fun last => (last.map fun last => last.2.1).getD 0) hsummary
  rw [hb₁.eq, hb₂.eq, hleaders, htoCommit, hleader, hts]
  simp only [assembleCommit, hnext, lastCommitDigest_eq, hsummary, and_self]

/-! ### Runs -/

variable {node' : Node}

theorem Command.exec_step {command : Command}
    (hblocks : ∀ block, command = .accept block → block ∈ U.blocks)
    (h : command.exec hashes shuffle schedule context node = .ok node') :
    node' = node ∨ Step U hashes shuffle schedule node node' := by
  cases command with
  | accept block =>
    rw [Command.exec] at h
    split_ifs at h with hancestors
    · obtain ⟨dag, hdag, h⟩ := bind_eq_ok.mp h
      cases h
      exact .inr (.accept (hblocks block rfl) hancestors hdag)
    · cases h
      exact .inl rfl
  | tryCommit =>
    obtain ⟨⟨pending, result⟩, htry, h⟩ := bind_eq_ok.mp h
    cases result with
    | none =>
      cases h
      exact .inr (.tryCommit htry)
    | some built =>
      obtain ⟨dag, hadd, h⟩ := bind_eq_ok.mp h
      cases h
      exact .inr (.commit htry hadd)
  | flush otherPending =>
    cases h
    exact .inr (.flush otherPending)

/-- Runs of commands on blocks of the universe reach reachable states. -/
theorem reachable_of_run {commands : List Command}
    (hblocks : ∀ block, .accept block ∈ commands → block ∈ U.blocks)
    (h : commands.foldlM (Command.exec hashes shuffle schedule context) node = .ok node')
    (hreach : Reachable U hashes shuffle schedule node) :
    Reachable U hashes shuffle schedule node' := by
  refine foldlM_keeps (Reachable U hashes shuffle schedule) (fun command hmem _ _ hreach hnext => ?_)
    hreach h
  rcases Command.exec_step (fun block heq => hblocks block (heq ▸ hmem)) hnext with rfl | hstep
  · exact hreach
  · exact hreach.step hstep

theorem Step.inv (hstep : Step U hashes shuffle schedule node node')
    (h : node.Inv U hashes shuffle schedule) : node'.Inv U hashes shuffle schedule := by
  cases hstep with
  | accept hblock hancestors haccept => exact h.accept hblock hancestors haccept
  | tryCommit htry => exact (h.tryCommit htry).1
  | commit htry hadd => exact h.commit htry hadd
  | flush otherPending => exact h.flush otherPending

theorem Reachable.inv (h : Reachable U hashes shuffle schedule node) :
    node.Inv U hashes shuffle schedule := by
  induction h with
  | init ownIndex cachedRounds => exact inv_init ownIndex cachedRounds
  | step _ hstep ih => exact hstep.inv ih

theorem Step.retains (hstep : Step U hashes shuffle schedule node node')
    (h : node.Inv U hashes shuffle schedule) : Retains context node.dag node'.dag := by
  cases hstep with
  | accept hblock hancestors haccept => exact (acceptBlock_extends haccept).retains
  | tryCommit htry => exact Retains.refl node.dag
  | flush otherPending => exact flush_retains node.dag otherPending
  | commit htry hadd => exact h.commit_retains htry hadd

theorem run_retains {later : Node} (h : node.Inv U hashes shuffle schedule)
    (hrun : Relation.ReflTransGen (Step U hashes shuffle schedule) node later) :
    later.Inv U hashes shuffle schedule ∧ Retains context node.dag later.dag := by
  induction hrun with
  | refl => exact ⟨h, Retains.refl node.dag⟩
  | tail _ hstep ih => exact ⟨hstep.inv ih.1, ih.2.trans (hstep.retains ih.1)⟩

/-- Each commit of a node was built by a node that had the commits before it. -/
def History (U : V3Universe context) (hashes : CommitHashes) (shuffle : Shuffle)
    (schedule : LeaderSchedule) (commits : List LeaderCommit) : Prop :=
  ∀ (k : Nat) (commit : LeaderCommit), commits[k]? = some commit →
    ∃ (builder : Node) (pending : PendingCommitState) (built : BuiltCommit),
      builder.Inv U hashes shuffle schedule ∧ builder.commits = commits.take k ∧
      builder.tryCommit hashes shuffle schedule context = .ok (pending, some built) ∧
      commit = ⟨built.leaders, built.subDag⟩

theorem Reachable.history (h : Reachable U hashes shuffle schedule node) :
    History U hashes shuffle schedule node.commits := by
  induction h with
  | init ownIndex cachedRounds =>
    intro k commit hk
    simp [Node.init] at hk
  | @step node node' hreach hstep ih =>
    cases hstep with
    | accept _ _ _ => exact ih
    | tryCommit _ => exact ih
    | flush _ => exact ih
    | @commit pending built dag htry hadd =>
      intro k commit hk
      rw [List.getElem?_append] at hk
      split_ifs at hk with hlt
      · obtain ⟨builder, pending', built', hinv, hcommits, h'⟩ := ih k commit hk
        refine ⟨builder, pending', built', hinv, ?_, h'⟩
        rw [hcommits, take_append_of_le_length (Nat.le_of_lt hlt)]
      · rw [List.getElem?_singleton] at hk
        split_ifs at hk with hzero
        rw [Option.some.injEq] at hk
        refine ⟨node, pending, built, Reachable.inv hreach, ?_, htry, hk.symm⟩
        rw [show k = node.commits.length by omega, take_left]

variable {commits₁ commits₂ : List LeaderCommit}

section

variable (h₁ : History U hashes shuffle schedule commits₁)
  (h₂ : History U hashes shuffle schedule commits₂)
include h₁ h₂

theorem History.take_eq :
    ∀ {n : Nat}, n ≤ commits₁.length → n ≤ commits₂.length → commits₁.take n = commits₂.take n := by
  intro n
  induction n with
  | zero =>
    intro _ _
    rw [take_zero, take_zero]
  | succ n ih =>
    intro hle₁ hle₂
    have hbefore := ih (by omega) (by omega)
    have hget₁ := List.getElem?_eq_getElem (l := commits₁) (i := n) (by omega)
    have hget₂ := List.getElem?_eq_getElem (l := commits₂) (i := n) (by omega)
    obtain ⟨builder₁, pending₁, built₁, hinv₁, hcommits₁, htry₁, heq₁⟩ := h₁ n _ hget₁
    obtain ⟨builder₂, pending₂, built₂, hinv₂, hcommits₂, htry₂, heq₂⟩ := h₂ n _ hget₂
    obtain ⟨hleaders, hsubDag⟩ := Builds.agree hinv₁ hinv₂
      (by rw [hcommits₁, hcommits₂, hbefore]) htry₁ htry₂
    rw [take_add_one, take_add_one, hbefore, hget₁, hget₂, heq₁, heq₂, hleaders, hsubDag]

theorem History.comparable :
    commits₁ <+: commits₂ ∨ commits₂ <+: commits₁ := by
  rcases Nat.le_total commits₁.length commits₂.length with hle | hle
  · left
    rw [prefix_iff_eq_take, ← h₁.take_eq h₂ le_rfl hle, take_length]
  · right
    rw [prefix_iff_eq_take, h₁.take_eq h₂ hle le_rfl, take_length]

end

/-- The status that the committer has decided for a slot. -/
def PendingCommitState.Decided (pending : PendingCommitState) (slot : Slot)
    (status : LeaderStatus) : Prop :=
  status.isDecided = true ∧ ∃ state ∈ pending.rounds, ∃ leaderSlot ∈ state.leaderSlots,
    leaderSlot.slot = slot ∧ leaderSlot.leaderStatus = status

/-- Nodes whose pending decisions are for the same commit index have the same schedule. -/
theorem Reachable.schedule_eq (h₁ : Reachable U hashes shuffle schedule node₁)
    (h₂ : Reachable U hashes shuffle schedule node₂)
    (hindex : node₁.pending.nextCommitLeaders.nextCommitIndex =
      node₂.pending.nextCommitLeaders.nextCommitIndex) :
    node₁.pending.nextCommitLeaders = node₂.pending.nextCommitLeaders := by
  rcases h₁.inv.pending with hinit₁ | ⟨earlier₁, hpre₁, hnext₁⟩
  · rcases h₂.inv.pending with hinit₂ | ⟨earlier₂, hpre₂, hnext₂⟩
    · rw [hinit₁, hinit₂]
    · rw [hinit₁, hnext₂] at hindex
      simp [LeaderSchedule.nextCommitLeaderSchedule] at hindex
  · rcases h₂.inv.pending with hinit₂ | ⟨earlier₂, hpre₂, hnext₂⟩
    · rw [hinit₂, hnext₁] at hindex
      simp [LeaderSchedule.nextCommitLeaderSchedule] at hindex
    · rw [hnext₁, hnext₂] at hindex ⊢
      have hlen : earlier₁.length = earlier₂.length := by
        have hlen₁ := (h₁.inv.chain.initial hpre₁).lastIndex_eq
        have hlen₂ := (h₂.inv.chain.initial hpre₂).lastIndex_eq
        simp only [LeaderSchedule.nextCommitLeaderSchedule] at hindex
        omega
      have hle₁ := hpre₁.length_le
      have hle₂ := hpre₂.length_le
      rw [Node.subDags, length_map] at hle₁ hle₂
      have htake := h₁.history.take_eq h₂.history hle₁ (hlen ▸ hle₂)
      have heq : earlier₁ = earlier₂ := by
        rw [prefix_iff_eq_take.mp hpre₁, prefix_iff_eq_take.mp hpre₂, ← hlen,
          Node.subDags, Node.subDags, ← map_take, ← map_take, htake]
      rw [heq]

/-- **Agreement of the v3 commit rule.**  Two nodes that see parts of one universe of
    verified blocks, with at most `f` stake equivocating, decide no slot differently for
    the same commit index; the commits of one, with their leaders, are a prefix of the
    commits of the other. -/
theorem flex_commit_agreement (h₁ : Reachable U hashes shuffle schedule node₁)
    (h₂ : Reachable U hashes shuffle schedule node₂) :
    (node₁.pending.nextCommitLeaders.nextCommitIndex =
        node₂.pending.nextCommitLeaders.nextCommitIndex →
      ∀ slot status₁ status₂, node₁.pending.Decided slot status₁ →
        node₂.pending.Decided slot status₂ → status₁ = status₂) ∧
    (node₁.commits <+: node₂.commits ∨ node₂.commits <+: node₁.commits) := by
  refine ⟨?_, h₁.history.comparable h₂.history⟩
  rintro hindex slot status₁ status₂
    ⟨hdecided₁, state₁, hstate₁, leaderSlot₁, hmem₁, rfl, rfl⟩
    ⟨hdecided₂, state₂, hstate₂, leaderSlot₂, hmem₂, hslot, rfl⟩
  have hrule : PendingCommitState.leaders shuffle node₁.pending =
      PendingCommitState.leaders shuffle node₂.pending := by
    rw [PendingCommitState.leaders, PendingCommitState.leaders, h₁.schedule_eq h₂ hindex]
  have hstatus₁ := (h₁.inv.sound.rounds state₁ hstate₁).status leaderSlot₁ hmem₁
  have hstatus₂ := (h₂.inv.sound.rounds state₂ hstate₂).status leaderSlot₂ hmem₂
  rw [hslot, ← hrule] at hstatus₂
  exact hstatus₁.unique hstatus₂ hdecided₁ hdecided₂

section Solo

def soloHashes : CommitHashes := ⟨Commit.index, List.sum, fun seed digest => seed + digest⟩

def soloShuffle : Shuffle := ⟨fun _ leaders => leaders, fun _ _ => List.Perm.refl _⟩

def soloSchedule : LeaderSchedule := ⟨fun _ => [0], fun _ => List.nodup_singleton 0⟩

/-- The observer of the committee of one accepts some rounds and tries to commit. -/
def soloCommands (rounds : Nat) : List Command :=
  (List.range rounds).map (fun n => .accept (Solo.block true (n + 1))) ++ [.tryCommit, .flush false]

def soloRun (rounds : Nat) : Except Panic Node :=
  (soloCommands rounds).foldlM
    (Command.exec soloHashes soloShuffle soloSchedule (Solo.context true)) (.init 1 2)

theorem soloRun_reaches {β : Type} (f : Node → β) {v : β} {rounds : Nat} (hrounds : rounds ≤ 6)
    (h : (soloRun rounds).toOption.map f = some v) :
    ∃ node, Reachable Solo.v3Universe soloHashes soloShuffle soloSchedule node ∧ f node = v := by
  rcases hrun : soloRun rounds with e | node
  · rw [hrun] at h
    simp [Except.toOption] at h
  · rw [hrun] at h
    refine ⟨node, reachable_of_run ?_ hrun (.init 1 2), Option.some.inj h⟩
    intro block hmem
    simp only [soloCommands, mem_append, mem_map, mem_range, mem_cons,
      reduceCtorEq, not_mem_nil, or_false] at hmem
    obtain ⟨n, hn, heq⟩ := hmem
    cases heq
    exact ⟨n, by omega, rfl⟩

/-- A node with three rounds commits the leader of the first one; a node with one round
    has not decided it. -/
theorem flex_commit_agreement_solo : ∃ node₁ node₂ : Node,
    node₁.commits.map LeaderCommit.leaders = [[Solo.block true 1]] ∧
    node₂.commits.map LeaderCommit.leaders = [] ∧
    (node₁.commits <+: node₂.commits ∨ node₂.commits <+: node₁.commits) := by
  obtain ⟨node₁, h₁, hleaders₁⟩ :=
    soloRun_reaches (fun node => node.commits.map LeaderCommit.leaders)
      (v := [[Solo.block true 1]]) (show 3 ≤ 6 by decide) (by decide +kernel)
  obtain ⟨node₂, h₂, hleaders₂⟩ :=
    soloRun_reaches (fun node => node.commits.map LeaderCommit.leaders)
      (v := []) (show 1 ≤ 6 by decide) (by decide +kernel)
  exact ⟨node₁, node₂, hleaders₁, hleaders₂, (flex_commit_agreement h₁ h₂).2⟩

end Solo

/-- **Direct and indirect decisions of one node are consistent.**  In every state of a
    run, deciding aborts nowhere.  The direct rule gives each slot above the gc round a
    status; once that is a decision, the indirect rule gives the slot the same status in
    every later state with every anchor, and a slot that was skipped is skipped in every
    later state, whatever blocks were accepted into it. -/
theorem flex_decisions_consistent (h : Reachable U hashes shuffle schedule node) :
    (∃ pending, FlexCommitter.decide context shuffle node.dag node.pending
      (schedule.nextCommitLeaderSchedule node.subDags) = .ok pending) ∧
    ∀ slot, node.dag.gcRound context < slot.round →
      ∃ status, tryDirectDecide context node.dag slot = .ok status ∧
        (status.isDecided = true → ∀ later,
          Relation.ReflTransGen (Step U hashes shuffle schedule) node later →
          later.dag.gcRound context < slot.round →
          (∀ anchorBlock slots, Cached later.dag anchorBlock →
            slot.round + INDIRECT_COMMIT_DEPTH ≤ anchorBlock.round → slot ∈ slots →
            (∀ other ∈ slots, other.round = slot.round) →
            ∃ decide : Slot → LeaderStatus,
              tryIndirectDecide context later.dag anchorBlock slots = .ok (slots.map decide) ∧
              decide slot = status) ∧
          (status = .skip slot → tryDirectDecide context later.dag slot = .ok (.skip slot))) := by
  have hinv := h.inv
  obtain ⟨pending, hdecide, -⟩ := hinv.decide_sound
  refine ⟨⟨pending, hdecide⟩, fun slot hround => ?_⟩
  obtain ⟨status, hstatus, -⟩ := tryDirectDecide_spec hinv.valid hinv.voteIndex hround fun _ => []
  refine ⟨status, hstatus, fun hdecided later hrun hround' => ?_⟩
  obtain ⟨hlater, hretains⟩ := run_retains hinv hrun
  refine ⟨fun anchorBlock slots hanchor hdepth hslot hslots => ?_, ?_⟩
  · exact tryIndirectDecide_confirms hinv.valid hinv.voteIndex hround hstatus hdecided hlater.valid
      hround' hanchor hdepth hslot hslots
  · rintro rfl
    have hvotes := (tryDirectDecide_skip_iff hinv.valid hinv.voteIndex hround).mp hstatus
    exact (tryDirectDecide_skip_iff hlater.valid hlater.voteIndex hround').mpr
      (hvotes.retains hinv.valid hretains hround')

/-- The leader of round 2 is committed directly, and confirmed by the block of round 4. -/
theorem flex_decisions_consistent_solo : ∃ node : Node,
    tryDirectDecide (Solo.context true) node.dag ⟨2, 0⟩ = .ok (.commit (Solo.block true 2)) ∧
    ∃ decide : Slot → LeaderStatus,
      tryIndirectDecide (Solo.context true) node.dag (Solo.block true 4) [⟨2, 0⟩] =
        .ok ([⟨2, 0⟩].map decide) ∧
      decide ⟨2, 0⟩ = .commit (Solo.block true 2) := by
  obtain ⟨node, h, hfacts⟩ := soloRun_reaches
    (fun node => ((tryDirectDecide (Solo.context true) node.dag ⟨2, 0⟩).toOption,
      node.dag.recentBlocks[(Solo.block true 4).reference]?.map BlockInfo.block,
      node.dag.gcRound (Solo.context true)))
    (v := (some (.commit (Solo.block true 2)), some (Solo.block true 4), 0))
    (show 4 ≤ 6 by decide) (by decide +kernel)
  rw [Prod.mk.injEq, Prod.mk.injEq] at hfacts
  obtain ⟨hdirect, hanchor, hgc⟩ := hfacts
  obtain ⟨info, hinfo, hblock⟩ := Option.map_eq_some_iff.mp hanchor
  have hround : node.dag.gcRound (Solo.context true) < 2 := by omega
  obtain ⟨status, hstatus, hconfirm⟩ := (flex_decisions_consistent h).2 ⟨2, 0⟩ hround
  rw [hstatus] at hdirect
  cases hdirect
  refine ⟨node, hstatus, (hconfirm rfl node .refl hround).1 (Solo.block true 4) [⟨2, 0⟩]
    ⟨info, hinfo, hblock⟩ (by decide) (.head _) ?_⟩
  intro other hother
  rw [mem_singleton] at hother
  rw [hother]

end Inv

end Haneul.Consensus
