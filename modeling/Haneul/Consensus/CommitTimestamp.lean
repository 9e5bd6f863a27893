import Haneul.Consensus.FlexCommitter
import Haneul.Lib.Tally

/-!
# The timestamp of a commit under v3

`calculate_commit_timestamp` takes the median over the committed leaders if their stake reaches
the certification threshold, and over their parents otherwise.  The median is refused below the
quorum threshold.  The parents of a verified block reach it, whoever the leaders are; the leaders
themselves do not have to, since the certification threshold is the lower one of the two.
-/

namespace Haneul.Consensus

open Quorum DagState BlockVerifier List

namespace FlexCommitter

section Parents

variable {context : Context} {leaderRound : Nat}

/-- What is collected of the references in `seen`: the parents, one for each author. -/
structure ParentsOf (leaderRound : Nat) (seen : List BlockRef)
    (parents : Std.ExtTreeMap Nat BlockRef compare) : Prop where
  entry : ∀ (author : Nat) (r : BlockRef), parents[author]? = some r →
    r.author = author ∧ r.round + 1 = leaderRound ∧ r ∈ seen
  covered : ∀ r ∈ seen, r.round + 1 = leaderRound → r.author ∈ parents

variable {parents : Std.ExtTreeMap Nat BlockRef compare}

theorem ParentsOf.step {seen : List BlockRef}
    (h : ParentsOf leaderRound seen parents) (ancestor : BlockRef) :
    ParentsOf leaderRound (seen ++ [ancestor])
      (if ancestor.round + 1 = leaderRound then parents.insert ancestor.author ancestor
      else parents) := by
  split
  · next hparent =>
      constructor
      · intro author r hr
        rw [Map.get_insert] at hr
        split at hr
        · next heq =>
            cases hr
            exact ⟨heq, hparent, mem_concat_self⟩
        · obtain ⟨hauthor, hround, hseen⟩ := h.entry author r hr
          exact ⟨hauthor, hround, mem_append_left _ hseen⟩
      · intro r hr hround
        rw [Std.ExtTreeMap.mem_insert]
        rcases mem_append.mp hr with hold | hnew
        · exact .inr (h.covered r hold hround)
        · obtain rfl := mem_singleton.mp hnew
          exact .inl Std.ReflCmp.compare_self
  · next hother =>
      constructor
      · intro author r hr
        obtain ⟨hauthor, hround, hseen⟩ := h.entry author r hr
        exact ⟨hauthor, hround, mem_append_left _ hseen⟩
      · exact forall_mem_append.mpr ⟨h.covered, forall_mem_singleton.mpr (absurd · hother)⟩

theorem ParentsOf.foldl {ancestors : List BlockRef} :
    ∀ {seen : List BlockRef} {parents : Std.ExtTreeMap Nat BlockRef compare},
      ParentsOf leaderRound seen parents →
      ParentsOf leaderRound (seen ++ ancestors) (ancestors.foldl (fun parents ancestor =>
        if ancestor.round + 1 = leaderRound then parents.insert ancestor.author ancestor
        else parents) parents) := by
  induction ancestors with
  | nil =>
    intro seen parents h
    simpa using h
  | cons ancestor rest ih =>
    intro seen parents h
    have hrest := ih (h.step ancestor)
    rwa [append_assoc] at hrest

theorem parentRefs_parentsOf (leaderRound : Nat) (leaders : List VerifiedBlock) :
    ParentsOf leaderRound (leaders.flatMap VerifiedBlock.ancestors)
      (parentRefs leaderRound leaders) := by
  have hrun : ∀ {seen : List BlockRef} {parents : Std.ExtTreeMap Nat BlockRef compare},
      ParentsOf leaderRound seen parents →
      ParentsOf leaderRound (seen ++ leaders.flatMap VerifiedBlock.ancestors)
        (leaders.foldl (fun parents leader => leader.ancestors.foldl (fun parents ancestor =>
          if ancestor.round + 1 = leaderRound then parents.insert ancestor.author ancestor
          else parents) parents) parents) := by
    induction leaders with
    | nil =>
      intro seen parents h
      simpa using h
    | cons leader rest ih =>
      intro seen parents h
      have hrest := ih (@ParentsOf.foldl leaderRound leader.ancestors _ _ h)
      rwa [append_assoc] at hrest
  have hempty : ParentsOf leaderRound [] (∅ : Std.ExtTreeMap Nat BlockRef compare) :=
    ⟨fun author r hr => by simp at hr, fun r hr => by cases hr⟩
  exact hrun hempty

theorem ParentsOf.stake_eq {seen : List BlockRef}
    (h : ParentsOf leaderRound seen parents) (stake : Nat → Nat) :
    (parents.values.map fun r => stake r.author).sum = weight stake parents.keys.toFinset := by
  have hauthors : (parents.values.map fun r => stake r.author) = parents.keys.map stake := by
    rw [Map.values_eq, ← Std.ExtTreeMap.map_fst_toList_eq_keys, map_map, map_map]
    apply map_congr_left
    rintro ⟨author, r⟩ hentry
    have hr := h.entry author r (Std.ExtTreeMap.mem_toList_iff_getElem?_eq_some.mp hentry)
    dsimp only [Function.comp_apply]
    rw [hr.1]
  rw [hauthors, weight, sum_toFinset _ Std.ExtTreeMap.nodup_keys]

end Parents

section Timestamp

variable {context : Context} {state : DagState} {leaders : List VerifiedBlock}

/-- The DAG state can read the parents of the leaders. -/
def ParentsKnown (context : Context) (state : DagState) (leaders : List VerifiedBlock) : Prop :=
  ∀ leader ∈ leaders, ∀ a ∈ leader.ancestors, a.round + 1 = leader.round →
    ∃ parent, state.getBlock context a = some parent ∧ parent.reference = a

/-- The parents of a cached block are in the cache or are genesis blocks, unless they are
    collected. -/
theorem parentsKnown_of_valid {U : BlockUniverse context} (hvalid : Valid U state)
    (hcached : ∀ leader ∈ leaders, Cached state leader)
    (habove : ∀ leader ∈ leaders, leader.round = 1 ∨ state.gcRound context + 1 < leader.round) :
    ParentsKnown context state leaders := by
  intro leader hleader a ha hround
  have hwell := U.wellFormed ((hcached leader hleader).mem_blocks hvalid)
  rcases habove leader hleader with hfirst | hlater
  · have hzero : a.round = GENESIS_ROUND := by
      have : a.round + 1 = 0 + 1 := hround.trans hfirst
      exact Nat.succ_injective this
    obtain ⟨parent, hparent, href⟩ := mem_map.mp (hwell.ancestor_genesis a ha hzero)
    rw [getBlock, if_pos hzero]
    cases hfind : context.genesisBlocks.find? fun block => block.reference = a with
    | none =>
      have hnone := List.find?_eq_none.mp hfind parent hparent
      exact absurd (decide_eq_true href) hnone
    | some found =>
      have hfound := List.find?_some hfind
      exact ⟨found, rfl, of_decide_eq_true hfound⟩
  · obtain ⟨info, hinfo, rfl⟩ := hcached leader hleader
    have hmem := hvalid.closed hinfo a ha (by omega)
    obtain ⟨parent, hget, _, href⟩ := getBlock_of_mem hvalid hmem
    exact ⟨parent, hget, href⟩

variable {blocks : List VerifiedBlock}

theorem medianTimestampByStake_eq_ok {committee : Committee}
    (hquorum : 0 < committee.quorumThreshold) :
    (∃ ts, medianTimestampByStake committee blocks = .ok ts) ↔
      committee.quorumThreshold ≤ (blocks.map fun block => committee.stake block.author).sum := by
  have hsum : ((blocks.map fun block => (block.timestampMs, committee.stake block.author)).map
      Prod.snd).sum = (blocks.map fun block => committee.stake block.author).sum := by
    rw [List.map_map]
    rfl
  unfold medianTimestampByStake
  dsimp only
  rw [hsum]
  constructor
  · rintro ⟨ts, h⟩
    by_contra hlt
    split_ifs at h
    omega
  · intro hle
    have hne : ¬(blocks.map fun block =>
        (block.timestampMs, committee.stake block.author)).isEmpty = true := by
      intro hempty
      rw [List.isEmpty_iff, List.map_eq_nil_iff] at hempty
      rw [hempty] at hle
      exact absurd hle (Nat.not_le.mpr hquorum)
    rw [if_neg hne, if_neg (Nat.not_lt.mpr hle)]
    exact ⟨_, rfl⟩

/-- A commit timestamp is returned exactly if the blocks it is taken from reach the quorum. -/
theorem calculateCommitTimestamp_eq_ok (hquorum : 0 < context.committee.quorumThreshold)
    (hblocks : timestampBlocks context state leaders = .ok blocks) :
    (∃ ts, calculateCommitTimestamp context state leaders = .ok ts ∧
        state.lastCommitTimestampMs ≤ ts) ↔
      context.committee.quorumThreshold ≤
        (blocks.map fun block => context.committee.stake block.author).sum := by
  rw [← medianTimestampByStake_eq_ok hquorum]
  constructor
  · rintro ⟨ts, h, _⟩
    obtain ⟨blocks', hblocks', hmedian⟩ := bind_eq_ok.mp h
    cases hblocks.symm.trans hblocks'
    split at hmedian
    · next ts' hts => exact ⟨ts', hts⟩
    · cases hmedian
  · rintro ⟨ts, hts⟩
    refine ⟨max ts state.lastCommitTimestampMs, bind_eq_ok.mpr ⟨blocks, hblocks, ?_⟩,
      le_max_right _ _⟩
    rw [hts]
    rfl

/-- The parents of verified leaders are read, and their stake reaches the quorum. -/
theorem parents_reach_quorum {round : Nat} (hne : leaders ≠ [])
    (hround : ∀ leader ∈ leaders, leader.round = round)
    (hverified : ∀ leader ∈ leaders, verifyBlock context leader = .ok ())
    (hparents : ParentsKnown context state leaders) :
    ∃ blocks, (parentRefs round leaders).values.mapM (loadParent context state) = .ok blocks ∧
      context.committee.quorumThreshold ≤
        (blocks.map fun block => context.committee.stake block.author).sum := by
  have hspec := parentRefs_parentsOf round leaders
  have hload : ∀ r ∈ (parentRefs round leaders).values, ∃ parent,
      loadParent context state r = .ok parent ∧ parent.reference = r := by
    intro r hr
    rw [Map.values_eq] at hr
    obtain ⟨⟨author, r'⟩, hentry, rfl⟩ := mem_map.mp hr
    obtain ⟨_, hparent, hseen⟩ := hspec.entry author r'
      (Std.ExtTreeMap.mem_toList_iff_getElem?_eq_some.mp hentry)
    obtain ⟨leader, hleader, hancestor⟩ := mem_flatMap.mp hseen
    obtain ⟨parent, hget, href⟩ := hparents leader hleader r' hancestor
      (hparent.trans (hround leader hleader).symm)
    refine ⟨parent, ?_, href⟩
    unfold loadParent
    rw [hget]
  obtain ⟨blocks, hblocks⟩ := mapM_total fun r hr => (hload r hr).imp fun _ h => h.1
  refine ⟨blocks, hblocks, ?_⟩
  -- the blocks have the authors of the references they were read by
  have hstakes : (blocks.map fun block => context.committee.stake block.author) =
      (parentRefs round leaders).values.map fun r => context.committee.stake r.author := by
    have hpairs := mapM_forall₂ hblocks
    clear hblocks
    generalize (parentRefs round leaders).values = refs at hpairs hload
    induction hpairs with
    | nil => rfl
    | @cons r block refs blocks hr _ ih =>
      obtain ⟨parent, hparent, href⟩ := hload r (.head _)
      cases hr.symm.trans hparent
      rw [map_cons, map_cons, ih fun r' hr' => hload r' (.tail _ hr'), ← href]
      rfl
  obtain ⟨leader, hleader⟩ := exists_mem_of_ne_nil _ hne
  have hwell := wellFormed_of_verifyBlock (hverified leader hleader)
  have hpos := hwell.round_pos
  rw [hround leader hleader] at hpos
  rw [hstakes, hspec.stake_eq]
  refine hwell.parents.trans (weight_mono ?_)
  intro author hauthor
  obtain ⟨r, hr, rfl⟩ := mem_map.mp (mem_toFinset.mp hauthor)
  obtain ⟨hancestor, hparent⟩ := mem_filter.mp hr
  have hparent' : r.round = leader.round - 1 := of_decide_eq_true hparent
  rw [hround leader hleader] at hparent'
  rw [mem_toFinset, Std.ExtTreeMap.mem_keys]
  exact hspec.covered r (mem_flatMap.mpr ⟨leader, hleader, hancestor⟩) (by omega)

end Timestamp

end FlexCommitter

open FlexCommitter in
/-- The timestamp of a commit of verified leaders of one round is returned, and is not below that
    of the last commit, exactly if the stake of the leaders is below the certification threshold,
    where the parents are used, or reaches the quorum threshold. -/
theorem commit_timestamp_iff {context : Context} {epoch maliciousStake crashStake : Nat}
    {authorities : List Authority}
    (hbuilt : Committee.newV3 epoch authorities maliciousStake crashStake = .ok context.committee)
    {state : DagState} {leaders : List VerifiedBlock} {round : Nat} (hne : leaders ≠ [])
    (hround : ∀ leader ∈ leaders, leader.round = round)
    (hverified : ∀ leader ∈ leaders, verifyBlock context leader = .ok ())
    (hparents : ParentsKnown context state leaders) :
    (∃ ts, calculateCommitTimestamp context state leaders = .ok ts ∧
        state.lastCommitTimestampMs ≤ ts) ↔
      (leaders.map fun leader => context.committee.stake leader.author).sum <
          context.committee.certificationThreshold ∨
        context.committee.quorumThreshold ≤
          (leaders.map fun leader => context.committee.stake leader.author).sum := by
  obtain ⟨_, _, hcert, _, hsurvive⟩ := Committee.newV3_thresholds hbuilt
  have hquorum : 0 < context.committee.quorumThreshold := by omega
  obtain ⟨first, rest, rfl⟩ := exists_cons_of_ne_nil hne
  by_cases hstake : (((first :: rest).map fun leader => context.committee.stake leader.author).sum ≥
      context.committee.certificationThreshold)
  · have hblocks : timestampBlocks context state (first :: rest) = .ok (first :: rest) := by
      unfold timestampBlocks
      exact if_pos hstake
    rw [calculateCommitTimestamp_eq_ok hquorum hblocks]
    omega
  · obtain ⟨blocks, hload, hreached⟩ := parents_reach_quorum hne hround hverified hparents
    have hblocks : timestampBlocks context state (first :: rest) = .ok blocks := by
      unfold timestampBlocks
      rw [← hround first (.head _)] at hload
      exact (if_neg hstake).trans hload
    rw [calculateCommitTimestamp_eq_ok hquorum hblocks]
    omega

/-! ### Leaders between the two thresholds -/

namespace SixAuthorities

def committee : Committee where
  epoch := 0
  authorities := List.replicate 6 ⟨1⟩
  totalStake := 6
  quorumThreshold := 5
  certificationThreshold := 3
  validityThreshold := 2

def context : Context where
  committee := committee
  protocolConfig := { enableV3 := true, gcDepth := 3 }
  epochStartTimestampMs := 0
  genesisDigest := id
  verifySignature := fun _ => true

/-- A block of the first round, with all genesis blocks as ancestors. -/
def block (author : Nat) : VerifiedBlock where
  version := .v3
  epoch := 0
  round := 1
  author := author
  timestampMs := 10 + author
  ancestors := (author :: (List.range 6).erase author).map fun a => ⟨0, a, a⟩
  transactions := []
  votes := []
  votesCutoffRound := 0
  digest := author

theorem parentsKnown (state : DagState) (author : Nat) (h : author < 6) :
    FlexCommitter.ParentsKnown context state [block author] := by
  intro leader hleader a ha _
  obtain rfl := mem_singleton.mp hleader
  have hgenesis : ∀ author < 6, ∀ a ∈ (block author).ancestors, a.round = GENESIS_ROUND ∧
      context.genesisBlocks.find? (fun b => b.reference = a) = some (context.genesisBlock a.author) ∧
      (context.genesisBlock a.author).reference = a := by decide
  obtain ⟨hzero, hfind, href⟩ := hgenesis author h a ha
  refine ⟨_, ?_, href⟩
  rw [DagState.getBlock, if_pos hzero]
  exact hfind

end SixAuthorities

/-- Half of six equal authorities commit a leader: that is the certification threshold, but not
    the quorum. -/
theorem commit_timestamp_panics :
    Committee.newV3 0 (List.replicate 6 ⟨1⟩) 1 0 = .ok SixAuthorities.context.committee ∧
      (∀ leader ∈ [0, 1, 2].map SixAuthorities.block,
        verifyBlock SixAuthorities.context leader = .ok ()) ∧
      ([0, 1, 2].map SixAuthorities.block).map VerifiedBlock.author = [0, 1, 2] ∧
      ∀ state, FlexCommitter.calculateCommitTimestamp SixAuthorities.context state
        ([0, 1, 2].map SixAuthorities.block) = .error (.timestamp (.insufficientStake 3 5)) := by
  exact ⟨by decide, by decide, rfl, fun state => rfl⟩

/-- One leader of the six takes the timestamps of its parents. -/
theorem commit_timestamp_iff_single : ∃ ts,
    FlexCommitter.calculateCommitTimestamp SixAuthorities.context { ownIndex := 0, cachedRounds := 10 }
      [SixAuthorities.block 0] = .ok ts := by
  have hbuilt : Committee.newV3 0 (List.replicate 6 ⟨1⟩) 1 0 =
      .ok SixAuthorities.context.committee := by decide
  have hround : ∀ leader ∈ [SixAuthorities.block 0], leader.round = 1 := by decide
  have hverified : ∀ leader ∈ [SixAuthorities.block 0],
      verifyBlock SixAuthorities.context leader = .ok () := by decide
  obtain ⟨ts, hts, _⟩ := (commit_timestamp_iff hbuilt (by simp) hround hverified
    (SixAuthorities.parentsKnown { ownIndex := 0, cachedRounds := 10 } 0 (by decide))).mpr
    (.inl (by decide))
  exact ⟨ts, hts⟩

end Haneul.Consensus
