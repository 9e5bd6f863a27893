import Haneul.Lib.VotingRule
import Haneul.Consensus.DagInvariants

/-!
# The v3 decision rules for one leader slot

Mirror of `consensus/core/src/leader_slot_decider.rs`.  The direct rule counts the
blocks of the next round that vote for or against each block of the slot; the
indirect rule counts, by one breadth-first search from an anchor, the votes in the
anchor's ancestry.

Both rules read a local `DagState`.  The theorems at the end say what they find in
terms of the universe of all blocks: a direct decision is a direct decision of the
voting rule (`tryDirectDecide_spec`), and the indirect rule commits exactly what
the anchor certifies (`tryIndirectDecide_spec`).
-/

namespace Haneul.Consensus

open Quorum List VerifiedBlock Std.ExtTreeMap

namespace LeaderSlotDecider

variable (context : Context)

def INDIRECT_COMMIT_DEPTH : Nat := 2

/-! ### The direct rule -/

instance (committee : Committee) :
    RightCommutative fun (aggregator : StakeAggregator) (block : BlockRef) =>
      (aggregator.addUnique block.author committee).1 where
  right_comm aggregator a b := aggregator.addUnique_comm committee a.author b.author

/-- The votes of the authors of `blocks`, added in any order. -/
def votesOf (committee : Committee) (blocks : Finset BlockRef) : StakeAggregator :=
  blocks.val.foldl (fun aggregator block => (aggregator.addUnique block.author committee).1) {}

/-- The loop over the blocks of the slot; the result when no block is committed
    depends on how many of them are rejected. -/
def directDecideBlocks (votingRoundInfo : RoundInfo) (slot : Slot) (numBlocks : Nat) :
    Nat → List BlockInfo → Except Panic LeaderStatus
  | numSkipped, [] => .ok (if numSkipped = numBlocks then .skip slot else .undecided slot)
  | numSkipped, blockInfo :: rest =>
    let rejectVotes := votesOf context.committee (votingRoundInfo.blocks \ blockInfo.children)
    let blockRejected := rejectVotes.reachedThreshold context.committee .quorum
    if blockInfo.childrenStake.reachedThreshold context.committee .quorum then
      if blockRejected then .error (.bothCommittedAndSkipped blockInfo.block.reference)
      else .ok (.commit blockInfo.block)
    else
      directDecideBlocks votingRoundInfo slot numBlocks
        (if blockRejected then numSkipped + 1 else numSkipped) rest

variable (state : DagState)

def tryDirectDecide (slot : Slot) : Except Panic LeaderStatus := do
  match ← state.getRoundInfo context (slot.round + 1) with
  | none => return .undecided slot
  | some votingRoundInfo =>
    if ¬ votingRoundInfo.totalStake.reachedThreshold context.committee .quorum then
      return .undecided slot
    else
      let blockInfos ← state.getBlockInfoAtSlot context slot
      directDecideBlocks context votingRoundInfo slot blockInfos.length 0 blockInfos

/-! ### The indirect rule -/

structure VoteSearch where
  toVisit : List VerifiedBlock
  visited : Finset BlockRef
  votes : Std.ExtTreeMap BlockRef StakeAggregator compare := ∅

/-- Adds an ancestor above the decision round to the search, once. -/
def enqueueAncestor (decisionRound : Nat) (search : VoteSearch)
    (ancestor : BlockRef) : Except Panic VoteSearch :=
  if ancestor.round > decisionRound ∧ ancestor ∉ search.visited then
    match state.getBlock context ancestor with
    | none => .error (.blockMustExist ancestor)
    | some ancestorBlock =>
      .ok { search with
        visited := insert ancestor search.visited
        toVisit := search.toVisit ++ [ancestorBlock] }
  else .ok search

/-- Counts the vote of a block of the voting round for a decision block. -/
def countVote (decisionRound : Nat) (decisionBlocks : List BlockRef) (block : VerifiedBlock)
    (search : VoteSearch) (ancestor : BlockRef) : VoteSearch :=
  if ancestor ∈ decisionBlocks ∧ block.round = decisionRound + 1 then
    let commitStake := search.votes.getD ancestor {}
    { search with
      votes := search.votes.insert ancestor
        (commitStake.addUnique block.author context.committee).1 }
  else search

def visitAncestor (decisionRound : Nat) (decisionBlocks : List BlockRef)
    (block : VerifiedBlock) (search : VoteSearch) (ancestor : BlockRef) :
    Except Panic VoteSearch := do
  let search ← enqueueAncestor context state decisionRound search ancestor
  return countVote context decisionRound decisionBlocks block search ancestor

def searchTurn (decisionRound : Nat) (decisionBlocks : List BlockRef) (search : VoteSearch) :
    Except Panic (Turn VoteSearch (Std.ExtTreeMap BlockRef StakeAggregator compare)) :=
  match search.toVisit with
  | [] => .ok (.done search.votes)
  | block :: rest => do
    let search ← block.ancestors.foldlM
      (visitAncestor context state decisionRound decisionBlocks block)
      { search with toVisit := rest }
    return .continue search

/-- The commit votes for the decision blocks in the ancestry of the anchor. -/
def collectVotes (anchorBlock : VerifiedBlock) (decisionRound : Nat)
    (decisionBlocks : List BlockRef) :
    Except Panic (Std.ExtTreeMap BlockRef StakeAggregator compare) :=
  loop .outOfFuel (searchTurn context state decisionRound decisionBlocks)
    (state.recentBlocks.size + state.storedBlocks.size + 2)
    { toVisit := [anchorBlock], visited := {anchorBlock.reference} }

def loadBlock (reference : BlockRef) :
    Except Panic (BlockRef × VerifiedBlock) :=
  match state.getBlock context reference with
  | none => .error (.blockMustExist reference)
  | some block => .ok (reference, block)

def certifiedBlocks (votes : Std.ExtTreeMap BlockRef StakeAggregator compare) :
    Except Panic (List (BlockRef × VerifiedBlock)) :=
  let certified := votes.toList.filter fun entry =>
    entry.2.reachedThreshold context.committee .certification
  (certified.map Prod.fst).mapM (loadBlock context state)

/-- A slot is committed if exactly one of its blocks is certified. -/
def decideCertified (certified : List (BlockRef × VerifiedBlock)) (slot : Slot) : LeaderStatus :=
  match certified.filter fun entry => entry.1.slot = slot with
  | [(_, block)] => .commit block
  | _ => .skip slot

def tryIndirectDecide (anchorBlock : VerifiedBlock)
    (decisionSlots : List Slot) : Except Panic (List LeaderStatus) :=
  match decisionSlots with
  | [] => .error .noDecisionSlots
  | first :: _ =>
    let decisionRound := first.round
    if ¬ decisionSlots.all (fun slot => slot.round = decisionRound) then
      .error .decisionSlotRounds
    else if ¬ decisionRound + INDIRECT_COMMIT_DEPTH ≤ anchorBlock.round then
      .error (.anchorTooClose anchorBlock.reference decisionRound)
    else do
      let decisionBlocks := decisionSlots.flatMap fun slot =>
        (state.getUncommittedBlocksAtSlot slot).map VerifiedBlock.reference
      let votes ← collectVotes context state anchorBlock decisionRound decisionBlocks
      let certified ← certifiedBlocks context state votes
      return decisionSlots.map (decideCertified certified)

end LeaderSlotDecider

/-! ### The rules in terms of the universe -/

namespace V3Universe

variable {context : Context} (U : V3Universe context)

def roundDag : RoundDag BlockRef Nat := U.toBlockUniverse.dag U.quorum_pos

/-- The commit rule that the decider implements, for the leaders of each round. -/
def rule (leaders : Nat → List Nat) : AnchoredRule Nat BlockRef :=
  U.roundDag.votingRule context.committee.certificationThreshold leaders
    U.certificate_meets_quorum U.certificate_survives

theorem inSlot_iff {slot : Slot} {b : BlockRef} :
    U.roundDag.InSlot slot.round slot.authority b ↔ b ∈ U.refs ∧ b.slot = slot := by
  cases slot
  simp only [BlockRef.slot, Slot.mk.injEq]
  exact Iff.rfl

end V3Universe

namespace LeaderSlotDecider

open DagState

section Direct

variable {context : Context} {U : V3Universe context} {state : DagState}

theorem votesOf_aggregates (committee : Committee) (blocks : Finset BlockRef) :
    Aggregates committee (votesOf committee blocks) blocks := by
  induction blocks using Finset.induction_on with
  | empty => exact aggregates_empty committee
  | insert block blocks hnot ih =>
    have hfold : votesOf committee (insert block blocks) =
        ((votesOf committee blocks).addUnique block.author committee).1 := by
      unfold votesOf
      rw [Finset.insert_val_of_notMem hnot, ← Multiset.singleton_add, add_comm, Multiset.foldl_add]
      rfl
    rw [hfold]
    exact ih.insert block

variable {aggregator : StakeAggregator} {kind : CommitteeThreshold}

/-- Enough stake among the authors of some blocks of the universe backs what the
    blocks have in common. -/
theorem backed_of_aggregates {blocks : Finset BlockRef} {round : Nat} {p : BlockRef → Prop}
    (haggregates : Aggregates context.committee aggregator blocks)
    (hreached : aggregator.reachedThreshold context.committee kind = true)
    (hblocks : ∀ c ∈ blocks, c ∈ U.refs ∧ c.round = round ∧ p c) :
    U.roundDag.Backed round (kind.threshold context.committee) p := by
  simp only [StakeAggregator.reachedThreshold, CommitteeThreshold.isThreshold, ge_iff_le,
    decide_eq_true_eq, haggregates.stake_eq] at hreached
  refine ⟨blocks.image BlockRef.author, hreached, fun i hi => ?_⟩
  obtain ⟨c, hc, hauthor⟩ := Finset.mem_image.mp hi
  obtain ⟨hmem, hround, hp⟩ := hblocks c hc
  exact ⟨c, hmem, hauthor, hround, hp⟩

/-- The voting table of the round after a slot, as the direct rule reads it. -/
structure VotingRound (U : V3Universe context) (state : DagState) (votingRoundInfo : RoundInfo)
    (round : Nat) : Prop where
  blocks : ∀ c, c ∈ votingRoundInfo.blocks ↔ c ∈ state.recentBlocks ∧ c.round = round
  refs : ∀ c ∈ state.recentBlocks, c ∈ U.refs

/-- A cached block with its exact votes. -/
structure VotedBlock (U : V3Universe context) (state : DagState) (slot : Slot)
    (info : BlockInfo) : Prop where
  mem : info.block ∈ U.blocks
  cached : state.recentBlocks[info.block.reference]? = some info
  slot_eq : info.block.slot = slot
  children : ∀ c, c ∈ info.children ↔ c ∈ state.recentBlocks ∧ c.round = slot.round + 1 ∧
    info.block.reference ∈ U.ancestors c
  stake : Aggregates context.committee info.childrenStake info.children

variable {slot : Slot} {info : BlockInfo} {votingRoundInfo : RoundInfo}

theorem VotedBlock.inSlot (h : VotedBlock U state slot info) :
    U.roundDag.InSlot slot.round slot.authority info.block.reference := by
  exact U.inSlot_iff.mpr ⟨U.reference_mem h.mem, h.slot_eq⟩

section

variable (hvoting : VotingRound U state votingRoundInfo (slot.round + 1))
include hvoting

theorem VotedBlock.committed (h : VotedBlock U state slot info)
    (hreached : info.childrenStake.reachedThreshold context.committee .quorum = true) :
    U.roundDag.Backed (slot.round + 1) context.committee.quorumThreshold
      fun c => info.block.reference ∈ U.ancestors c := by
  refine backed_of_aggregates h.stake hreached fun c hc => ?_
  obtain ⟨hcached, hround, hvote⟩ := (h.children c).mp hc
  exact ⟨hvoting.refs c hcached, hround, hvote⟩

theorem VotedBlock.rejected (h : VotedBlock U state slot info)
    (hreached : (votesOf context.committee
      (votingRoundInfo.blocks \ info.children)).reachedThreshold context.committee .quorum = true) :
    U.roundDag.Backed (slot.round + 1) context.committee.quorumThreshold
      fun c => info.block.reference ∉ U.ancestors c := by
  refine backed_of_aggregates (votesOf_aggregates _ _) hreached fun c hc => ?_
  obtain ⟨hmem, hnot⟩ := Finset.mem_sdiff.mp hc
  obtain ⟨hcached, hround⟩ := (hvoting.blocks c).mp hmem
  exact ⟨hvoting.refs c hcached, hround, fun hvote =>
    hnot ((h.children c).mpr ⟨hcached, hround, hvote⟩)⟩

/-- The loop of the direct rule never finds a block both committed and rejected, and
    commits a block with a quorum of votes. -/
theorem directDecideBlocks_spec {numBlocks numSkipped : Nat} {infos : List BlockInfo}
    (hinfos : ∀ info ∈ infos, VotedBlock U state slot info) :
    ∃ status, directDecideBlocks context votingRoundInfo slot numBlocks numSkipped infos =
        .ok status ∧
      ((∃ info ∈ infos, status = .commit info.block ∧
          U.roundDag.Backed (slot.round + 1) context.committee.quorumThreshold
            fun c => info.block.reference ∈ U.ancestors c) ∨
        status = .skip slot ∨ status = .undecided slot) := by
  induction infos generalizing numSkipped with
  | nil =>
    refine ⟨_, rfl, .inr ?_⟩
    split
    · exact .inl rfl
    · exact .inr rfl
  | cons info rest ih =>
    obtain ⟨hinfo, hrest⟩ := forall_mem_cons.mp hinfos
    simp only [directDecideBlocks]
    by_cases hcommit : info.childrenStake.reachedThreshold context.committee .quorum = true
    · have hvotes := hinfo.committed hvoting hcommit
      split_ifs with hreject
      · -- a correct author would vote both for and against the block
        exfalso
        obtain ⟨c, -, -, hvote, hnot⟩ := hvotes.meet (hinfo.rejected hvoting hreject) U.quorums_meet
        exact hnot hvote
      · exact ⟨_, rfl, .inl ⟨info, .head _, rfl, hvotes⟩⟩
    · rw [if_neg hcommit]
      obtain ⟨status, hstatus, hcases⟩ := ih hrest
      refine ⟨status, hstatus, hcases.imp_left ?_⟩
      rintro ⟨other, hother, hdone⟩
      exact ⟨other, mem_cons_of_mem info hother, hdone⟩

end

/-! ### When a slot is skipped directly -/

theorem reachedThreshold_iff {blocks : Finset BlockRef} {round : Nat} {p : BlockRef → Prop}
    (haggregates : Aggregates context.committee aggregator blocks)
    (hrefs : ∀ c ∈ blocks, c ∈ U.refs) (hblocks : ∀ c, c ∈ blocks ↔ c.round = round ∧ p c) :
    aggregator.reachedThreshold context.committee kind = true ↔
      U.roundDag.Backed round (kind.threshold context.committee) p := by
  constructor
  · intro hreached
    refine backed_of_aggregates haggregates hreached fun c hc => ?_
    exact ⟨hrefs c hc, (hblocks c).mp hc⟩
  · rintro ⟨authors, hweight, hauthors⟩
    simp only [StakeAggregator.reachedThreshold, CommitteeThreshold.isThreshold, ge_iff_le,
      decide_eq_true_eq, haggregates.stake_eq]
    refine hweight.trans (weight_mono fun i hi => ?_)
    obtain ⟨c, -, hauthor, hround, hp⟩ := hauthors i hi
    exact Finset.mem_image.mpr ⟨c, (hblocks c).mpr ⟨hround, hp⟩, hauthor⟩

/-- The cached blocks of the next round are a quorum, and a quorum of them is against
    each cached block of the slot. -/
def SkipVotes (U : V3Universe context) (state : DagState) (slot : Slot) : Prop :=
  U.roundDag.Backed (slot.round + 1) context.committee.quorumThreshold
    (fun c => c ∈ state.recentBlocks) ∧
  ∀ b ∈ state.recentBlocks, b.slot = slot →
    U.roundDag.Backed (slot.round + 1) context.committee.quorumThreshold
      fun c => c ∈ state.recentBlocks ∧ b ∉ U.ancestors c

/-- Votes to skip a slot stay: a block that comes later is no ancestor of the blocks
    that were there before it. -/
theorem SkipVotes.retains {state' : DagState} (hvalid : Valid U.toBlockUniverse state)
    (hretains : Retains context state state') (hround : state'.gcRound context < slot.round)
    (h : SkipVotes U state slot) : SkipVotes U state' slot := by
  have hview := hvalid.isView U.quorum_pos
  have hkept : ∀ c ∈ state.recentBlocks, c.round = slot.round + 1 → c ∈ state'.recentBlocks :=
    fun c hc hcround => hretains.mem hvalid hc (by omega)
  refine ⟨h.1.mono le_rfl fun c _ hcround hc => hkept c hc hcround, fun b _ hslot => ?_⟩
  by_cases hb : b ∈ state.recentBlocks
  · exact (h.2 b hb hslot).mono le_rfl fun c _ hcround hc => ⟨hkept c hc.1 hcround, hc.2⟩
  · refine h.1.mono le_rfl fun c _ hcround hc => ⟨hkept c hc hcround, fun hvote => hb ?_⟩
    have hbround : b.round = slot.round := by rw [← hslot]; rfl
    exact hview.closed hc hvote (hretains.gcRound_le.trans_lt (hround.trans_eq hbround.symm))

/-- The blocks of the slot that are not cached have no cached child, so that whoever
    has a block in the next round is against them. -/
theorem SkipVotes.directSkip (hvalid : Valid U.toBlockUniverse state)
    (hround : state.gcRound context < slot.round) (h : SkipVotes U state slot)
    (leaders : Nat → List Nat) : (U.rule leaders).directSkip slot.round slot.authority := by
  intro b hb
  by_cases hcached : b ∈ state.recentBlocks
  · exact (h.2 b hcached (U.inSlot_iff.mp hb).2).mono le_rfl fun c _ _ hc => hc.2
  · refine h.1.mono le_rfl fun c _ _ hc hvote => hcached ?_
    exact (hvalid.isView U.quorum_pos).closed hc hvote (lt_of_lt_of_eq hround hb.2.1.symm)

theorem directDecideBlocks_skip_iff {numBlocks : Nat} {infos : List BlockInfo} :
    ∀ {numSkipped : Nat}, numSkipped + infos.length ≤ numBlocks →
      (directDecideBlocks context votingRoundInfo slot numBlocks numSkipped infos =
          .ok (.skip slot) ↔
        numSkipped + infos.length = numBlocks ∧ ∀ info ∈ infos,
          info.childrenStake.reachedThreshold context.committee .quorum = false ∧
          (votesOf context.committee (votingRoundInfo.blocks \ info.children)).reachedThreshold
            context.committee .quorum = true) := by
  induction infos with
  | nil =>
    intro numSkipped _
    by_cases hall : numSkipped = numBlocks <;> simp [directDecideBlocks, hall]
  | cons info rest ih =>
    intro numSkipped hcount
    rw [length_cons] at hcount
    rw [forall_mem_cons, length_cons]
    simp only [directDecideBlocks]
    by_cases hcommit : info.childrenStake.reachedThreshold context.committee .quorum = true
    · rw [if_pos hcommit]
      split_ifs <;> simp [hcommit]
    · rw [if_neg hcommit]
      by_cases hreject : (votesOf context.committee
          (votingRoundInfo.blocks \ info.children)).reachedThreshold context.committee
            .quorum = true
      · rw [if_pos hreject, @ih (numSkipped + 1) (by omega)]
        simp only [hreject, hcommit, and_self, true_and]
        rw [show numSkipped + 1 + rest.length = numSkipped + (rest.length + 1) by omega]
      · rw [if_neg hreject, @ih numSkipped (by omega)]
        constructor
        · rintro ⟨hnum, -⟩
          omega
        · rintro ⟨-, ⟨-, hreached⟩, -⟩
          exact absurd hreached hreject

section

variable (hvalid : Valid U.toBlockUniverse state) (hindex : VoteIndex U.toBlockUniverse state)
  (hround : state.gcRound context < slot.round)
include hvalid hindex hround

theorem votedBlocks :
    ∀ info ∈ state.blockInfosAtSlot slot, VotedBlock U state slot info := by
  intro info hinfo
  obtain ⟨hcached, hslot⟩ := (mem_blockInfosAtSlot hvalid).mp hinfo
  have hinfoRound : info.block.reference.round = slot.round := by rw [← hslot]; rfl
  obtain ⟨hchildren, haggregates⟩ := hindex.children _ info hcached (by omega)
  rw [hinfoRound] at hchildren
  exact ⟨(hvalid.block_mem hcached).1, hcached, hslot, hchildren, haggregates⟩

theorem tryDirectDecide_skip_iff :
    tryDirectDecide context state slot = .ok (.skip slot) ↔ SkipVotes U state slot := by
  have hview := hvalid.isView U.quorum_pos
  unfold tryDirectDecide
  rcases hindex.getRoundInfo (slot.round + 1) (by omega) with
    ⟨hnone, hempty⟩ | ⟨votingRoundInfo, hsome, hblocks, hstake⟩
  · rw [hnone]
    constructor
    · intro h
      simp [bind, Except.bind, pure, Except.pure] at h
    · rintro ⟨hbacked, -⟩
      obtain ⟨c, -, hcround, hc⟩ := hbacked.exists_node U.quorum_pos
      exact absurd hcround (hempty c hc)
  · have hreached : votingRoundInfo.totalStake.reachedThreshold context.committee .quorum = true ↔
        U.roundDag.Backed (slot.round + 1) context.committee.quorumThreshold
          fun c => c ∈ state.recentBlocks := by
      refine reachedThreshold_iff hstake (fun c hc => hview.subset ((hblocks c).mp hc).1) ?_
      intro c
      rw [hblocks c, and_comm]
    rw [hsome]
    simp only [bind, Except.bind]
    by_cases hquorum : votingRoundInfo.totalStake.reachedThreshold context.committee .quorum = true
    swap
    · rw [if_pos hquorum]
      constructor
      · intro h
        simp [pure, Except.pure] at h
      · rintro ⟨hbacked, -⟩
        exact absurd (hreached.mpr hbacked) hquorum
    · rw [if_neg (not_not.mpr hquorum), getBlockInfoAtSlot, if_pos hround]
      have hinfos := votedBlocks hvalid hindex hround
      have hrejects : ∀ info ∈ state.blockInfosAtSlot slot,
          ((votesOf context.committee (votingRoundInfo.blocks \ info.children)).reachedThreshold
            context.committee .quorum = true ↔
          U.roundDag.Backed (slot.round + 1) context.committee.quorumThreshold
            fun c => c ∈ state.recentBlocks ∧ info.block.reference ∉ U.ancestors c) := by
        intro info hinfo
        refine reachedThreshold_iff (votesOf_aggregates _ _) ?_ ?_
        · exact fun c hc => hview.subset ((hblocks c).mp (Finset.mem_sdiff.mp hc).1).1
        · intro c
          rw [Finset.mem_sdiff, hblocks c, (hinfos info hinfo).children c]
          tauto
      rw [directDecideBlocks_skip_iff (Nat.zero_add _).le]
      constructor
      · rintro ⟨-, hall⟩
        refine ⟨hreached.mp hquorum, fun b hb hslot => ?_⟩
        obtain ⟨info, hinfo⟩ := (Map.mem_iff _ b).mp hb
        obtain ⟨-, href⟩ := hvalid.block_mem hinfo
        subst href
        have hmem := (mem_blockInfosAtSlot hvalid).mpr ⟨hinfo, hslot⟩
        exact (hrejects info hmem).mp (hall info hmem).2
      · rintro ⟨-, hall⟩
        refine ⟨Nat.zero_add _, fun info hinfo => ?_⟩
        have hvoted := hinfos info hinfo
        have hreject := hall info.block.reference (Map.mem_of_get hvoted.cached) hvoted.slot_eq
        refine ⟨?_, (hrejects info hinfo).mpr hreject⟩
        by_contra hcommit
        rw [Bool.not_eq_false] at hcommit
        have hvoting : VotingRound U state votingRoundInfo (slot.round + 1) :=
          ⟨hblocks, fun c hc => hview.subset hc⟩
        obtain ⟨c, -, -, hvote, -, hnot⟩ :=
          (hvoted.committed hvoting hcommit).meet hreject U.quorums_meet
        exact hnot hvote

/-- **The direct rule is sound.**  It never aborts above the gc round; it commits a
    block only with a quorum of votes in the universe, and skips a slot only if each
    block of it that exists anywhere has a quorum against it. -/
theorem tryDirectDecide_spec (leaders : Nat → List Nat) :
    ∃ status, tryDirectDecide context state slot = .ok status ∧
      ((∃ info, status = .commit info.block ∧ VotedBlock U state slot info ∧
          (U.rule leaders).directCommit slot.round slot.authority info.block.reference) ∨
        (status = .skip slot ∧ (U.rule leaders).directSkip slot.round slot.authority) ∨
        status = .undecided slot) := by
  have hskips := tryDirectDecide_skip_iff hvalid hindex hround
  unfold tryDirectDecide at hskips ⊢
  rcases hindex.getRoundInfo (slot.round + 1) (by omega) with
    ⟨hnone, -⟩ | ⟨votingRoundInfo, hsome, hblocks, -⟩
  · rw [hnone]
    exact ⟨_, rfl, .inr (.inr rfl)⟩
  · rw [hsome] at hskips ⊢
    have hview := hvalid.isView U.quorum_pos
    have hvoting : VotingRound U state votingRoundInfo (slot.round + 1) :=
      ⟨hblocks, fun c hc => hview.subset hc⟩
    simp only [bind, Except.bind] at hskips ⊢
    by_cases hquorum : votingRoundInfo.totalStake.reachedThreshold context.committee .quorum = true
    swap
    · rw [if_pos hquorum]
      exact ⟨_, rfl, .inr (.inr rfl)⟩
    · rw [if_neg (not_not.mpr hquorum), getBlockInfoAtSlot, if_pos hround] at hskips ⊢
      have hinfos := votedBlocks hvalid hindex hround
      obtain ⟨status, hstatus, hcases⟩ := directDecideBlocks_spec hvoting hinfos
      refine ⟨status, hstatus, ?_⟩
      rcases hcases with ⟨info, hinfo, hcommit, hvotes⟩ | rfl | hundecided
      · have hvoted := hinfos info hinfo
        exact .inl ⟨info, hcommit, hvoted, hvoted.inSlot, hvotes⟩
      · exact .inr (.inl ⟨rfl, (hskips.mp hstatus).directSkip hvalid hround leaders⟩)
      · exact .inr (.inr hundecided)

end

end Direct

section Indirect

variable {context : Context} {U : V3Universe context} {state : DagState} {served : List BlockRef}
  {anchorBlock : VerifiedBlock}

/-- The ancestors that the search adds when it serves a block. -/
def unvisited (decisionRound : Nat) (visited : Finset BlockRef) (ancestors : List BlockRef) :
    List BlockRef :=
  ancestors.filter fun a => decisionRound < a.round ∧ a ∉ visited

structure Visits (context : Context) (state : DagState) (decisionRound : Nat)
    (decisionBlocks : List BlockRef) (block : VerifiedBlock) (ancestors : List BlockRef)
    (search search' : VoteSearch) : Prop where
  queue : ∃ new, search'.toVisit = search.toVisit ++ new ∧ (∀ b ∈ new, Cached state b) ∧
    new.map VerifiedBlock.reference = unvisited decisionRound search.visited ancestors
  visited : ∀ x, x ∈ search'.visited ↔
    x ∈ search.visited ∨ x ∈ unvisited decisionRound search.visited ancestors
  votes : ∀ B, search'.votes.getD B {} =
    if B ∈ ancestors ∧ B ∈ decisionBlocks ∧ block.round = decisionRound + 1 then
      ((search.votes.getD B {}).addUnique block.author context.committee).1
    else search.votes.getD B {}
  keys : ∀ B, B ∈ search'.votes → B ∈ search.votes ∨ B ∈ decisionBlocks

variable {decisionRound : Nat} {decisionBlocks : List BlockRef} {block : VerifiedBlock}

theorem visitAncestor_spec (hvalid : Valid U.toBlockUniverse state) {a : BlockRef}
    (hcached : decisionRound < a.round → a ∈ state.recentBlocks) (search : VoteSearch) :
    ∃ search', visitAncestor context state decisionRound decisionBlocks block search a =
        .ok search' ∧
      Visits context state decisionRound decisionBlocks block [a] search search' := by
  obtain ⟨queued, hqueued, hvotes, hqueue⟩ : ∃ queued,
      enqueueAncestor context state decisionRound search a = .ok queued ∧
      queued.votes = search.votes ∧
      (∃ new, queued.toVisit = search.toVisit ++ new ∧ (∀ b ∈ new, Cached state b) ∧
        new.map reference = unvisited decisionRound search.visited [a]) ∧
      (∀ x, x ∈ queued.visited ↔
        x ∈ search.visited ∨ x ∈ unvisited decisionRound search.visited [a]) := by
    unfold enqueueAncestor
    by_cases hnew : a.round > decisionRound ∧ a ∉ search.visited
    · obtain ⟨ancestorBlock, hget, hblock, href⟩ := getBlock_of_mem hvalid (hcached hnew.1)
      have hunvisited : unvisited decisionRound search.visited [a] = [a] := by
        simp [unvisited, hnew.1, hnew.2]
      rw [if_pos hnew, hget, hunvisited]
      refine ⟨_, rfl, rfl, ⟨[ancestorBlock], rfl, ?_, ?_⟩, ?_⟩
      · simpa using hblock
      · simp [href]
      · intro x
        simp only [Finset.mem_insert, mem_singleton]
        exact or_comm
    · have hunvisited : unvisited decisionRound search.visited [a] = [] := by
        simp only [unvisited, filter_eq_nil_iff, mem_singleton, forall_eq, decide_eq_true_eq]
        exact hnew
      rw [if_neg hnew, hunvisited]
      exact ⟨_, rfl, rfl, ⟨[], by simp, by simp, rfl⟩, by simp⟩
  refine ⟨countVote context decisionRound decisionBlocks block queued a, ?_, ?_⟩
  · rw [visitAncestor, hqueued]
    rfl
  · obtain ⟨hnew, hvisited⟩ := hqueue
    unfold countVote
    split_ifs with hcount
    · refine ⟨hnew, hvisited, fun B => ?_, fun B hB => ?_⟩
      · rw [Map.getD_insert, hvotes]
        by_cases hB : a = B
        · subst hB
          rw [if_pos rfl, if_pos ⟨mem_singleton_self a, hcount⟩]
        · rw [if_neg hB, if_neg]
          rintro ⟨hmem, -⟩
          exact hB (mem_singleton.mp hmem).symm
      · rw [mem_insert, compare_eq_iff_eq, hvotes] at hB
        rcases hB with rfl | hB
        · exact .inr hcount.1
        · exact .inl hB
    · refine ⟨hnew, hvisited, fun B => ?_, fun B hB => ?_⟩
      · rw [hvotes, if_neg]
        rintro ⟨hmem, hB⟩
        rw [mem_singleton] at hmem
        subst hmem
        exact hcount hB
      · rw [hvotes] at hB
        exact .inl hB

theorem Visits.cons {a : BlockRef} {rest : List BlockRef} {search search₁ search' : VoteSearch}
    (hnot : a ∉ rest)
    (h : Visits context state decisionRound decisionBlocks block [a] search search₁)
    (h' : Visits context state decisionRound decisionBlocks block rest search₁ search') :
    Visits context state decisionRound decisionBlocks block (a :: rest) search search' := by
  have hsplit : unvisited decisionRound search.visited (a :: rest) =
      unvisited decisionRound search.visited [a] ++
        unvisited decisionRound search₁.visited rest := by
    have hrest : unvisited decisionRound search₁.visited rest =
        unvisited decisionRound search.visited rest := by
      refine filter_congr fun x hx => ?_
      have hxa : x ∉ unvisited decisionRound search.visited [a] := by
        intro hmem
        have := mem_singleton.mp (mem_filter.mp hmem).1
        exact hnot (this ▸ hx)
      simp only [h.visited x, hxa, or_false]
    rw [hrest, unvisited, unvisited, unvisited, ← filter_append, singleton_append]
  refine ⟨?_, fun x => ?_, fun B => ?_, fun B hB => ?_⟩
  · obtain ⟨new, htodo, hcached, href⟩ := h.queue
    obtain ⟨new', htodo', hcached', href'⟩ := h'.queue
    refine ⟨new ++ new', by rw [htodo', htodo, append_assoc], ?_, ?_⟩
    · exact forall_mem_append.mpr ⟨hcached, hcached'⟩
    · rw [map_append, href, href', hsplit]
  · rw [h'.visited x, h.visited x, hsplit, mem_append, or_assoc]
  · rw [h'.votes B, h.votes B]
    by_cases hB : B = a
    · subst hB
      rw [if_neg (c := B ∈ rest ∧ _) fun hand => hnot hand.1]
      simp only [mem_cons, true_or, true_and]
    · simp only [mem_cons, not_mem_nil, hB, false_and, false_or, or_false, if_false]
  · rcases h'.keys B hB with hB | hB
    · exact h.keys B hB
    · exact .inr hB

/-- Serving the ancestors of one block, with all of them above the decision round in
    the cache. -/
theorem visitAncestors_spec (decisionBlocks : List BlockRef) (block : VerifiedBlock)
    (hvalid : Valid U.toBlockUniverse state) {ancestors : List BlockRef} (hnodup : ancestors.Nodup)
    (hcached : ∀ a ∈ ancestors, decisionRound < a.round → a ∈ state.recentBlocks) :
    ∀ search : VoteSearch, ∃ search', ancestors.foldlM
        (visitAncestor context state decisionRound decisionBlocks block) search = .ok search' ∧
      Visits context state decisionRound decisionBlocks block ancestors search search' := by
  induction ancestors with
  | nil =>
    intro search
    refine ⟨search, rfl, ⟨[], by simp, by simp, rfl⟩, ?_, ?_, fun B hB => .inl hB⟩
    · simp [unvisited]
    · simp
  | cons a rest ih =>
    intro search
    obtain ⟨hnot, hnodup⟩ := nodup_cons.mp hnodup
    obtain ⟨search₁, hstep, heffect⟩ := visitAncestor_spec hvalid (hcached a (.head _)) search
    obtain ⟨search', hrest, heffect'⟩ := ih hnodup (fun x hx => hcached x (.tail a hx)) search₁
    exact ⟨search', foldlM_cons_eq_ok.mpr ⟨search₁, hstep, hrest⟩, heffect.cons hnot heffect'⟩

open Classical in
/-- The blocks of the voting round among `served` that vote for `B`. -/
noncomputable def voters (U : V3Universe context) (decisionRound : Nat) (served : List BlockRef)
    (B : BlockRef) : Finset BlockRef :=
  served.toFinset.filter fun c => c.round = decisionRound + 1 ∧ B ∈ U.ancestors c

theorem mem_voters {B c : BlockRef} :
    c ∈ voters U decisionRound served B ↔
      c ∈ served ∧ c.round = decisionRound + 1 ∧ B ∈ U.ancestors c := by
  simp [voters]

theorem voters_append (hblock : block ∈ U.blocks) {B : BlockRef} :
    voters U decisionRound (served ++ [block.reference]) B =
      if B ∈ block.ancestors ∧ block.round = decisionRound + 1 then
        insert block.reference (voters U decisionRound served B)
      else voters U decisionRound served B := by
  ext c
  have hvote := U.mem_ancestors hblock (a := B)
  split_ifs with hcount
  · simp only [mem_voters, mem_append, mem_singleton, Finset.mem_insert]
    constructor
    · rintro ⟨hc | rfl, hrest⟩
      · exact .inr ⟨hc, hrest⟩
      · exact .inl rfl
    · rintro (rfl | ⟨hc, hrest⟩)
      · exact ⟨.inr rfl, hcount.2, hvote.mpr hcount.1⟩
      · exact ⟨.inl hc, hrest⟩
  · simp only [mem_voters, mem_append, mem_singleton]
    constructor
    · rintro ⟨hc | rfl, hround, hanc⟩
      · exact ⟨hc, hround, hanc⟩
      · exact absurd ⟨hvote.mp hanc, hround⟩ hcount
    · rintro ⟨hc, hrest⟩
      exact ⟨.inl hc, hrest⟩

/-- The invariant of the breadth-first search, with the blocks served so far. -/
structure SearchInv (U : V3Universe context) (state : DagState) (decisionRound : Nat)
    (decisionBlocks : List BlockRef) (anchor : BlockRef) (served : List BlockRef)
    (search : VoteSearch) : Prop where
  exploring : Search (fun b a => a ∈ U.ancestors b ∧ decisionRound < a.round) {anchor} served
    (search.toVisit.map VerifiedBlock.reference)
  visited : ∀ x, x ∈ search.visited ↔ x ∈ served ++ search.toVisit.map VerifiedBlock.reference
  cached : ∀ b ∈ search.toVisit, Cached state b
  servedCached : ∀ x ∈ served, x ∈ state.recentBlocks
  votes : ∀ B ∈ decisionBlocks, Aggregates context.committee (search.votes.getD B {})
    (voters U decisionRound served B)
  keys : ∀ B, B ∈ search.votes → B ∈ decisionBlocks

theorem SearchInv.length_le {anchor : BlockRef} {search : VoteSearch}
    (h : SearchInv U state decisionRound decisionBlocks anchor served search) :
    served.length + search.toVisit.length ≤ state.recentBlocks.size := by
  have hnodes : ∀ x ∈ served ++ search.toVisit.map reference,
      x ∈ state.recentBlocks.keys.toFinset := by
    simp only [mem_toFinset, Std.ExtTreeMap.mem_keys]
    exact forall_mem_append.mpr
      ⟨h.servedCached, forall_mem_map.mpr fun b hb => (h.cached b hb).mem⟩
  have hle := h.exploring.length_le hnodes
  have hcard := toFinset_card_le state.recentBlocks.keys
  rw [Std.ExtTreeMap.length_keys] at hcard
  rw [length_map] at hle
  exact le_trans hle hcard

section

variable (hvalid : Valid U.toBlockUniverse state)
include hvalid

theorem SearchInv.serve (hgc : state.gcRound context ≤ decisionRound) {anchor : BlockRef}
    {search : VoteSearch} {rest : List VerifiedBlock} (htodo : search.toVisit = block :: rest)
    (h : SearchInv U state decisionRound decisionBlocks anchor served search) :
    ∃ search', block.ancestors.foldlM
        (visitAncestor context state decisionRound decisionBlocks block)
        { search with toVisit := rest } = .ok search' ∧
      SearchInv U state decisionRound decisionBlocks anchor (served ++ [block.reference])
        search' := by
  have hblockCached : Cached state block := h.cached block (by rw [htodo]; exact .head _)
  have hblock : block ∈ U.blocks := hblockCached.mem_blocks hvalid
  have hcached : ∀ a ∈ block.ancestors, decisionRound < a.round → a ∈ state.recentBlocks := by
    intro a ha hround
    obtain ⟨info, hinfo, rfl⟩ := hblockCached
    exact hvalid.closed hinfo a ha (lt_of_le_of_lt hgc hround)
  have hnodup : block.ancestors.Nodup :=
    List.Nodup.of_map BlockRef.author (U.wellFormed hblock).ancestor_authors
  obtain ⟨search', hfold, heffect⟩ := visitAncestors_spec decisionBlocks block hvalid
    hnodup hcached { search with toVisit := rest }
  refine ⟨search', hfold, ?_⟩
  obtain ⟨new, htodo', hnewCached, hnewRefs⟩ := heffect.queue
  have hsearch := h.exploring
  rw [htodo, map_cons] at hsearch
  have hvisited : ∀ x, x ∈ search.visited ↔
      x ∈ served ++ block.reference :: rest.map reference := by
    intro x
    rw [h.visited x, htodo, map_cons]
  have hperm : (search'.toVisit.map reference) =
      rest.map reference ++ unvisited decisionRound search.visited block.ancestors := by
    rw [htodo', map_append, hnewRefs]
  have hserved : Search (fun b a => a ∈ U.ancestors b ∧ decisionRound < a.round) {anchor}
      (served ++ [block.reference]) (search'.toVisit.map reference) := by
    refine hsearch.serve (unvisited decisionRound search.visited block.ancestors)
      (hnodup.filter _) ?_ ?_ (by rw [hperm])
    · intro y hy
      simp only [unvisited, mem_filter, decide_eq_true_eq] at hy
      exact ⟨⟨(U.mem_ancestors hblock).mpr hy.1, hy.2.1⟩, fun hmem => hy.2.2 ((hvisited y).mpr hmem)⟩
    · rintro y ⟨hy, hround⟩
      rw [U.mem_ancestors hblock] at hy
      by_cases hseen : y ∈ search.visited
      · exact .inl ((hvisited y).mp hseen)
      · refine .inr ?_
        simp only [unvisited, mem_filter, decide_eq_true_eq]
        exact ⟨hy, hround, hseen⟩
  refine ⟨hserved, fun x => ?_, ?_, ?_, ?_, ?_⟩
  · rw [heffect.visited x, hperm]
    simp only [hvisited x, mem_append, mem_cons, not_mem_nil, or_false]
    tauto
  · rw [htodo']
    exact forall_mem_append.mpr
      ⟨fun b hb => h.cached b (by rw [htodo]; exact mem_cons_of_mem block hb), hnewCached⟩
  · exact forall_mem_append.mpr ⟨h.servedCached, forall_mem_singleton.mpr hblockCached.mem⟩
  · intro B hB
    rw [heffect.votes B, voters_append hblock]
    by_cases hcount : B ∈ block.ancestors ∧ block.round = decisionRound + 1
    · rw [if_pos ⟨hcount.1, hB, hcount.2⟩, if_pos hcount]
      exact (h.votes B hB).insert block.reference
    · rw [if_neg fun hand => hcount ⟨hand.1, hand.2.2⟩, if_neg hcount]
      exact h.votes B hB
  · intro B hB
    rcases heffect.keys B hB with hB | hB
    · exact h.keys B hB
    · exact hB

/-- **The search is exact.**  It ends, having served the blocks that the anchor
    reaches above the decision round, with their votes. -/
theorem collectVotes_spec (hgc : state.gcRound context ≤ decisionRound)
    (hanchor : Cached state anchorBlock) (decisionBlocks : List BlockRef) :
    ∃ votes, collectVotes context state anchorBlock decisionRound decisionBlocks = .ok votes ∧
      ∃ served : List BlockRef,
        (∀ x, x ∈ served ↔ U.roundDag.Reaches decisionRound anchorBlock.reference x) ∧
        (∀ x ∈ served, x ∈ state.recentBlocks) ∧
        (∀ B ∈ decisionBlocks, Aggregates context.committee (votes.getD B {})
          (voters U decisionRound served B)) ∧
        (∀ B, B ∈ votes → B ∈ decisionBlocks) := by
  refine loop_total (fun n search => ∃ served,
    SearchInv U state decisionRound decisionBlocks anchorBlock.reference served search ∧
      state.recentBlocks.size ≤ n + served.length) ?_ (n := state.recentBlocks.size)
    ⟨[], ?_, by simp⟩ (by omega)
  · rintro n search ⟨served, hinv, hn⟩
    rcases htodo : search.toVisit with _ | ⟨block, rest⟩
    · refine .inl ⟨search.votes, by rw [searchTurn, htodo], served, fun x => ?_,
        hinv.servedCached, hinv.votes, hinv.keys⟩
      have hexact := hinv.exploring
      rw [htodo, map_nil] at hexact
      rw [hexact.exact x]
      simp only [Set.mem_singleton_iff, exists_eq_left]
      exact Iff.rfl
    · obtain ⟨search', hfold, hinv'⟩ := hinv.serve hvalid hgc htodo
      have hlength := hinv.length_le
      rw [htodo, length_cons] at hlength
      refine .inr ⟨n - 1, search', ?_, by omega, _, hinv', ?_⟩
      · rw [searchTurn, htodo]
        simp only [hfold, bind, Except.bind]
        rfl
      · rw [length_append, length_singleton]
        omega
  · refine ⟨Search.start (by simp) (by simp), by simp, ?_, by simp, ?_, by simp⟩
    · simpa using hanchor
    · intro B _
      have hnone : voters U decisionRound [] B = ∅ := by
        ext c
        simp [mem_voters]
      rw [hnone]
      simpa using aggregates_empty context.committee

theorem loadBlocks_spec {refs : List BlockRef} (hrefs : ∀ r ∈ refs, r ∈ state.recentBlocks) :
    ∃ loaded, refs.mapM (loadBlock context state) = .ok loaded ∧ loaded.map Prod.fst = refs ∧
      ∀ entry ∈ loaded, Cached state entry.2 ∧ entry.2.reference = entry.1 := by
  induction refs with
  | nil => exact ⟨[], rfl, rfl, by simp⟩
  | cons r refs ih =>
    obtain ⟨loaded, hmap, hfst, hloaded⟩ := ih fun x hx => hrefs x (.tail r hx)
    obtain ⟨block, hblock, hcached, href⟩ := getBlock_of_mem hvalid (hrefs r (.head _))
    refine ⟨(r, block) :: loaded, ?_, by rw [map_cons, hfst], fun entry hentry => ?_⟩
    · rw [mapM_cons, hmap, loadBlock, hblock]
      rfl
    · rcases mem_cons.mp hentry with rfl | hentry
      · exact ⟨hcached, href⟩
      · exact hloaded entry hentry

variable {votes : Std.ExtTreeMap BlockRef StakeAggregator compare}

theorem certifiedBlocks_spec (hkeys : ∀ B, B ∈ votes → B ∈ state.recentBlocks) :
    ∃ certified, certifiedBlocks context state votes = .ok certified ∧
      (certified.map Prod.fst).Nodup ∧
      (∀ entry ∈ certified, Cached state entry.2 ∧ entry.2.reference = entry.1) ∧
      ∀ B, B ∈ certified.map Prod.fst ↔ ∃ aggregator, votes[B]? = some aggregator ∧
        aggregator.reachedThreshold context.committee .certification = true := by
  have hmem : ∀ B, B ∈ (votes.toList.filter fun entry =>
      entry.2.reachedThreshold context.committee .certification).map Prod.fst ↔
      ∃ aggregator, votes[B]? = some aggregator ∧
        aggregator.reachedThreshold context.committee .certification = true := by
    intro B
    simp only [mem_map, mem_filter, Prod.exists, exists_and_right, exists_eq_right,
      mem_toList_iff_getElem?_eq_some]
  obtain ⟨certified, hload, hrefs, hcached⟩ := loadBlocks_spec hvalid fun B hB => by
    obtain ⟨aggregator, hget, -⟩ := (hmem B).mp hB
    exact hkeys B (Map.mem_of_get hget)
  refine ⟨certified, hload, ?_, hcached, fun B => by rw [hrefs, hmem B]⟩
  rw [hrefs]
  refine List.Nodup.sublist (filter_sublist.map Prod.fst) ?_
  rw [map_fst_toList_eq_keys]
  exact nodup_keys

theorem certified_iff (leaders : Nat → List Nat) {slot : Slot} (hround : slot.round = decisionRound)
    (hgc : state.gcRound context < decisionRound) {anchor : BlockRef}
    (hserved : ∀ x, x ∈ served ↔ U.roundDag.Reaches decisionRound anchor x)
    (hservedCached : ∀ x ∈ served, x ∈ state.recentBlocks)
    (hdecision : ∀ B ∈ state.recentBlocks, B.slot = slot → B ∈ decisionBlocks)
    (hvotes : ∀ B ∈ decisionBlocks, Aggregates context.committee (votes.getD B {})
      (voters U decisionRound served B))
    (hkeys : ∀ B, B ∈ votes → B ∈ decisionBlocks ∧ B ∈ state.recentBlocks) (B : BlockRef) :
    (∃ aggregator, votes[B]? = some aggregator ∧
      aggregator.reachedThreshold context.committee .certification = true) ∧ B.slot = slot ↔
    B ∈ (U.rule leaders).certified anchor slot.round slot.authority := by
  have hview := hvalid.isView U.quorum_pos
  have hcounted : ∀ B ∈ decisionBlocks,
      ((votes.getD B {}).reachedThreshold context.committee .certification = true ↔
        U.roundDag.Backed (decisionRound + 1) context.committee.certificationThreshold
          fun c => U.roundDag.Reaches decisionRound anchor c ∧ B ∈ U.ancestors c) := by
    intro B hB
    refine reachedThreshold_iff (hvotes B hB) ?_ fun c => ?_
    · exact fun c hc => hview.subset (hservedCached c (mem_voters.mp hc).1)
    · rw [mem_voters, hserved c, and_left_comm]
  have hentry : (∃ aggregator, votes[B]? = some aggregator ∧
      aggregator.reachedThreshold context.committee .certification = true) ↔
      (votes.getD B {}).reachedThreshold context.committee .certification = true := by
    rw [getD_eq_getD_getElem?]
    cases votes[B]? with
    | none =>
      simpa [StakeAggregator.reachedThreshold, CommitteeThreshold.isThreshold,
        CommitteeThreshold.threshold] using U.certification_pos.ne'
    | some aggregator => simp
  constructor
  · rintro ⟨hfound, hslot⟩
    have ⟨aggregator, hget, _⟩ := hfound
    obtain ⟨hB, hBcached⟩ := hkeys B (Map.mem_of_get hget)
    refine ⟨U.inSlot_iff.mpr ⟨hview.subset hBcached, hslot⟩, ?_⟩
    rw [hround]
    exact (hcounted B hB).mp (hentry.mp hfound)
  · rintro ⟨hinSlot, hbacked⟩
    obtain ⟨-, hslot⟩ := U.inSlot_iff.mp hinSlot
    rw [hround] at hbacked
    have hBround : B.round = decisionRound := by rw [← hround, ← hslot]; rfl
    -- some reached block votes for `B`, so `B` is cached
    obtain ⟨c, -, -, hreach, hvote⟩ := hbacked.exists_node U.certification_pos
    have hBcached : B ∈ state.recentBlocks :=
      hview.closed (hservedCached c ((hserved c).mpr hreach)) hvote
        (lt_of_lt_of_eq hgc hBround.symm)
    have hB := hdecision B hBcached hslot
    exact ⟨hentry.mpr ((hcounted B hB).mpr hbacked), hslot⟩

end

theorem decideCertified_spec {certified : List (BlockRef × VerifiedBlock)} {slot : Slot}
    {blocks : Set BlockRef} (hnodup : (certified.map Prod.fst).Nodup)
    (hcached : ∀ entry ∈ certified, Cached state entry.2 ∧ entry.2.reference = entry.1)
    (hmem : ∀ B, B ∈ certified.map Prod.fst ∧ B.slot = slot ↔ B ∈ blocks) :
    (∃ block, decideCertified certified slot = .commit block ∧ Cached state block ∧
      block.slot = slot ∧ AnchoredRule.Outcome blocks (some block.reference)) ∨
    (decideCertified certified slot = .skip slot ∧ AnchoredRule.Outcome blocks none) := by
  have hfilter : ((certified.filter fun entry => entry.1.slot = slot).map Prod.fst).Nodup :=
    hnodup.sublist (filter_sublist.map Prod.fst)
  have hblocks : ∀ B, B ∈ (certified.filter fun entry => entry.1.slot = slot).map Prod.fst ↔
      B ∈ blocks := by
    intro B
    rw [← hmem B]
    simp only [mem_map, mem_filter, decide_eq_true_eq, Prod.exists, exists_and_right,
      exists_eq_right]
  unfold decideCertified
  rcases AnchoredRule.outcome_of_list hfilter hblocks with ⟨B, hsingle, houtcome⟩ | ⟨hnot, houtcome⟩
  · obtain ⟨⟨r, block⟩, hentry, rfl⟩ := map_eq_singleton_iff.mp hsingle
    have hin : (r, block) ∈ certified.filter fun entry => entry.1.slot = slot := by
      rw [hentry]; exact mem_singleton_self _
    obtain ⟨hin, hslot⟩ := mem_filter.mp hin
    obtain ⟨hblock, href⟩ := hcached _ hin
    rw [hentry]
    refine .inl ⟨block, rfl, hblock, ?_, by rw [href]; exact houtcome⟩
    rw [← reference_slot, href]
    exact of_decide_eq_true hslot
  · refine .inr ⟨?_, houtcome⟩
    split
    · rename_i r block hentry
      rw [hentry] at hnot
      exact absurd rfl (hnot r)
    · rfl

/-- **The indirect rule is exact.**  With a cached anchor it never aborts, and each slot
    gets the outcome of the blocks that the anchor certifies. -/
theorem tryIndirectDecide_spec (hvalid : Valid U.toBlockUniverse state) (leaders : Nat → List Nat)
    (hanchor : Cached state anchorBlock) {decisionSlots : List Slot} (hslots : decisionSlots ≠ [])
    (hround : ∀ slot ∈ decisionSlots, slot.round = decisionRound)
    (hgc : state.gcRound context < decisionRound)
    (hdepth : decisionRound + INDIRECT_COMMIT_DEPTH ≤ anchorBlock.round) :
    ∃ decide : Slot → LeaderStatus,
      tryIndirectDecide context state anchorBlock decisionSlots = .ok (decisionSlots.map decide) ∧
      ∀ slot ∈ decisionSlots,
        (∃ block, decide slot = .commit block ∧ Cached state block ∧ block.slot = slot ∧
          AnchoredRule.Outcome ((U.rule leaders).certified anchorBlock.reference slot.round
            slot.authority) (some block.reference)) ∨
        (decide slot = .skip slot ∧
          AnchoredRule.Outcome ((U.rule leaders).certified anchorBlock.reference slot.round
            slot.authority) none) := by
  obtain ⟨first, rest, rfl⟩ := exists_cons_of_ne_nil hslots
  have hfirst : first.round = decisionRound := hround first (.head _)
  have hall : (first :: rest).all (fun slot => slot.round = decisionRound) = true := by
    rw [all_eq_true]
    exact fun slot hslot => decide_eq_true (hround slot hslot)
  -- the decision blocks are the cached blocks of the slots
  have hdecision : ∀ B, B ∈ ((first :: rest).flatMap fun slot =>
      (state.getUncommittedBlocksAtSlot slot).map reference) ↔
      B ∈ state.recentBlocks ∧ B.slot ∈ first :: rest := by
    intro B
    simp only [mem_flatMap, mem_map, getUncommittedBlocksAtSlot]
    constructor
    · rintro ⟨slot, hslot, block, ⟨info, hinfo, rfl⟩, rfl⟩
      obtain ⟨hcached, hslotEq⟩ := (mem_blockInfosAtSlot hvalid).mp hinfo
      exact ⟨Map.mem_of_get hcached, by rw [reference_slot, hslotEq]; exact hslot⟩
    · rintro ⟨hB, hslot⟩
      obtain ⟨info, hinfo⟩ := (Map.mem_iff _ B).mp hB
      obtain ⟨-, href⟩ := hvalid.block_mem hinfo
      subst href
      exact ⟨_, hslot, info.block, ⟨info, (mem_blockInfosAtSlot hvalid).mpr ⟨hinfo, rfl⟩, rfl⟩, rfl⟩
  obtain ⟨votes, hcollect, served, hserved, hservedCached, hvotes, hkeys⟩ :=
    collectVotes_spec hvalid (le_of_lt hgc) hanchor ((first :: rest).flatMap fun slot =>
      (state.getUncommittedBlocksAtSlot slot).map reference)
  obtain ⟨certified, hcertified, hnodup, hcached, hmem⟩ :=
    certifiedBlocks_spec hvalid fun B hB => ((hdecision B).mp (hkeys B hB)).1
  refine ⟨decideCertified certified, ?_, fun slot hslot => ?_⟩
  · simp only [tryIndirectDecide, hfirst]
    rw [if_neg (not_not.mpr hall), if_neg (not_not.mpr hdepth), hcollect]
    simp only [bind, Except.bind, hcertified]
    rfl
  · refine decideCertified_spec hnodup hcached fun B => ?_
    rw [hmem B]
    refine certified_iff hvalid leaders (hround slot hslot) hgc hserved hservedCached
      (fun B hB hBslot => (hdecision B).mpr ⟨hB, by rw [hBslot]; exact hslot⟩) hvotes
      (fun B hB => ⟨hkeys B hB, ((hdecision B).mp (hkeys B hB)).1⟩) B

theorem anchors_of_cached (hvalid : Valid U.toBlockUniverse state) (leaders : Nat → List Nat)
    (hanchor : Cached state anchorBlock) {round : Nat} (hgc : state.gcRound context < round)
    (hdepth : round + INDIRECT_COMMIT_DEPTH ≤ anchorBlock.round) :
    (U.rule leaders).anchors anchorBlock.reference round := by
  have hreaches := (hvalid.isView U.quorum_pos).backed_reaches hanchor.mem
    (ρ := round + 1) (by omega) hdepth
  exact hreaches.mono le_rfl fun c _ _ h => h.2

/-- **The indirect rule confirms a direct decision**, made in any view, with any
    anchor two rounds above the slot. -/
theorem tryIndirectDecide_confirms {state' : DagState} {slot : Slot} {status : LeaderStatus}
    (hvalid : Valid U.toBlockUniverse state) (hindex : VoteIndex U.toBlockUniverse state)
    (hround : state.gcRound context < slot.round)
    (hdirect : tryDirectDecide context state slot = .ok status) (hdecided : status.isDecided = true)
    (hvalid' : Valid U.toBlockUniverse state') (hround' : state'.gcRound context < slot.round)
    (hanchor : Cached state' anchorBlock)
    (hdepth : slot.round + INDIRECT_COMMIT_DEPTH ≤ anchorBlock.round) {slots : List Slot}
    (hslot : slot ∈ slots) (hslots : ∀ other ∈ slots, other.round = slot.round) :
    ∃ decide : Slot → LeaderStatus,
      tryIndirectDecide context state' anchorBlock slots = .ok (slots.map decide) ∧
        decide slot = status := by
  -- the decision does not depend on the leaders of the other rounds
  let leaders : Nat → List Nat := fun _ => []
  obtain ⟨decide, hdecide, houtcomes⟩ := tryIndirectDecide_spec hvalid' leaders hanchor
    (ne_nil_of_mem hslot) hslots hround' hdepth
  refine ⟨decide, hdecide, ?_⟩
  have hanchors := anchors_of_cached hvalid' leaders hanchor hround' hdepth
  obtain ⟨status', hstatus', hcases⟩ := tryDirectDecide_spec hvalid hindex hround leaders
  rw [hdirect] at hstatus'
  cases hstatus'
  rcases hcases with ⟨info, rfl, hvoted, hcommit⟩ | ⟨rfl, hskip⟩ | rfl
  · have hcertified := (U.rule leaders).commit_certified hcommit hanchors
    rcases houtcomes slot hslot with ⟨block, hblock, hcached, -, houtcome⟩ | ⟨-, houtcome⟩
    · have href : info.block.reference = block.reference := by
        have hboth := hcertified.symm.trans ((houtcome block.reference).mp rfl)
        exact Set.singleton_injective hboth
      rw [hblock, U.reference_inj hvoted.mem (hcached.mem_blocks hvalid') href]
    · exact absurd ((houtcome info.block.reference).mpr hcertified) (by simp)
  · rcases houtcomes slot hslot with ⟨block, -, -, -, houtcome⟩ | ⟨hskipped, -⟩
    · exact absurd ((houtcome block.reference).mp rfl)
        ((U.rule leaders).skip_certified hskip hanchors)
    · exact hskipped
  · simp [LeaderStatus.isDecided] at hdecided

end Indirect

end LeaderSlotDecider

end Haneul.Consensus
