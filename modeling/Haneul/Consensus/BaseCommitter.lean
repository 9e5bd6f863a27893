import Haneul.Lib.CertificateRule
import Haneul.Consensus.SlotDecision

/-!
# The v2 decision rules for one leader slot

Mirror of `consensus/core/src/base_committer.rs`.  A leader is decided in a wave of
three rounds: a block of the round after the leader votes for the leader block it
names, a block of the decision round is a certificate if it names a quorum of votes.

The vote of a block is found by a depth-first search with first-match semantics, and
votes are cached for each leader block.  Both are part of the model; the theorems
at the end say that neither is visible in the decisions, which are those of the
certificate rule over the universe of all blocks.
-/

namespace Haneul.Consensus

open Quorum List

structure BaseCommitterOptions where
  waveLength : Nat
  leaderOffset : Nat
  roundOffset : Nat
deriving DecidableEq, Repr

namespace LeaderStatus

def round : LeaderStatus → Nat
  | commit block => block.round
  | skip slot => slot.round
  | undecided slot => slot.round

end LeaderStatus

namespace BaseCommitter

variable (context : Context) (options : BaseCommitterOptions)

/-! ### Waves -/

def leaderRound (wave : Nat) : Nat := wave * options.waveLength + options.roundOffset

def decisionRound (wave : Nat) : Nat :=
  wave * options.waveLength + options.waveLength - 1 + options.roundOffset

def waveNumber (round : Nat) : Nat := (round - options.roundOffset) / options.waveLength

/-- The leader of a round, if the round is the leader round of its wave.  The schedule
    gives the authority for a round and a leader offset. -/
def electLeader (schedule : Nat → Nat → Nat) (round : Nat) : Option Slot :=
  if leaderRound options (waveNumber options round) ≠ round then none
  else some ⟨round, schedule round options.leaderOffset⟩

/-! ### Votes -/

/-- The first support among the ancestors of a block; `recurse` searches the block of
    an ancestor above the leader round. -/
def supportAmong (state : DagState) (leaderSlot : Slot)
    (recurse : VerifiedBlock → Except Panic (Option BlockRef)) :
    List BlockRef → Except Panic (Option BlockRef)
  | [] => .ok none
  | ancestor :: rest =>
    if ancestor.slot = leaderSlot then .ok (some ancestor)
    -- weak links may point below the leader round
    else if ancestor.round ≤ leaderSlot.round then supportAmong state leaderSlot recurse rest
    else
      match state.getBlock context ancestor with
      | none => .error (.blockMustExist ancestor)
      | some block => do
        match ← recurse block with
        | some support => return some support
        | none => supportAmong state leaderSlot recurse rest

def findSupportedBlock (state : DagState) (leaderSlot : Slot) :
    Nat → VerifiedBlock → Except Panic (Option BlockRef)
  | 0, _ => .error .outOfFuel
  | fuel + 1, block =>
    if block.round < leaderSlot.round then .ok none
    else supportAmong context state leaderSlot (findSupportedBlock state leaderSlot fuel)
      block.ancestors

variable (state : DagState)

def isVote (potentialVote leaderBlock : VerifiedBlock) :
    Except Panic Bool := do
  let support ← findSupportedBlock context state leaderBlock.slot (potentialVote.round + 1)
    potentialVote
  return support = some leaderBlock.reference

/-! ### Certificates -/

/-- Whether each reference is a vote for one leader block. -/
abbrev VoteCache := Std.ExtTreeMap BlockRef Bool compare

/-- Whether the block of a reference votes for the leader block; a block that was
    garbage collected does not. -/
def checkVote (leaderBlock : VerifiedBlock) (reference : BlockRef) :
    Except Panic Bool :=
  match state.getBlock context reference with
  | some potentialVote => isVote context state potentialVote leaderBlock
  | none =>
    if reference.round ≤ state.gcRound context then .ok false
    else .error (.blockMustExist reference)

def cachedVote (leaderBlock : VerifiedBlock) (allVotes : VoteCache)
    (reference : BlockRef) : Except Panic (Bool × VoteCache) :=
  match allVotes[reference]? with
  | some isVote => .ok (isVote, allVotes)
  | none => do
    let isVote ← checkVote context state leaderBlock reference
    return (isVote, allVotes.insert reference isVote)

/-- The loops that add the authors of what passes a check to a stake aggregator until
    it reaches the quorum. -/
def countUntilQuorum {α σ : Type} (committee : Committee) (author : α → Nat)
    (check : σ → α → Except Panic (Bool × σ)) :
    StakeAggregator → σ → List α → Except Panic (Bool × σ)
  | _, s, [] => .ok (false, s)
  | aggregator, s, a :: rest => do
    let (counts, s) ← check s a
    if counts then
      let (aggregator, reached) := aggregator.add (author a) committee .quorum
      if reached then return (true, s)
      else countUntilQuorum committee author check aggregator s rest
    else countUntilQuorum committee author check aggregator s rest

def isCertificate (leaderBlock : VerifiedBlock) (allVotes : VoteCache)
    (potentialCertificate : VerifiedBlock) : Except Panic (Bool × VoteCache) :=
  countUntilQuorum context.committee BlockRef.author (cachedVote context state leaderBlock) {}
    allVotes potentialCertificate.ancestors

def anyCertificate (state : DagState) (leaderBlock : VerifiedBlock) :
    VoteCache → List VerifiedBlock → Except Panic Bool
  | _, [] => .ok false
  | allVotes, potentialCertificate :: rest => do
    let (certified, allVotes) ← isCertificate context state leaderBlock allVotes
      potentialCertificate
    if certified then return true else anyCertificate state leaderBlock allVotes rest

/-! ### The direct rule -/

/-- A voting block without any ancestor of the leader blames it. -/
def checkBlame (leader : Nat) (_ : Unit) (votingBlock : VerifiedBlock) :
    Except Panic (Bool × Unit) :=
  .ok (votingBlock.ancestors.all fun ancestor => ancestor.author ≠ leader, ())

def enoughLeaderBlame (votingRound : Nat) (leader : Nat) :
    Except Panic Bool := do
  let votingBlocks ← state.getUncommittedBlocksAtRound votingRound
  let (reached, _) ← countUntilQuorum context.committee VerifiedBlock.author
    (checkBlame leader) {} () votingBlocks
  return reached

def enoughLeaderSupport (decisionRound : Nat) (leaderBlock : VerifiedBlock) :
    Except Panic Bool := do
  let decisionBlocks ← state.getUncommittedBlocksAtRound decisionRound
  let totalStake := (decisionBlocks.map fun block => context.committee.stake block.author).sum
  if ¬ context.committee.reachedQuorum totalStake then return false
  else
    let (reached, _) ← countUntilQuorum context.committee VerifiedBlock.author
      (isCertificate context state leaderBlock) {} ∅ decisionBlocks
    return reached

def tryDirectDecide (leader : Slot) : Except Panic LeaderStatus := do
  if ← enoughLeaderBlame context state (leader.round + 1) leader.authority then
    return .skip leader
  else
    let decisionRound := decisionRound options (waveNumber options leader.round)
    let leadersWithEnoughSupport ← (state.getUncommittedBlocksAtSlot leader).filterM
      (enoughLeaderSupport context state decisionRound)
    match leadersWithEnoughSupport with
    | [] => return .undecided leader
    | [block] => return .commit block
    | _ => .error (.moreThanOneCandidate leader)

/-! ### The indirect rule -/

/-- Commits the leader block with a certificate among the ancestors of the anchor. -/
def decideLeaderFromAnchor (anchor : VerifiedBlock) (leaderSlot : Slot) :
    Except Panic LeaderStatus := do
  let leaderBlocks := state.getUncommittedBlocksAtSlot leaderSlot
  let decisionRound := decisionRound options (waveNumber options leaderSlot.round)
  let potentialCertificates ← state.ancestorsAtRound context anchor decisionRound
  let certifiedLeaderBlocks ← leaderBlocks.filterM fun leaderBlock =>
    anyCertificate context state leaderBlock ∅ potentialCertificates
  match certifiedLeaderBlocks with
  | [] => return .skip leaderSlot
  | [block] => return .commit block
  | _ => .error (.moreThanOneCertifiedLeader leaderSlot)

def firstAnchor : List LeaderStatus → Option VerifiedBlock
  | [] => none
  | .commit anchor :: _ => some anchor
  | .skip _ :: rest => firstAnchor rest
  | .undecided _ :: _ => none

def tryIndirectDecide (leaderSlot : Slot) (leaders : List LeaderStatus) :
    Except Panic LeaderStatus :=
  let anchors := leaders.filter fun leader => leaderSlot.round + options.waveLength ≤ leader.round
  match firstAnchor anchors with
  | some anchor => decideLeaderFromAnchor context options state anchor leaderSlot
  | none => .ok (.undecided leaderSlot)

end BaseCommitter

namespace V2Universe

variable {context : Context} (U : V2Universe context)

def roundDag : RoundDag BlockRef Nat := U.toBlockUniverse.dag U.quorum_pos

/-- The commit rule that the committers implement, for the leaders of each round. -/
def rule (leaders : Nat → List Nat) : AnchoredRule Nat BlockRef :=
  U.roundDag.certificateRule leaders U.quorums_meet

theorem inSlot_iff {slot : Slot} {b : BlockRef} :
    U.roundDag.InSlot slot.round slot.authority b ↔ b ∈ U.refs ∧ b.slot = slot := by
  cases slot
  simp only [BlockRef.slot, Slot.mk.injEq]
  exact Iff.rfl

end V2Universe

namespace BaseCommitter

open DagState

/-! ### Counting until a quorum -/

section Counting

variable {α σ : Type} {check : σ → α → Except Panic (Bool × σ)}

/-- Authors with a quorum of stake, each of a vote or of an item that counts. -/
def CountedQuorum (committee : Committee) (author : α → Nat) (votes : Finset Nat) (items : List α)
    (P : α → Prop) : Prop :=
  ∃ A : Finset Nat, committee.quorumThreshold ≤ weight committee.stake A ∧
    ∀ i ∈ A, i ∈ votes ∨ ∃ a ∈ items, P a ∧ author a = i

/-- The loop stops early exactly when the items that count have a quorum. -/
theorem countUntilQuorum_spec (committee : Committee) (author : α → Nat) (Inv : σ → Prop)
    {P : α → Prop} {items : List α} (hcheck : ∀ a ∈ items, ∀ s, Inv s →
      ∃ counts s', check s a = .ok (counts, s') ∧ (counts = true ↔ P a) ∧ Inv s') :
    ∀ {aggregator : StakeAggregator} {s : σ}, aggregator.Consistent committee →
      aggregator.stake < committee.quorumThreshold → Inv s →
      ∃ reached s', countUntilQuorum committee author check aggregator s items =
          .ok (reached, s') ∧ Inv s' ∧
        (reached = true ↔ CountedQuorum committee author aggregator.votes items P) := by
  induction items with
  | nil =>
    intro aggregator s hconsistent hbelow hinv
    refine ⟨false, s, rfl, hinv, ?_⟩
    simp only [Bool.false_eq_true, false_iff]
    rintro ⟨A, hA, hall⟩
    have hle : weight committee.stake A ≤ weight committee.stake aggregator.votes := by
      apply weight_mono
      intro i hi
      simpa using hall i hi
    rw [StakeAggregator.Consistent] at hconsistent
    omega
  | cons a rest ih =>
    intro aggregator s hconsistent hbelow hinv
    obtain ⟨counts, s₁, hok, hcounts, hinv₁⟩ := hcheck a mem_cons_self s hinv
    have hrest := fun b hb => hcheck b (.tail a hb)
    rw [countUntilQuorum, hok]
    cases counts with
    | false =>
      obtain ⟨reached, s', hrun, hinv', hiff⟩ := ih hrest hconsistent hbelow hinv₁
      refine ⟨reached, s', hrun, hinv', hiff.trans ?_⟩
      have hnot : ¬ P a := fun h => absurd (hcounts.mpr h) (by simp)
      simp only [CountedQuorum, mem_cons, exists_eq_or_imp, hnot, false_and, false_or]
    | true =>
      have hP : P a := hcounts.mp rfl
      have hvotes : (aggregator.addUnique (author a) committee).1.votes =
          insert (author a) aggregator.votes := StakeAggregator.votes_addUnique _
      have hconsistent' := hconsistent.addUnique (author a)
      by_cases hreached : committee.quorumThreshold ≤
          (aggregator.addUnique (author a) committee).1.stake
      · refine ⟨true, s₁, ?_, hinv₁, ?_⟩
        · simp only [StakeAggregator.add, CommitteeThreshold.isThreshold,
            CommitteeThreshold.threshold, ge_iff_le, hreached]
          rfl
        · simp only [true_iff]
          rw [hconsistent', hvotes] at hreached
          refine ⟨_, hreached, fun i hi => ?_⟩
          rcases Finset.mem_insert.mp hi with rfl | hi
          · exact .inr ⟨a, .head _, hP, rfl⟩
          · exact .inl hi
      · obtain ⟨reached, s', hrun, hinv', hiff⟩ := ih hrest hconsistent' (not_le.mp hreached) hinv₁
        refine ⟨reached, s', ?_, hinv', hiff.trans ?_⟩
        · rw [← hrun]
          simp only [StakeAggregator.add, CommitteeThreshold.isThreshold,
            CommitteeThreshold.threshold, ge_iff_le, hreached]
          rfl
        · rw [hvotes]
          simp only [CountedQuorum, mem_cons, exists_eq_or_imp, hP, true_and,
            Finset.mem_insert, or_assoc, eq_comm (a := author a)]
          refine exists_congr fun A => and_congr_right fun _ => forall₂_congr fun i _ => ?_
          tauto

end Counting

/-! ### Votes and certificates -/

section Votes

variable {context : Context} {U : V2Universe context} {state : DagState}
  {leaderBlock : VerifiedBlock}

/-- `v` is in the round after `b` and names it. -/
def Votes (U : V2Universe context) (v b : BlockRef) : Prop :=
  v.round = b.round + 1 ∧ b ∈ U.ancestors v

/-- Next to the leader round the search does not recurse. -/
theorem supportAmong_eq_find {leaderSlot : Slot}
    {recurse : VerifiedBlock → Except Panic (Option BlockRef)} {ancestors : List BlockRef}
    (hround : ∀ a ∈ ancestors, a.round ≤ leaderSlot.round) :
    supportAmong context state leaderSlot recurse ancestors =
      .ok (ancestors.find? fun a => a.slot = leaderSlot) := by
  induction ancestors with
  | nil => rfl
  | cons a rest ih =>
    rw [supportAmong, List.find?_cons]
    by_cases hslot : a.slot = leaderSlot
    · rw [if_pos hslot, decide_eq_true hslot]
    · rw [if_neg hslot, if_pos (hround a (.head _)), decide_eq_false hslot]
      exact ih fun b hb => hround b (.tail a hb)

theorem isVote_spec {potentialVote : VerifiedBlock}
    (hlt : ∀ a ∈ potentialVote.ancestors, a.round < potentialVote.round)
    (hauthors : (potentialVote.ancestors.map BlockRef.author).Nodup)
    (hle : potentialVote.round ≤ leaderBlock.round + 1) :
    ∃ v, isVote context state potentialVote leaderBlock = .ok v ∧
      (v = true ↔ potentialVote.round = leaderBlock.round + 1 ∧
        leaderBlock.reference ∈ potentialVote.ancestors) := by
  unfold isVote findSupportedBlock
  by_cases hbelow : potentialVote.round < leaderBlock.slot.round
  · rw [if_pos hbelow]
    have hbelow : potentialVote.round < leaderBlock.round := hbelow
    refine ⟨_, rfl, ?_⟩
    simp only [reduceCtorEq, decide_false, Bool.false_eq_true, false_iff, not_and]
    omega
  · rw [if_neg hbelow, supportAmong_eq_find]
    · refine ⟨_, rfl, ?_⟩
      rw [decide_eq_true_iff]
      constructor
      · intro hfind
        have hmem := mem_of_find?_eq_some hfind
        have hround : leaderBlock.round < potentialVote.round := hlt _ hmem
        exact ⟨by omega, hmem⟩
      · rintro ⟨-, hmem⟩
        obtain ⟨found, hfound⟩ := Option.isSome_iff_exists.mp
          (List.find?_isSome (p := fun a => decide (a.slot = leaderBlock.slot)).mpr
            ⟨_, hmem, by simp⟩)
        have hslot : found.slot = leaderBlock.reference.slot := by
          simpa using List.find?_some hfound
        rw [hfound, inj_on_of_nodup_map hauthors (mem_of_find?_eq_some hfound) hmem
          (congrArg Slot.authority hslot)]
    · intro a ha
      have hround := hlt a ha
      exact Nat.le_of_lt_succ (hround.trans_le hle)

theorem checkVote_spec (hvalid : Valid U.toBlockUniverse state)
    (hgc : state.gcRound context < leaderBlock.round) {reference : BlockRef}
    (hcached : state.gcRound context < reference.round → reference ∈ state.recentBlocks)
    (hle : reference.round ≤ leaderBlock.round + 1) :
    ∃ v, checkVote context state leaderBlock reference = .ok v ∧
      (v = true ↔ Votes U reference leaderBlock.reference) := by
  unfold checkVote
  cases hget : state.getBlock context reference with
  | none =>
    -- only a block that was garbage collected is not found
    have hcollected : reference.round ≤ state.gcRound context := by
      by_contra hround
      obtain ⟨block, hblock, -⟩ := getBlock_of_mem hvalid (hcached (not_le.mp hround))
      rw [hget] at hblock
      cases hblock
    refine ⟨false, if_pos hcollected, ?_⟩
    simp only [Bool.false_eq_true, Votes, VerifiedBlock.reference_round, false_iff, not_and]
    omega
  | some potentialVote =>
    by_cases hgenesis : reference.round = GENESIS_ROUND
    · have hmem : potentialVote ∈ context.genesisBlocks := by
        rw [getBlock, if_pos hgenesis] at hget
        exact mem_of_find?_eq_some hget
      obtain ⟨author, -, rfl⟩ := mem_map.mp hmem
      obtain ⟨v, hv, hiff⟩ := @isVote_spec context state leaderBlock
        (context.genesisBlock author)
        (by simp [Context.genesisBlock]) (by simp [Context.genesisBlock])
        (by simp [Context.genesisBlock, GENESIS_ROUND])
      refine ⟨v, hv, hiff.trans ?_⟩
      simp [Votes, Context.genesisBlock, hgenesis, GENESIS_ROUND]
    · obtain ⟨hmem, href⟩ := hvalid.getBlock_mem hgenesis hget
      subst href
      have hwell := U.wellFormed hmem
      obtain ⟨v, hv, hiff⟩ := @isVote_spec context state leaderBlock potentialVote
        hwell.ancestor_round hwell.ancestor_authors hle
      refine ⟨v, hv, hiff.trans ?_⟩
      rw [Votes, U.mem_ancestors hmem]
      exact Iff.rfl

/-- Every cached answer is right. -/
def CacheSound (U : V2Universe context) (leaderBlock : VerifiedBlock) (allVotes : VoteCache) :
    Prop :=
  ∀ r v, allVotes[r]? = some v → (v = true ↔ Votes U r leaderBlock.reference)

theorem cacheSound_empty : CacheSound U leaderBlock ∅ := by
  intro r v h
  simp at h

theorem cachedVote_spec (hvalid : Valid U.toBlockUniverse state)
    (hgc : state.gcRound context < leaderBlock.round) {reference : BlockRef}
    (hcached : state.gcRound context < reference.round → reference ∈ state.recentBlocks)
    (hle : reference.round ≤ leaderBlock.round + 1) {allVotes : VoteCache}
    (hsound : CacheSound U leaderBlock allVotes) :
    ∃ v allVotes', cachedVote context state leaderBlock allVotes reference = .ok (v, allVotes') ∧
      (v = true ↔ Votes U reference leaderBlock.reference) ∧
      CacheSound U leaderBlock allVotes' := by
  unfold cachedVote
  cases hget : allVotes[reference]? with
  | some v => exact ⟨v, allVotes, rfl, hsound reference v hget, hsound⟩
  | none =>
    obtain ⟨v, hv, hiff⟩ := checkVote_spec hvalid hgc hcached hle
    refine ⟨v, allVotes.insert reference v, by rw [hv]; rfl, hiff, ?_⟩
    intro r v' hv'
    by_cases hr : reference = r
    · subst hr
      rw [Map.get_insert_self, Option.some.injEq] at hv'
      exact hv' ▸ hiff
    · rw [Map.get_insert_of_ne hr] at hv'
      exact hsound r v' hv'

theorem certifies_iff {c : VerifiedBlock} (hc : c ∈ U.blocks) {b : BlockRef} :
    U.roundDag.Certifies c.reference b ↔
      CountedQuorum context.committee BlockRef.author ∅ c.ancestors (Votes U · b) := by
  constructor
  · rintro ⟨A, hA, hback⟩
    refine ⟨A, hA, fun i hi => .inr ?_⟩
    obtain ⟨v, -, hauthor, hround, hanc, hvote⟩ := hback i hi
    exact ⟨v, (U.mem_ancestors hc).mp hanc, ⟨hround, hvote⟩, hauthor⟩
  · rintro ⟨A, hA, hback⟩
    refine ⟨A, hA, fun i hi => ?_⟩
    rcases hback i hi with hnone | ⟨v, hanc, ⟨hround, hvote⟩, hauthor⟩
    · exact absurd hnone (Finset.notMem_empty i)
    · have hnode : v ∈ U.refs := by
        obtain ⟨block, hblock, href, -⟩ := hvote
        exact ⟨block, hblock, href⟩
      exact ⟨v, hnode, hauthor, hround, (U.mem_ancestors hc).mpr hanc, hvote⟩

section

variable (hvalid : Valid U.toBlockUniverse state) (hgc : state.gcRound context < leaderBlock.round)
include hvalid hgc

/-- A block of the decision round is found to be a certificate exactly if it is one. -/
theorem isCertificate_spec {c : VerifiedBlock} (hc : Cached state c)
    (hround : c.round = leaderBlock.round + 2) {allVotes : VoteCache}
    (hsound : CacheSound U leaderBlock allVotes) :
    ∃ v allVotes', isCertificate context state leaderBlock allVotes c = .ok (v, allVotes') ∧
      (v = true ↔ U.roundDag.Certifies c.reference leaderBlock.reference) ∧
      CacheSound U leaderBlock allVotes' := by
  have hmem : c ∈ U.blocks := hc.mem_blocks hvalid
  have hpos : (({} : StakeAggregator)).stake < context.committee.quorumThreshold := U.quorum_pos
  obtain ⟨info, hinfo, rfl⟩ := hc
  have hle : ∀ a ∈ info.block.ancestors, a.round ≤ leaderBlock.round + 1 := by
    intro a ha
    have hlt := (U.wellFormed hmem).ancestor_round a ha
    omega
  obtain ⟨reached, allVotes', hrun, hsound', hiff⟩ := countUntilQuorum_spec context.committee
    BlockRef.author (CacheSound U leaderBlock)
    (fun a ha allVotes hsound =>
      cachedVote_spec hvalid hgc (hvalid.closed hinfo a ha) (hle a ha) hsound)
    StakeAggregator.consistent_empty hpos hsound
  exact ⟨reached, allVotes', hrun, hiff.trans (certifies_iff hmem).symm, hsound'⟩

theorem anyCertificate_spec {certificates : List VerifiedBlock}
    (hcertificates : ∀ c ∈ certificates, Cached state c ∧ c.round = leaderBlock.round + 2) :
    ∀ {allVotes : VoteCache}, CacheSound U leaderBlock allVotes →
      ∃ v, anyCertificate context state leaderBlock allVotes certificates = .ok v ∧
        (v = true ↔ ∃ c ∈ certificates,
          U.roundDag.Certifies c.reference leaderBlock.reference) := by
  induction certificates with
  | nil => exact fun _ => ⟨false, rfl, by simp⟩
  | cons c rest ih =>
    intro allVotes hsound
    obtain ⟨hcached, hround⟩ := hcertificates c (.head _)
    obtain ⟨certified, allVotes', hrun, hiff, hsound'⟩ :=
      isCertificate_spec hvalid hgc hcached hround hsound
    rw [anyCertificate, hrun]
    cases certified with
    | true => exact ⟨true, rfl, by simp [hiff.mp rfl]⟩
    | false =>
      obtain ⟨v, hv, hrest⟩ := ih (fun c hc => hcertificates c (.tail _ hc)) hsound'
      refine ⟨v, hv, hrest.trans ?_⟩
      have hnot : ¬ U.roundDag.Certifies c.reference leaderBlock.reference :=
        fun h => absurd (hiff.mpr h) (by simp)
      simp [hnot]

end

end Votes

/-! ### What the direct rule decides -/

section Direct

variable {context : Context} {U : V2Universe context} {state : DagState}

theorem backed_of_counted {blocks : List VerifiedBlock} {round : Nat}
    (hblocks : ∀ b ∈ blocks, b ∈ U.blocks ∧ b.round = round) {p : VerifiedBlock → Prop}
    {q : BlockRef → Prop} (himp : ∀ b ∈ blocks, p b → q b.reference)
    (h : CountedQuorum context.committee VerifiedBlock.author ∅ blocks p) :
    U.roundDag.Backed round context.committee.quorumThreshold q := by
  obtain ⟨A, hA, hall⟩ := h
  refine ⟨A, hA, fun i hi => ?_⟩
  rcases hall i hi with hnone | ⟨b, hb, hp, hauthor⟩
  · exact absurd hnone (Finset.notMem_empty i)
  · obtain ⟨hmem, hround⟩ := hblocks b hb
    exact ⟨b.reference, U.reference_mem hmem, hauthor, hround, himp b hb hp⟩

theorem checkBlame_spec (leader : Nat) (u : Unit) (block : VerifiedBlock) :
    ∃ blames u', checkBlame leader u block = .ok (blames, u') ∧
      (blames = true ↔ ∀ a ∈ block.ancestors, a.author ≠ leader) ∧ True :=
  ⟨_, (), rfl, by simp, trivial⟩

variable {leader : Slot}

theorem enoughLeaderBlame_sound (hvalid : Valid U.toBlockUniverse state)
    (hcommit : state.lastCommitRound ≤ leader.round) (leaders : Nat → List Nat) :
    ∃ v, enoughLeaderBlame context state (leader.round + 1) leader.authority = .ok v ∧
      (v = true → (U.rule leaders).directSkip leader.round leader.authority) := by
  obtain ⟨blocks, hblocks, hmem⟩ := getUncommittedBlocksAtRound_spec hvalid
    (Nat.lt_succ_of_le hcommit)
  obtain ⟨reached, u, hrun, -, hiff⟩ := countUntilQuorum_spec context.committee
    VerifiedBlock.author (fun _ : Unit => True)
    (fun block (_ : block ∈ blocks) s _ => checkBlame_spec leader.authority s block)
    StakeAggregator.consistent_empty U.quorum_pos trivial
  refine ⟨reached, ?_, fun hreached => ?_⟩
  · exact bind_eq_ok.mpr ⟨_, hblocks, bind_eq_ok.mpr ⟨_, hrun, rfl⟩⟩
  · refine backed_of_counted (fun b hb => ?_) (fun b hb hnone => ?_) (hiff.mp hreached)
    · obtain ⟨hcached, hround⟩ := (hmem b).mp hb
      exact ⟨hcached.mem_blocks hvalid, hround⟩
    · intro a ha
      exact hnone a ((U.mem_ancestors (((hmem b).mp hb).1.mem_blocks hvalid)).mp ha)

theorem enoughLeaderSupport_sound (hvalid : Valid U.toBlockUniverse state)
    {leaderBlock : VerifiedBlock} (hgc : state.gcRound context < leaderBlock.round)
    (hcommit : state.lastCommitRound ≤ leaderBlock.round) :
    ∃ v, enoughLeaderSupport context state (leaderBlock.round + 2) leaderBlock = .ok v ∧
      (v = true → U.roundDag.Backed (leaderBlock.round + 2) context.committee.quorumThreshold
        fun c => U.roundDag.Certifies c leaderBlock.reference) := by
  obtain ⟨blocks, hblocks, hmem⟩ := @getUncommittedBlocksAtRound_spec _ _ _ hvalid
    (leaderBlock.round + 2) (by omega)
  rw [enoughLeaderSupport, hblocks]
  by_cases hstake : context.committee.reachedQuorum
      ((blocks.map fun block => context.committee.stake block.author).sum)
  · obtain ⟨reached, allVotes, hrun, -, hiff⟩ := countUntilQuorum_spec context.committee
      VerifiedBlock.author (CacheSound U leaderBlock)
      (fun c hc allVotes hsound =>
        isCertificate_spec hvalid hgc ((hmem c).mp hc).1 ((hmem c).mp hc).2 hsound)
      StakeAggregator.consistent_empty U.quorum_pos cacheSound_empty
    refine ⟨reached, ?_, fun hreached => ?_⟩
    · refine (if_neg (not_not.mpr hstake)).trans ?_
      exact bind_eq_ok.mpr ⟨_, hrun, rfl⟩
    · refine backed_of_counted (fun b hb => ?_) (fun b _ h => h) (hiff.mp hreached)
      obtain ⟨hcached, hround⟩ := (hmem b).mp hb
      exact ⟨hcached.mem_blocks hvalid, hround⟩
  · exact ⟨false, if_pos hstake, fun h => absurd h (by simp)⟩

theorem nil_or_singleton {α : Type} {l : List α} (hnodup : l.Nodup)
    (h : ∀ a ∈ l, ∀ b ∈ l, a = b) : l = [] ∨ ∃ a, l = [a] := by
  match l with
  | [] => exact .inl rfl
  | [a] => exact .inr ⟨a, rfl⟩
  | a :: b :: rest =>
    have hab : a = b := h a (by simp) b (by simp)
    simp [hab] at hnodup

section

variable (hvalid : Valid U.toBlockUniverse state) (hgc : state.gcRound context < leader.round)
  (hcommit : state.lastCommitRound ≤ leader.round)
include hvalid hgc hcommit

/-- At most one block of the slot has enough support, and the rule commits it. -/
theorem supportedLeaders_spec (leaders : Nat → List Nat) :
    ∃ kept, (state.getUncommittedBlocksAtSlot leader).filterM
        (enoughLeaderSupport context state (leader.round + 2)) = .ok kept ∧
      (kept = [] ∨ ∃ block, kept = [block] ∧ Cached state block ∧ block.slot = leader ∧
        (U.rule leaders).directCommit leader.round leader.authority block.reference) := by
  have hsupport : ∀ block ∈ state.getUncommittedBlocksAtSlot leader,
      ∃ v, enoughLeaderSupport context state (leader.round + 2) block = .ok v ∧
        (v = true → (U.rule leaders).directCommit leader.round leader.authority
          block.reference) := by
    intro block hblock
    obtain ⟨hcached, hslot⟩ := (mem_getUncommittedBlocksAtSlot hvalid).mp hblock
    have hround : block.round = leader.round := congrArg Slot.round hslot
    rw [← hround] at hgc hcommit ⊢
    obtain ⟨v, hv, hback⟩ := enoughLeaderSupport_sound hvalid hgc hcommit
    refine ⟨v, hv, fun htrue => ⟨?_, hback htrue⟩⟩
    rw [hround, U.inSlot_iff]
    exact ⟨U.reference_mem (hcached.mem_blocks hvalid), hslot⟩
  obtain ⟨kept, hkept, hsublist, hmem⟩ := filterM_total fun block hblock => by
    obtain ⟨v, hv, -⟩ := hsupport block hblock
    exact ⟨v, hv, show v = true ↔
      enoughLeaderSupport context state (leader.round + 2) block = .ok true by simp [hv]⟩
  have hspec : ∀ block ∈ kept, Cached state block ∧ block.slot = leader ∧
      (U.rule leaders).directCommit leader.round leader.authority block.reference := by
    intro block hblock
    obtain ⟨hin, htrue⟩ := (hmem block).mp hblock
    obtain ⟨hcached, hslot⟩ := (mem_getUncommittedBlocksAtSlot hvalid).mp hin
    obtain ⟨v, hv, hdirect⟩ := hsupport block hin
    rw [hv, Except.ok.injEq] at htrue
    exact ⟨hcached, hslot, hdirect htrue⟩
  have hunique : ∀ a ∈ kept, ∀ b ∈ kept, a = b := by
    intro a ha b hb
    have href := (U.rule leaders).commit_unique (hspec a ha).2.2 (hspec b hb).2.2
    exact U.reference_inj ((hspec a ha).1.mem_blocks hvalid) ((hspec b hb).1.mem_blocks hvalid) href
  have hnodup := hsublist.nodup (nodup_getUncommittedBlocksAtSlot hvalid leader)
  refine ⟨kept, hkept, (nil_or_singleton hnodup hunique).imp_right ?_⟩
  rintro ⟨block, rfl⟩
  exact ⟨block, rfl, hspec block (by simp)⟩

theorem tryDirectDecide_sound {options : BaseCommitterOptions}
    (hdecision : decisionRound options (waveNumber options leader.round) = leader.round + 2)
    (leaders : Nat → List Nat) :
    ∃ status, tryDirectDecide context options state leader = .ok status ∧
      StatusSound U.toBlockUniverse (U.rule leaders) state leader status := by
  obtain ⟨blamed, hblamed, hskip⟩ := enoughLeaderBlame_sound hvalid hcommit leaders
  obtain ⟨kept, hkept, hcases⟩ := supportedLeaders_spec hvalid hgc hcommit leaders
  unfold tryDirectDecide
  simp only [hdecision]
  cases blamed with
  | true => exact ⟨_, bind_eq_ok.mpr ⟨true, hblamed, rfl⟩, rfl, .directSkip (hskip rfl)⟩
  | false =>
    rcases hcases with rfl | ⟨block, rfl, hcached, hslot, hdirect⟩
    · exact ⟨.undecided leader,
        bind_eq_ok.mpr ⟨false, hblamed, bind_eq_ok.mpr ⟨_, hkept, rfl⟩⟩, rfl⟩
    · exact ⟨.commit block,
        bind_eq_ok.mpr ⟨false, hblamed, bind_eq_ok.mpr ⟨_, hkept, rfl⟩⟩,
        hcached.mem_blocks hvalid, hslot, .directCommit hdirect, fun _ => hcached⟩

end

end Direct

/-! ### The blocks linked to an anchor -/

section Linked

variable {context : Context} {U : V2Universe context} {state : DagState}
  {anchorBlock : VerifiedBlock}

/-- The traversal of `ancestorsAtRound`: `served` are the references taken so far, which
    are above all that are left. -/
structure LinkedInv (U : V2Universe context) (state : DagState) (earlierRound : Nat)
    (anchor : BlockRef) (served linked : Finset BlockRef) : Prop where
  served_above : ∀ x ∈ served, x ∈ state.recentBlocks ∧ earlierRound < x.round
  descending : ∀ y ∈ linked, ∀ x ∈ served, y < x
  explored : ∀ x, x = anchor ∨ x ∈ served → ∀ y ∈ U.ancestors x, y ∈ served ∨ y ∈ linked
  reached : ∀ y ∈ linked, earlierRound ≤ y.round → U.roundDag.Reaches (earlierRound - 1) anchor y

variable {earlierRound : Nat} {anchor : BlockRef} {served linked : Finset BlockRef}

theorem LinkedInv.start (hanchor : anchorBlock ∈ U.blocks) (hpos : 0 < earlierRound) :
    LinkedInv U state earlierRound anchorBlock.reference ∅ anchorBlock.ancestors.toFinset := by
  refine ⟨by simp, by simp, ?_, ?_⟩
  · rintro x (rfl | hx) y hy
    · exact .inr (mem_toFinset.mpr ((U.mem_ancestors hanchor).mp hy))
    · exact absurd hx (Finset.notMem_empty x)
  · intro y hy hround
    exact .single ⟨(U.mem_ancestors hanchor).mpr (mem_toFinset.mp hy),
      Nat.lt_of_lt_of_le (Nat.sub_lt hpos Nat.one_pos) hround⟩

section

variable (h : LinkedInv U state earlierRound anchor served linked)
include h

theorem LinkedInv.cached
    (hvalid : Valid U.toBlockUniverse state) (hanchor : anchor ∈ state.recentBlocks)
    (hgc : state.gcRound context < earlierRound) {y : BlockRef} (hy : y ∈ linked)
    (hround : earlierRound ≤ y.round) : y ∈ state.recentBlocks := by
  have hview := (hvalid.isView U.quorum_pos).mono (Nat.le_sub_one_of_lt hgc)
  exact hview.reaches_mem hanchor (h.reached y hy hround)

theorem LinkedInv.serve
    {block : VerifiedBlock} (hblock : block ∈ U.blocks) (hmem : block.reference ∈ linked)
    (hlast : ∀ y ∈ linked, y ≤ block.reference) (hpos : 0 < earlierRound)
    (habove : earlierRound < block.round) (hcached : block.reference ∈ state.recentBlocks) :
    LinkedInv U state earlierRound anchor (insert block.reference served)
      (linked.erase block.reference ∪ block.ancestors.toFinset) := by
  have hlower : ∀ y ∈ block.ancestors, y < block.reference := fun y hy =>
    BlockRef.lt_of_round_lt ((U.wellFormed hblock).ancestor_round y hy)
  have hnew : ∀ y ∈ linked.erase block.reference ∪ block.ancestors.toFinset,
      y < block.reference := by
    intro y hy
    rcases Finset.mem_union.mp hy with hy | hy
    · obtain ⟨hne, hy⟩ := Finset.mem_erase.mp hy
      exact lt_of_le_of_ne (hlast y hy) hne
    · exact hlower y (mem_toFinset.mp hy)
  refine ⟨?_, ?_, ?_, ?_⟩
  · intro x hx
    rcases Finset.mem_insert.mp hx with rfl | hx
    · exact ⟨hcached, habove⟩
    · exact h.served_above x hx
  · intro y hy x hx
    rcases Finset.mem_insert.mp hx with rfl | hx
    · exact hnew y hy
    · exact (hnew y hy).trans (h.descending _ hmem x hx)
  · intro x hx y hy
    have hold : x = anchor ∨ x ∈ served → y ∈ insert block.reference served ∨
        y ∈ linked.erase block.reference ∪ block.ancestors.toFinset := by
      intro hx
      rcases h.explored x hx y hy with hy | hy
      · exact .inl (Finset.mem_insert_of_mem hy)
      · by_cases heq : y = block.reference
        · exact .inl (heq ▸ Finset.mem_insert_self _ _)
        · exact .inr (Finset.mem_union_left _ (Finset.mem_erase.mpr ⟨heq, hy⟩))
    rcases hx with hx | hx
    · exact hold (.inl hx)
    · rcases Finset.mem_insert.mp hx with rfl | hx
      · exact .inr (Finset.mem_union_right _ (mem_toFinset.mpr ((U.mem_ancestors hblock).mp hy)))
      · exact hold (.inr hx)
  · intro y hy hround
    rcases Finset.mem_union.mp hy with hy | hy
    · exact h.reached y (Finset.mem_of_mem_erase hy) hround
    · have hedge : y ∈ U.ancestors block.reference :=
        (U.mem_ancestors hblock).mpr (mem_toFinset.mp hy)
      exact (h.reached _ hmem habove.le).tail ⟨hedge,
        Nat.lt_of_lt_of_le (Nat.sub_lt hpos Nat.one_pos) hround⟩

/-- When nothing is left above `earlierRound`, what is left at it is what the anchor
    reaches there. -/
theorem LinkedInv.exact
    (hvalid : Valid U.toBlockUniverse state) (hanchor : anchor ∈ state.recentBlocks)
    (hgc : state.gcRound context < earlierRound) (hbelow : earlierRound < anchor.round)
    (hdone : ∀ y ∈ linked, y.round ≤ earlierRound) (y : BlockRef) :
    y ∈ linked ∧ earlierRound ≤ y.round ↔
      U.roundDag.Reaches (earlierRound - 1) anchor y ∧ y.round = earlierRound := by
  have hview := (hvalid.isView U.quorum_pos).mono (Nat.le_sub_one_of_lt hgc)
  -- a path leaves the served references only into what is left
  have hfound : ∀ y, U.roundDag.Reaches (earlierRound - 1) anchor y →
      y = anchor ∨ y ∈ served ∨ y ∈ linked := by
    intro y hpath
    induction hpath with
    | refl => exact .inl rfl
    | @tail x y hpath hedge ih =>
      have hx : x ∈ U.refs := hview.subset (hview.reaches_mem hanchor hpath)
      have hlt : y.round < x.round := U.roundDag.round_lt hx hedge.1
      have hy : earlierRound - 1 < y.round := hedge.2
      rcases ih with hx | hx | hx
      · exact .inr (h.explored x (.inl hx) y hedge.1)
      · exact .inr (h.explored x (.inr hx) y hedge.1)
      · have := hdone x hx
        omega
  constructor
  · rintro ⟨hy, hround⟩
    exact ⟨h.reached y hy hround, le_antisymm (hdone y hy) hround⟩
  · rintro ⟨hpath, hround⟩
    refine ⟨?_, hround.ge⟩
    rcases hfound y hpath with rfl | hy | hy
    · omega
    · have := (h.served_above y hy).2
      omega
    · exact hy

theorem LinkedInv.card_le :
    served.card ≤ state.recentBlocks.size := by
  have hsubset : served ⊆ state.recentBlocks.keys.toFinset := by
    intro x hx
    rw [mem_toFinset, Std.ExtTreeMap.mem_keys]
    exact (h.served_above x hx).1
  refine (Finset.card_le_card hsubset).trans ((toFinset_card_le _).trans ?_)
  rw [Std.ExtTreeMap.length_keys]

end

theorem getLast_sort {s : Finset BlockRef} {last : BlockRef}
    (h : (s.sort (· ≤ ·)).getLast? = some last) : last ∈ s ∧ ∀ y ∈ s, y ≤ last := by
  obtain ⟨initial, hsort⟩ := List.getLast?_eq_some_iff.mp h
  have hsorted := Finset.pairwise_sort s (· ≤ ·)
  have hmem : ∀ y, y ∈ s ↔ y ∈ initial ∨ y = last := by
    intro y
    rw [← Finset.mem_sort (· ≤ ·), hsort, mem_append, mem_singleton]
  rw [hsort, pairwise_append] at hsorted
  refine ⟨(hmem last).mpr (.inr rfl), fun y hy => ?_⟩
  rcases (hmem y).mp hy with hy | rfl
  · exact hsorted.2.2 y hy last (mem_singleton_self last)
  · exact le_rfl

section

variable (hvalid : Valid U.toBlockUniverse state)
include hvalid

theorem linkedLoop_spec (hanchor : Cached state anchorBlock)
    (hgc : state.gcRound context < earlierRound) (hbelow : earlierRound < anchorBlock.round)
    {fuel : Nat} (hfuel : state.recentBlocks.size < fuel) :
    ∃ linked, loop .outOfFuel (linkedTurn context state earlierRound) fuel
        anchorBlock.ancestors.toFinset = .ok linked ∧
      ∀ y, y ∈ linked ∧ earlierRound ≤ y.round ↔
        U.roundDag.Reaches (earlierRound - 1) anchorBlock.reference y ∧ y.round = earlierRound := by
  have hpos : 0 < earlierRound := Nat.zero_lt_of_lt hgc
  refine loop_total (fun n linked => ∃ served,
    LinkedInv U state earlierRound anchorBlock.reference served linked ∧
      served.card + n = state.recentBlocks.size) ?_
    ⟨∅, .start (hanchor.mem_blocks hvalid) hpos, by simp⟩ hfuel
  rintro n linked ⟨served, hinv, hcard⟩
  have hexact := hinv.exact hvalid hanchor.mem hgc hbelow
  unfold linkedTurn
  cases hlast : (linked.sort (· ≤ ·)).getLast? with
  | none =>
    refine .inl ⟨linked, rfl, hexact ?_⟩
    intro y hy
    rw [List.getLast?_eq_none_iff] at hlast
    rw [← Finset.mem_sort (· ≤ ·), hlast] at hy
    exact nomatch hy
  | some last =>
    obtain ⟨hmem, hmax⟩ := getLast_sort hlast
    dsimp only
    by_cases hround : last.round ≤ earlierRound
    · refine .inl ⟨linked, if_pos hround, hexact fun y hy => ?_⟩
      exact (BlockRef.round_le_of_le (hmax y hy)).trans hround
    · rw [if_neg hround]
      rw [not_le] at hround
      have hcached := hinv.cached hvalid hanchor.mem hgc hmem hround.le
      obtain ⟨block, hget, hblock, rfl⟩ := getBlock_of_mem hvalid hcached
      rw [hget]
      have hserve := hinv.serve (hblock.mem_blocks hvalid) hmem hmax hpos hround hcached
      have hfresh : block.reference ∉ served := fun hin =>
        lt_irrefl _ (hinv.descending _ hmem _ hin)
      have hle := hserve.card_le
      rw [Finset.card_insert_of_notMem hfresh] at hle
      refine .inr ⟨n - 1, _, rfl, by omega, _, hserve, ?_⟩
      rw [Finset.card_insert_of_notMem hfresh]
      omega

theorem loadLinked_spec {refs : List BlockRef} (hrefs : ∀ r ∈ refs, r ∈ state.recentBlocks) :
    ∃ blocks, refs.mapM (loadLinked context state) = .ok blocks ∧
      ∀ block, block ∈ blocks ↔ Cached state block ∧ block.reference ∈ refs := by
  induction refs with
  | nil => exact ⟨[], rfl, by simp⟩
  | cons r refs ih =>
    obtain ⟨blocks, hmap, hmem⟩ := ih fun x hx => hrefs x (.tail r hx)
    obtain ⟨block, hget, hcached, rfl⟩ := getBlock_of_mem hvalid (hrefs r (.head _))
    refine ⟨block :: blocks, ?_, fun block' => ?_⟩
    · rw [mapM_cons, hmap, loadLinked, hget]
      rfl
    · rw [mem_cons, hmem block', mem_cons]
      constructor
      · rintro (rfl | ⟨hcached', hin⟩)
        · exact ⟨hcached, .inl rfl⟩
        · exact ⟨hcached', .inr hin⟩
      · rintro ⟨hcached', href | hin⟩
        · exact .inl (U.reference_inj (hcached'.mem_blocks hvalid) (hcached.mem_blocks hvalid) href)
        · exact .inr ⟨hcached', hin⟩

theorem ancestorsAtRound_spec (hanchor : Cached state anchorBlock)
    (hgc : state.gcRound context < earlierRound) (hbelow : earlierRound < anchorBlock.round) :
    ∃ blocks, state.ancestorsAtRound context anchorBlock earlierRound = .ok blocks ∧
      ∀ block, block ∈ blocks ↔ Cached state block ∧ block.round = earlierRound ∧
        U.roundDag.Reaches (earlierRound - 1) anchorBlock.reference block.reference := by
  obtain ⟨linked, hloop, hlinked⟩ := linkedLoop_spec hvalid hanchor hgc hbelow
    (show state.recentBlocks.size < state.recentBlocks.size + state.storedBlocks.size + 2 by omega)
  have hview := (hvalid.isView U.quorum_pos).mono (Nat.le_sub_one_of_lt hgc)
  have hsort : ∀ y, y ∈ (linked.filter fun r => earlierRound ≤ r.round).sort (· ≤ ·) ↔
      U.roundDag.Reaches (earlierRound - 1) anchorBlock.reference y ∧ y.round = earlierRound := by
    intro y
    rw [Finset.mem_sort, Finset.mem_filter, hlinked y]
  obtain ⟨blocks, hblocks, hmem⟩ := loadLinked_spec hvalid fun y hy =>
    hview.reaches_mem hanchor.mem ((hsort y).mp hy).1
  refine ⟨blocks, bind_eq_ok.mpr ⟨linked, hloop, hblocks⟩, fun block => ?_⟩
  rw [hmem block, hsort, VerifiedBlock.reference_round]
  exact and_congr_right fun _ => and_comm

end

end Linked

/-! ### What the indirect rule decides -/

section Indirect

variable {context : Context} {U : V2Universe context} {state : DagState} {leaderSlot : Slot}
  {leaders : Nat → List Nat}

section

variable (hvalid : Valid U.toBlockUniverse state) (hgc : state.gcRound context < leaderSlot.round)
include hvalid hgc

theorem certified_cached {anchor b : BlockRef} (hanchor : anchor ∈ state.recentBlocks)
    (hb : b ∈ (U.rule leaders).certified anchor leaderSlot.round leaderSlot.authority) :
    b ∈ state.recentBlocks := by
  obtain ⟨⟨-, hround, -⟩, c, -, -, hreach, hcertifies⟩ := hb
  have hround : b.round = leaderSlot.round := hround
  have hview := hvalid.isView U.quorum_pos
  have hc : c ∈ state.recentBlocks :=
    (hview.mono (hgc.le.trans (Nat.le_succ _))).reaches_mem hanchor hreach
  obtain ⟨v, -, hvround, hvc, hbv⟩ := hcertifies.exists_node U.quorum_pos
  have hvround : v.round = b.round + 1 := hvround
  have hv : v ∈ state.recentBlocks := hview.closed hc hvc (by change _ < v.round; omega)
  exact hview.closed hv hbv (by change _ < b.round; omega)

/-- The leader blocks with a certificate that is linked to the anchor: at most one, and
    exactly what the rule certifies. -/
theorem certifiedLeaders_spec {anchor : VerifiedBlock} (hanchor : Cached state anchor)
    (hdepth : leaderSlot.round + 3 ≤ anchor.round) (leaders : Nat → List Nat) :
    ∃ certificates kept,
      state.ancestorsAtRound context anchor (leaderSlot.round + 2) = .ok certificates ∧
      (state.getUncommittedBlocksAtSlot leaderSlot).filterM (fun leaderBlock =>
        anyCertificate context state leaderBlock ∅ certificates) = .ok kept ∧
      (kept = [] ∨ ∃ block, kept = [block]) ∧ (∀ block ∈ kept, Cached state block) ∧
      ∀ b, b ∈ kept.map VerifiedBlock.reference ↔
        b ∈ (U.rule leaders).certified anchor.reference leaderSlot.round leaderSlot.authority := by
  obtain ⟨certificates, hcertificates, hlinked⟩ := ancestorsAtRound_spec hvalid hanchor
    (hgc.trans_le (Nat.le_add_right leaderSlot.round 2)) (by omega)
  obtain ⟨kept, hkept, hsublist, hmem⟩ := filterM_total fun block hblock => by
    obtain ⟨-, hslot⟩ := (mem_getUncommittedBlocksAtSlot hvalid).mp hblock
    have hround : block.round = leaderSlot.round := congrArg Slot.round hslot
    have hdecision : ∀ c ∈ certificates, Cached state c ∧ c.round = block.round + 2 := by
      intro c hc
      obtain ⟨hcached, hcround, -⟩ := (hlinked c).mp hc
      exact ⟨hcached, by rw [hcround, hround]⟩
    exact anyCertificate_spec hvalid (hround ▸ hgc) hdecision cacheSound_empty
  have hspec : ∀ block, block ∈ kept ↔ (Cached state block ∧ block.slot = leaderSlot) ∧
      ∃ c ∈ certificates, U.roundDag.Certifies c.reference block.reference := by
    intro block
    rw [hmem block, mem_getUncommittedBlocksAtSlot hvalid]
  have hinSlot : ∀ block ∈ kept,
      U.roundDag.InSlot leaderSlot.round leaderSlot.authority block.reference := by
    intro block hblock
    obtain ⟨⟨hcached, hslot⟩, -⟩ := (hspec block).mp hblock
    exact U.inSlot_iff.mpr ⟨U.reference_mem (hcached.mem_blocks hvalid), hslot⟩
  have hunique : ∀ a ∈ kept, ∀ b ∈ kept, a = b := by
    intro a ha b hb
    obtain ⟨⟨hcached, -⟩, c, -, hcert⟩ := (hspec a).mp ha
    obtain ⟨⟨hcached', -⟩, c', -, hcert'⟩ := (hspec b).mp hb
    exact U.reference_inj (hcached.mem_blocks hvalid) (hcached'.mem_blocks hvalid)
      (hcert.unique U.quorums_meet (hinSlot a ha) (hinSlot b hb) hcert')
  refine ⟨certificates, kept, hcertificates, hkept,
    nil_or_singleton (hsublist.nodup (nodup_getUncommittedBlocksAtSlot hvalid _)) hunique,
    fun block hblock => ((hspec block).mp hblock).1.1, fun b => ?_⟩
  rw [mem_map]
  constructor
  · rintro ⟨block, hblock, rfl⟩
    obtain ⟨-, c, hc, hcert⟩ := (hspec block).mp hblock
    obtain ⟨hcached, hround, hreach⟩ := (hlinked c).mp hc
    exact ⟨hinSlot block hblock, c.reference, U.reference_mem (hcached.mem_blocks hvalid), hround,
      hreach, hcert⟩
  · intro hb
    obtain ⟨block, -, hcached, rfl⟩ :=
      getBlock_of_mem hvalid (certified_cached hvalid hgc hanchor.mem hb)
    obtain ⟨hslot, c, -, hround, hreach, hcert⟩ := hb
    obtain ⟨cblock, -, hccached, rfl⟩ := getBlock_of_mem hvalid
      (((hvalid.isView U.quorum_pos).mono (hgc.le.trans (Nat.le_succ _))).reaches_mem
        hanchor.mem hreach)
    exact ⟨block, (hspec block).mpr ⟨⟨hcached, (U.inSlot_iff.mp hslot).2⟩, cblock,
      (hlinked cblock).mpr ⟨hccached, hround, hreach⟩, hcert⟩, rfl⟩

/-- The indirect rule decides what the anchor certifies, once the anchor is the first
    commit at its distance. -/
theorem decideLeaderFromAnchor_sound {options : BaseCommitterOptions}
    (hdecision : decisionRound options (waveNumber options leaderSlot.round) =
      leaderSlot.round + 2) {anchor : VerifiedBlock} (hanchor : Cached state anchor)
    (hfirst : (U.rule leaders).FirstCommit (leaderSlot.round + 3) anchor.round anchor.reference) :
    ∃ status, decideLeaderFromAnchor context options state anchor leaderSlot = .ok status ∧
      StatusSound U.toBlockUniverse (U.rule leaders) state leaderSlot status ∧
      status.isDecided = true := by
  have hdepth : leaderSlot.round + 3 ≤ anchor.round := hfirst.1
  have hanchors : (U.rule leaders).anchors anchor.reference leaderSlot.round := by
    refine ((hvalid.isView U.quorum_pos).backed_reaches hanchor.mem
      (hgc.trans_le (Nat.le_add_right _ 2)) hdepth).mono le_rfl ?_
    exact fun c _ _ hc => hc.2
  obtain ⟨certificates, kept, hcertificates, hkept, hsingle, hcached, hcertified⟩ :=
    certifiedLeaders_spec hvalid hgc hanchor hdepth leaders
  have hnodup : (kept.map VerifiedBlock.reference).Nodup := by
    rcases hsingle with rfl | ⟨block, rfl⟩ <;> simp
  have houtcome := AnchoredRule.outcome_of_list hnodup hcertified
  unfold decideLeaderFromAnchor
  simp only [hdecision]
  rcases hsingle with rfl | ⟨block, rfl⟩
  · refine ⟨.skip leaderSlot,
      bind_eq_ok.mpr ⟨_, hcertificates, bind_eq_ok.mpr ⟨_, hkept, rfl⟩⟩, ⟨rfl, ?_⟩, rfl⟩
    rcases houtcome with ⟨b, hb, -⟩ | ⟨-, houtcome⟩
    · cases hb
    · exact hfirst.decided hanchors houtcome
  · have hslot : block.slot = leaderSlot :=
      (U.inSlot_iff.mp ((hcertified block.reference).mp (by simp)).1).2
    refine ⟨.commit block,
      bind_eq_ok.mpr ⟨_, hcertificates, bind_eq_ok.mpr ⟨_, hkept, rfl⟩⟩,
      ⟨?_, hslot, ?_, fun _ => ?_⟩, rfl⟩
    · exact (hcached block (by simp)).mem_blocks hvalid
    · rcases houtcome with ⟨b, hb, houtcome⟩ | ⟨hnone, -⟩
      · simp only [map_cons, map_nil, List.cons.injEq, and_true] at hb
        rw [hb]
        exact hfirst.decided hanchors houtcome
      · exact absurd rfl (hnone block.reference)
    · exact hcached block (by simp)

end

end Indirect

end BaseCommitter

end Haneul.Consensus
