import Haneul.Consensus.Block

/-!
# Block verification

Mirror of `SignedBlockVerifier::verify_block` of
`consensus/core/src/block_verifier.rs`, with its checks in the order of the
source and the data of each error.  What an accepted block satisfies is collected
in `WellFormed`; the commit rules use nothing else of the verifier.
-/

namespace Haneul.Consensus

open Quorum List

inductive IndexLocation where
  | verifyingBlock (slot : Slot)
  | ancestor (reference : BlockRef)
  | transactionVoteBlock (reference : BlockRef)
deriving DecidableEq, Repr

inductive TransactionVotesError where
  | tooManyTargets (round author count limit : Nat)
  | duplicateTarget (target : BlockRef)
  | targetRound (target : BlockRef) (round author : Nat)
  | targetAtOrBelowCutoff (target : BlockRef) (cutoff : Nat)
  | noRejects (target : BlockRef)
  | tooManyRejects (target : BlockRef) (count limit : Nat)
  | notIncreasing (target : BlockRef) (rejects : List Nat)
  | indexNotBelowLimit (reject : Nat) (target : BlockRef) (limit : Nat)
deriving DecidableEq, Repr

inductive ConsensusError where
  | wrongEpoch (expected actual : Nat)
  | unexpectedGenesisBlock
  | unexpectedBlockVersion (slot : Slot) (v3Enabled : Bool)
  | invalidAuthorityIndex (loc : IndexLocation) (index max : Nat)
  | signatureVerificationFailure
  | tooManyAncestors (count limit : Nat)
  | insufficientParentStakes (parentStakes quorum : Nat)
  | invalidAncestorPosition (blockAuthority ancestorAuthority position : Nat)
  | invalidAncestorRound (ancestor block : Nat)
  | invalidGenesisAncestor (ancestor : BlockRef)
  | duplicatedAncestorsAuthority (author : Nat)
  | invalidTransactionVotesCutoff (cutoff block : Nat)
  | invalidTransactionVotes (reason : TransactionVotesError)
  | transactionTooLarge (size limit : Nat)
  | tooManyTransactions (count limit : Nat)
  | tooManyTransactionBytes (size limit : Nat)
deriving DecidableEq, Repr

namespace BlockVerifier

variable (context : Context)

/-! ### The checks -/

/-- The loop over the ancestors: `i` is the position, `seen` the authors so far,
    and the result the stake of the parents. -/
def checkAncestors (block : VerifiedBlock) :
    Nat → Finset Nat → Nat → List BlockRef → Except ConsensusError Nat
  | _, _, parentStakes, [] => .ok parentStakes
  | i, seen, parentStakes, ancestor :: rest =>
    if ¬ context.committee.isValidIndex ancestor.author then
      .error (.invalidAuthorityIndex (.ancestor ancestor) ancestor.author
        (context.committee.size - 1))
    else if (i = 0 ∧ ancestor.author ≠ block.author) ∨
        (i > 0 ∧ ancestor.author = block.author) then
      .error (.invalidAncestorPosition block.author ancestor.author i)
    else if ancestor.round ≥ block.round then
      .error (.invalidAncestorRound ancestor.round block.round)
    else if ancestor.round = GENESIS_ROUND ∧ ancestor ∉ context.genesisRefs then
      .error (.invalidGenesisAncestor ancestor)
    else if ancestor.author ∈ seen then
      .error (.duplicatedAncestorsAuthority ancestor.author)
    else
      checkAncestors block (i + 1) (insert ancestor.author seen)
        (if ancestor.round = block.round - 1 then
          parentStakes + context.committee.stake ancestor.author
        else parentStakes) rest

/-- The bound on the indices of reject votes. -/
def transactionLimit : Nat :=
  min context.protocolConfig.maxNumTransactionsInBlock
    (TRANSACTION_INDEX_VALUES - 1 - NUM_RESERVED_TRANSACTION_INDICES)

def notIncreasing : List Nat → Bool
  | a :: b :: rest => a ≥ b || notIncreasing (b :: rest)
  | _ => false

def checkVoteTargets (block : VerifiedBlock) :
    Finset BlockRef → List BlockTransactionVotes → Except ConsensusError Unit
  | _, [] => .ok ()
  | targets, votes :: rest =>
    let limit := transactionLimit context
    if votes.blockRef ∈ targets then
      .error (.invalidTransactionVotes (.duplicateTarget votes.blockRef))
    else if votes.blockRef.round ≥ block.round then
      .error (.invalidTransactionVotes (.targetRound votes.blockRef block.round block.author))
    else if votes.blockRef.round ≤ block.transactionVotesCutoffRound then
      .error (.invalidTransactionVotes
        (.targetAtOrBelowCutoff votes.blockRef block.transactionVotesCutoffRound))
    else if ¬ context.committee.isValidIndex votes.blockRef.author then
      .error (.invalidAuthorityIndex (.transactionVoteBlock votes.blockRef)
        votes.blockRef.author (context.committee.size - 1))
    else if votes.rejects.isEmpty then
      .error (.invalidTransactionVotes (.noRejects votes.blockRef))
    else if votes.rejects.length > limit then
      .error (.invalidTransactionVotes (.tooManyRejects votes.blockRef votes.rejects.length limit))
    else if notIncreasing votes.rejects then
      .error (.invalidTransactionVotes (.notIncreasing votes.blockRef votes.rejects))
    else
      match votes.rejects.getLast? with
      | some reject =>
        if reject ≥ limit then
          .error (.invalidTransactionVotes (.indexNotBelowLimit reject votes.blockRef limit))
        else checkVoteTargets block (insert votes.blockRef targets) rest
      | none => checkVoteTargets block (insert votes.blockRef targets) rest

variable (block : VerifiedBlock)

def checkTransactionVotes : Except ConsensusError Unit :=
  let votes := block.transactionVotes
  let limit := context.maxTransactionVoteTargets
  if votes.isEmpty then .ok ()
  else if votes.length > limit then
    .error (.invalidTransactionVotes (.tooManyTargets block.round block.author votes.length limit))
  else checkVoteTargets context block ∅ votes

def checkTransactions (batch : List Transaction) : Except ConsensusError Unit :=
  let config := context.protocolConfig
  let sizes := batch.map (·.data.length)
  match sizes.find? fun size =>
      size > config.maxTransactionSizeBytes ∧ config.maxTransactionSizeBytes > 0 with
  | some size => .error (.transactionTooLarge size config.maxTransactionSizeBytes)
  | none =>
    if batch.length > config.maxNumTransactionsInBlock ∧
        config.maxNumTransactionsInBlock > 0 then
      .error (.tooManyTransactions batch.length config.maxNumTransactionsInBlock)
    else if sizes.sum > config.maxTransactionsInBlockBytes ∧
        config.maxTransactionsInBlockBytes > 0 then
      -- the reported size is the number of transactions, as in the source
      .error (.tooManyTransactionBytes batch.length config.maxTransactionsInBlockBytes)
    else .ok ()

def versionMatches : Bool :=
  match block.version with
  | .v1 | .v2 => !context.protocolConfig.enableV3
  | .v3 => context.protocolConfig.enableV3

/-- The checks on the votes and the transactions that follow the ancestor loop. -/
def checkPayload : Except ConsensusError Unit :=
  if context.protocolConfig.enableV3 then
    if block.transactionVotesCutoffRound ≥ block.round then
      .error (.invalidTransactionVotesCutoff block.transactionVotesCutoffRound block.round)
    else
      match checkTransactionVotes context block with
      | .error e => .error e
      | .ok () => checkTransactions context block.transactions
  else checkTransactions context block.transactions

def verifyBlock : Except ConsensusError Unit :=
  let committee := context.committee
  if block.epoch ≠ committee.epoch then .error (.wrongEpoch committee.epoch block.epoch)
  else if block.round = 0 then .error .unexpectedGenesisBlock
  else if ¬ versionMatches context block then
    .error (.unexpectedBlockVersion block.slot context.protocolConfig.enableV3)
  else if ¬ committee.isValidIndex block.author then
    .error (.invalidAuthorityIndex (.verifyingBlock block.slot) block.author (committee.size - 1))
  else if ¬ context.verifySignature block then .error .signatureVerificationFailure
  else if block.ancestors.length > committee.size then
    .error (.tooManyAncestors block.ancestors.length committee.size)
  else if block.ancestors.isEmpty then
    .error (.insufficientParentStakes 0 committee.quorumThreshold)
  else
    match checkAncestors context block 0 ∅ 0 block.ancestors with
    | .error e => .error e
    | .ok parentStakes =>
      if ¬ committee.reachedQuorum parentStakes then
        .error (.insufficientParentStakes parentStakes committee.quorumThreshold)
      else checkPayload context block

/-! ### What the checks establish -/

def parentAuthors (ancestors : List BlockRef) : Finset Nat :=
  ((ancestors.filter fun ancestor => ancestor.round = block.round - 1).map BlockRef.author).toFinset

variable {context} {block : VerifiedBlock}

theorem checkAncestors_cons {i : Nat} {seen : Finset Nat}
    {parentStakes total : Nat} {ancestor : BlockRef} {rest : List BlockRef}
    (h : checkAncestors context block i seen parentStakes (ancestor :: rest) = .ok total) :
    context.committee.isValidIndex ancestor.author ∧
    (i = 0 ↔ ancestor.author = block.author) ∧
    ancestor.round < block.round ∧
    (ancestor.round = GENESIS_ROUND → ancestor ∈ context.genesisRefs) ∧
    ancestor.author ∉ seen ∧
    checkAncestors context block (i + 1) (insert ancestor.author seen)
      (if ancestor.round = block.round - 1 then
        parentStakes + context.committee.stake ancestor.author
      else parentStakes) rest = .ok total := by
  rw [checkAncestors] at h
  split_ifs at h with hvalid hposition hround hgenesis hseen hparent
  all_goals
    rw [not_or, not_and, not_and] at hposition
    have hfirst : i = 0 ↔ ancestor.author = block.author := by
      constructor
      · intro hi
        exact not_not.mp (hposition.1 hi)
      · intro hauthor
        by_contra hi
        exact hposition.2 (Nat.pos_of_ne_zero hi) hauthor
    have hmem : ancestor.round = GENESIS_ROUND → ancestor ∈ context.genesisRefs := by
      intro hzero
      by_contra hnot
      exact hgenesis ⟨hzero, hnot⟩
    exact ⟨hvalid, hfirst, not_le.mp hround, hmem, hseen, by simpa [hparent] using h⟩

theorem checkAncestors_ok {ancestors : List BlockRef} :
    ∀ {i : Nat} {seen : Finset Nat} {parentStakes total : Nat},
      checkAncestors context block i seen parentStakes ancestors = .ok total →
      (∀ ancestor ∈ ancestors, context.committee.isValidIndex ancestor.author ∧
        ancestor.round < block.round ∧
        (ancestor.round = GENESIS_ROUND → ancestor ∈ context.genesisRefs) ∧
        ancestor.author ∉ seen) ∧
      (ancestors.map BlockRef.author).Nodup ∧
      (i = 0 → ∀ ancestor ∈ ancestors.head?, ancestor.author = block.author) ∧
      total = parentStakes + weight context.committee.stake (parentAuthors block ancestors) := by
  induction ancestors with
  | nil =>
    intro i seen parentStakes total h
    simp only [checkAncestors, Except.ok.injEq] at h
    simp [parentAuthors, h]
  | cons ancestor rest ih =>
    intro i seen parentStakes total h
    obtain ⟨hvalid, hfirst, hround, hgenesis, hseen, hrest⟩ := checkAncestors_cons h
    obtain ⟨hall, hnodup, -, htotal⟩ := ih hrest
    have hfresh : ancestor.author ∉ rest.map BlockRef.author := by
      intro hmem
      obtain ⟨other, hother, heq⟩ := mem_map.mp hmem
      exact (hall other hother).2.2.2 (by rw [heq]; exact Finset.mem_insert_self _ _)
    refine ⟨?_, ?_, ?_, ?_⟩
    · intro other hother
      rcases mem_cons.mp hother with rfl | hother
      · exact ⟨hvalid, hround, hgenesis, hseen⟩
      · obtain ⟨hv, hr, hg, hs⟩ := hall other hother
        exact ⟨hv, hr, hg, fun hmem => hs (Finset.mem_insert_of_mem hmem)⟩
    · rw [map_cons]
      exact nodup_cons.mpr ⟨hfresh, hnodup⟩
    · intro hi other hother
      simp only [List.head?_cons, Option.mem_def] at hother
      cases hother
      exact hfirst.mp hi
    · by_cases hparent : ancestor.round = block.round - 1
      · have hnot : ancestor.author ∉ parentAuthors block rest := by
          intro hmem
          simp only [parentAuthors, mem_toFinset, mem_map, mem_filter] at hmem
          obtain ⟨other, ⟨hother, -⟩, heq⟩ := hmem
          exact hfresh (mem_map.mpr ⟨other, hother, heq⟩)
        have hinsert : parentAuthors block (ancestor :: rest) =
            insert ancestor.author (parentAuthors block rest) := by
          simp [parentAuthors, hparent]
        rw [hinsert, weight_insert hnot, htotal, if_pos hparent]
        omega
      · have hsame : parentAuthors block (ancestor :: rest) = parentAuthors block rest := by
          simp [parentAuthors, hparent]
        rw [hsame, htotal, if_neg hparent]

/-- What the commit rules use of a verified block. -/
structure WellFormed (context : Context) (block : VerifiedBlock) : Prop where
  round_pos : 0 < block.round
  author_valid : block.author < context.committee.size
  ancestor_valid : ∀ ancestor ∈ block.ancestors, ancestor.author < context.committee.size
  ancestor_round : ∀ ancestor ∈ block.ancestors, ancestor.round < block.round
  ancestor_genesis : ∀ ancestor ∈ block.ancestors, ancestor.round = GENESIS_ROUND →
    ancestor ∈ context.genesisRefs
  ancestor_authors : (block.ancestors.map BlockRef.author).Nodup
  own_first : ∃ rest own, block.ancestors = own :: rest ∧ own.author = block.author
  parents : context.committee.quorumThreshold ≤
    weight context.committee.stake (parentAuthors block block.ancestors)

theorem wellFormed_of_verifyBlock
    (h : verifyBlock context block = .ok ()) : WellFormed context block := by
  simp only [verifyBlock] at h
  split_ifs at h with hepoch hround hversion hauthor hsignature hcount hempty
  rcases hcheck : checkAncestors context block 0 ∅ 0 block.ancestors with e | parentStakes
  · rw [hcheck] at h
    simp at h
  · rw [hcheck] at h
    simp only at h
    split_ifs at h with hquorum
    obtain ⟨hall, hnodup, hfirst, htotal⟩ := checkAncestors_ok hcheck
    simp only [Committee.reachedQuorum, ge_iff_le, decide_eq_true_eq] at hquorum
    simp only [Committee.isValidIndex, decide_eq_true_eq] at hauthor hall
    obtain ⟨own, rest, hcons⟩ := exists_cons_of_ne_nil (fun hnil => hempty (isEmpty_iff.mpr hnil))
    exact {
      round_pos := Nat.pos_of_ne_zero hround
      author_valid := hauthor
      ancestor_valid := fun a ha => (hall a ha).1
      ancestor_round := fun a ha => (hall a ha).2.1
      ancestor_genesis := fun a ha => (hall a ha).2.2.1
      ancestor_authors := hnodup
      own_first := ⟨rest, own, hcons, hfirst rfl own (by simp [hcons])⟩
      parents := by omega }

end BlockVerifier

end Haneul.Consensus
