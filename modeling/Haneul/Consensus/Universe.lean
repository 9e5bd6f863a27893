import Haneul.Lib.RoundDag
import Haneul.Consensus.BlockVerifier

/-!
# The blocks of an epoch

A `BlockUniverse` is the set of all verified blocks that exist in an epoch, those
of faulty authors included: no node needs to have all of them.  References are
digests, so two blocks with one reference are the same block; an author outside
`faulty` signs at most one block in each round.  Nothing else is asked of the
faulty authors.

The universe is a weighted round DAG (`BlockUniverse.dag`), and what a node has
accepted is a view of it.
-/

namespace Haneul.Consensus

open Quorum

structure BlockUniverse (context : Context) where
  blocks : Set VerifiedBlock
  faulty : Finset Nat
  verified : ∀ {b}, b ∈ blocks → BlockVerifier.verifyBlock context b = .ok ()
  reference_inj : ∀ {b b'}, b ∈ blocks → b' ∈ blocks → b.reference = b'.reference → b = b'
  single : ∀ {b b'}, b ∈ blocks → b' ∈ blocks → b.author = b'.author → b.author ∉ faulty →
    b.round = b'.round → b = b'

namespace BlockUniverse

variable {context : Context} (U : BlockUniverse context) {b : VerifiedBlock}

theorem wellFormed (hb : b ∈ U.blocks) :
    BlockVerifier.WellFormed context b :=
  BlockVerifier.wellFormed_of_verifyBlock (U.verified hb)

def refs : Set BlockRef := {r | ∃ b ∈ U.blocks, b.reference = r}

def ancestors (r : BlockRef) : Set BlockRef :=
  {a | ∃ b ∈ U.blocks, b.reference = r ∧ a ∈ b.ancestors}

theorem reference_mem (hb : b ∈ U.blocks) : b.reference ∈ U.refs := ⟨b, hb, rfl⟩

theorem mem_ancestors (hb : b ∈ U.blocks) {a : BlockRef} :
    a ∈ U.ancestors b.reference ↔ a ∈ b.ancestors := by
  constructor
  · rintro ⟨b', hb', href, ha⟩
    rw [U.reference_inj hb hb' href.symm]
    exact ha
  · intro ha
    exact ⟨b, hb, rfl, ha⟩

def dag (hquorum : 0 < context.committee.quorumThreshold) : RoundDag BlockRef Nat where
  nodes := U.refs
  round := BlockRef.round
  author := BlockRef.author
  anc := U.ancestors
  stake := context.committee.stake
  total := sumStakes context.committee.authorities
  quorum := context.committee.quorumThreshold
  faulty := U.faulty
  bounded := context.committee.weight_le_sumStakes
  quorum_pos := hquorum
  round_lt := by
    rintro r a - ⟨b, hb, rfl, ha⟩
    exact (U.wellFormed hb).ancestor_round a ha
  anc_author := by
    rintro _ a a' ⟨b, hb, rfl⟩ ha ha' hauthor
    rw [U.mem_ancestors hb] at ha ha'
    exact List.inj_on_of_nodup_map (U.wellFormed hb).ancestor_authors ha ha' hauthor
  parents := by
    rintro _ ⟨b, hb, rfl⟩
    refine ⟨_, (U.wellFormed hb).parents, ?_⟩
    intro i hi
    simp only [BlockVerifier.parentAuthors, List.mem_toFinset, List.mem_map, List.mem_filter,
      decide_eq_true_eq] at hi
    obtain ⟨a, ⟨ha, hround⟩, hauthor⟩ := hi
    have hpos := (U.wellFormed hb).round_pos
    refine ⟨a, (U.mem_ancestors hb).mpr ha, hauthor, ?_⟩
    rw [VerifiedBlock.reference_round, hround, Nat.sub_add_cancel hpos]
  single := by
    rintro _ _ ⟨b, hb, rfl⟩ ⟨b', hb', rfl⟩ hauthor hfaulty hround
    rw [U.single hb hb' hauthor hfaulty hround]

end BlockUniverse

/-- A universe under v3: the committee was built by `Committee::new_v3`, and the
    authors that may sign several blocks in a round hold at most the scaled
    malicious budget `f` of its stake. -/
structure V3Universe (context : Context) extends BlockUniverse context where
  enableV3 : context.protocolConfig.enableV3 = true
  built : ∃ epoch authorities maliciousStake crashStake,
    Committee.newV3 epoch authorities maliciousStake crashStake = .ok context.committee
  faulty_le : weight context.committee.stake faulty ≤ context.committee.validityThreshold - 1

namespace V3Universe

variable {context : Context}

theorem certification_pos
    (U : V3Universe context) : 0 < context.committee.certificationThreshold := by
  obtain ⟨epoch, authorities, maliciousStake, crashStake, hbuilt⟩ := U.built
  exact (Committee.newV3_thresholds hbuilt).2.2.1

theorem certificate_meets_quorum (U : V3Universe context) :
    sumStakes context.committee.authorities + weight context.committee.stake U.faulty <
      context.committee.certificationThreshold + context.committee.quorumThreshold := by
  obtain ⟨epoch, authorities, maliciousStake, crashStake, hbuilt⟩ := U.built
  obtain ⟨hauthorities, htotal, -, hmeet, -⟩ := Committee.newV3_thresholds hbuilt
  have hfaulty := U.faulty_le
  rw [hauthorities, ← htotal]
  omega

/-- What two quorums have in common is still a certificate. -/
theorem certificate_survives (U : V3Universe context) :
    sumStakes context.committee.authorities + weight context.committee.stake U.faulty +
        context.committee.certificationThreshold ≤
      context.committee.quorumThreshold + context.committee.quorumThreshold := by
  obtain ⟨epoch, authorities, maliciousStake, crashStake, hbuilt⟩ := U.built
  obtain ⟨hauthorities, htotal, -, -, hsurvive⟩ := Committee.newV3_thresholds hbuilt
  have hfaulty := U.faulty_le
  rw [hauthorities, ← htotal]
  omega

theorem quorum_pos (U : V3Universe context) : 0 < context.committee.quorumThreshold := by
  have hpos := U.certification_pos
  have hsurvive := U.certificate_survives
  omega

theorem quorums_meet (U : V3Universe context) :
    sumStakes context.committee.authorities + weight context.committee.stake U.faulty <
      context.committee.quorumThreshold + context.committee.quorumThreshold := by
  have hpos := U.certification_pos
  have hsurvive := U.certificate_survives
  omega

end V3Universe

/-- A universe under v2: the committee was built by `Committee::new`, and the authors
    that may sign several blocks in a round hold at most `f = (total - 1) / 3` of its
    stake. -/
structure V2Universe (context : Context) extends BlockUniverse context where
  built : ∃ epoch authorities, Committee.new epoch authorities = .ok context.committee
  faulty_le : weight context.committee.stake faulty ≤ context.committee.validityThreshold - 1

namespace V2Universe

variable {context : Context}

theorem quorums_meet (U : V2Universe context) :
    sumStakes context.committee.authorities + weight context.committee.stake U.faulty <
      context.committee.quorumThreshold + context.committee.quorumThreshold := by
  obtain ⟨epoch, authorities, hbuilt⟩ := U.built
  obtain ⟨hauthorities, htotal, -, hmeet⟩ := Committee.new_thresholds hbuilt
  have hfaulty := U.faulty_le
  rw [hauthorities, ← htotal]
  omega

theorem quorum_pos (U : V2Universe context) : 0 < context.committee.quorumThreshold := by
  have hmeet := U.quorums_meet
  omega

end V2Universe

/-! ### An instance: the first rounds of a committee of one -/

namespace Solo

def committee : Committee where
  epoch := 0
  authorities := [⟨1⟩]
  totalStake := 1
  quorumThreshold := 1
  certificationThreshold := 1
  validityThreshold := 1

def context (enableV3 : Bool) : Context where
  committee := committee
  protocolConfig := { enableV3 := enableV3, gcDepth := 3 }
  epochStartTimestampMs := 0
  genesisDigest := fun _ => 0
  verifySignature := fun _ => true

def block (enableV3 : Bool) (round : Nat) : VerifiedBlock where
  version := if enableV3 then .v3 else .v2
  epoch := 0
  round := round
  author := 0
  timestampMs := round
  ancestors := [⟨round - 1, 0, round - 1⟩]
  transactions := []
  votes := []
  votesCutoffRound := 0
  digest := round

def blockUniverse (enableV3 : Bool) : BlockUniverse (context enableV3) where
  blocks := {b | ∃ n < 6, b = block enableV3 (n + 1)}
  faulty := ∅
  verified := by
    rintro b ⟨n, hn, rfl⟩
    interval_cases n <;> cases enableV3 <;> rfl
  reference_inj := by
    rintro _ _ ⟨n, -, rfl⟩ ⟨m, -, rfl⟩ h
    rw [show n = m by simpa [block, VerifiedBlock.reference] using h]
  single := by
    rintro _ _ ⟨n, -, rfl⟩ ⟨m, -, rfl⟩ - - h
    rw [show n = m by simpa [block] using h]

def v3Universe : V3Universe (context true) where
  toBlockUniverse := blockUniverse true
  enableV3 := rfl
  built := ⟨0, [⟨1⟩], 1, 1, rfl⟩
  faulty_le := Nat.le_refl 0

def v2Universe : V2Universe (context false) where
  toBlockUniverse := blockUniverse false
  built := ⟨0, [⟨1⟩], rfl⟩
  faulty_le := Nat.le_refl 0

end Solo

end Haneul.Consensus
