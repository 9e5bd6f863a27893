import Haneul.Lib.Window
import Haneul.Consensus.FlexNode

/-!
# The leader schedule of v3

Mirror of `consensus/core/src/leader_schedule_v3.rs`: each commit is scored three commits
later, a window of scores is summed up, and at the boundaries of an interval of commits
the authorities with the lowest sums are excluded as leaders.

A restarted node replays the last commits of its store (`fromStore`).  The replay starts
early enough: it ends in the state that the node had (`leader_schedule_recovery`).

Sums of commit indices and of the stakes of one commit are numbers; the checked
operations on the scores are those of `u64`.  The shuffle is a parameter.  The metrics
are left out.
-/

namespace Haneul.Consensus

open Quorum List

def MAX_PENDING_COMMITS : Nat := 3

namespace ProtocolConfig

def windowSize (config : ProtocolConfig) : Nat := max config.leaderScheduleWindowSize 1

def updateInterval (config : ProtocolConfig) : Nat := max config.leaderScheduleUpdateInterval 1

end ProtocolConfig

inductive SchedulePanic where
  | commitIndex (expected found : Nat)
  | leaderRounds
  | noLeaderBlocks
  | leaderMissing (leader : BlockRef)
  | scan (upper : Nat)
  | authorityIndex
  | overflow
  | underflow
deriving DecidableEq

/-- What the shuffle of the authorities is seeded with. -/
inductive ScheduleSeed where
  | commit (digest : Nat)
  | epoch (startTimestampMs epoch : Nat)
deriving DecidableEq

structure ScoresEntry where
  commitRef : CommitRef
  scoreContributions : List Nat
  numLeaders : Nat
  leaderStakes : Nat
deriving DecidableEq

structure ScoreTotals where
  totalScoresPerAuthority : List Nat
  totalNumLeaders : Nat
  totalLeaderStakes : Nat
deriving DecidableEq

structure LeaderScheduleV3 where
  totals : ScoreTotals
  pendingCommits : List CommittedSubDag := []
  scoresEntries : List ScoresEntry := []
  currentSchedule : NextCommitLeaderSchedule := {}

namespace LeaderScheduleV3

/-! ### Checked arithmetic -/

def checkedAdd (a b : Nat) : Except SchedulePanic Nat :=
  if a + b < 2 ^ 64 then .ok (a + b) else .error .overflow

def checkedSub (a b : Nat) : Except SchedulePanic Nat :=
  if b ≤ a then .ok (a - b) else .error .underflow

def checkedMul (a b : Nat) : Except SchedulePanic Nat :=
  if a * b < 2 ^ 64 then .ok (a * b) else .error .overflow

/-- Applies a change to each score; an index beyond the scores is an abort. -/
def updateScores (op : Nat → Nat → Except SchedulePanic Nat) :
    List Nat → List Nat → Except SchedulePanic (List Nat)
  | scores, [] => .ok scores
  | [], _ :: _ => .error .authorityIndex
  | score :: scores, delta :: deltas => do
    let score ← op score delta
    let scores ← updateScores op scores deltas
    return score :: scores

def updateTotals (op : Nat → Nat → Except SchedulePanic Nat) (totals : ScoreTotals)
    (entry : ScoresEntry) : Except SchedulePanic ScoreTotals := do
  let scores ← updateScores op totals.totalScoresPerAuthority entry.scoreContributions
  let numLeaders ← op totals.totalNumLeaders entry.numLeaders
  let leaderStakes ← op totals.totalLeaderStakes entry.leaderStakes
  return ⟨scores, numLeaders, leaderStakes⟩

/-! ### Scoring a commit -/

section Scoring

variable (context : Context)

/-- The commits up to and including the first one with a leader round above `upper`. -/
def commitsUntilAbove (upper : Nat) : List CommittedSubDag → List CommittedSubDag
  | [] => []
  | commit :: rest =>
    if commit.leader.round > upper then [commit] else commit :: commitsUntilAbove upper rest

def scanCommitsUntilLeaderRoundAbove (commits : List CommittedSubDag) (upper : Nat) :
    Except SchedulePanic (List CommittedSubDag) :=
  let out := commitsUntilAbove upper commits
  if out.getLast?.any fun commit => commit.leader.round > upper then .ok out
  else .error (.scan upper)

def blocksAtRound (commits : List CommittedSubDag) (round : Nat) : List VerifiedBlock :=
  (commits.flatMap CommittedSubDag.blocks).filter fun block => block.round = round

/-- The score of an authority: the stake it voted for times the stake that certified its
    vote, zero if it has no or several blocks in the voting round. -/
def contribution (leaderRefs : Finset BlockRef) (votingBlocks certifyingBlocks : List VerifiedBlock)
    (authority : Nat) : Except SchedulePanic Nat :=
  match votingBlocks.filter fun block => block.author = authority with
  | [votingBlock] =>
    let leaderAuthorities :=
      ((votingBlock.ancestors.filter fun ancestor => ancestor ∈ leaderRefs).map
        BlockRef.author).toFinset
    let votedForStake := weight context.committee.stake leaderAuthorities
    if votedForStake = 0 then .ok 0
    else
      let certifyingAuthorities :=
        ((certifyingBlocks.filter fun block => votingBlock.reference ∈ block.ancestors).map
          VerifiedBlock.author).toFinset
      checkedMul votedForStake (weight context.committee.stake certifyingAuthorities)
  | _ => .ok 0

def leaderRefs (commit : CommittedSubDag) : Finset BlockRef :=
  ((commit.blocks.filter fun block => block.round = commit.leader.round).map
    VerifiedBlock.reference).toFinset

/-- The votes in the round after the leaders, and their certificates in the round after
    that, as far as they were committed in time. -/
def scoreContributions (cMinus3 : CommittedSubDag) (later : List CommittedSubDag) :
    Except SchedulePanic (List Nat) := do
  let voteRound := cMinus3.leader.round + 1
  let certifyRound := cMinus3.leader.round + 2
  let votingCommits ← scanCommitsUntilLeaderRoundAbove later voteRound
  let certifyingCommits ← scanCommitsUntilLeaderRoundAbove later certifyRound
  (List.range context.committee.size).mapM
    (contribution context (leaderRefs cMinus3) (blocksAtRound votingCommits voteRound)
      (blocksAtRound certifyingCommits certifyRound))

/-- The score entry of `cMinus3`, from the three commits after it. -/
def scoreCommit (cMinus3 cMinus2 cMinus1 c : CommittedSubDag) : Except SchedulePanic ScoresEntry :=
  if ¬ (cMinus3.leader.round < cMinus2.leader.round ∧ cMinus2.leader.round < cMinus1.leader.round ∧
      cMinus1.leader.round < c.leader.round) then .error .leaderRounds
  else if leaderRefs cMinus3 = ∅ then .error .noLeaderBlocks
  else if cMinus3.leader ∉ leaderRefs cMinus3 then .error (.leaderMissing cMinus3.leader)
  else do
    let contributions ← scoreContributions context cMinus3 [cMinus2, cMinus1, c]
    return {
      commitRef := cMinus3.commitRef
      scoreContributions := contributions
      numLeaders := (leaderRefs cMinus3).card
      leaderStakes := ∑ reference ∈ leaderRefs cMinus3, context.committee.stake reference.author }

end Scoring

/-! ### The current schedule -/

section Schedule

variable (context : Context) (shuffle : ScheduleSeed → List (Nat × Nat) → List (Nat × Nat))
  (s : LeaderScheduleV3)

def nextCommitIndex : Nat :=
  (match s.pendingCommits.getLast? with
    | some commit => commit.commitRef.index
    | none => 0) + 1

def minNextLeaderRound : Nat :=
  (match s.pendingCommits.getLast? with
    | some commit => commit.leader.round
    | none => 0) + 1

/-- Removes authorities from the end of the ranking while their stake is within the
    cutoff.  The ranking is given from its end. -/
def dropBadNodes (cutoff : Nat) : Nat → List (Nat × Nat) → List (Nat × Nat)
  | _, [] => []
  | accumulatedBadStake, (authority, score) :: rest =>
    let stake := context.committee.stake authority
    if accumulatedBadStake + stake > cutoff then (authority, score) :: rest
    else dropBadNodes cutoff (accumulatedBadStake + stake) rest

def selectAllowedLeadersWithFixedConfig : List Nat :=
  let byScore := (List.range s.totals.totalScoresPerAuthority.length).zip
    s.totals.totalScoresPerAuthority
  let seed := match s.pendingCommits.getLast? with
    | some commit => ScheduleSeed.commit commit.commitRef.digest
    | none => ScheduleSeed.epoch context.epochStartTimestampMs context.committee.epoch
  let ranked := (shuffle seed byScore).insertionSort fun a b => a.2 ≥ b.2
  let cutoff := context.protocolConfig.badNodesStakeThreshold * context.committee.totalStake / 100
  ((dropBadNodes context cutoff 0 ranked.reverse).reverse).map Prod.fst

def computeNextCommitLeaderSchedule : NextCommitLeaderSchedule where
  nextCommitIndex := s.nextCommitIndex
  minNextLeaderRound := s.minNextLeaderRound
  allowedLeaders := selectAllowedLeadersWithFixedConfig context shuffle s

def refreshCurrentSchedule : LeaderScheduleV3 :=
  let interval := context.protocolConfig.updateInterval
  if (s.nextCommitIndex - 1) % interval = 0 then
    { s with currentSchedule := computeNextCommitLeaderSchedule context shuffle s }
  else
    { s with
      currentSchedule := { s.currentSchedule with
        nextCommitIndex := s.nextCommitIndex
        minNextLeaderRound := s.minNextLeaderRound } }

def new : LeaderScheduleV3 :=
  let s : LeaderScheduleV3 := { totals := ⟨List.replicate context.committee.size 0, 0, 0⟩ }
  { s with currentSchedule := computeNextCommitLeaderSchedule context shuffle s }

/-! ### Adding commits -/

/-- Removes the oldest entries of a full window and their scores. -/
def evict (windowSize : Nat) :
    List ScoresEntry → ScoreTotals → Except SchedulePanic (List ScoresEntry × ScoreTotals)
  | [], totals => .ok ([], totals)
  | entry :: rest, totals =>
    if rest.length + 1 ≥ windowSize then do
      let totals ← updateTotals checkedSub totals entry
      evict windowSize rest totals
    else .ok (entry :: rest, totals)

def indexGap (c : CommittedSubDag) : Bool :=
  s.pendingCommits.getLast?.any fun last => c.commitRef.index ≠ last.commitRef.index + 1

def addCommit (c : CommittedSubDag) :
    Except SchedulePanic LeaderScheduleV3 :=
  if s.indexGap c then .error (.commitIndex s.nextCommitIndex c.commitRef.index)
  else
    match s.pendingCommits with
    | [cMinus3, cMinus2, cMinus1] => do
      let entry ← scoreCommit context cMinus3 cMinus2 cMinus1 c
      let (entries, totals) ← evict context.protocolConfig.windowSize s.scoresEntries s.totals
      let totals ← updateTotals checkedAdd totals entry
      return refreshCurrentSchedule context shuffle
        { s with
          totals := totals
          scoresEntries := entries ++ [entry]
          pendingCommits := [cMinus2, cMinus1, c] }
    | _ =>
      -- fewer than three commits are buffered
      .ok (refreshCurrentSchedule context shuffle
        { s with pendingCommits := s.pendingCommits ++ [c] })

def addCommits (commits : List CommittedSubDag) :
    Except SchedulePanic LeaderScheduleV3 :=
  commits.foldlM (addCommit context shuffle) s

/-! ### Recovery -/

def replayStart (lastCommitIndex : Nat) : Nat :=
  let windowSize := context.protocolConfig.windowSize
  let updateInterval := context.protocolConfig.updateInterval
  let lastScheduleUpdateIndex := (lastCommitIndex / updateInterval) * updateInterval + 1
  max (lastScheduleUpdateIndex - (windowSize + MAX_PENDING_COMMITS)) 1

/-- `LeaderScheduleV3::from_store`; `stored` are the commits of the store. -/
def fromStore (stored : List CommittedSubDag) (lastCommitIndex : Nat) :
    Except SchedulePanic LeaderScheduleV3 :=
  if lastCommitIndex = 0 then .ok (new context shuffle)
  else
    let start := replayStart context lastCommitIndex
    addCommits context shuffle (new context shuffle)
      (stored.filter fun commit => start ≤ commit.commitRef.index ∧
        commit.commitRef.index ≤ lastCommitIndex)

end Schedule

/-! ### The sums over the window -/

/-- The exact sums of some entries. -/
def totalsOf (size : Nat) (entries : List ScoresEntry) : ScoreTotals where
  totalScoresPerAuthority := (List.range size).map fun i =>
    (entries.map fun entry => entry.scoreContributions.getD i 0).sum
  totalNumLeaders := (entries.map ScoresEntry.numLeaders).sum
  totalLeaderStakes := (entries.map ScoresEntry.leaderStakes).sum

theorem range_map_getD {l : List Nat} {n : Nat} (h : l.length = n) :
    (List.range n).map (fun i => l.getD i 0) = l := by
  subst h
  refine ext_getElem (by simp) fun i hi hi' => ?_
  simp [getD_eq_getElem?_getD, List.getElem?_eq_getElem hi']

theorem updateScores_map {op : Nat → Nat → Except SchedulePanic Nat} {f g h : Nat → Nat} :
    ∀ {indices : List Nat}, (∀ i ∈ indices, op (f i) (g i) = .ok (h i)) →
      updateScores op (indices.map f) (indices.map g) = .ok (indices.map h)
  | [], _ => rfl
  | i :: rest, hop => by
    rw [map_cons, map_cons, updateScores]
    exact bind₂_eq_ok.mpr ⟨h i, hop i (.head _), rest.map h,
      updateScores_map fun i' hi' => hop i' (.tail i hi'), rfl⟩

theorem checkedAdd_of_lt {a b : Nat} (h : a + b < 2 ^ 64) : checkedAdd a b = .ok (a + b) := if_pos h

theorem updateScores_overflow {f g : Nat → Nat} :
    ∀ {indices : List Nat}, (∃ i ∈ indices, ¬ f i + g i < 2 ^ 64) →
      updateScores checkedAdd (indices.map f) (indices.map g) = .error .overflow
  | [], h => by simp at h
  | i :: rest, h => by
    rw [map_cons, map_cons, updateScores]
    by_cases hi : f i + g i < 2 ^ 64
    · obtain ⟨i', hi', hover⟩ := h
      have hrest : i' ∈ rest := by
        rcases mem_cons.mp hi' with rfl | hi'
        · exact absurd hi hover
        · exact hi'
      rw [checkedAdd_of_lt hi]
      rw [updateScores_overflow ⟨i', hrest, hover⟩]
      rfl
    · rw [checkedAdd, if_neg hi]
      rfl

section Totals

variable {size : Nat} {entries : List ScoresEntry} {entry : ScoresEntry}

theorem updateTotals_sub (hlength : entry.scoreContributions.length = size) :
    updateTotals checkedSub (totalsOf size (entry :: entries)) entry =
      .ok (totalsOf size entries) := by
  have hsub : ∀ a b : Nat, checkedSub (a + b) a = .ok b := by
    intro a b
    rw [checkedSub, if_pos (Nat.le_add_right a b), Nat.add_sub_cancel_left]
  unfold updateTotals
  rw [← range_map_getD hlength]
  refine bind₃_eq_ok.mpr ⟨_, updateScores_map fun i _ => ?_, _, ?_,
    _, ?_, rfl⟩
  · rw [map_cons, sum_cons]
    exact hsub _ _
  · exact hsub _ _
  · exact hsub _ _

structure Fits (size : Nat) (entries : List ScoresEntry) : Prop where
  scores : ∀ i ∈ List.range size,
    (entries.map fun entry => entry.scoreContributions.getD i 0).sum < 2 ^ 64
  numLeaders : (entries.map ScoresEntry.numLeaders).sum < 2 ^ 64
  leaderStakes : (entries.map ScoresEntry.leaderStakes).sum < 2 ^ 64

theorem Fits.sublist {entries' : List ScoresEntry} (h : Fits size entries)
    (hsub : entries'.Sublist entries) : Fits size entries' where
  scores := fun i hi => (hsub.map _).sum_le_sum (by simp) |>.trans_lt (h.scores i hi)
  numLeaders := (hsub.map _).sum_le_sum (by simp) |>.trans_lt h.numLeaders
  leaderStakes := (hsub.map _).sum_le_sum (by simp) |>.trans_lt h.leaderStakes

theorem updateTotals_add (hlength : entry.scoreContributions.length = size)
    (hfits : Fits size (entries ++ [entry])) :
    updateTotals checkedAdd (totalsOf size entries) entry =
      .ok (totalsOf size (entries ++ [entry])) := by
  have hscores := hfits.scores
  have hnum := hfits.numLeaders
  have hstakes := hfits.leaderStakes
  simp only [map_append, map_cons, map_nil, sum_append, sum_singleton] at hscores hnum hstakes
  unfold updateTotals
  rw [← range_map_getD hlength]
  refine bind₃_eq_ok.mpr ⟨_, updateScores_map fun i hi => checkedAdd_of_lt (hscores i hi),
    _, checkedAdd_of_lt hnum, _, checkedAdd_of_lt hstakes, ?_⟩
  simp [totalsOf]
  rfl

theorem updateTotals_overflow (hlength : entry.scoreContributions.length = size)
    (hfits : ¬ Fits size (entries ++ [entry])) :
    updateTotals checkedAdd (totalsOf size entries) entry = .error .overflow := by
  unfold updateTotals
  rw [← range_map_getD hlength]
  by_cases hscores : ∀ i ∈ List.range size,
      (entries.map fun e => e.scoreContributions.getD i 0).sum +
        entry.scoreContributions.getD i 0 < 2 ^ 64
  · have hrun : updateScores checkedAdd (totalsOf size entries).totalScoresPerAuthority
        ((List.range size).map fun i => entry.scoreContributions.getD i 0) = .ok _ :=
      updateScores_map fun i hi => checkedAdd_of_lt (hscores i hi)
    rw [hrun]
    by_cases hnum : (totalsOf size entries).totalNumLeaders + entry.numLeaders < 2 ^ 64
    · rw [checkedAdd_of_lt hnum, checkedAdd, if_neg]
      · rfl
      · refine fun hstakes => hfits ⟨?_, ?_, ?_⟩
        · simpa using hscores
        · simpa [totalsOf] using hnum
        · simpa [totalsOf] using hstakes
    · rw [checkedAdd, if_neg hnum]
      rfl
  · rw [totalsOf, updateScores_overflow (by simpa using hscores)]
    rfl

end Totals

/-! ### One commit -/

theorem evict_spec {size windowSize : Nat} (hpos : 0 < windowSize) :
    ∀ {entries : List ScoresEntry}, (∀ entry ∈ entries, entry.scoreContributions.length = size) →
      evict windowSize entries (totalsOf size entries) =
        .ok (entries.rtake (windowSize - 1), totalsOf size (entries.rtake (windowSize - 1)))
  | [], _ => by simp [evict]
  | entry :: rest, hlengths => by
    rw [evict, Window.rtake_cons]
    by_cases hfull : rest.length + 1 ≥ windowSize
    · rw [if_pos hfull, if_pos (by omega)]
      exact bind_eq_ok.mpr ⟨_, updateTotals_sub (hlengths entry (.head _)),
        evict_spec hpos fun e he => hlengths e (.tail entry he)⟩
    · rw [if_neg hfull, if_neg (by omega)]

structure Inv (context : Context) (s : LeaderScheduleV3) : Prop where
  totals : s.totals = totalsOf context.committee.size s.scoresEntries
  window : s.scoresEntries.length ≤ context.protocolConfig.windowSize
  lengths : ∀ entry ∈ s.scoresEntries, entry.scoreContributions.length = context.committee.size
  pending : s.pendingCommits.length ≤ MAX_PENDING_COMMITS

theorem windowSize_pos (config : ProtocolConfig) : 0 < config.windowSize :=
  Nat.lt_of_lt_of_le Nat.zero_lt_one (Nat.le_max_right _ _)

section Steps

variable {context : Context} {shuffle : ScheduleSeed → List (Nat × Nat) → List (Nat × Nat)}
  {s s' : LeaderScheduleV3} {c : CommittedSubDag} {commits : List CommittedSubDag}
  {c₃ c₂ c₁ : CommittedSubDag}

@[simp] theorem refresh_totals :
    (refreshCurrentSchedule context shuffle s).totals = s.totals := by
  unfold refreshCurrentSchedule
  dsimp only
  split_ifs <;> rfl

@[simp] theorem refresh_pendingCommits :
    (refreshCurrentSchedule context shuffle s).pendingCommits = s.pendingCommits := by
  unfold refreshCurrentSchedule
  dsimp only
  split_ifs <;> rfl

@[simp] theorem refresh_scoresEntries :
    (refreshCurrentSchedule context shuffle s).scoresEntries = s.scoresEntries := by
  unfold refreshCurrentSchedule
  dsimp only
  split_ifs <;> rfl

theorem inv_new : Inv context (new context shuffle) where
  totals := by
    simp only [new, totalsOf, map_nil, sum_nil, map_const', length_range]
  window := Nat.zero_le _
  lengths := by simp [new]
  pending := Nat.zero_le _

theorem scoreCommit_length {entry : ScoresEntry} (h : scoreCommit context c₃ c₂ c₁ c = .ok entry) :
    entry.scoreContributions.length = context.committee.size := by
  unfold scoreCommit at h
  split_ifs at h
  obtain ⟨contributions, hcontributions, h⟩ := bind_eq_ok.mp h
  cases h
  obtain ⟨voting, -, certifying, -, hscores⟩ := bind₂_eq_ok.mp hcontributions
  rw [mapM_length hscores, length_range]

def pushed (context : Context) (entries : List ScoresEntry) (entry : ScoresEntry) :
    List ScoresEntry :=
  entries.rtake (context.protocolConfig.windowSize - 1) ++ [entry]

/-- **What a commit does.**  With fewer than three commits it is buffered.  Otherwise the
    oldest of them is scored, and its entry enters the window unless a sum overflows. -/
inductive Adds (context : Context) (shuffle : ScheduleSeed → List (Nat × Nat) → List (Nat × Nat))
    (s : LeaderScheduleV3) (c : CommittedSubDag) : Except SchedulePanic LeaderScheduleV3 → Prop where
  | gap (gap : s.indexGap c = true) :
      Adds context shuffle s c (.error (.commitIndex s.nextCommitIndex c.commitRef.index))
  | buffered (next : s.indexGap c = false) (short : s.pendingCommits.length < MAX_PENDING_COMMITS) :
      Adds context shuffle s c (.ok (refreshCurrentSchedule context shuffle
        { s with pendingCommits := s.pendingCommits ++ [c] }))
  | unscored {c₃ c₂ c₁ : CommittedSubDag} {e : SchedulePanic} (next : s.indexGap c = false)
      (full : s.pendingCommits = [c₃, c₂, c₁]) (score : scoreCommit context c₃ c₂ c₁ c = .error e) :
      Adds context shuffle s c (.error e)
  | overflow {c₃ c₂ c₁ : CommittedSubDag} {entry : ScoresEntry} (next : s.indexGap c = false)
      (full : s.pendingCommits = [c₃, c₂, c₁]) (score : scoreCommit context c₃ c₂ c₁ c = .ok entry)
      (unfit : ¬ Fits context.committee.size (pushed context s.scoresEntries entry)) :
      Adds context shuffle s c (.error .overflow)
  | scored {c₃ c₂ c₁ : CommittedSubDag} {entry : ScoresEntry} (next : s.indexGap c = false)
      (full : s.pendingCommits = [c₃, c₂, c₁]) (score : scoreCommit context c₃ c₂ c₁ c = .ok entry)
      (fits : Fits context.committee.size (pushed context s.scoresEntries entry)) :
      Adds context shuffle s c (.ok (refreshCurrentSchedule context shuffle
        { s with
          totals := totalsOf context.committee.size (pushed context s.scoresEntries entry)
          scoresEntries := pushed context s.scoresEntries entry
          pendingCommits := [c₂, c₁, c] }))

theorem Adds.unique {r r' : Except SchedulePanic LeaderScheduleV3} (h : Adds context shuffle s c r)
    (h' : Adds context shuffle s c r') : r = r' := by
  cases h <;> cases h' <;> simp_all [MAX_PENDING_COMMITS]

theorem addCommit_adds (h : Inv context s) :
    Adds context shuffle s c (addCommit context shuffle s c) := by
  unfold addCommit
  by_cases hgap : s.indexGap c = true
  · rw [if_pos hgap]
    exact .gap hgap
  rw [if_neg hgap]
  rw [Bool.not_eq_true] at hgap
  split
  case h_1 c₃ c₂ c₁ hfull =>
    have hevict := evict_spec (windowSize_pos context.protocolConfig) h.lengths
    rw [← h.totals] at hevict
    cases hscore : scoreCommit context c₃ c₂ c₁ c with
    | error e => exact .unscored hgap hfull hscore
    | ok entry =>
      show Adds context shuffle s c
        (evict context.protocolConfig.windowSize s.scoresEntries s.totals >>= _)
      rw [hevict]
      have hlength := scoreCommit_length hscore
      by_cases hfits : Fits context.committee.size (pushed context s.scoresEntries entry)
      · show Adds context shuffle s c (updateTotals checkedAdd _ entry >>= _)
        rw [updateTotals_add hlength hfits]
        exact .scored hgap hfull hscore hfits
      · show Adds context shuffle s c (updateTotals checkedAdd _ entry >>= _)
        rw [updateTotals_overflow hlength hfits]
        exact .overflow hgap hfull hscore hfits
  case h_2 hnot =>
    refine .buffered hgap ?_
    have hle := h.pending
    unfold MAX_PENDING_COMMITS at hle ⊢
    by_contra hge
    have hlen : s.pendingCommits.length = 3 := by omega
    obtain ⟨c₃, c₂, c₁, hfull⟩ := length_eq_three.mp hlen
    exact hnot c₃ c₂ c₁ hfull

theorem addCommit_ok (h : Inv context s) (hadd : addCommit context shuffle s c = .ok s') :
    s.indexGap c = false ∧
      ((s.pendingCommits.length < MAX_PENDING_COMMITS ∧
        s' = refreshCurrentSchedule context shuffle
          { s with pendingCommits := s.pendingCommits ++ [c] }) ∨
      ∃ c₃ c₂ c₁ entry, s.pendingCommits = [c₃, c₂, c₁] ∧
        scoreCommit context c₃ c₂ c₁ c = .ok entry ∧
        Fits context.committee.size (pushed context s.scoresEntries entry) ∧
        s' = refreshCurrentSchedule context shuffle
          { s with
            totals := totalsOf context.committee.size (pushed context s.scoresEntries entry)
            scoresEntries := pushed context s.scoresEntries entry
            pendingCommits := [c₂, c₁, c] }) := by
  have hcases := @addCommit_adds context shuffle s c h
  rw [hadd] at hcases
  cases hcases with
  | buffered next short => exact ⟨next, .inl ⟨short, rfl⟩⟩
  | scored next full score fits => exact ⟨next, .inr ⟨_, _, _, _, full, score, fits, rfl⟩⟩

theorem addCommit_error {e : SchedulePanic} (h : Inv context s)
    (hadd : addCommit context shuffle s c = .error e) :
    e = .overflow ∨ s.indexGap c = true ∧ e ≠ .underflow ∨
      ∃ c₃ c₂ c₁, s.pendingCommits = [c₃, c₂, c₁] ∧ scoreCommit context c₃ c₂ c₁ c = .error e := by
  have hcases := @addCommit_adds context shuffle s c h
  rw [hadd] at hcases
  cases hcases with
  | gap gap => exact .inr (.inl ⟨gap, nofun⟩)
  | overflow => exact .inl rfl
  | unscored _ full score => exact .inr (.inr ⟨_, _, _, full, score⟩)

theorem Inv.step (h : Inv context s) (hadd : addCommit context shuffle s c = .ok s') :
    Inv context s' := by
  have hpos := windowSize_pos context.protocolConfig
  obtain ⟨-, ⟨short, rfl⟩ | ⟨c₃, c₂, c₁, entry, -, score, -, rfl⟩⟩ := addCommit_ok h hadd
  · refine ⟨by simp [h.totals], by simpa using h.window, by simpa using h.lengths, ?_⟩
    rw [refresh_pendingCommits, length_append, length_singleton]
    exact short
  · refine ⟨by simp, ?_, ?_, ?_⟩
    · rw [refresh_scoresEntries]
      simp only [pushed, length_append, Window.length_rtake, length_singleton]
      omega
    · rw [refresh_scoresEntries]
      exact forall_mem_append.mpr ⟨fun e he => h.lengths e ((Window.rtake_suffix _ _).subset he),
        forall_mem_singleton.mpr (scoreCommit_length score)⟩
    · simp [MAX_PENDING_COMMITS]

/-! ### Only a sum can overflow -/

def HasLeader (commit : CommittedSubDag) : Prop := ∃ b ∈ commit.blocks, b.reference = commit.leader

theorem HasLeader.mem_leaderRefs {commit : CommittedSubDag} (h : HasLeader commit) :
    commit.leader ∈ leaderRefs commit := by
  obtain ⟨b, hb, href⟩ := h
  simp only [leaderRefs, mem_toFinset, mem_map, mem_filter, decide_eq_true_eq]
  exact ⟨b, ⟨hb, by rw [← href]; rfl⟩, href⟩

theorem scan_total {upper : Nat} :
    (∀ {e : SchedulePanic}, scanCommitsUntilLeaderRoundAbove commits upper = .error e →
      e = .scan upper) ∧
    ∀ {last : CommittedSubDag}, commits.getLast? = some last → upper < last.leader.round →
      ∃ out, scanCommitsUntilLeaderRoundAbove commits upper = .ok out := by
  have hend : ∀ {commits : List CommittedSubDag} {last : CommittedSubDag},
      commits.getLast? = some last → upper < last.leader.round →
      ∃ commit, (commitsUntilAbove upper commits).getLast? = some commit ∧
        upper < commit.leader.round := by
    intro commits
    induction commits with
    | nil => exact fun hlast _ => by simp at hlast
    | cons commit rest ih =>
      intro last hlast habove
      unfold commitsUntilAbove
      split_ifs with hround
      · exact ⟨commit, rfl, hround⟩
      · cases rest with
        | nil =>
          cases hlast
          exact absurd habove hround
        | cons next rest =>
          obtain ⟨commit', hcommit', habove'⟩ := ih (by simpa using hlast) habove
          refine ⟨commit', ?_, habove'⟩
          rw [List.getLast?_cons, hcommit']
          rfl
  unfold scanCommitsUntilLeaderRoundAbove
  dsimp only
  refine ⟨fun h => ?_, fun hlast habove => ?_⟩
  · split_ifs at h
    exact (Except.error.inj h).symm
  · obtain ⟨commit, hcommit, hround⟩ := hend hlast habove
    rw [hcommit]
    exact ⟨_, if_pos (by simpa using hround)⟩

theorem contribution_total {refs : Finset BlockRef} {voting certifying : List VerifiedBlock}
    {authority : Nat} :
    contribution context refs voting certifying authority = .error .overflow ∨
      ∃ score, contribution context refs voting certifying authority = .ok score := by
  unfold contribution checkedMul
  split
  · dsimp only
    split_ifs
    · exact .inr ⟨_, rfl⟩
    · exact .inr ⟨_, rfl⟩
    · exact .inl rfl
  · exact .inr ⟨_, rfl⟩

/-- The contributions overflow, or a scan aborts because the leader rounds do not rise. -/
theorem scoreContributions_error {later : List CommittedSubDag} {e : SchedulePanic}
    (h : scoreContributions context c later = .error e) :
    e = .overflow ∨ ∃ upper ≤ c.leader.round + 2, e = .scan upper ∧
      scanCommitsUntilLeaderRoundAbove later upper = .error (.scan upper) := by
  rcases bind_eq_error.mp h with hvoting | ⟨voting, -, h⟩
  · obtain rfl := scan_total.1 hvoting
    exact .inr ⟨_, Nat.le_succ _, rfl, hvoting⟩
  rcases bind_eq_error.mp h with hcertifying | ⟨certifying, -, h⟩
  · obtain rfl := scan_total.1 hcertifying
    exact .inr ⟨_, Nat.le_refl _, rfl, hcertifying⟩
  left
  rcases mapM_total_or fun a _ => contribution_total with hover | ⟨scores, hok⟩
  · exact Except.error.inj (h.symm.trans hover)
  · cases hok.symm.trans h

theorem scoreCommit_total
    (hrounds : c₃.leader.round < c₂.leader.round ∧ c₂.leader.round < c₁.leader.round ∧
      c₁.leader.round < c.leader.round) (hleader : HasLeader c₃) {e : SchedulePanic}
    (h : scoreCommit context c₃ c₂ c₁ c = .error e) : e = .overflow := by
  have hmem := hleader.mem_leaderRefs
  unfold scoreCommit at h
  rw [if_neg (not_not.mpr hrounds), if_neg (Finset.ne_empty_of_mem hmem),
    if_neg (not_not.mpr hmem)] at h
  rcases bind_eq_error.mp h with h | ⟨_, _, h⟩
  · rcases scoreContributions_error h with rfl | ⟨upper, hle, rfl, hscan⟩
    · rfl
    · obtain ⟨out, hout⟩ := (@scan_total [c₂, c₁, c] upper).2 rfl
        (show upper < c.leader.round by omega)
      rw [hscan] at hout
      cases hout
  · cases h

theorem scoreCommit_ne_underflow :
    scoreCommit context c₃ c₂ c₁ c ≠ .error .underflow := by
  intro h
  unfold scoreCommit at h
  split_ifs at h with hrounds hrefs hleader
  · cases h
  · rcases bind_eq_error.mp h with h | ⟨_, _, h⟩
    · rcases scoreContributions_error h with he | ⟨upper, -, he, -⟩ <;> cases he
    · cases h
  · cases h
  · cases h

/-! ### A replay that starts late -/

/-- A replay that has seen only the last `n` commits: it has the commits that are still
    to be scored, and the scores of the commits it has seen. -/
structure Lags (context : Context) (n : Nat) (live replay : LeaderScheduleV3) : Prop where
  liveInv : Inv context live
  replayInv : Inv context replay
  seen : min n MAX_PENDING_COMMITS ≤ live.pendingCommits.length
  pending : replay.pendingCommits = live.pendingCommits.rtake n
  entries : replay.scoresEntries = live.scoresEntries.rtake (n - MAX_PENDING_COMMITS)

theorem Lags.indexGap {n : Nat} {live replay : LeaderScheduleV3} (h : Lags context n live replay)
    (hgap : live.indexGap c = false) : replay.indexGap c = false := by
  unfold LeaderScheduleV3.indexGap at hgap ⊢
  rw [h.pending]
  cases n with
  | zero => simp
  | succ n =>
    rw [Window.getLast?_rtake (Nat.succ_pos n)]
    exact hgap

theorem Lags.step {n : Nat} {live live' replay : LeaderScheduleV3}
    (h : Lags context n live replay) (hadd : addCommit context shuffle live c = .ok live') :
    ∃ replay', addCommit context shuffle replay c = .ok replay' ∧
      Lags context (n + 1) live' replay' := by
  have hlive' := h.liveInv.step hadd
  have hpending := h.pending
  have hseen := h.seen
  have hle := h.liveInv.pending
  have hlength := congrArg List.length hpending
  have hmax : MAX_PENDING_COMMITS = 3 := rfl
  have hreplay := @addCommit_adds context shuffle replay c h.replayInv
  rw [Window.length_rtake] at hlength
  obtain ⟨next, ⟨short, rfl⟩ | ⟨c₃, c₂, c₁, entry, full, score, fits, rfl⟩⟩ :=
    addCommit_ok h.liveInv hadd
  · -- the replay buffers the commit: what it has seen is part of what the other has
    have hrun := hreplay.unique (.buffered (h.indexGap next) (by omega))
    refine ⟨_, hrun, hlive', h.replayInv.step hrun, ?_, ?_, ?_⟩
    · rw [refresh_pendingCommits, length_append, length_singleton]
      omega
    · rw [refresh_pendingCommits, refresh_pendingCommits, rtake_concat_succ, hpending]
    · have hzero : n + 1 - MAX_PENDING_COMMITS = n - MAX_PENDING_COMMITS := by omega
      rw [refresh_scoresEntries, refresh_scoresEntries, hzero]
      exact h.entries
  · rw [full] at hpending hlength
    by_cases hn : n ≤ 2
    · have hrun := hreplay.unique (.buffered (h.indexGap next) (by omega))
      refine ⟨_, hrun, hlive', h.replayInv.step hrun, ?_, ?_, ?_⟩
      · rw [refresh_pendingCommits]
        exact Nat.min_le_right _ _
      · rw [refresh_pendingCommits, refresh_pendingCommits, hpending,
          show ([_, _, c] : List CommittedSubDag) = [_, _] ++ [c] from rfl,
          rtake_concat_succ, ← Window.rtake_tail (Nat.lt_succ_of_le hn)]
        rfl
      · have hzero : n + 1 - MAX_PENDING_COMMITS = 0 := by omega
        have hzero' : n - MAX_PENDING_COMMITS = 0 := by omega
        rw [refresh_scoresEntries, refresh_scoresEntries, hzero, rtake_zero, h.entries,
          hzero', rtake_zero]
    · -- both score the same commit
      have hsame : replay.pendingCommits = live.pendingCommits := by
        rw [hpending, full, Window.rtake_of_length_le]
        simp only [length_cons, length_nil]
        omega
      have hpushed : pushed context replay.scoresEntries entry =
          (pushed context live.scoresEntries entry).rtake (n + 1 - MAX_PENDING_COMMITS) := by
        have hn' : n + 1 - MAX_PENDING_COMMITS = n - MAX_PENDING_COMMITS + 1 := by omega
        rw [hn', pushed, pushed, rtake_concat_succ, h.entries, Window.rtake_comm]
      have hfits : Fits context.committee.size (pushed context replay.scoresEntries entry) := by
        rw [hpushed]
        exact fits.sublist (Window.rtake_suffix _ _).sublist
      have hrun := hreplay.unique (.scored (h.indexGap next) (hsame.trans full) score hfits)
      refine ⟨_, hrun, hlive', h.replayInv.step hrun, ?_, ?_, ?_⟩
      · rw [refresh_pendingCommits]
        exact Nat.min_le_right _ _
      · rw [refresh_pendingCommits, refresh_pendingCommits, Window.rtake_of_length_le]
        simp only [length_cons, length_nil]
        omega
      · rw [refresh_scoresEntries, refresh_scoresEntries]
        exact hpushed

theorem Lags.steps :
    ∀ {n : Nat} {live live' replay : LeaderScheduleV3}, Lags context n live replay →
      addCommits context shuffle live commits = .ok live' →
      ∃ replay', addCommits context shuffle replay commits = .ok replay' ∧
        Lags context (n + commits.length) live' replay' := by
  induction commits with
  | nil =>
    intro n live live' replay h hrun
    cases hrun
    exact ⟨replay, rfl, h⟩
  | cons c rest ih =>
    intro n live live' replay h hrun
    obtain ⟨live₁, hfirst, hrest⟩ := foldlM_cons_eq_ok.mp hrun
    obtain ⟨replay₁, hfirst', h₁⟩ := h.step hfirst
    obtain ⟨replay', hrest', h'⟩ := ih h₁ hrest
    refine ⟨replay', foldlM_cons_eq_ok.mpr ⟨replay₁, hfirst', hrest'⟩, ?_⟩
    rw [length_cons, Nat.add_comm rest.length 1, ← Nat.add_assoc]
    exact h'

theorem Inv.steps (h : Inv context s) (hrun : addCommits context shuffle s commits = .ok s') :
    Inv context s' :=
  foldlM_keeps (Inv context) (fun _ _ _ _ h hadd => h.step hadd) h hrun

theorem addCommits_append {s : LeaderScheduleV3} {before after : List CommittedSubDag}
    {s' : LeaderScheduleV3} :
    addCommits context shuffle s (before ++ after) = .ok s' ↔
      ∃ s₁, addCommits context shuffle s before = .ok s₁ ∧
        addCommits context shuffle s₁ after = .ok s' := by
  unfold addCommits
  rw [foldlM_append, bind_eq_ok]

theorem addCommit_last (hadd : addCommit context shuffle s c = .ok s') (h : Inv context s) :
    s'.pendingCommits.getLast? = some c := by
  obtain ⟨-, ⟨-, rfl⟩ | ⟨c₃, c₂, c₁, entry, -, -, -, rfl⟩⟩ := addCommit_ok h hadd
  · rw [refresh_pendingCommits, List.getLast?_concat]
  · rw [refresh_pendingCommits]
    rfl

/-- At a boundary the schedule is computed anew, from the totals and the buffered commits. -/
theorem addCommit_boundary (hadd : addCommit context shuffle s c = .ok s') (h : Inv context s)
    (hboundary : c.commitRef.index % context.protocolConfig.updateInterval = 0) :
    s'.currentSchedule = computeNextCommitLeaderSchedule context shuffle s' := by
  have hrefresh : ∀ {t : LeaderScheduleV3}, t.pendingCommits.getLast? = some c →
      (refreshCurrentSchedule context shuffle t).currentSchedule =
        computeNextCommitLeaderSchedule context shuffle
          (refreshCurrentSchedule context shuffle t) := by
    intro t hlast
    have hindex : t.nextCommitIndex - 1 = c.commitRef.index := by
      rw [nextCommitIndex, hlast, Nat.add_sub_cancel]
    unfold refreshCurrentSchedule
    rw [hindex, if_pos hboundary]
    rfl
  have hlast := addCommit_last hadd h
  obtain ⟨-, ⟨-, rfl⟩ | ⟨c₃, c₂, c₁, entry, -, -, -, rfl⟩⟩ := addCommit_ok h hadd
  · rw [refresh_pendingCommits] at hlast
    exact hrefresh hlast
  · rw [refresh_pendingCommits] at hlast
    exact hrefresh hlast

theorem computeNext_congr {s₁ s₂ : LeaderScheduleV3} (htotals : s₁.totals = s₂.totals)
    (hpending : s₁.pendingCommits = s₂.pendingCommits) :
    computeNextCommitLeaderSchedule context shuffle s₁ =
      computeNextCommitLeaderSchedule context shuffle s₂ := by
  simp only [computeNextCommitLeaderSchedule, nextCommitIndex, minNextLeaderRound,
    selectAllowedLeadersWithFixedConfig, htotals, hpending]

/-- A replay that ends at a boundary, after a whole window, has caught up. -/
theorem replay_caught_up {before window : List CommittedSubDag} {live : LeaderScheduleV3}
    (hlength : window.length = context.protocolConfig.windowSize + MAX_PENDING_COMMITS)
    (hboundary : ∀ c, window.getLast? = some c →
      c.commitRef.index % context.protocolConfig.updateInterval = 0)
    (hrun : addCommits context shuffle (new context shuffle) (before ++ window) = .ok live) :
    addCommits context shuffle (new context shuffle) window = .ok live := by
  obtain ⟨live₀, hbefore, hwindow⟩ := addCommits_append.mp hrun
  rcases window.eq_nil_or_concat with rfl | ⟨front, c, rfl⟩
  · exact absurd hlength (by simp [MAX_PENDING_COMMITS])
  rw [concat_eq_append] at *
  have hstart : Lags context 0 live₀ (new context shuffle) :=
    ⟨inv_new.steps hbefore, inv_new, by simp, by simp [new], by simp [new]⟩
  obtain ⟨replay, hreplay, hlags⟩ := hstart.steps hwindow
  have hpending : replay.pendingCommits = live.pendingCommits := by
    rw [hlags.pending, Window.rtake_of_length_le]
    have hle := hlags.liveInv.pending
    omega
  have hentries : replay.scoresEntries = live.scoresEntries := by
    rw [hlags.entries, Window.rtake_of_length_le]
    have hle := hlags.liveInv.window
    omega
  have htotals : replay.totals = live.totals := by
    rw [hlags.replayInv.totals, hlags.liveInv.totals, hentries]
  -- both computed the schedule at the last commit
  obtain ⟨live₁, hfront, hlast⟩ := addCommits_append.mp hwindow
  obtain ⟨replay₁, hfront', hlast'⟩ := addCommits_append.mp hreplay
  have hindex := hboundary c (List.getLast?_concat ..)
  obtain ⟨_, hlive, hnil⟩ := foldlM_cons_eq_ok.mp hlast
  cases hnil
  obtain ⟨_, hreplayed, hnil⟩ := foldlM_cons_eq_ok.mp hlast'
  cases hnil
  have hschedule : replay.currentSchedule = live.currentSchedule := by
    rw [addCommit_boundary hreplayed (inv_new.steps hfront') hindex,
      addCommit_boundary hlive ((inv_new.steps hbefore).steps hfront) hindex]
    exact computeNext_congr htotals hpending
  have heq : replay = live := by
    cases replay
    simp_all
  rw [hreplay, heq]

/-! ### Whole histories -/

theorem addCommits_ne_underflow (h : Inv context s) :
    addCommits context shuffle s commits ≠ .error .underflow := by
  induction commits generalizing s with
  | nil => exact nofun
  | cons c rest ih =>
    intro hrun
    rcases bind_eq_error.mp hrun with hadd | ⟨s₁, hadd, hrest⟩
    · rcases addCommit_error h hadd with he | ⟨-, hne⟩ | ⟨c₃, c₂, c₁, -, hscore⟩
      · cases he
      · exact hne rfl
      · exact scoreCommit_ne_underflow hscore
    · exact ih (h.step hadd) hrest

/-- Along a chain of commits that contain their leaders, nothing but a sum can fail. -/
theorem addCommits_overflow {rest : List CommittedSubDag} :
    ∀ {processed : List CommittedSubDag} {s : LeaderScheduleV3} {e : SchedulePanic},
      Inv context s → s.pendingCommits = processed.rtake MAX_PENDING_COMMITS →
      CommitChain (processed ++ rest) → (∀ commit ∈ processed ++ rest, HasLeader commit) →
      addCommits context shuffle s rest = .error e → e = .overflow := by
  induction rest with
  | nil =>
    intro processed s e _ _ _ _ hrun
    cases hrun
  | cons c rest ih =>
    intro processed s e h hpending hchain hleader hrun
    have hnext : s.indexGap c = false := by
      unfold indexGap
      rw [hpending, Window.getLast?_rtake (by decide)]
      rcases processed.eq_nil_or_concat with rfl | ⟨front, last, rfl⟩
      · rfl
      · rw [concat_eq_append] at hchain ⊢
        have hlast := @CommitChain.index _ hchain front.length last (by simp)
        have hc := @CommitChain.index _ hchain (front.length + 1) c (by simp)
        rw [List.getLast?_concat, Option.any_some, hlast, hc]
        simp
    rcases bind_eq_error.mp hrun with hadd | ⟨s₁, hadd, hrun⟩
    · rcases addCommit_error h hadd with he | ⟨hgap, -⟩ | ⟨c₃, c₂, c₁, full, score⟩
      · exact he
      · rw [hnext] at hgap
        cases hgap
      · have hsuffix := Window.rtake_suffix processed MAX_PENDING_COMMITS
        rw [← hpending, full] at hsuffix
        have hsub : ([c₃, c₂, c₁] ++ [c]).Sublist (processed ++ c :: rest) :=
          hsuffix.sublist.append (singleton_sublist.mpr (.head _))
        have hrounds := hchain.rounds.sublist hsub
        simp only [cons_append, nil_append, pairwise_cons, mem_cons,
          not_mem_nil, or_false, forall_eq_or_imp, forall_eq] at hrounds
        obtain ⟨⟨h₃₂, -⟩, ⟨h₂₁, -⟩, h₁c, -⟩ := hrounds
        exact scoreCommit_total ⟨h₃₂, h₂₁, h₁c⟩
          (hleader c₃ (mem_append_left _ (hsuffix.subset (.head _)))) score
    · refine @ih (processed ++ [c]) s₁ e (h.step hadd) ?_ (by simpa using hchain)
        (by simpa using hleader) hrun
      rw [show MAX_PENDING_COMMITS = 2 + 1 from rfl, rtake_concat_succ]
      obtain ⟨-, ⟨hshort, rfl⟩ | ⟨c₃, c₂, c₁, entry, full, -, -, rfl⟩⟩ := addCommit_ok h hadd
      · -- the buffer was not full
        rw [hpending, Window.length_rtake] at hshort
        unfold MAX_PENDING_COMMITS at hshort
        rw [refresh_pendingCommits, hpending, Window.rtake_of_length_le,
          Window.rtake_of_length_le]
        · omega
        · unfold MAX_PENDING_COMMITS
          omega
      · have hlength : 2 < processed.length := by
          have hlen := congrArg List.length (hpending.symm.trans full)
          rw [Window.length_rtake] at hlen
          simp only [MAX_PENDING_COMMITS, length_cons, length_nil] at hlen
          omega
        have htwo := Window.rtake_comm processed MAX_PENDING_COMMITS 2
        rw [← hpending, full, @Window.rtake_of_length_le _ _ MAX_PENDING_COMMITS
          (by rw [Window.length_rtake]; unfold MAX_PENDING_COMMITS; omega)] at htwo
        rw [refresh_pendingCommits, ← htwo]
        rfl

theorem filter_eq_drop (hchain : CommitChain commits) {start : Nat} (hstart : 1 ≤ start) :
    (commits.filter fun commit => start ≤ commit.commitRef.index ∧
      commit.commitRef.index ≤ commits.length) = commits.drop (start - 1) := by
  rw [← take_append_drop (start - 1) commits, filter_append, take_append_drop]
  have hindex : ∀ {k : Nat} {commit : CommittedSubDag}, commits[k]? = some commit →
      commit.commitRef.index = k + 1 := hchain.index
  have hbefore : ∀ commit ∈ commits.take (start - 1), ¬ start ≤ commit.commitRef.index := by
    intro commit hmem
    obtain ⟨k, hk, hget⟩ := mem_iff_getElem.mp hmem
    rw [getElem_take] at hget
    rw [length_take] at hk
    have hcommit := @hindex k commit (by rw [List.getElem?_eq_getElem (by omega), hget])
    omega
  have hafter : ∀ commit ∈ commits.drop (start - 1), start ≤ commit.commitRef.index ∧
      commit.commitRef.index ≤ commits.length := by
    intro commit hmem
    obtain ⟨k, hk, hget⟩ := mem_iff_getElem.mp hmem
    rw [getElem_drop] at hget
    rw [length_drop] at hk
    have hcommit := @hindex (start - 1 + k) commit
      (by rw [List.getElem?_eq_getElem (by omega), hget])
    omega
  rw [filter_eq_nil_iff.mpr, filter_eq_self.mpr, nil_append]
  · exact fun commit hmem => decide_eq_true (hafter commit hmem)
  · exact fun commit hmem hin => hbefore commit hmem (of_decide_eq_true hin).1

/-- The replay of a stored history ends where the history led. -/
theorem fromStore_eq (hchain : CommitChain commits) {live : LeaderScheduleV3}
    (hrun : addCommits context shuffle (new context shuffle) commits = .ok live) :
    fromStore context shuffle commits commits.length = .ok live := by
  unfold fromStore
  split_ifs with hempty
  · rw [length_eq_zero_iff.mp hempty] at hrun
    exact hrun
  dsimp only
  have hstart : 1 ≤ replayStart context commits.length := Nat.le_max_right _ _
  rw [filter_eq_drop hchain hstart]
  by_cases hone : replayStart context commits.length = 1
  · rw [hone]
    exact hrun
  -- the replay covers a whole window before the last boundary
  have hinterval : 0 < context.protocolConfig.updateInterval :=
    Nat.lt_of_lt_of_le Nat.zero_lt_one (Nat.le_max_right _ _)
  obtain ⟨boundary, hboundary, hle, hvalue⟩ : ∃ boundary,
      boundary % context.protocolConfig.updateInterval = 0 ∧ boundary ≤ commits.length ∧
      replayStart context commits.length - 1 +
        (context.protocolConfig.windowSize + MAX_PENDING_COMMITS) = boundary := by
    refine ⟨commits.length / context.protocolConfig.updateInterval *
      context.protocolConfig.updateInterval, Nat.mul_mod_left _ _, Nat.div_mul_le_self _ _, ?_⟩
    unfold replayStart at hone ⊢
    dsimp only at hone ⊢
    omega
  have hsplit : commits.drop (replayStart context commits.length - 1) =
      (commits.drop (replayStart context commits.length - 1)).take
        (context.protocolConfig.windowSize + MAX_PENDING_COMMITS) ++ commits.drop boundary := by
    rw [← hvalue, ← drop_drop, take_append_drop]
  have hwhole : commits = commits.take (replayStart context commits.length - 1) ++
      ((commits.drop (replayStart context commits.length - 1)).take
        (context.protocolConfig.windowSize + MAX_PENDING_COMMITS)) ++ commits.drop boundary := by
    rw [append_assoc, ← hsplit, take_append_drop]
  rw [hwhole] at hrun
  obtain ⟨caught, hfirst, hrest⟩ := addCommits_append.mp hrun
  rw [hsplit]
  refine addCommits_append.mpr ⟨caught, replay_caught_up ?_ (fun c hc => ?_) hfirst, hrest⟩
  · rw [length_take, length_drop]
    omega
  · have hget : commits[boundary - 1]? = some c := by
      rw [List.getLast?_eq_getElem?, length_take, length_drop, List.getElem?_take,
        List.getElem?_drop] at hc
      split_ifs at hc
      rw [← hc]
      congr 1
      omega
    have hpos : 0 < boundary := by
      omega
    rw [hchain.index hget, Nat.sub_add_cancel hpos]
    exact hboundary

/-- One commit for each round of a committee of one, and a window of one commit. -/
def soloCommit (n : Nat) : CommittedSubDag where
  leader := (Solo.block true n).reference
  blocks := [Solo.block true n]
  timestampMs := n
  commitRef := ⟨n, n⟩

def soloContext : Context :=
  { Solo.context true with
    protocolConfig := { enableV3 := true, gcDepth := 3, leaderScheduleWindowSize := 1,
                        leaderScheduleUpdateInterval := 2 } }

def soloCommits : List CommittedSubDag := (List.range' 1 7).map soloCommit

theorem soloCommits_chain : CommitChain soloCommits where
  index := by
    intro k commit hget
    rw [soloCommits, List.getElem?_map, Option.map_eq_some_iff] at hget
    obtain ⟨n, hn, rfl⟩ := hget
    obtain ⟨hk, hn⟩ := List.getElem?_eq_some_iff.mp hn
    rw [getElem_range'] at hn
    show n = k + 1
    omega
  rounds := by
    rw [soloCommits, pairwise_map]
    exact pairwise_lt_range'
  round_pos := by
    intro commit hmem
    obtain ⟨n, hn, rfl⟩ := mem_map.mp hmem
    exact (mem_range'_1.mp hn).1

end Steps

end LeaderScheduleV3

end Haneul.Consensus
