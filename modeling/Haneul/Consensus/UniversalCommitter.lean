import Haneul.Consensus.BaseCommitter

/-!
# The v2 committer

Mirror of `consensus/core/src/universal_committer.rs`.  The rounds above the last
decided slot are visited from the highest one downwards, each by the committers that
have a leader there; a slot is decided directly or with the statuses of the later
slots as possible anchors.  What is returned is the longest prefix of decided slots.

All decisions are decisions of one certificate rule over the universe of blocks, so
two nodes return sequences of which one is a prefix of the other.
-/

namespace Haneul.Consensus

open List

def DEFAULT_WAVE_LENGTH : Nat := 3

inductive DecidedLeader where
  | commit (block : VerifiedBlock) (direct : Bool)
  | skip (slot : Slot)
deriving DecidableEq, Repr

namespace DecidedLeader

def slot : DecidedLeader → Slot
  | commit block _ => block.slot
  | skip slot => slot

/-- What is decided: the slot, and the reference of the committed block if there is one. -/
def outcome : DecidedLeader → Slot × Option BlockRef
  | commit block _ => (block.slot, some block.reference)
  | skip slot => (slot, none)

end DecidedLeader

namespace LeaderStatus

def intoDecidedLeader (direct : Bool) : LeaderStatus → Option DecidedLeader
  | commit block => some (.commit block direct)
  | skip slot => some (.skip slot)
  | undecided _ => none

end LeaderStatus

namespace UniversalCommitter

open BaseCommitter

/-- The committers that the builder makes. -/
def committers (waveLength numberOfLeaders : Nat) (pipeline : Bool) : List BaseCommitterOptions :=
  (List.range (if pipeline then waveLength else 1)).flatMap fun roundOffset =>
    (List.range numberOfLeaders).map fun leaderOffset => ⟨waveLength, leaderOffset, roundOffset⟩

variable (context : Context)

/-- The committers of a node: pipelined, with the configured number of leaders. -/
def nodeCommitters : List BaseCommitterOptions :=
  committers DEFAULT_WAVE_LENGTH (context.protocolConfig.numLeadersPerRound.getD 1) true

def decideSlot (options : BaseCommitterOptions) (state : DagState) (slot : Slot)
    (leaders : List (LeaderStatus × Decision)) : Except Panic (LeaderStatus × Decision) := do
  let status ← tryDirectDecide context options state slot
  if status.isDecided then return (status, .direct)
  else
    let status ← tryIndirectDecide context options state slot (leaders.map Prod.fst)
    return (status, .indirect)

/-- The loop over the rounds and committers that are still to be visited. -/
def decideLeaders (schedule : Nat → Nat → Nat) (state : DagState) (lastDecided : Slot) :
    List (LeaderStatus × Decision) → List (Nat × BaseCommitterOptions) →
      Except Panic (List (LeaderStatus × Decision))
  | leaders, [] => .ok leaders
  | leaders, (round, options) :: rest =>
    match electLeader options schedule round with
    | none => decideLeaders schedule state lastDecided leaders rest
    | some slot =>
      if slot = lastDecided then .ok leaders
      else do
        let entry ← decideSlot context options state slot leaders
        decideLeaders schedule state lastDecided (entry :: leaders) rest

/-- The rounds from `lastRound` to `highestRound`, the highest one first, each with all
    committers in reverse order. -/
def visits (committers : List BaseCommitterOptions) (lastRound highestRound : Nat) :
    List (Nat × BaseCommitterOptions) :=
  (List.range' lastRound (highestRound + 1 - lastRound)).reverse.flatMap fun round =>
    committers.reverse.map fun committer => (round, committer)

def decidedLeaders : List (LeaderStatus × Decision) → List DecidedLeader
  | [] => []
  | (leader, decision) :: rest =>
    if leader.round = GENESIS_ROUND then decidedLeaders rest
    else
      match leader.intoDecidedLeader (decision = .direct) with
      | none => []
      | some decidedLeader => decidedLeader :: decidedLeaders rest

def tryDecide (schedule : Nat → Nat → Nat) (state : DagState) (lastDecided : Slot) :
    Except Panic (List DecidedLeader) := do
  let lastRound :=
    if context.protocolConfig.numLeadersPerRound = some 1 then lastDecided.round + 1
    else lastDecided.round
  let leaders ← decideLeaders context schedule state lastDecided []
    (visits (nodeCommitters context) lastRound (state.highestAcceptedRound - 2))
  return decidedLeaders leaders

open DagState

section Decisions

variable {context} {U : V2Universe context} {state : DagState} {schedule : Nat → Nat → Nat}

def singleLeader (schedule : Nat → Nat → Nat) (round : Nat) : List Nat := [schedule round 0]

def slotAt (schedule : Nat → Nat → Nat) (round : Nat) : Slot := ⟨round, schedule round 0⟩

/-- The statuses of consecutive rounds from `first` on are sound. -/
inductive Decisions (U : V2Universe context) (schedule : Nat → Nat → Nat) (state : DagState) :
    Nat → List (LeaderStatus × Decision) → Prop where
  | nil {first : Nat} : Decisions U schedule state first []
  | cons {first : Nat} {entry : LeaderStatus × Decision}
      {rest : List (LeaderStatus × Decision)}
      (hsound : StatusSound U.toBlockUniverse (U.rule (singleLeader schedule)) state
        (slotAt schedule first) entry.1)
      (hrest : Decisions U schedule state (first + 1) rest) :
      Decisions U schedule state first (entry :: rest)

variable {status : LeaderStatus} {slot : Slot}

theorem round_of_statusSound {R : AnchoredRule Nat BlockRef}
    (h : StatusSound U.toBlockUniverse R state slot status) : status.round = slot.round := by
  cases status with
  | undecided s => exact congrArg Slot.round h
  | skip s => exact congrArg Slot.round h.1
  | commit block => exact congrArg Slot.round h.2.1

variable {entries : List (LeaderStatus × Decision)}

theorem firstAnchor_sound {target first : Nat}
    (h : Decisions U schedule state first entries) {anchor : VerifiedBlock}
    (hanchor : firstAnchor ((entries.map Prod.fst).filter fun leader => target ≤ leader.round) =
      some anchor) :
    (U.rule (singleLeader schedule)).FirstCommit (max first target) anchor.round
        anchor.reference ∧
      (state.gcRound context < anchor.round → Cached state anchor) := by
  induction h with
  | nil => cases hanchor
  | @cons first entry rest hsound hrest ih =>
    have hround := round_of_statusSound hsound
    rw [map_cons, filter_cons] at hanchor
    by_cases htarget : target ≤ first
    · rw [if_pos (by rw [hround]; exact decide_eq_true htarget)] at hanchor
      obtain ⟨status, decision⟩ := entry
      rw [max_eq_left htarget]
      cases status with
      | undecided s => cases hanchor
      | commit block =>
        cases hanchor
        obtain ⟨-, hslot, hdecided, hcached⟩ := hsound
        have hfirst : anchor.round = first := congrArg Slot.round hslot
        rw [hfirst]
        refine ⟨⟨le_rfl, fun ρ hle hlt => absurd hle (not_le.mpr hlt), 0, _, rfl, ?_,
          hdecided⟩, hcached⟩
        intro k' l hk'
        exact absurd hk' (Nat.not_lt_zero k')
      | skip s =>
        obtain ⟨hcommit, hcached⟩ := ih hanchor
        rw [max_eq_left (Nat.le_succ_of_le htarget)] at hcommit
        refine ⟨hcommit.of_succ fun l hl => ?_, hcached⟩
        rw [mem_singleton.mp hl]
        exact hsound.2
    · have hdrop : ¬ target ≤ entry.1.round := by rw [hround]; exact htarget
      rw [if_neg (by simpa using hdrop)] at hanchor
      obtain ⟨hcommit, hcached⟩ := ih hanchor
      rw [max_eq_right (by omega)] at hcommit ⊢
      exact ⟨hcommit, hcached⟩

variable {leaders : List (LeaderStatus × Decision)}

theorem decideSlot_sound (hvalid : Valid U.toBlockUniverse state) {round offset : Nat}
    (hoffset : round % 3 = offset) (hcommit : state.lastCommitRound < round)
    (hleaders : Decisions U schedule state (round + 1) leaders) :
    ∃ entry, decideSlot context ⟨3, 0, offset⟩ state (slotAt schedule round) leaders =
        .ok entry ∧
      Decisions U schedule state round (entry :: leaders) := by
  have hgc : state.gcRound context < round := lt_of_le_of_lt (Nat.sub_le _ _) hcommit
  have hdecision : decisionRound ⟨3, 0, offset⟩ (waveNumber ⟨3, 0, offset⟩ round) = round + 2 := by
    simp only [decisionRound, waveNumber]
    omega
  obtain ⟨status, hdirect, hsound⟩ := @tryDirectDecide_sound context U state
    (slotAt schedule round) hvalid hgc hcommit.le ⟨3, 0, offset⟩ hdecision (singleLeader schedule)
  by_cases hdecided : status.isDecided = true
  · refine ⟨(status, .direct), bind_eq_ok.mpr ⟨status, hdirect, ?_⟩, .cons hsound hleaders⟩
    rw [if_pos hdecided]
    rfl
  · obtain ⟨status', hindirect, hsound'⟩ : ∃ status',
        tryIndirectDecide context ⟨3, 0, offset⟩ state (slotAt schedule round)
          (leaders.map Prod.fst) = .ok status' ∧
        StatusSound U.toBlockUniverse (U.rule (singleLeader schedule)) state
          (slotAt schedule round) status' := by
      unfold tryIndirectDecide
      dsimp only
      cases hanchor : firstAnchor ((leaders.map Prod.fst).filter fun leader =>
          (slotAt schedule round).round + 3 ≤ leader.round) with
      | none => exact ⟨_, rfl, rfl⟩
      | some anchor =>
        obtain ⟨hfirst, hcached⟩ := firstAnchor_sound hleaders hanchor
        have hmax : max (round + 1) ((slotAt schedule round).round + 3) = round + 3 :=
          max_eq_right (Nat.add_le_add_left (show 1 ≤ 3 by decide) round)
        rw [hmax] at hfirst
        have hround : round + 3 ≤ anchor.round := hfirst.1
        obtain ⟨status', hrun, hsound', -⟩ := @decideLeaderFromAnchor_sound context U state
          (slotAt schedule round) (singleLeader schedule) hvalid hgc ⟨3, 0, offset⟩ hdecision anchor
          (hcached (by omega)) hfirst
        exact ⟨status', hrun, hsound'⟩
    refine ⟨(status', .indirect), bind_eq_ok.mpr ⟨status, hdirect, ?_⟩, .cons hsound' hleaders⟩
    rw [if_neg hdecided]
    exact bind_eq_ok.mpr ⟨status', hindirect, rfl⟩

theorem electLeader_of_offset {round offset : Nat} (hoffset : offset < 3) :
    electLeader ⟨3, 0, offset⟩ schedule round =
      if round % 3 = offset then some (slotAt schedule round) else none := by
  unfold electLeader leaderRound waveNumber
  dsimp only
  by_cases h : round % 3 = offset
  · rw [if_pos h, if_neg (by omega)]
    rfl
  · rw [if_neg h, if_pos (by omega)]

/-- One round of the loop: exactly one of the three committers has the leader. -/
theorem decideLeaders_round {round : Nat} {lastDecided : Slot} (hround : lastDecided.round < round)
    {rest : List (Nat × BaseCommitterOptions)} :
    decideLeaders context schedule state lastDecided leaders
        ((committers 3 1 true).reverse.map (fun committer => (round, committer)) ++ rest) =
      decideSlot context ⟨3, 0, round % 3⟩ state (slotAt schedule round) leaders >>= fun entry =>
        decideLeaders context schedule state lastDecided (entry :: leaders) rest := by
  have hne : slotAt schedule round ≠ lastDecided := by
    intro heq
    rw [← heq] at hround
    exact lt_irrefl _ hround
  have hvisits : (committers 3 1 true).reverse.map (fun committer => (round, committer)) ++ rest =
      (round, ⟨3, 0, 2⟩) :: (round, ⟨3, 0, 1⟩) :: (round, ⟨3, 0, 0⟩) :: rest := rfl
  rw [hvisits]
  obtain h | h | h : round % 3 = 0 ∨ round % 3 = 1 ∨ round % 3 = 2 := by omega
  all_goals
    simp only [decideLeaders, electLeader_of_offset, Nat.reduceLT, h, if_neg hne, reduceIte,
      OfNat.ofNat_ne_zero, OfNat.ofNat_ne_one, OfNat.zero_ne_ofNat,
      OfNat.one_ne_ofNat, zero_ne_one, one_ne_zero]

variable {first : Nat}

theorem decideLeaders_sound (schedule : Nat → Nat → Nat) (hvalid : Valid U.toBlockUniverse state)
    {lastDecided : Slot} (hcommit : state.lastCommitRound ≤ lastDecided.round)
    (hfirst : lastDecided.round < first) :
    ∀ (count : Nat) {leaders : List (LeaderStatus × Decision)},
      Decisions U schedule state (first + count) leaders →
      ∃ entries, decideLeaders context schedule state lastDecided leaders
          ((List.range' first count).reverse.flatMap fun round =>
            (committers 3 1 true).reverse.map fun committer => (round, committer)) =
          .ok entries ∧
        Decisions U schedule state first entries := by
  intro count
  induction count with
  | zero => exact fun hleaders => ⟨_, rfl, hleaders⟩
  | succ count ih =>
    intro leaders hleaders
    rw [range'_concat, reverse_append, flatMap_append]
    simp only [Nat.one_mul, reverse_singleton, flatMap_singleton]
    rw [decideLeaders_round (by omega)]
    obtain ⟨entry, hentry, hsound⟩ := decideSlot_sound hvalid
      (show (first + count) % 3 = (first + count) % 3 from rfl) (by omega) hleaders
    obtain ⟨entries, hrun, hentries⟩ := ih hsound
    exact ⟨entries, bind_eq_ok.mpr ⟨entry, hentry, hrun⟩, hentries⟩

/-! ### The decided prefix -/

variable {state' : DagState}

theorem round_ne_genesis (hfirst : 0 < first)
    (hsound : StatusSound U.toBlockUniverse (U.rule (singleLeader schedule)) state
      (slotAt schedule first) status) : status.round ≠ GENESIS_ROUND := by
  rw [round_of_statusSound hsound]
  exact Nat.ne_of_gt hfirst

theorem decided_of_intoDecidedLeader {direct : Bool} {leader : DecidedLeader}
    (hsound : StatusSound U.toBlockUniverse (U.rule (singleLeader schedule)) state slot status)
    (hleader : status.intoDecidedLeader direct = some leader) :
    leader.outcome.1 = slot ∧
      (U.rule (singleLeader schedule)).Decided slot.round slot.authority leader.outcome.2 := by
  cases status with
  | undecided s => cases hleader
  | skip s =>
    cases hleader
    exact ⟨hsound.1, hsound.2⟩
  | commit block =>
    cases hleader
    exact ⟨hsound.2.1, hsound.2.2.1⟩

theorem outcome_agree {status status' : LeaderStatus} {direct direct' : Bool}
    {leader leader' : DecidedLeader}
    (hsound : StatusSound U.toBlockUniverse (U.rule (singleLeader schedule)) state slot status)
    (hsound' : StatusSound U.toBlockUniverse (U.rule (singleLeader schedule)) state' slot status')
    (hleader : status.intoDecidedLeader direct = some leader)
    (hleader' : status'.intoDecidedLeader direct' = some leader') :
    leader.outcome = leader'.outcome := by
  obtain ⟨hslot, hdecided⟩ := decided_of_intoDecidedLeader hsound hleader
  obtain ⟨hslot', hdecided'⟩ := decided_of_intoDecidedLeader hsound' hleader'
  exact Prod.ext (hslot.trans hslot'.symm) (hdecided.unique hdecided')

/-- The decided prefixes of two nodes are prefixes of each other. -/
theorem decidedLeaders_comparable (hfirst : 0 < first)
    {entries entries' : List (LeaderStatus × Decision)}
    (h : Decisions U schedule state first entries)
    (h' : Decisions U schedule state' first entries') :
    (decidedLeaders entries).map DecidedLeader.outcome <+:
        (decidedLeaders entries').map DecidedLeader.outcome ∨
      (decidedLeaders entries').map DecidedLeader.outcome <+:
        (decidedLeaders entries).map DecidedLeader.outcome := by
  induction h generalizing entries' with
  | nil => exact .inl nil_prefix
  | @cons first entry rest hsound hrest ih =>
    cases h' with
    | nil => exact .inr nil_prefix
    | @cons _ entry' rest' hsound' hrest' =>
      rw [decidedLeaders, if_neg (round_ne_genesis hfirst hsound), decidedLeaders,
        if_neg (round_ne_genesis hfirst hsound')]
      cases hleader : entry.1.intoDecidedLeader (entry.2 = .direct) with
      | none => exact .inl nil_prefix
      | some leader =>
        cases hleader' : entry'.1.intoDecidedLeader (entry'.2 = .direct) with
        | none => exact .inr nil_prefix
        | some leader' =>
          have houtcome := outcome_agree hsound hsound' hleader hleader'
          simp only [map_cons, houtcome, cons_prefix_cons, true_and]
          exact ih (Nat.succ_pos first) hrest'

theorem decidedLeaders_decided (hfirst : 0 < first) (h : Decisions U schedule state first entries) :
    ∀ leader ∈ decidedLeaders entries,
      (U.rule (singleLeader schedule)).Decided leader.outcome.1.round leader.outcome.1.authority
        leader.outcome.2 := by
  induction h with
  | nil => exact nofun
  | @cons first entry rest hsound hrest ih =>
    intro leader hleader
    rw [decidedLeaders, if_neg (round_ne_genesis hfirst hsound)] at hleader
    cases hinto : entry.1.intoDecidedLeader (entry.2 = .direct) with
    | none =>
      rw [hinto] at hleader
      exact nomatch hleader
    | some decidedLeader =>
      rw [hinto] at hleader
      rcases mem_cons.mp hleader with rfl | hleader
      · obtain ⟨hslot, hdecided⟩ := decided_of_intoDecidedLeader hsound hinto
        rw [hslot]
        exact hdecided
      · exact ih (Nat.succ_pos first) leader hleader

theorem tryDecide_sound (schedule : Nat → Nat → Nat)
    (hsingle : context.protocolConfig.numLeadersPerRound = some 1)
    (hvalid : Valid U.toBlockUniverse state) {lastDecided : Slot}
    (hcommit : state.lastCommitRound ≤ lastDecided.round) :
    ∃ entries, tryDecide context schedule state lastDecided = .ok (decidedLeaders entries) ∧
      Decisions U schedule state (lastDecided.round + 1) entries := by
  obtain ⟨entries, hrun, hentries⟩ := decideLeaders_sound schedule hvalid hcommit
    (Nat.lt_succ_self lastDecided.round)
    (state.highestAcceptedRound - 2 + 1 - (lastDecided.round + 1)) .nil
  refine ⟨entries, bind_eq_ok.mpr ⟨entries, ?_, rfl⟩, hentries⟩
  rw [if_pos hsingle, nodeCommitters, hsingle]
  exact hrun

/-- **Agreement of the v2 commit rule.**  Two causally closed views of one universe of
    blocks, with the same leader schedule and the same last decided slot, both return,
    so no abort is reached; the decisions agree on every slot that both have decided,
    and one sequence is a prefix of the other. -/
theorem universal_commit_agreement (hsingle : context.protocolConfig.numLeadersPerRound = some 1)
    (hvalid : Valid U.toBlockUniverse state) (hvalid' : Valid U.toBlockUniverse state')
    {lastDecided : Slot} (hcommit : state.lastCommitRound ≤ lastDecided.round)
    (hcommit' : state'.lastCommitRound ≤ lastDecided.round) :
    ∃ leaders leaders', tryDecide context schedule state lastDecided = .ok leaders ∧
      tryDecide context schedule state' lastDecided = .ok leaders' ∧
      (∀ leader ∈ leaders, ∀ leader' ∈ leaders', leader.slot = leader'.slot →
        leader.outcome = leader'.outcome) ∧
      (leaders.map DecidedLeader.outcome <+: leaders'.map DecidedLeader.outcome ∨
        leaders'.map DecidedLeader.outcome <+: leaders.map DecidedLeader.outcome) := by
  obtain ⟨entries, hrun, hentries⟩ := tryDecide_sound schedule hsingle hvalid hcommit
  obtain ⟨entries', hrun', hentries'⟩ := tryDecide_sound schedule hsingle hvalid' hcommit'
  have hpos : 0 < lastDecided.round + 1 := Nat.succ_pos _
  refine ⟨_, _, hrun, hrun', ?_, decidedLeaders_comparable hpos hentries hentries'⟩
  intro leader hleader leader' hleader' hslot
  have hdecided := decidedLeaders_decided hpos hentries leader hleader
  have hdecided' := decidedLeaders_decided hpos hentries' leader' hleader'
  have hslot : leader.outcome.1 = leader'.outcome.1 := by
    cases leader <;> cases leader' <;> exact hslot
  rw [hslot] at hdecided
  exact Prod.ext hslot (hdecided.unique hdecided')

end Decisions

/-! ### An instance: nodes of the committee of one -/

section Solo

/-- The node after it has accepted the blocks of the first rounds. -/
def soloState : Nat → DagState
  | 0 => { ownIndex := 1, cachedRounds := 2 }
  | n + 1 =>
    match (soloState n).acceptBlock (Solo.context false) (Solo.block false (n + 1)) with
    | .ok state => state
    | .error _ => soloState n

theorem soloState_valid {n : Nat} (hn : n ≤ 6) :
    Valid (Solo.blockUniverse false) (soloState n) := by
  induction n with
  | zero => exact valid_init 1 2
  | succ n ih =>
    have hvalid := ih (by omega)
    unfold soloState
    split
    · next state haccept =>
        refine hvalid.acceptBlock ⟨n, by omega, rfl⟩ ?_ haccept
        intro a ha
        obtain rfl := mem_singleton.mp ha
        have hn : n < 6 := by omega
        interval_cases n <;> decide +kernel
    · exact hvalid

/-- With four rounds the leaders of the first two are decided, with six rounds those of
    the first four. -/
theorem universal_commit_agreement_solo : ∃ leaders leaders',
    tryDecide (Solo.context false) (fun _ _ => 0) (soloState 4) ⟨0, 0⟩ = .ok leaders ∧
    tryDecide (Solo.context false) (fun _ _ => 0) (soloState 6) ⟨0, 0⟩ = .ok leaders' ∧
    leaders.length = 2 ∧ leaders'.length = 4 ∧
    (leaders.map DecidedLeader.outcome <+: leaders'.map DecidedLeader.outcome ∨
      leaders'.map DecidedLeader.outcome <+: leaders.map DecidedLeader.outcome) := by
  obtain ⟨leaders, leaders', hrun, hrun', -, hcomparable⟩ :=
    @universal_commit_agreement (Solo.context false) Solo.v2Universe (soloState 4) (fun _ _ => 0)
      (soloState 6) rfl (soloState_valid (by decide)) (soloState_valid (by decide)) ⟨0, 0⟩
      (by decide +kernel) (by decide +kernel)
  have hlength : (tryDecide (Solo.context false) (fun _ _ => 0) (soloState 4)
      ⟨0, 0⟩).toOption.map List.length = some 2 := by decide +kernel
  have hlength' : (tryDecide (Solo.context false) (fun _ _ => 0) (soloState 6)
      ⟨0, 0⟩).toOption.map List.length = some 4 := by decide +kernel
  rw [hrun] at hlength
  rw [hrun'] at hlength'
  exact ⟨leaders, leaders', hrun, hrun', Option.some.inj hlength, Option.some.inj hlength',
    hcomparable⟩

end Solo

end UniversalCommitter

end Haneul.Consensus
