import Haneul.Consensus.SlotDecision
import Haneul.Consensus.FlexCommitter

/-!
# The decisions of the v3 committer

Every decision in the pending state is a decision of the commit rule over the whole
universe of blocks (`PendingCommitState.Sound`).  The direct and the indirect phase
keep this and never abort: a slot that is decided again, with any anchor, gets the
decision it has, because the rule has only one.
-/

namespace Haneul.Consensus

open LeaderSlotDecider DagState List

variable (shuffle : Shuffle)

def Shuffle.leaders (allowed : List Nat) (round : Nat) : List Nat := shuffle.shuffle round allowed

theorem Shuffle.leaders_nodup {allowed : List Nat} (h : allowed.Nodup)
    (round : Nat) : (shuffle.leaders allowed round).Nodup :=
  (shuffle.perm round allowed).nodup_iff.mpr h

def PendingCommitState.leaders (pending : PendingCommitState) :
    Nat → List Nat :=
  shuffle.leaders pending.nextCommitLeaders.allowedLeaders

section

variable {context : Context} (U : V3Universe context) (dag : DagState) (leaders : Nat → List Nat)

/-- The state of a round holds the slots of its leaders in order, with decisions of
    the rule. -/
structure RoundState.Sound (state : RoundState) : Prop where
  slots : state.leaderSlots.map LeaderSlot.slot = (leaders state.round).map (Slot.mk state.round)
  status : ∀ leaderSlot ∈ state.leaderSlots,
    StatusSound U.toBlockUniverse (U.rule leaders) dag leaderSlot.slot leaderSlot.leaderStatus
  decision : ∀ leaderSlot ∈ state.leaderSlots, leaderSlot.leaderStatus.isDecided = true →
    leaderSlot.decision ≠ none
  undecided : ∀ slot, slot ∈ state.undecidedSlots ↔ ∃ leaderSlot ∈ state.leaderSlots,
    leaderSlot.slot = slot ∧ leaderSlot.leaderStatus.isDecided = false
  numCommitted : 0 < state.numCommitted ↔
    ∃ leaderSlot ∈ state.leaderSlots, ∃ block, leaderSlot.leaderStatus = .commit block

end

variable {context : Context} {U : V3Universe context} {dag : DagState} {leaders : Nat → List Nat}

namespace RoundState

variable {slot : Slot}

theorem mem_updateFirst {status : LeaderStatus} {decision : Decision}
    {slots : List LeaderSlot} (hnodup : (slots.map LeaderSlot.slot).Nodup)
    (hmem : slot ∈ slots.map LeaderSlot.slot) (leaderSlot : LeaderSlot) :
    leaderSlot ∈ updateFirst slot status decision slots ↔
      (leaderSlot ∈ slots ∧ leaderSlot.slot ≠ slot) ∨ leaderSlot = ⟨slot, status, some decision⟩ := by
  induction slots with
  | nil => simp at hmem
  | cons first rest ih =>
    rw [map_cons, nodup_cons] at hnodup
    rw [updateFirst]
    split_ifs with hfirst
    · have hrest : ∀ x ∈ rest, x.slot ≠ slot := by
        intro x hx heq
        exact hnodup.1 (mem_map.mpr ⟨x, hx, heq.trans hfirst.symm⟩)
      rw [mem_cons, mem_cons, hfirst]
      constructor
      · rintro (rfl | hx)
        · exact .inr rfl
        · exact .inl ⟨.inr hx, hrest _ hx⟩
      · rintro (⟨rfl | hx, hne⟩ | rfl)
        · exact absurd hfirst hne
        · exact .inr hx
        · exact .inl rfl
    · rw [map_cons, mem_cons] at hmem
      have hmem' := hmem.resolve_left fun heq => hfirst heq.symm
      rw [mem_cons, mem_cons, ih hnodup.2 hmem']
      constructor
      · rintro (rfl | ⟨hx, hne⟩ | rfl)
        · exact .inl ⟨.inl rfl, hfirst⟩
        · exact .inl ⟨.inr hx, hne⟩
        · exact .inr rfl
      · rintro (⟨rfl | hx, hne⟩ | rfl)
        · exact .inl rfl
        · exact .inr (.inl ⟨hx, hne⟩)
        · exact .inr (.inr rfl)

theorem map_slot_updateFirst {status : LeaderStatus} {decision : Decision}
    (slots : List LeaderSlot) :
    (updateFirst slot status decision slots).map LeaderSlot.slot = slots.map LeaderSlot.slot := by
  induction slots with
  | nil => rfl
  | cons first rest ih =>
    rw [updateFirst]
    split_ifs
    · rfl
    · rw [map_cons, map_cons, ih]

variable {state : RoundState}

theorem Sound.slots_nodup (h : state.Sound U dag leaders) (hnodup : (leaders state.round).Nodup) :
    (state.leaderSlots.map LeaderSlot.slot).Nodup := by
  rw [h.slots]
  exact hnodup.map fun i j hij => by simpa using hij

/-- The state after an undecided slot has taken a decision. -/
def record (state : RoundState) (slot : Slot) (newStatus : LeaderStatus) (decision : Decision) :
    RoundState :=
  { state with
    leaderSlots := updateFirst slot newStatus decision state.leaderSlots
    undecidedSlots := state.undecidedSlots.erase slot
    numCommitted :=
      match newStatus with
      | .commit _ => state.numCommitted + 1
      | _ => state.numCommitted }

theorem Sound.record (h : state.Sound U dag leaders) (hnodup : (leaders state.round).Nodup)
    {newStatus : LeaderStatus} (hslot : slot ∈ state.undecidedSlots)
    (hnew : StatusSound U.toBlockUniverse (U.rule leaders) dag slot newStatus)
    (hdecided : newStatus.isDecided = true) (decision : Decision) :
    (state.record slot newStatus decision).Sound U dag leaders := by
  have hslots := h.slots_nodup hnodup
  obtain ⟨old, hold, holdSlot, holdStatus⟩ := (h.undecided slot).mp hslot
  have hmem : slot ∈ state.leaderSlots.map LeaderSlot.slot := mem_map.mpr ⟨old, hold, holdSlot⟩
  have hentry : ∀ leaderSlot, leaderSlot ∈ updateFirst slot newStatus decision state.leaderSlots ↔
      (leaderSlot ∈ state.leaderSlots ∧ leaderSlot.slot ≠ slot) ∨
        leaderSlot = ⟨slot, newStatus, some decision⟩ := mem_updateFirst hslots hmem
  refine ⟨?_, ?_, ?_, ?_, ?_⟩
  · exact (map_slot_updateFirst state.leaderSlots).trans h.slots
  · intro leaderSlot hleader
    rcases (hentry leaderSlot).mp hleader with ⟨hin, -⟩ | rfl
    · exact h.status leaderSlot hin
    · exact hnew
  · intro leaderSlot hleader hstatus
    rcases (hentry leaderSlot).mp hleader with ⟨hin, -⟩ | rfl
    · exact h.decision leaderSlot hin hstatus
    · simp
  · intro slot'
    change slot' ∈ state.undecidedSlots.erase slot ↔ _
    rw [Finset.mem_erase, h.undecided slot']
    constructor
    · rintro ⟨hne, leaderSlot, hin, hslot', hstatus⟩
      exact ⟨leaderSlot, (hentry leaderSlot).mpr (.inl ⟨hin, by rw [hslot']; exact hne⟩),
        hslot', hstatus⟩
    · rintro ⟨leaderSlot, hleader, hslot', hstatus⟩
      rcases (hentry leaderSlot).mp hleader with ⟨hin, hne⟩ | rfl
      · exact ⟨by rw [← hslot']; exact hne, leaderSlot, hin, hslot', hstatus⟩
      · rw [hdecided] at hstatus
        simp at hstatus
  · -- the slot had no committed block before, so only its new status matters
    have hothers : (∃ leaderSlot ∈ state.leaderSlots, ∃ block,
        leaderSlot.leaderStatus = .commit block) ↔
        ∃ leaderSlot ∈ state.leaderSlots, leaderSlot.slot ≠ slot ∧ ∃ block,
          leaderSlot.leaderStatus = .commit block := by
      constructor
      · rintro ⟨leaderSlot, hin, block, hcommit⟩
        refine ⟨leaderSlot, hin, fun heq => ?_, block, hcommit⟩
        rw [inj_on_of_nodup_map hslots hin hold (heq.trans holdSlot.symm)] at hcommit
        rw [hcommit] at holdStatus
        simp [LeaderStatus.isDecided] at holdStatus
      · rintro ⟨leaderSlot, hin, -, hcommit⟩
        exact ⟨leaderSlot, hin, hcommit⟩
    have hnum := h.numCommitted
    rw [hothers] at hnum
    have hafter : (∃ leaderSlot ∈ updateFirst slot newStatus decision state.leaderSlots, ∃ block,
        leaderSlot.leaderStatus = .commit block) ↔
        0 < state.numCommitted ∨ ∃ block, newStatus = .commit block := by
      rw [hnum]
      constructor
      · rintro ⟨leaderSlot, hleader, hcommit⟩
        rcases (hentry leaderSlot).mp hleader with ⟨hin, hne⟩ | rfl
        · exact .inl ⟨leaderSlot, hin, hne, hcommit⟩
        · exact .inr hcommit
      · rintro (⟨leaderSlot, hin, hne, hcommit⟩ | hcommit)
        · exact ⟨leaderSlot, (hentry leaderSlot).mpr (.inl ⟨hin, hne⟩), hcommit⟩
        · exact ⟨_, (hentry _).mpr (.inr rfl), hcommit⟩
    refine Iff.trans ?_ hafter.symm
    cases newStatus with
    | commit block => simp [RoundState.record]
    | skip _ => simp [RoundState.record]
    | undecided _ => simp [LeaderStatus.isDecided] at hdecided

/-- **A decision of the rule can be recorded.**  The slot is undecided and takes the
    status, or it has this status already. -/
theorem Sound.updateSlotDecision (h : state.Sound U dag leaders)
    (hnodup : (leaders state.round).Nodup) {newStatus : LeaderStatus}
    (hslot : slot ∈ state.leaderSlots.map LeaderSlot.slot)
    (hnew : StatusSound U.toBlockUniverse (U.rule leaders) dag slot newStatus)
    (hopen : newStatus.isDecided = false → slot ∈ state.undecidedSlots) (decision : Decision) :
    ∃ state', state.updateSlotDecision slot newStatus decision = .ok state' ∧
      state'.Sound U dag leaders ∧ state'.round = state.round ∧
      (∀ slot' ∈ state.undecidedSlots, slot' ≠ slot → slot' ∈ state'.undecidedSlots) := by
  have hslots := h.slots_nodup hnodup
  obtain ⟨leaderSlot, hleader⟩ : ∃ leaderSlot,
      state.leaderSlots.find? (fun leaderSlot => leaderSlot.slot = slot) = some leaderSlot := by
    obtain ⟨x, hx, hxslot⟩ := mem_map.mp hslot
    rw [← Option.isSome_iff_exists, List.find?_isSome]
    exact ⟨x, hx, decide_eq_true hxslot⟩
  have hmem : leaderSlot ∈ state.leaderSlots := mem_of_find?_eq_some hleader
  have hleaderSlot : leaderSlot.slot = slot := by
    simpa using List.find?_some hleader
  have hdecidedAt : ∀ x ∈ state.leaderSlots, x.slot = slot → x = leaderSlot := by
    intro x hx hxslot
    exact inj_on_of_nodup_map hslots hx hmem (hxslot.trans hleaderSlot.symm)
  have hundecided : slot ∈ state.undecidedSlots ↔ leaderSlot.leaderStatus.isDecided = false := by
    rw [h.undecided slot]
    constructor
    · rintro ⟨x, hx, hxslot, hxundecided⟩
      rw [← hdecidedAt x hx hxslot]
      exact hxundecided
    · intro hstatus
      exact ⟨leaderSlot, hmem, hleaderSlot, hstatus⟩
  unfold RoundState.updateSlotDecision
  rw [hleader]
  simp only
  by_cases hdecided : newStatus.isDecided = true
  · rw [if_pos hdecided]
    by_cases hin : slot ∈ state.undecidedSlots
    · rw [if_pos hin]
      exact ⟨_, rfl, h.record hnodup hin hnew hdecided decision, rfl,
        fun slot' hslot' hne => Finset.mem_erase.mpr ⟨hne, hslot'⟩⟩
    · have hold : leaderSlot.leaderStatus.isDecided = true := by
        rwa [hundecided, Bool.not_eq_false] at hin
      have hsound := h.status leaderSlot hmem
      rw [hleaderSlot] at hsound
      rw [if_neg hin, if_pos (hsound.unique hnew hold hdecided)]
      exact ⟨state, rfl, h, rfl, fun _ hslot' _ => hslot'⟩
  · have hold := hundecided.mp (hopen (Bool.not_eq_true _ ▸ hdecided))
    rw [if_neg hdecided, if_neg (by rw [hold]; simp)]
    exact ⟨state, rfl, h, rfl, fun _ hslot' _ => hslot'⟩

theorem sound_new (round : Nat) : (RoundState.new (leaders round) round).Sound U dag leaders := by
  refine ⟨?_, ?_, ?_, ?_, ?_⟩
  · simp [RoundState.new, Function.comp_def]
  · intro leaderSlot hleader
    obtain ⟨i, -, rfl⟩ := mem_map.mp hleader
    rfl
  · intro leaderSlot hleader hdecided
    obtain ⟨i, -, rfl⟩ := mem_map.mp hleader
    simp [LeaderStatus.isDecided] at hdecided
  · intro slot
    simp only [RoundState.new, mem_toFinset, mem_map]
    constructor
    · rintro ⟨i, hi, rfl⟩
      exact ⟨_, ⟨i, hi, rfl⟩, rfl, rfl⟩
    · rintro ⟨_, ⟨i, hi, rfl⟩, rfl, -⟩
      exact ⟨i, hi, rfl⟩
  · constructor
    · intro hpos
      simp [RoundState.new] at hpos
    · rintro ⟨leaderSlot, hleader, block, hcommit⟩
      obtain ⟨i, -, rfl⟩ := mem_map.mp hleader
      simp at hcommit

end RoundState

/-! ### The pending state -/

namespace PendingCommitState

/-- The pending rounds are contiguous from the minimum leader round, and hold decisions
    of the rule. -/
structure Sound (U : V3Universe context) (dag : DagState) (shuffle : Shuffle)
    (pending : PendingCommitState) : Prop where
  allowed : pending.nextCommitLeaders.allowedLeaders.Nodup
  round_eq : ∀ {k : Nat} {state : RoundState}, pending.rounds[k]? = some state →
    state.round = pending.nextCommitLeaders.minNextLeaderRound + k
  rounds : ∀ state ∈ pending.rounds, state.Sound U dag (pending.leaders shuffle)

variable {shuffle : Shuffle} {pending : PendingCommitState}

section

variable (h : pending.Sound U dag shuffle)
include h

theorem Sound.addFromRound_eq :
    pending.addFromRound =
      pending.nextCommitLeaders.minNextLeaderRound + pending.rounds.length := by
  unfold addFromRound
  rcases hlast : pending.rounds.getLast? with _ | state
  · rw [List.getLast?_eq_none_iff.mp hlast]
    simp
  · have hne : pending.rounds ≠ [] := by
      rintro hnil
      simp [hnil] at hlast
    have hpos : 0 < pending.rounds.length := length_pos_iff.mpr hne
    rw [List.getLast?_eq_getElem?] at hlast
    have hround := h.round_eq hlast
    simp only
    omega

theorem Sound.extendTo (round : Nat) :
    (pending.extendTo shuffle round).Sound U dag shuffle ∧
      (pending.extendTo shuffle round).nextCommitLeaders = pending.nextCommitLeaders ∧
      (pending.nextCommitLeaders.minNextLeaderRound ≤ round →
        round < pending.nextCommitLeaders.minNextLeaderRound +
          (pending.extendTo shuffle round).rounds.length) := by
  have hrounds : (pending.extendTo shuffle round).rounds = pending.rounds ++
      (List.range' (pending.nextCommitLeaders.minNextLeaderRound + pending.rounds.length)
        (round + 1 - (pending.nextCommitLeaders.minNextLeaderRound + pending.rounds.length))).map
        fun r => RoundState.new (pending.leaders shuffle r) r := by
    simp only [PendingCommitState.extendTo]
    rw [h.addFromRound_eq]
    rfl
  refine ⟨⟨h.allowed, ?_, ?_⟩, rfl, fun hle => ?_⟩
  · intro k state hk
    rw [hrounds, List.getElem?_append] at hk
    split_ifs at hk with hlt
    · exact h.round_eq hk
    · rw [List.getElem?_map, Option.map_eq_some_iff] at hk
      obtain ⟨r, hr, rfl⟩ := hk
      obtain ⟨hbound, rfl⟩ := List.getElem?_eq_some_iff.mp hr
      rw [getElem_range']
      change _ + 1 * (k - pending.rounds.length) = pending.nextCommitLeaders.minNextLeaderRound + k
      omega
  · intro state hstate
    rw [hrounds, mem_append] at hstate
    rcases hstate with hstate | hstate
    · exact h.rounds state hstate
    · obtain ⟨r, -, rfl⟩ := mem_map.mp hstate
      exact RoundState.sound_new r
  · rw [hrounds, length_append, length_map, length_range']
    omega

theorem Sound.getRoundState {round : Nat}
    (hmin : pending.nextCommitLeaders.minNextLeaderRound ≤ round)
    (hlt : round < pending.nextCommitLeaders.minNextLeaderRound + pending.rounds.length) :
    ∃ state, pending.getRoundState round = .ok state ∧ state ∈ pending.rounds ∧
      state.round = round := by
  have hindex : round - pending.nextCommitLeaders.minNextLeaderRound < pending.rounds.length := by
    omega
  have hget := List.getElem?_eq_getElem hindex
  refine ⟨_, ?_, getElem_mem hindex, ?_⟩
  · simp only [PendingCommitState.getRoundState]
    rw [if_neg (by omega), hget]
  · have hround := h.round_eq hget
    omega

theorem Sound.setRoundState {round : Nat}
    (hmin : pending.nextCommitLeaders.minNextLeaderRound ≤ round) {state : RoundState}
    (hstate : state.Sound U dag (pending.leaders shuffle)) (hround : state.round = round) :
    (pending.setRoundState state round).Sound U dag shuffle := by
  refine ⟨h.allowed, ?_, ?_⟩
  · intro k other hk
    simp only [PendingCommitState.setRoundState, List.getElem?_set] at hk ⊢
    split_ifs at hk with heq hlt
    · cases hk
      omega
    · exact h.round_eq hk
  · intro other hother
    rcases mem_or_eq_of_mem_set hother with hother | rfl
    · exact h.rounds other hother
    · exact hstate

end

end PendingCommitState

theorem PendingCommitState.Sound.retains {dag' : DagState} {shuffle : Shuffle}
    {pending : PendingCommitState} (hdag : Retains context dag dag')
    (h : pending.Sound U dag shuffle) : pending.Sound U dag' shuffle := by
  refine ⟨h.allowed, h.round_eq, fun state hstate => ?_⟩
  have hsound := h.rounds state hstate
  exact { hsound with status := fun leaderSlot hmem => (hsound.status leaderSlot hmem).retains hdag }

variable {state : RoundState}

theorem RoundState.Sound.slot_round (h : state.Sound U dag leaders)
    {slot : Slot} (hslot : slot ∈ state.leaderSlots.map LeaderSlot.slot) :
    slot.round = state.round := by
  rw [h.slots] at hslot
  obtain ⟨i, -, rfl⟩ := mem_map.mp hslot
  rfl

theorem RoundState.Sound.leader_at
    (h : state.Sound U dag leaders) {k : Nat} {i : Nat} (hk : (leaders state.round)[k]? = some i) :
    ∃ leaderSlot, state.leaderSlots[k]? = some leaderSlot ∧ leaderSlot.slot = ⟨state.round, i⟩ := by
  have hslot : (state.leaderSlots.map LeaderSlot.slot)[k]? = some ⟨state.round, i⟩ := by
    rw [h.slots, List.getElem?_map, hk]
    rfl
  rw [List.getElem?_map, Option.map_eq_some_iff] at hslot
  exact hslot

theorem RoundState.Sound.skipped (h : state.Sound U dag leaders)
    {leaderSlot : LeaderSlot} (hmem : leaderSlot ∈ state.leaderSlots) {slot : Slot}
    (hskip : leaderSlot.leaderStatus = .skip slot) :
    (U.rule leaders).Decided leaderSlot.slot.round leaderSlot.slot.authority none := by
  have hstatus := h.status leaderSlot hmem
  rw [hskip] at hstatus
  exact hstatus.2

namespace FlexCommitter

variable {anchor : VerifiedBlock}

/-! ### Moving to the next commit -/

variable {state : RoundState}

theorem rounds_tail {rest : List RoundState} {start : Nat}
    (h : ∀ {k : Nat} {s : RoundState}, (state :: rest)[k]? = some s → s.round = start + k)
    {k : Nat} {s : RoundState} (hk : rest[k]? = some s) : s.round = start + 1 + k := by
  rw [h (k := k + 1) hk]
  omega

theorem dropWhile_rounds {rounds : List RoundState} {m : Nat} :
    ∀ {start : Nat}, (∀ {k : Nat} {state : RoundState}, rounds[k]? = some state →
      state.round = start + k) →
      (rounds.dropWhile fun state => state.round < m) = rounds.drop (m - start) := by
  induction rounds with
  | nil => simp
  | cons state rest ih =>
    intro start hround
    have hstart : state.round = start := hround (k := 0) rfl
    rw [dropWhile_cons]
    split_ifs with hlt
    · rw [decide_eq_true_eq] at hlt
      rw [ih (rounds_tail hround), show m - start = (m - (start + 1)) + 1 by omega, drop_succ_cons]
    · rw [decide_eq_true_eq] at hlt
      rw [show m - start = 0 by omega, drop_zero]

/-- The pending decisions are those for the next commit, or for an earlier one. -/
def Precedes (current next : NextCommitLeaderSchedule) : Prop :=
  current = next ∨ (current.nextCommitIndex < next.nextCommitIndex ∧
    current.minNextLeaderRound < next.minNextLeaderRound)

variable {next : NextCommitLeaderSchedule}

theorem maybeRefreshPendingCommitState_sound {shuffle : Shuffle} {pending : PendingCommitState}
    (h : pending.Sound U dag shuffle)
    (hnodup : next.allowedLeaders.Nodup) (hprecedes : Precedes pending.nextCommitLeaders next) :
    ∃ pending', maybeRefreshPendingCommitState pending next = .ok pending' ∧
      pending'.Sound U dag shuffle ∧ pending'.nextCommitLeaders = next := by
  rcases hprecedes with rfl | ⟨hindex, hmin⟩
  · exact ⟨pending, by simp [maybeRefreshPendingCommitState], h, rfl⟩
  · simp only [maybeRefreshPendingCommitState]
    rw [if_neg (Nat.ne_of_lt hindex), if_neg (not_not.mpr hindex), if_neg (not_not.mpr hmin)]
    by_cases hallowed : pending.nextCommitLeaders.allowedLeaders = next.allowedLeaders
    · rw [if_neg (not_not.mpr hallowed), dropWhile_rounds h.round_eq]
      have hround : ∀ {k : Nat} {state : RoundState},
          (pending.rounds.drop (next.minNextLeaderRound -
            pending.nextCommitLeaders.minNextLeaderRound))[k]? = some state →
          state.round = next.minNextLeaderRound + k := by
        intro k state hk
        rw [List.getElem?_drop] at hk
        rw [h.round_eq hk]
        omega
      have hsound : PendingCommitState.Sound U dag shuffle ⟨next, pending.rounds.drop
          (next.minNextLeaderRound - pending.nextCommitLeaders.minNextLeaderRound)⟩ := by
        refine ⟨hnodup, hround, fun state hstate => ?_⟩
        have hleaders : PendingCommitState.leaders shuffle pending = shuffle.leaders next.allowedLeaders := by
          rw [PendingCommitState.leaders, hallowed]
        have hold := h.rounds state (mem_of_mem_drop hstate)
        rw [hleaders] at hold
        exact hold
      split
      · next first hfirst =>
          rw [List.head?_eq_getElem?] at hfirst
          have hmatch : first.round = next.minNextLeaderRound := hround hfirst
          rw [if_neg (not_not.mpr hmatch)]
          exact ⟨_, rfl, hsound, rfl⟩
      · exact ⟨_, rfl, hsound, rfl⟩
    · rw [if_pos hallowed]
      exact ⟨_, rfl, ⟨hnodup, by simp, by simp⟩, rfl⟩

/-! ### The direct phase -/

section

variable (hvalid : Valid U.toBlockUniverse dag) (hindex : VoteIndex U.toBlockUniverse dag)
include hvalid hindex

/-- The direct rule gives a slot above the gc round a status of the rule. -/
theorem tryDirectDecide_sound (leaders : Nat → List Nat) {slot : Slot}
    (hgc : dag.gcRound context < slot.round) :
    ∃ status, tryDirectDecide context dag slot = .ok status ∧
      StatusSound U.toBlockUniverse (U.rule leaders) dag slot status := by
  obtain ⟨status, hstatus, h⟩ := tryDirectDecide_spec hvalid hindex hgc leaders
  refine ⟨status, hstatus, ?_⟩
  rcases h with ⟨info, rfl, hvoted, hcommit⟩ | ⟨rfl, hskip⟩ | rfl
  · exact ⟨hvoted.mem, hvoted.slot_eq, .directCommit hcommit, fun _ => ⟨info, hvoted.cached, rfl⟩⟩
  · exact ⟨rfl, .directSkip hskip⟩
  · rfl

theorem directCommitSlot_sound
    (h : state.Sound U dag leaders) (hnodup : (leaders state.round).Nodup)
    (hgc : dag.gcRound context < state.round) {slot : Slot} (hslot : slot ∈ state.undecidedSlots) :
    ∃ state', directCommitSlot context dag state slot = .ok state' ∧
      state'.Sound U dag leaders ∧ state'.round = state.round ∧
      ∀ slot' ∈ state.undecidedSlots, slot' ≠ slot → slot' ∈ state'.undecidedSlots := by
  obtain ⟨leaderSlot, hleader, hleaderSlot, -⟩ := (h.undecided slot).mp hslot
  have hmem : slot ∈ state.leaderSlots.map LeaderSlot.slot :=
    mem_map.mpr ⟨leaderSlot, hleader, hleaderSlot⟩
  rw [← h.slot_round hmem] at hgc
  obtain ⟨status, hstatus, hsound⟩ := tryDirectDecide_sound hvalid hindex leaders hgc
  simp only [directCommitSlot, hstatus, bind, Except.bind]
  exact h.updateSlotDecision hnodup hmem hsound (fun _ => hslot) .direct

theorem directCommitSlots_sound {slots : List Slot} (hslots : slots.Nodup)
    (h : state.Sound U dag leaders) (hnodup : (leaders state.round).Nodup)
    (hgc : dag.gcRound context < state.round)
    (hopen : ∀ slot ∈ slots, slot ∈ state.undecidedSlots) :
    ∃ state', slots.foldlM (directCommitSlot context dag) state = .ok state' ∧
      state'.Sound U dag leaders ∧ state'.round = state.round := by
  induction slots generalizing state with
  | nil => exact ⟨state, rfl, h, rfl⟩
  | cons slot rest ih =>
    rw [nodup_cons] at hslots
    obtain ⟨next, hnext, hsound, hround, hkept⟩ :=
      directCommitSlot_sound hvalid hindex h hnodup hgc (hopen slot (.head _))
    have hrest : ∀ slot' ∈ rest, slot' ∈ next.undecidedSlots := by
      intro slot' hslot'
      apply hkept slot' (hopen slot' (.tail _ hslot'))
      rintro rfl
      exact hslots.1 hslot'
    obtain ⟨state', hfold, hsound', hround'⟩ :=
      ih hslots.2 hsound (hround ▸ hnodup) (hround ▸ hgc) hrest
    refine ⟨state', ?_, hsound', hround'.trans hround⟩
    rw [foldlM_cons, hnext]
    exact hfold

end

theorem undecidedLeaderSlots_spec (h : state.Sound U dag leaders)
    (hnodup : (leaders state.round).Nodup) :
    (undecidedLeaderSlots state).Nodup ∧
      ∀ slot ∈ undecidedLeaderSlots state, slot ∈ state.undecidedSlots := by
  constructor
  · have hsub : (undecidedLeaderSlots state).Sublist (state.leaderSlots.map LeaderSlot.slot) := by
      unfold undecidedLeaderSlots
      induction state.leaderSlots with
      | nil => simp
      | cons first rest ih =>
        rw [filterMap_cons, map_cons]
        split
        · exact ih.cons _
        · next heq =>
            split_ifs at heq
            cases heq
            exact ih.cons_cons _
    exact (h.slots_nodup hnodup).sublist hsub
  · intro slot hslot
    obtain ⟨leaderSlot, hleader, hsome⟩ := mem_filterMap.mp hslot
    split_ifs at hsome with hdecided
    rw [Option.some.injEq] at hsome
    exact (h.undecided slot).mpr ⟨leaderSlot, hleader, hsome, by simpa using hdecided⟩

variable {shuffle : Shuffle} {pending : PendingCommitState} {round : Nat}

section

variable (hvalid : Valid U.toBlockUniverse dag) (hindex : VoteIndex U.toBlockUniverse dag)
  (h : pending.Sound U dag shuffle)
include hvalid hindex h

theorem directCommitRound_sound (hmin : pending.nextCommitLeaders.minNextLeaderRound ≤ round)
    (hgc : dag.gcRound context < round) :
    ∃ pending', directCommitRound context shuffle dag pending round = .ok pending' ∧
      pending'.Sound U dag shuffle ∧ pending'.nextCommitLeaders = pending.nextCommitLeaders := by
  obtain ⟨hext, hnext, hlen⟩ := h.extendTo round
  obtain ⟨state, hget, hmem, hround⟩ :=
    hext.getRoundState (hnext ▸ hmin) (by rw [hnext]; exact hlen hmin)
  have hleaders : (pending.leaders shuffle state.round).Nodup := shuffle.leaders_nodup h.allowed _
  have hstate := hext.rounds state hmem
  obtain ⟨hnodup, hopen⟩ := undecidedLeaderSlots_spec hstate hleaders
  obtain ⟨state', hfold, hsound, hround'⟩ :=
    directCommitSlots_sound hvalid hindex hnodup hstate hleaders (hround ▸ hgc) hopen
  refine ⟨_, ?_, hext.setRoundState (hnext ▸ hmin) hsound (hround'.trans hround), hnext⟩
  simp only [directCommitRound, hget, hfold, bind, Except.bind, pure, Except.pure]

/-- **The direct phase** never aborts and only makes decisions of the rule. -/
theorem tryDirectCommit_sound
    (hgc : dag.gcRound context < pending.nextCommitLeaders.minNextLeaderRound) :
    ∃ pending', tryDirectCommit context shuffle dag pending = .ok pending' ∧
      pending'.Sound U dag shuffle ∧ pending'.nextCommitLeaders = pending.nextCommitLeaders := by
  refine foldlM_total (fun p : PendingCommitState => p.Sound U dag shuffle ∧
    p.nextCommitLeaders = pending.nextCommitLeaders) ?_ ⟨h, rfl⟩
  rintro round hround p ⟨hp, hnext⟩
  obtain ⟨hmin, -⟩ := mem_range'_1.mp hround
  obtain ⟨p', hok, hp', hnext'⟩ :=
    directCommitRound_sound hvalid hindex hp (hnext ▸ hmin) (hgc.trans_le hmin)
  exact ⟨p', hok, hp', hnext'.trans hnext⟩

end

/-! ### The indirect phase -/

variable {block : VerifiedBlock}

/-- The first committed slot of a list, with the slots skipped before it. -/
theorem firstCommitted_eq_some {slots : List LeaderSlot} (h : firstCommitted slots = some block) :
    ∃ (k : Nat) (leaderSlot : LeaderSlot), slots[k]? = some leaderSlot ∧
      leaderSlot.leaderStatus = .commit block ∧
      ∀ (k' : Nat) (before : LeaderSlot), k' < k → slots[k']? = some before →
        ∃ slot, before.leaderStatus = .skip slot := by
  induction slots with
  | nil => simp [firstCommitted] at h
  | cons first rest ih =>
    rw [firstCommitted] at h
    split at h
    · next heq =>
        cases h
        exact ⟨0, first, rfl, heq, fun k' _ hlt => absurd hlt (Nat.not_lt_zero k')⟩
    · simp at h
    · next slot heq =>
        obtain ⟨k, leaderSlot, hk, hcommit, hbefore⟩ := ih h
        refine ⟨k + 1, leaderSlot, hk, hcommit, ?_⟩
        intro k' before hlt hk'
        cases k' with
        | zero =>
          rw [List.getElem?_cons_zero, Option.some.injEq] at hk'
          exact ⟨slot, hk' ▸ heq⟩
        | succ k' => exact hbefore k' before (by omega) hk'

theorem firstCommitted_append {slots slots' : List LeaderSlot}
    (h : firstCommitted (slots ++ slots') = some block) :
    firstCommitted slots = some block ∨
      ((∀ leaderSlot ∈ slots, ∃ slot, leaderSlot.leaderStatus = .skip slot) ∧
        firstCommitted slots' = some block) := by
  induction slots with
  | nil => exact .inr ⟨nofun, h⟩
  | cons first rest ih =>
    rw [cons_append, firstCommitted] at h
    rw [firstCommitted]
    rcases hstatus : first.leaderStatus with b | s | s
    · simp only [hstatus] at h ⊢
      exact .inl h
    · simp only [hstatus] at h ⊢
      rcases ih h with hfirst | ⟨hskip, hrest⟩
      · exact .inl hfirst
      · exact .inr ⟨forall_mem_cons.mpr ⟨⟨s, hstatus⟩, hskip⟩, hrest⟩
    · simp [hstatus] at h

/-- The first committed slot of contiguous sound rounds is the first commit of the
    rule from the first of the rounds on. -/
theorem firstCommitted_sound {rounds : List RoundState} {start : Nat}
    (hround : ∀ {k : Nat} {state : RoundState}, rounds[k]? = some state → state.round = start + k)
    (hsound : ∀ state ∈ rounds, state.Sound U dag leaders)
    (h : firstCommitted (rounds.flatMap RoundState.leaderSlots) = some block) :
    (U.rule leaders).FirstCommit start block.round block.reference ∧ block ∈ U.blocks ∧
      (dag.gcRound context < block.round → Cached dag block) := by
  induction rounds generalizing start with
  | nil => simp [firstCommitted] at h
  | cons state rest ih =>
    have hstate := hsound state (.head _)
    have hstart : state.round = start := hround (k := 0) rfl
    rw [flatMap_cons] at h
    rcases firstCommitted_append h with hfirst | ⟨hskip, hrest⟩
    · obtain ⟨k, leaderSlot, hk, hcommit, hbefore⟩ := firstCommitted_eq_some hfirst
      have hmem := mem_of_getElem? hk
      have hstatus := hstate.status leaderSlot hmem
      have hslot := hstate.slot_round (mem_map_of_mem hmem)
      rw [hcommit] at hstatus
      obtain ⟨hblock, hblockSlot, hdecided, hcached⟩ := hstatus
      have hblockRound : block.round = start := by
        rw [← hstart, ← hslot, ← hblockSlot]
        rfl
      have hleader : (leaders start)[k]? = some leaderSlot.slot.authority := by
        have hslots : (state.leaderSlots.map LeaderSlot.slot)[k]? = some leaderSlot.slot := by
          rw [List.getElem?_map, hk]
          rfl
        rw [hstate.slots, List.getElem?_map, Option.map_eq_some_iff, hstart] at hslots
        obtain ⟨i, hi, heq⟩ := hslots
        rw [hi, ← heq]
      refine ⟨⟨hblockRound.ge, ?_, k, leaderSlot.slot.authority, ?_, ?_, ?_⟩, hblock, ?_⟩
      · intro ρ' hle hlt
        omega
      · rw [hblockRound]
        exact hleader
      · intro k' i hlt hi
        rw [hblockRound] at hi
        obtain ⟨before, hbeforeAt, hbeforeSlot⟩ := hstate.leader_at (hstart ▸ hi)
        obtain ⟨slot, hslot⟩ := hbefore k' before hlt hbeforeAt
        have hdecided := hstate.skipped (mem_of_getElem? hbeforeAt) hslot
        rw [hbeforeSlot] at hdecided
        rw [hblockRound, ← hstart]
        exact hdecided
      · rw [hblockRound, ← hstart, ← hslot]
        exact hdecided
      · rw [hblockRound, ← hstart, ← hslot]
        exact hcached
    · obtain ⟨hcommit, hblock⟩ := ih (rounds_tail hround)
        (fun next hnext => hsound next (.tail state hnext)) hrest
      refine ⟨hcommit.of_succ ?_, hblock⟩
      intro i hi
      obtain ⟨k, hk⟩ := mem_iff_getElem?.mp hi
      obtain ⟨leaderSlot, hat, hslot⟩ := hstate.leader_at (hstart.symm ▸ hk)
      have hmem := mem_of_getElem? hat
      obtain ⟨slot, hskipped⟩ := hskip leaderSlot hmem
      have hdecided := hstate.skipped hmem hskipped
      rw [hslot] at hdecided
      rw [← hstart]
      exact hdecided

theorem findAnchorBlock_sound (h : pending.Sound U dag shuffle) {startRound : Nat}
    (hmin : pending.nextCommitLeaders.minNextLeaderRound ≤ startRound)
    (hanchor : findAnchorBlock pending startRound = some anchor) :
    (U.rule (pending.leaders shuffle)).FirstCommit startRound anchor.round anchor.reference ∧
      anchor ∈ U.blocks ∧ (dag.gcRound context < anchor.round → Cached dag anchor) := by
  refine firstCommitted_sound ?_ (fun state hstate => h.rounds state (mem_of_mem_drop hstate))
    hanchor
  intro k state hk
  rw [List.getElem?_drop] at hk
  rw [h.round_eq hk]
  omega

theorem tryIndirectDecide_sound (hvalid : Valid U.toBlockUniverse dag)
    (hgc : dag.gcRound context < round)
    (hfirst : (U.rule leaders).FirstCommit (round + INDIRECT_COMMIT_DEPTH) anchor.round
      anchor.reference) (hcached : Cached dag anchor) {slots : List Slot} (hne : slots ≠ [])
    (hround : ∀ slot ∈ slots, slot.round = round) :
    ∃ decide : Slot → LeaderStatus,
      tryIndirectDecide context dag anchor slots = .ok (slots.map decide) ∧
      ∀ slot ∈ slots, StatusSound U.toBlockUniverse (U.rule leaders) dag slot (decide slot) ∧
        (decide slot).isDecided = true := by
  obtain ⟨decide, hdecide, hstatus⟩ :=
    tryIndirectDecide_spec hvalid leaders hcached hne hround hgc hfirst.1
  refine ⟨decide, hdecide, fun slot hslot => ?_⟩
  have hslotRound := hround slot hslot
  have hanchors := anchors_of_cached hvalid leaders hcached hgc hfirst.1
  rw [← hslotRound] at hfirst hanchors
  rcases hstatus slot hslot with ⟨block, hcommit, hblock, hblockSlot, houtcome⟩ | ⟨hskip, houtcome⟩
  · rw [hcommit]
    refine ⟨⟨?_, hblockSlot, hfirst.decided hanchors houtcome, fun _ => hblock⟩, rfl⟩
    obtain ⟨info, hinfo, rfl⟩ := hblock
    exact (hvalid.block_mem hinfo).1
  · rw [hskip]
    exact ⟨⟨rfl, hfirst.decided hanchors houtcome⟩, rfl⟩

theorem updateDecided_sound (h : state.Sound U dag leaders)
    (hnodup : (leaders state.round).Nodup) {decide : Slot → LeaderStatus}
    (hsound : ∀ slot ∈ state.leaderSlots.map LeaderSlot.slot,
      StatusSound U.toBlockUniverse (U.rule leaders) dag slot (decide slot) ∧ (decide slot).isDecided = true) :
    let slots := state.leaderSlots.map LeaderSlot.slot
    ∃ state', (slots.zip (slots.map decide)).foldlM
        (fun roundState decided => roundState.updateSlotDecision decided.1 decided.2 .indirect)
        state = .ok state' ∧
      state'.Sound U dag leaders ∧ state'.round = state.round := by
  intro slots
  rw [← map_prod_left_eq_zip]
  refine foldlM_total (fun s : RoundState => s.Sound U dag leaders ∧ s.round = state.round) ?_
    ⟨h, rfl⟩
  rintro decided hdecided s ⟨hs, hround⟩
  obtain ⟨slot, hslot, rfl⟩ := mem_map.mp hdecided
  have hmem : slot ∈ s.leaderSlots.map LeaderSlot.slot := by
    rw [hs.slots, hround, ← h.slots]
    exact hslot
  obtain ⟨hstatus, hisDecided⟩ := hsound slot hslot
  obtain ⟨s', hs', hsound', hround', -⟩ := hs.updateSlotDecision (hround ▸ hnodup) hmem hstatus
    (fun hopen => by simp [hisDecided] at hopen) .indirect
  exact ⟨s', hs', hsound', hround'.trans hround⟩

section

variable (hvalid : Valid U.toBlockUniverse dag) (h : pending.Sound U dag shuffle)
include hvalid h

theorem decideWithAnchorBlock_sound (hmin : pending.nextCommitLeaders.minNextLeaderRound ≤ round)
    (hgc : dag.gcRound context < round)
    (hfirst : (U.rule (pending.leaders shuffle)).FirstCommit (round + INDIRECT_COMMIT_DEPTH)
      anchor.round anchor.reference) (hcached : Cached dag anchor) :
    ∃ pending', decideWithAnchorBlock context shuffle dag pending anchor round = .ok pending' ∧
      pending'.Sound U dag shuffle ∧ pending'.nextCommitLeaders = pending.nextCommitLeaders := by
  obtain ⟨hext, hnext, hlen⟩ := h.extendTo round
  obtain ⟨state, hget, hmem, hround⟩ :=
    hext.getRoundState (hnext ▸ hmin) (by rw [hnext]; exact hlen hmin)
  simp only [decideWithAnchorBlock, hget, bind, Except.bind, pure, Except.pure]
  by_cases hempty : state.undecidedSlots = ∅
  · rw [if_pos hempty]
    exact ⟨_, rfl, hext, hnext⟩
  · rw [if_neg hempty]
    have hstate : state.Sound U dag (pending.leaders shuffle) := hext.rounds state hmem
    have hne : state.leaderSlots.map LeaderSlot.slot ≠ [] := by
      obtain ⟨slot, hslot⟩ := Finset.nonempty_iff_ne_empty.mpr hempty
      obtain ⟨leaderSlot, hleader, -⟩ := (hstate.undecided slot).mp hslot
      exact ne_nil_of_mem (mem_map_of_mem hleader)
    obtain ⟨decide, hdecide, hsound⟩ := tryIndirectDecide_sound hvalid hgc hfirst hcached hne
      (fun slot hslot => (hstate.slot_round hslot).trans hround)
    obtain ⟨state', hfold, hstate', hround'⟩ :=
      updateDecided_sound hstate (shuffle.leaders_nodup h.allowed state.round) hsound
    simp only [hdecide, hfold]
    exact ⟨_, rfl, hext.setRoundState (hnext ▸ hmin) hstate' (hround'.trans hround), hnext⟩

/-- **The indirect phase** never aborts: a slot that is already decided gets the
    decision it has. -/
theorem tryIndirectCommit_sound
    (hgc : dag.gcRound context < pending.nextCommitLeaders.minNextLeaderRound) :
    ∃ pending', tryIndirectCommit context shuffle dag pending = .ok pending' ∧
      pending'.Sound U dag shuffle ∧ pending'.nextCommitLeaders = pending.nextCommitLeaders := by
  refine foldlM_total (fun p : PendingCommitState => p.Sound U dag shuffle ∧
    p.nextCommitLeaders = pending.nextCommitLeaders) ?_ ⟨h, rfl⟩
  rintro round hround p ⟨hp, hnext⟩
  obtain ⟨hmin, -⟩ := mem_range'_1.mp (mem_reverse.mp hround)
  rw [← hnext] at hmin hgc
  unfold indirectCommitRound
  split
  · exact ⟨p, rfl, hp, hnext⟩
  · next anchor hanchor =>
      obtain ⟨hfirst, -, hcached⟩ := findAnchorBlock_sound hp (by omega) hanchor
      have hdepth := hfirst.1
      obtain ⟨p', hok, hp', hnext'⟩ := decideWithAnchorBlock_sound hvalid hp hmin
        (hgc.trans_le hmin) hfirst (hcached (by omega))
      exact ⟨p', hok, hp', hnext'.trans hnext⟩

/-- **Deciding never aborts**, and all its decisions are those of the rule. -/
theorem decide_sound (hindex : VoteIndex U.toBlockUniverse dag) (hnodup : next.allowedLeaders.Nodup)
    (hprecedes : Precedes pending.nextCommitLeaders next)
    (hgc : dag.gcRound context < next.minNextLeaderRound) :
    ∃ pending', decide context shuffle dag pending next = .ok pending' ∧
      pending'.Sound U dag shuffle ∧ pending'.nextCommitLeaders = next := by
  obtain ⟨fresh, hfresh, hsound, hnext⟩ := maybeRefreshPendingCommitState_sound h hnodup hprecedes
  obtain ⟨direct, hdirect, hsound', hnext'⟩ :=
    tryDirectCommit_sound hvalid hindex hsound (hnext ▸ hgc)
  simp only [decide, hfresh, hdirect, bind, Except.bind, pure, Except.pure]
  split
  · exact ⟨direct, rfl, hsound', hnext'.trans hnext⟩
  · obtain ⟨indirect, hindirect, hsound'', hnext''⟩ :=
      tryIndirectCommit_sound hvalid hsound' (hnext' ▸ hnext ▸ hgc)
    exact ⟨indirect, hindirect, hsound'', hnext''.trans (hnext'.trans hnext)⟩

end

end FlexCommitter

end Haneul.Consensus
