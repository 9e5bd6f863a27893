import Haneul.Consensus.CommitWalk
import Haneul.Consensus.FlexDecisions

/-!
# The commits of the v3 committer

What `build_commit` makes of the committed leaders of a round.  The traversal
collects exactly the uncommitted ancestors of the leaders above the gc round
(`collectBlocks_spec`), and two nodes with the same commits so far build the same
commit from the same leaders (`buildCommit_agree`).
-/

namespace Haneul.Consensus

open List

namespace FlexCommitter

open DagState LeaderSlotDecider

section Traverse

variable {context : Context} {U : BlockUniverse context} {state : DagState} {gcRound : Nat}
  {leaders : List VerifiedBlock}

theorem fresh_cons {a : BlockRef} {rest : List BlockRef} :
    fresh gcRound state (a :: rest) =
      if gcRound < a.round ∧ state.committedFlag a = false then a :: fresh gcRound state rest
      else fresh gcRound state rest := by
  simp [fresh, filter_cons]

theorem visitCommitAncestors_spec {ancestors : List BlockRef} (hnodup : ancestors.Nodup) :
    ∀ (traversal : Traversal), Valid U traversal.state →
      (∀ a ∈ ancestors, gcRound < a.round → a ∈ traversal.state.recentBlocks) →
      ∃ traversal' new, ancestors.foldlM (visitCommitAncestor context gcRound) traversal =
          .ok traversal' ∧
        Marks traversal.state traversal'.state (fresh gcRound traversal.state ancestors) ∧
        traversal'.toCommit = traversal.toCommit ∧ traversal'.toVisit = new ++ traversal.toVisit ∧
        (∀ b ∈ new, Cached traversal.state b) ∧
        new.map VerifiedBlock.reference = (fresh gcRound traversal.state ancestors).reverse := by
  induction ancestors with
  | nil =>
    intro traversal _ _
    exact ⟨traversal, [], rfl, Marks.refl _, rfl, rfl, by simp, rfl⟩
  | cons a rest ih =>
    intro traversal hvalid hclosed
    rw [nodup_cons] at hnodup
    have hrest : ∀ a ∈ rest, gcRound < a.round → a ∈ traversal.state.recentBlocks :=
      fun x hx => hclosed x (.tail a hx)
    by_cases hround : a.round ≤ gcRound
    · obtain ⟨traversal', new, hfold, h⟩ := ih hnodup.2 traversal hvalid hrest
      refine ⟨traversal', new, ?_, ?_⟩
      · rw [foldlM_cons, visitCommitAncestor, if_pos hround]
        exact hfold
      · rw [fresh_cons, if_neg (fun hfresh => absurd hfresh.1 (not_lt.mpr hround))]
        exact h
    · have hmem := hclosed a mem_cons_self (not_le.mp hround)
      rcases setCommitted_spec hmem with ⟨hflag, hset⟩ | ⟨hflag, marked, hset, hmarks⟩
      · obtain ⟨traversal', new, hfold, h⟩ := ih hnodup.2 traversal hvalid hrest
        refine ⟨traversal', new, ?_, ?_⟩
        · rw [foldlM_cons, visitCommitAncestor, if_neg hround, hset]
          exact hfold
        · rw [fresh_cons, if_neg (fun hfresh => by simp [hflag] at hfresh)]
          exact h
      · obtain ⟨block, hget, hcached, href⟩ :=
          getBlock_of_mem (hvalid.sameBlocks hmarks.same) ((hmarks.same.mem a).mpr hmem)
        -- the ancestor that was just marked does not occur again
        have hfresh : fresh gcRound marked rest = fresh gcRound traversal.state rest := by
          apply filter_congr
          intro x hx
          have hne : x ≠ a := fun heq => hnodup.1 (heq ▸ hx)
          have hflags : marked.committedFlag x = traversal.state.committedFlag x := by
            rw [Bool.eq_iff_iff, hmarks.flag]
            simp [hne]
          rw [hflags]
        obtain ⟨traversal', new, hfold, hmarks', hcommit, hvisit, hnew, hrefs⟩ :=
          ih hnodup.2 { traversal with state := marked, toVisit := block :: traversal.toVisit }
            (hvalid.sameBlocks hmarks.same)
            (fun x hx hxround => (hmarks.same.mem x).mpr (hrest x hx hxround))
        rw [hfresh] at hmarks' hrefs
        refine ⟨traversal', new ++ [block], ?_, ?_, hcommit, ?_, ?_, ?_⟩
        · rw [foldlM_cons, visitCommitAncestor, if_neg hround, hset]
          simp only [bind, Except.bind, hget]
          exact hfold
        · rw [fresh_cons, if_pos ⟨not_le.mp hround, hflag⟩]
          exact hmarks.trans hmarks'
        · rw [hvisit, append_assoc]
          rfl
        · exact forall_mem_append.mpr ⟨fun b hb => hmarks.cached.mp (hnew b hb),
            forall_mem_singleton.mpr (hmarks.cached.mp hcached)⟩
        · rw [fresh_cons, if_pos ⟨not_le.mp hround, hflag⟩, reverse_cons, map_append,
            hrefs, map_cons, map_nil, href]

variable {traversal : Traversal}

theorem traversalTurn_spec {block : VerifiedBlock}
    {rest : List VerifiedBlock} (hvalid : Valid U traversal.state)
    (hvisit : traversal.toVisit = block :: rest) (hblock : block ∈ U.blocks)
    (hclosed : ∀ a ∈ block.ancestors, gcRound < a.round → a ∈ traversal.state.recentBlocks) :
    ∃ traversal', traversalTurn context gcRound traversal = .ok (.continue traversal') ∧
      WalkTurn gcRound block rest traversal.state traversal'.state traversal'.toVisit ∧
      traversal'.toCommit = traversal.toCommit ++ [block] := by
  obtain ⟨traversal', new, hfold, hmarks, hcommit, hvisit', hnew, hrefs⟩ :=
    visitCommitAncestors_spec (ancestors_nodup hblock)
      { traversal with toVisit := rest, toCommit := traversal.toCommit ++ [block] } hvalid hclosed
  refine ⟨traversal', ?_, ⟨hmarks, new, hvisit', hnew, hrefs⟩, hcommit⟩
  simp only [traversalTurn, hvisit, hfold, bind, Except.bind, pure, Except.pure]

structure Committable (context : Context) (state : DagState) (leaders : List VerifiedBlock) :
    Prop where
  nodup : (leaders.map VerifiedBlock.reference).Nodup
  cached : ∀ b ∈ leaders, Cached state b
  unmarked : ∀ b ∈ leaders,
    state.gcRound context < b.round ∧ state.committedFlag b.reference = false

theorem commitLeaders_spec (hnodup : (leaders.map VerifiedBlock.reference).Nodup) :
    ∀ {state : DagState}, (∀ b ∈ leaders, b.reference ∈ state.recentBlocks) →
      (∀ b ∈ leaders, gcRound < b.round ∧ state.committedFlag b.reference = false) →
      ∃ marked, leaders.foldlM (commitLeader gcRound) state = .ok marked ∧
        Marks state marked (leaders.map VerifiedBlock.reference) := by
  induction leaders with
  | nil =>
    intro state _ _
    exact ⟨state, rfl, Marks.refl state⟩
  | cons leader rest ih =>
    intro state hmem hunmarked
    rw [map_cons, nodup_cons] at hnodup
    obtain ⟨hround, hflag⟩ := hunmarked leader (.head _)
    rcases setCommitted_spec (hmem leader (.head _)) with
      ⟨hmarked, -⟩ | ⟨-, marked, hset, hmarks⟩
    · simp [hflag] at hmarked
    · have hrest : ∀ b ∈ rest, gcRound < b.round ∧ marked.committedFlag b.reference = false := by
        intro b hb
        obtain ⟨hbround, hbflag⟩ := hunmarked b (.tail leader hb)
        have hne : b.reference ≠ leader.reference :=
          fun heq => hnodup.1 (heq ▸ mem_map_of_mem hb)
        refine ⟨hbround, ?_⟩
        rw [← Bool.not_eq_true, hmarks.flag]
        simp [hbflag, hne]
      obtain ⟨marked', hfold, hmarks'⟩ := ih hnodup.2
        (fun b hb => (hmarks.same.mem _).mpr (hmem b (.tail leader hb))) hrest
      refine ⟨marked', ?_, hmarks.trans hmarks'⟩
      rw [foldlM_cons, commitLeader, if_neg (not_not.mpr hround), hset]
      exact hfold

/-- The invariant of the traversal loop. -/
def Traversing (U : BlockUniverse context) (gcRound : Nat) (start : DagState)
    (leaders : List VerifiedBlock) (traversal : Traversal) : Prop :=
  Walk U gcRound start leaders traversal.state traversal.toVisit traversal.toCommit

theorem Traversing.turn {start : DagState} (hvalid : Valid U start)
    (hgc : start.gcRound context = gcRound) (h : Traversing U gcRound start leaders traversal) :
    (traversal.toVisit = [] ∧ traversalTurn context gcRound traversal = .ok (.done traversal)) ∨
    ∃ block rest traversal', traversal.toVisit = block :: rest ∧
      traversalTurn context gcRound traversal = .ok (.continue traversal') ∧
      WalkTurn gcRound block rest traversal.state traversal'.state traversal'.toVisit ∧
      traversal'.toCommit = traversal.toCommit ++ [block] ∧
      (∀ a ∈ block.ancestors, gcRound < a.round → a ∈ traversal.state.recentBlocks) ∧
      Traversing U gcRound start leaders traversal' := by
  rcases hvisit : traversal.toVisit with _ | ⟨block, rest⟩
  · refine .inl ⟨rfl, ?_⟩
    rw [traversalTurn, hvisit]
  · have hwalk : Walk U gcRound start leaders traversal.state (block :: rest)
        traversal.toCommit := hvisit ▸ h
    have hcached := hwalk.cached block (by simp)
    have hclosed : ∀ a ∈ block.ancestors, gcRound < a.round →
        a ∈ traversal.state.recentBlocks := by
      intro a ha hround
      obtain ⟨info, hinfo, rfl⟩ := hcached
      exact (h.marks.same.mem a).mpr (hvalid.closed hinfo a ha (hgc ▸ hround))
    obtain ⟨traversal', hturn, hwalkTurn, hcommit⟩ := traversalTurn_spec
      (hvalid.sameBlocks h.marks.same) hvisit (hcached.mem_blocks hvalid) hclosed
    refine .inr ⟨block, rest, traversal', rfl, hturn, hwalkTurn, hcommit, hclosed, ?_⟩
    have hnext := hwalk.turn hvalid hwalkTurn
    rw [← hcommit] at hnext
    exact hnext

/-- **The traversal** ends, fails no assertion, and collects exactly the uncommitted
    blocks above the gc round that the leaders reach. -/
theorem collectBlocks_spec (hvalid : Valid U state) (hleaders : Committable context state leaders) :
    ∃ traversal, collectBlocks context state leaders = .ok traversal ∧
      Collected U (state.gcRound context) state leaders traversal.state traversal.toCommit := by
  obtain ⟨marked, hmarked, hmarks⟩ := commitLeaders_spec hleaders.nodup
    (fun b hb => (hleaders.cached b hb).mem) hleaders.unmarked
  have hstart : Traversing U (state.gcRound context) state leaders
      { state := marked, toVisit := leaders.reverse } :=
    Walk.of_leaders hmarks hleaders.nodup hleaders.cached hleaders.unmarked (reverse_perm _)
  simp only [collectBlocks, hmarked, bind, Except.bind]
  refine loop_total (fun n t => Traversing U (state.gcRound context) state leaders t ∧
    n + t.toCommit.length = state.recentBlocks.size) (n := state.recentBlocks.size) ?_
    ⟨hstart, rfl⟩ (Nat.lt_succ_self _)
  rintro n traversal ⟨htraversing, hbound⟩
  rcases htraversing.turn hvalid rfl with ⟨hvisit, hdone⟩ |
    ⟨block, rest, next, hvisit, hnext, -, hcommit, -, hnextWalk⟩
  · refine .inl ⟨traversal, hdone, ?_⟩
    have hwalk : Walk U (state.gcRound context) state leaders traversal.state [] traversal.toCommit :=
      hvisit ▸ htraversing
    exact hwalk.collected
  · have hle := Walk.length_le htraversing
    rw [hvisit, length_cons] at hle
    refine .inr ⟨n - 1, next, hnext, by omega, hnextWalk, ?_⟩
    rw [hcommit, length_append, length_singleton]
    omega

theorem collected_of_ok (hvalid : Valid U state) (hleaders : Committable context state leaders)
    (h : collectBlocks context state leaders = .ok traversal) :
    Collected U (state.gcRound context) state leaders traversal.state traversal.toCommit := by
  obtain ⟨traversal', hok, hcollected⟩ := collectBlocks_spec hvalid hleaders
  rw [h, Except.ok.injEq] at hok
  exact hok ▸ hcollected

/-- Two nodes with the same flags collect the same blocks in the same order. -/
theorem collectBlocks_agree {state₁ state₂ : DagState} (hvalid₁ : Valid U state₁)
    (hvalid₂ : Valid U state₂) (hgc : state₁.gcRound context = state₂.gcRound context)
    (hflags : SameFlags (state₁.gcRound context) state₁ state₂)
    (hleaders₁ : Committable context state₁ leaders)
    (hleaders₂ : Committable context state₂ leaders) {traversal₁ traversal₂ : Traversal}
    (h₁ : collectBlocks context state₁ leaders = .ok traversal₁)
    (h₂ : collectBlocks context state₂ leaders = .ok traversal₂) :
    traversal₁.toCommit = traversal₂.toCommit := by
  obtain ⟨marked₁, hmarked₁, hmarks₁⟩ := commitLeaders_spec hleaders₁.nodup
    (fun b hb => (hleaders₁.cached b hb).mem) hleaders₁.unmarked
  obtain ⟨marked₂, hmarked₂, hmarks₂⟩ := commitLeaders_spec hleaders₂.nodup
    (fun b hb => (hleaders₂.cached b hb).mem) hleaders₂.unmarked
  obtain ⟨gcRound, hgc₁⟩ : ∃ gcRound, state₁.gcRound context = gcRound := ⟨_, rfl⟩
  have hgc₂ : state₂.gcRound context = gcRound := hgc ▸ hgc₁
  rw [hgc₁] at hflags hmarked₁
  rw [hgc₂] at hmarked₂
  simp only [collectBlocks, hgc₁, hmarked₁, bind, Except.bind] at h₁
  simp only [collectBlocks, hgc₂, hmarked₂, bind, Except.bind] at h₂
  refine loop_lockstep (fun t₁ t₂ => Traversing U gcRound state₁ leaders t₁ ∧
    Traversing U gcRound state₂ leaders t₂ ∧ t₁.toVisit = t₂.toVisit ∧
    t₁.toCommit = t₂.toCommit ∧ SameFlags gcRound t₁.state t₂.state)
    (fun t₁ t₂ => t₁.toCommit = t₂.toCommit) ?_ ?_ h₁ h₂
  · rintro t₁ t₂ ⟨hwalk₁, hwalk₂, hvisit, hcommit, hsame⟩
    rcases hwalk₁.turn hvalid₁ hgc₁ with ⟨hempty₁, hdone₁⟩ |
      ⟨block, rest, next₁, hvisit₁, hnext₁, hturn₁, hcommit₁, hclosed₁, hnextWalk₁⟩
    · rcases hwalk₂.turn hvalid₂ hgc₂ with ⟨-, hdone₂⟩ | ⟨block, rest, next₂, hvisit₂, -⟩
      · exact .inl ⟨t₁, t₂, hdone₁, hdone₂, hcommit⟩
      · simp [← hvisit, hempty₁] at hvisit₂
    · rcases hwalk₂.turn hvalid₂ hgc₂ with ⟨hempty₂, -⟩ |
        ⟨block', rest', next₂, hvisit₂, hnext₂, hturn₂, hcommit₂, hclosed₂, hnextWalk₂⟩
      · simp [hvisit, hempty₂] at hvisit₁
      · rw [← hvisit, hvisit₁, List.cons.injEq] at hvisit₂
        obtain ⟨rfl, rfl⟩ := hvisit₂
        obtain ⟨hvisit', hsame'⟩ := hturn₁.lockstep (hvalid₁.sameBlocks hwalk₁.marks.same)
          (hvalid₂.sameBlocks hwalk₂.marks.same) hsame hclosed₁ hclosed₂ hturn₂
        exact .inr ⟨next₁, next₂, hnext₁, hnext₂, hnextWalk₁, hnextWalk₂, hvisit',
          by rw [hcommit₁, hcommit₂, hcommit], hsame'⟩
  · have hunmarked₁ := hleaders₁.unmarked
    have hunmarked₂ := hleaders₂.unmarked
    rw [hgc₁] at hunmarked₁
    rw [hgc₂] at hunmarked₂
    exact ⟨Walk.of_leaders hmarks₁ hleaders₁.nodup hleaders₁.cached hunmarked₁
      (reverse_perm _), Walk.of_leaders hmarks₂ hleaders₂.nodup hleaders₂.cached hunmarked₂
      (reverse_perm _), rfl, rfl, hflags.marks hmarks₁ hmarks₂⟩

end Traverse

/-! ### The leaders of a commit -/

section Leaders

variable {context : Context} {U : V3Universe context} {dag dag' : DagState}
  {leaders : Nat → List Nat}

/-- Every slot of the round is decided. -/
def Closed (state : RoundState) : Prop := state.undecidedSlots = ∅

variable {state : RoundState}

theorem Closed.isDecided (h : state.Sound U dag leaders) (hclosed : Closed state)
    {leaderSlot : LeaderSlot} (hmem : leaderSlot ∈ state.leaderSlots) :
    leaderSlot.leaderStatus.isDecided = true := by
  by_contra hopen
  have hslot := (h.undecided leaderSlot.slot).mpr ⟨leaderSlot, hmem, rfl, by simpa using hopen⟩
  rw [hclosed] at hslot
  exact absurd hslot (Finset.notMem_empty _)

theorem Closed.skipped (h : state.Sound U dag leaders)
    (hclosed : Closed state) (hnone : ¬ 0 < state.numCommitted) {i : Nat}
    (hi : i ∈ leaders state.round) : (U.rule leaders).Decided state.round i none := by
  obtain ⟨k, hk⟩ := mem_iff_getElem?.mp hi
  obtain ⟨leaderSlot, hat, hslot⟩ := h.leader_at hk
  have hmem := mem_of_getElem? hat
  have hdecided := hclosed.isDecided h hmem
  rcases hstatus : leaderSlot.leaderStatus with block | slot | slot
  · exact absurd (h.numCommitted.mpr ⟨leaderSlot, hmem, block, hstatus⟩) hnone
  · have hskip := h.skipped hmem hstatus
    rw [hslot] at hskip
    exact hskip
  · rw [hstatus] at hdecided
    simp [LeaderStatus.isDecided] at hdecided

theorem findCommitLeaderRound_sound {rounds : List RoundState} {start round : Nat}
    (hround : ∀ {k : Nat} {state : RoundState}, rounds[k]? = some state → state.round = start + k)
    (hsound : ∀ state ∈ rounds, state.Sound U dag leaders)
    (h : findCommitLeaderRound rounds = some round) :
    (U.rule leaders).CommitRound start round ∧
      ∃ state ∈ rounds, state.round = round ∧ Closed state ∧ 0 < state.numCommitted := by
  induction rounds generalizing start with
  | nil => simp [findCommitLeaderRound] at h
  | cons state rest ih =>
    have hstate := hsound state (.head _)
    have hstart : state.round = start := hround (k := 0) rfl
    rw [findCommitLeaderRound] at h
    split_ifs at h with hopen hcommitted
    · cases h
      obtain ⟨leaderSlot, hmem, block, hcommit⟩ := hstate.numCommitted.mp hcommitted
      have hstatus := hstate.status leaderSlot hmem
      have hslot := hstate.slots ▸ mem_map_of_mem (f := LeaderSlot.slot) hmem
      obtain ⟨i, hi, heq⟩ := mem_map.mp hslot
      rw [hcommit, ← heq] at hstatus
      refine ⟨⟨hstart.ge, ?_, i, hi, block.reference, hstatus.2.2.1⟩, state,
        (.head _), rfl, not_not.mp hopen, hcommitted⟩
      intro ρ' hle hlt
      omega
    · obtain ⟨⟨hle, hearlier, hcommit⟩, state', hmem, hstate'⟩ := ih (rounds_tail hround)
        (fun next hnext => hsound next (.tail state hnext)) h
      refine ⟨⟨by omega, ?_, hcommit⟩, state', mem_cons_of_mem state hmem, hstate'⟩
      intro ρ' hρ' hlt l hl
      rcases Nat.eq_or_lt_of_le hρ' with rfl | hgt
      · rw [← hstart] at hl ⊢
        exact Closed.skipped hstate (not_not.mp hopen) hcommitted hl
      · exact hearlier ρ' hgt hlt l hl

def committedBlock : LeaderStatus → Option VerifiedBlock
  | .commit block => some block
  | _ => none

def committedBlocks (state : RoundState) : List VerifiedBlock :=
  (state.leaderSlots.map LeaderSlot.leaderStatus).filterMap committedBlock

theorem committedLeaders_eq {slots : List LeaderSlot}
    (h : ∀ leaderSlot ∈ slots, leaderSlot.leaderStatus.isDecided = true) :
    committedLeaders slots =
      .ok ((slots.map LeaderSlot.leaderStatus).filterMap committedBlock) := by
  induction slots with
  | nil => rfl
  | cons first rest ih =>
    have hrest := ih fun leaderSlot hmem => h leaderSlot (.tail first hmem)
    have hfirst := h first (.head _)
    rw [committedLeaders]
    rcases hstatus : first.leaderStatus with block | slot | slot
    · simp only [hrest, map_cons, hstatus, filterMap_cons, committedBlock, bind,
        Except.bind, pure, Except.pure]
    · simp only [hrest, map_cons, hstatus, filterMap_cons, committedBlock]
    · rw [hstatus] at hfirst
      simp [LeaderStatus.isDecided] at hfirst

theorem mem_committedBlocks {block : VerifiedBlock} :
    block ∈ committedBlocks state ↔
      ∃ leaderSlot ∈ state.leaderSlots, leaderSlot.leaderStatus = .commit block := by
  rw [committedBlocks, filterMap_map, mem_filterMap]
  constructor
  · rintro ⟨leaderSlot, hmem, hblock⟩
    refine ⟨leaderSlot, hmem, ?_⟩
    rcases hstatus : leaderSlot.leaderStatus with b | s | s
    · simpa [committedBlock, hstatus] using hblock
    · simp [committedBlock, hstatus] at hblock
    · simp [committedBlock, hstatus] at hblock
  · rintro ⟨leaderSlot, hmem, hstatus⟩
    exact ⟨leaderSlot, hmem, by simp [committedBlock, hstatus]⟩

theorem committedBlocks_slots (h : state.Sound U dag leaders) :
    ((committedBlocks state).map VerifiedBlock.slot).Sublist
      (state.leaderSlots.map LeaderSlot.slot) := by
  have hstatus := h.status
  rw [committedBlocks]
  generalize state.leaderSlots = slots at hstatus
  induction slots with
  | nil => simp
  | cons first rest ih =>
    have hrest := ih fun leaderSlot hmem => hstatus leaderSlot (.tail first hmem)
    have hfirst := hstatus first (.head _)
    rw [map_cons, map_cons]
    rcases hfirstStatus : first.leaderStatus with block | slot | slot
    · rw [hfirstStatus] at hfirst
      have hslot : block.slot = first.slot := hfirst.2.1
      simpa [committedBlock, hslot] using hrest
    · exact hrest.cons _
    · exact hrest.cons _

/-- Two nodes that decided all slots of a round have the same decisions. -/
theorem leaderStatus_agree {state state' : RoundState} (h : state.Sound U dag leaders)
    (h' : state'.Sound U dag' leaders) (hround : state.round = state'.round)
    (hclosed : Closed state) (hclosed' : Closed state') :
    state.leaderSlots.map LeaderSlot.leaderStatus =
      state'.leaderSlots.map LeaderSlot.leaderStatus := by
  have hslots : state.leaderSlots.map LeaderSlot.slot = state'.leaderSlots.map LeaderSlot.slot := by
    rw [h.slots, h'.slots, hround]
  apply ext_getElem?
  intro k
  have hat := congrArg (fun l => l[k]?) hslots
  simp only [List.getElem?_map] at hat ⊢
  rcases hk : state.leaderSlots[k]? with _ | leaderSlot
  · rw [hk, Option.map_none, eq_comm, Option.map_eq_none_iff] at hat
    rw [hat]
  · rw [hk, Option.map_some, eq_comm, Option.map_eq_some_iff] at hat
    obtain ⟨leaderSlot', hk', hslot⟩ := hat
    have hmem := mem_of_getElem? hk
    have hmem' := mem_of_getElem? hk'
    have hstatus' := h'.status leaderSlot' hmem'
    rw [hslot] at hstatus'
    rw [hk', Option.map_some, Option.map_some, (h.status leaderSlot hmem).unique hstatus'
      (hclosed.isDecided h hmem) (hclosed'.isDecided h' hmem')]

/-- The committed leaders of a round above the last commit can start a commit. -/
theorem committedBlocks_committable (h : state.Sound U dag leaders)
    (hnodup : (leaders state.round).Nodup) (hgc : dag.gcRound context < state.round)
    (hflags : ∀ r, dag.committedFlag r = true → r.round < state.round) :
    Committable context dag (committedBlocks state) ∧
      ∀ b ∈ committedBlocks state, b.round = state.round := by
  have hblock : ∀ b ∈ committedBlocks state, b.round = state.round ∧ Cached dag b := by
    intro b hb
    obtain ⟨leaderSlot, hmem, hcommit⟩ := mem_committedBlocks.mp hb
    have hstatus := h.status leaderSlot hmem
    have hslot := h.slot_round (mem_map_of_mem hmem)
    rw [hcommit] at hstatus
    obtain ⟨-, hblockSlot, -, hcached⟩ := hstatus
    have hround : b.round = state.round := by
      rw [← hslot, ← hblockSlot]
      rfl
    exact ⟨hround, hcached (hslot ▸ hgc)⟩
  refine ⟨⟨?_, fun b hb => (hblock b hb).2, ?_⟩, fun b hb => (hblock b hb).1⟩
  · have hslots := (h.slots_nodup hnodup).sublist (committedBlocks_slots h)
    have hslot : VerifiedBlock.slot = BlockRef.slot ∘ VerifiedBlock.reference := rfl
    rw [hslot, ← map_map] at hslots
    exact hslots.of_map _
  · intro b hb
    have hround := (hblock b hb).1
    refine ⟨hround ▸ hgc, ?_⟩
    rw [← Bool.not_eq_true]
    intro hflag
    exact absurd (hflags b.reference hflag) (by simp [hround])

end Leaders

/-! ### The commit -/

section Build

variable {context : Context} {hashes : CommitHashes} {U : BlockUniverse context}

theorem loadParent_agree {dag dag' : DagState} (hvalid : Valid U dag)
    (hvalid' : Valid U dag') {parent : BlockRef} {block block' : VerifiedBlock}
    (h : loadParent context dag parent = .ok block)
    (h' : loadParent context dag' parent = .ok block') : block = block' := by
  unfold loadParent at h h'
  split at h
  · next b hb =>
      split at h'
      · next b' hb' =>
          cases h
          cases h'
          exact getBlock_agree hvalid hvalid' hb hb'
      · simp at h'
  · simp at h

theorem calculateCommitTimestamp_agree {dag dag' : DagState} (hvalid : Valid U dag)
    (hvalid' : Valid U dag') (hlast : dag.lastCommitTimestampMs = dag'.lastCommitTimestampMs)
    {leaders : List VerifiedBlock} {ts ts' : Nat}
    (h : calculateCommitTimestamp context dag leaders = .ok ts)
    (h' : calculateCommitTimestamp context dag' leaders = .ok ts') : ts = ts' := by
  unfold calculateCommitTimestamp at h h'
  obtain ⟨blocks, hblocks, h⟩ := bind_eq_ok.mp h
  obtain ⟨blocks', hblocks', h'⟩ := bind_eq_ok.mp h'
  have hsame : blocks = blocks' := by
    simp only [timestampBlocks] at hblocks hblocks'
    rcases hfirst : leaders.head? with _ | first
    · simp [hfirst] at hblocks
    · rw [hfirst] at hblocks hblocks'
      dsimp only at hblocks hblocks'
      split_ifs at hblocks hblocks'
      · exact Except.ok.inj (hblocks.symm.trans hblocks')
      · exact mapM_agree (fun _ _ _ => loadParent_agree hvalid hvalid') hblocks hblocks'
  subst hsame
  rw [hlast] at h
  exact Except.ok.inj (h.symm.trans h')

/-! The order of the blocks of a commit. -/

theorem sortCommittedBlocks_perm (hashes : CommitHashes) (seed : Nat)
    (blocks : List VerifiedBlock) : (sortCommittedBlocks hashes seed blocks).Perm blocks :=
  perm_insertionSort _ _

instance (seed : Nat) : Std.Total (sortKeyLe hashes seed) := ⟨fun _ _ => le_total _ _⟩

instance (seed : Nat) : IsTrans VerifiedBlock (sortKeyLe hashes seed) :=
  ⟨fun _ _ _ hab hbc => le_trans hab hbc⟩

theorem sortKeyLe.round_le {seed : Nat} {a b : VerifiedBlock} (h : sortKeyLe hashes seed a b) :
    a.round ≤ b.round := by
  rcases Prod.Lex.toLex_le_toLex.mp h with hlt | ⟨heq, -⟩
  · exact Nat.le_of_lt hlt
  · exact heq.le

theorem sortCommittedBlocks_sorted (hashes : CommitHashes) (seed : Nat)
    (blocks : List VerifiedBlock) :
    (sortCommittedBlocks hashes seed blocks).Pairwise fun a b => a.round ≤ b.round :=
  (pairwise_insertionSort _ _).imp sortKeyLe.round_le

theorem round_le_of_getLast {blocks : List VerifiedBlock} {last : VerifiedBlock}
    (hsorted : blocks.Pairwise fun a b => a.round ≤ b.round) (hlast : blocks.getLast? = some last)
    {b : VerifiedBlock} (hb : b ∈ blocks) : b.round ≤ last.round := by
  obtain ⟨before, rfl⟩ := List.getLast?_eq_some_iff.mp hlast
  rcases mem_append.mp hb with hbefore | hbLast
  · exact (pairwise_append.mp hsorted).2.2 b hbefore last (.head _)
  · rw [mem_singleton] at hbLast
    exact hbLast ▸ le_rfl

theorem buildCommit_cases {dag : DagState} {pending : PendingCommitState} {round : Nat}
    {built : BuiltCommit} (h : buildCommit context hashes dag pending round = .ok built) :
    ∃ roundState leaders traversal toCommit leader timestampMs,
      pending.getRoundState round = .ok roundState ∧
      committedLeaders roundState.leaderSlots = .ok leaders ∧ leaders ≠ [] ∧
      collectBlocks context dag leaders = .ok traversal ∧
      toCommit = sortCommittedBlocks hashes (hashes.sortSeed (leaders.map VerifiedBlock.digest))
        traversal.toCommit ∧
      toCommit.getLast? = some leader ∧ leader.round = round ∧
      calculateCommitTimestamp context traversal.state leaders = .ok timestampMs ∧
      built = assembleCommit hashes dag pending leaders traversal.state toCommit leader.reference
        timestampMs := by
  unfold buildCommit at h
  obtain ⟨roundState, hstate, leaders, hleaders, h⟩ := bind₂_eq_ok.mp h
  split_ifs at h with hne
  obtain ⟨-, -, traversal, htraversal, h⟩ := bind₂_eq_ok.mp h
  dsimp only at h
  split at h
  · simp at h
  · next leader hleader =>
      split_ifs at h with hround
      obtain ⟨timestampMs, hts, h⟩ := bind_eq_ok.mp h
      exact ⟨roundState, leaders, traversal, _, leader, timestampMs, hstate, hleaders, hne,
        htraversal, rfl, hleader, not_not.mp hround, hts, (Except.ok.inj h).symm⟩

end Build

end FlexCommitter

end Haneul.Consensus
