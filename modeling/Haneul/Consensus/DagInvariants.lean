import Haneul.Consensus.DagState

/-!
# Invariants of the local DAG

What holds of a `DagState` between calls: its cached blocks are blocks of the
universe and are closed under the ancestors above the gc round (`Valid`), and,
under v3, the votes and the per-round stakes that the decider reads are exactly
those of the cached blocks (`VoteIndex`).  Each call of the block manager, of the
committers and of `flush` keeps both.
-/

namespace Haneul.Consensus

open Quorum List Map

namespace DagState

/-- The blocks of the state are blocks of the universe, and the cache is closed
    under the ancestors above the gc round. -/
structure Valid {context : Context} (U : BlockUniverse context) (state : DagState) : Prop where
  block_mem : ∀ {r : BlockRef} {info : BlockInfo}, state.recentBlocks[r]? = some info →
    info.block ∈ U.blocks ∧ info.block.reference = r
  closed : ∀ {r : BlockRef} {info : BlockInfo}, state.recentBlocks[r]? = some info →
    ∀ a ∈ info.block.ancestors, state.gcRound context < a.round → a ∈ state.recentBlocks
  stored_mem : ∀ {r : BlockRef} {b : VerifiedBlock}, state.storedBlocks[r]? = some b →
    b ∈ U.blocks ∧ b.reference = r
  buffered_mem : ∀ b ∈ state.blocksToWrite, b ∈ U.blocks
  highest : ∀ r ∈ state.recentBlocks, r.round ≤ state.highestAcceptedRound

/-- The votes of the authors of some blocks, aggregated exactly. -/
def Aggregates (committee : Committee) (aggregator : StakeAggregator) (blocks : Finset BlockRef) :
    Prop :=
  aggregator.Consistent committee ∧ aggregator.votes = blocks.image BlockRef.author

/-- The table of rounds is contiguous from round `front`, and reaches the gc round. -/
structure TableShape (context : Context) (state : DagState) (front : Nat) : Prop where
  front_le : front ≤ state.gcRound context + 1
  next_ge : state.gcRound context + 1 ≤ front + state.roundInfo.length
  round_eq : ∀ {k : Nat} {info : RoundInfo}, state.roundInfo[k]? = some info →
    info.round = front + k

/-- The table is exact above the gc round and has an entry for each cached block
    there. -/
structure RoundTable (context : Context) (state : DagState) (front : Nat) : Prop extends
    TableShape context state front where
  blocks : ∀ {k : Nat} {info : RoundInfo}, state.roundInfo[k]? = some info →
    state.gcRound context < info.round →
    (∀ c, c ∈ info.blocks ↔ c ∈ state.recentBlocks ∧ c.round = info.round) ∧
    Aggregates context.committee info.totalStake info.blocks
  covered : ∀ r ∈ state.recentBlocks, state.gcRound context < r.round →
    r.round < front + state.roundInfo.length

/-- The votes recorded with each cached block are those of its cached children. -/
def Children {context : Context} (U : BlockUniverse context) (state : DagState) : Prop :=
  ∀ (r : BlockRef) (info : BlockInfo), state.recentBlocks[r]? = some info →
    state.gcRound context < r.round →
    (∀ c, c ∈ info.children ↔ c ∈ state.recentBlocks ∧ c.round = r.round + 1 ∧ r ∈ U.ancestors c) ∧
    Aggregates context.committee info.childrenStake info.children

/-- The vote bookkeeping of v3 is exact above the gc round. -/
structure VoteIndex {context : Context} (U : BlockUniverse context) (state : DagState) :
    Prop where
  children : Children U state
  table : ∃ front, RoundTable context state front

/-! ### Aggregation -/

theorem aggregates_empty (committee : Committee) : Aggregates committee {} ∅ :=
  ⟨StakeAggregator.consistent_empty, rfl⟩

variable {aggregator : StakeAggregator}

theorem Aggregates.insert {committee : Committee}
    {blocks : Finset BlockRef} (h : Aggregates committee aggregator blocks) (block : BlockRef) :
    Aggregates committee (aggregator.addUnique block.author committee).1
      (Insert.insert block blocks) := by
  refine ⟨h.1.addUnique block.author, ?_⟩
  rw [StakeAggregator.votes_addUnique, h.2, Finset.image_insert]

theorem Aggregates.stake_eq {committee : Committee}
    {blocks : Finset BlockRef} (h : Aggregates committee aggregator blocks) :
    aggregator.stake = weight committee.stake (blocks.image BlockRef.author) := by
  rw [← h.2]
  exact h.1

/-! ### Accepting a block -/

section Accept

variable {context : Context} {U : BlockUniverse context} {state state' : DagState}
  {block : VerifiedBlock} {front : Nat}

theorem acceptBlock_cases (h : acceptBlock context state block = .ok state') :
    (state' = state ∧ block.round ≠ GENESIS_ROUND ∧
      state.containsBlock context block.reference = true) ∨
    (block.reference ∉ state.recentBlocks ∧
      ∃ updated, updateBlockMetadata context state block = .ok updated ∧
        state' = { updated with blocksToWrite := updated.blocksToWrite ++ [block] }) := by
  unfold acceptBlock at h
  split_ifs at h with hgenesis hcontains hown
  · cases h
    exact .inl ⟨rfl, hgenesis, hcontains⟩
  · obtain ⟨updated, hupdate, h⟩ := bind_eq_ok.mp h
    cases h
    exact .inr ⟨fun hmem => hcontains (by simp [containsBlock, hmem]), updated, hupdate, rfl⟩

theorem addChild_cases {ancestor : BlockRef}
    (h : addChild context block state ancestor = .ok state') :
    state' = { state with recentBlocks := state'.recentBlocks } ∧
    ∀ r, state'.recentBlocks[r]? = state.recentBlocks[r]?.map fun info =>
      if r = ancestor ∧ r.round + 1 = block.round ∧ state.gcRound context < r.round then
        info.addChild block.reference context.committee
      else info := by
  unfold addChild at h
  split_ifs at h with hvote
  · cases h
    refine ⟨rfl, fun r => ?_⟩
    cases hr : state.recentBlocks[r]? with
    | none => rfl
    | some info =>
      rw [Option.map_some, if_neg]
      rintro ⟨rfl, hround, hgc⟩
      exact hvote.elim (· hround) (Nat.not_le.mpr hgc)
  · rw [not_or, not_not, not_le] at hvote
    cases hinfo : state.recentBlocks[ancestor]? with
    | none =>
      rw [hinfo] at h
      cases h
    | some info =>
      rw [hinfo] at h
      cases h
      refine ⟨rfl, fun r => ?_⟩
      rw [get_insert]
      by_cases hr : ancestor = r
      · subst hr
        rw [if_pos rfl, hinfo, Option.map_some, if_pos ⟨rfl, hvote⟩]
      · rw [if_neg hr]
        cases state.recentBlocks[r]? with
        | none => rfl
        | some other => rw [Option.map_some, if_neg fun hand => hr hand.1.symm]

theorem addChild_idem (info : BlockInfo) (child : BlockRef) (committee : Committee) :
    (info.addChild child committee).addChild child committee = info.addChild child committee := by
  have hvote : child.author ∈ (info.childrenStake.addUnique child.author committee).1.votes := by
    rw [StakeAggregator.votes_addUnique]
    exact Finset.mem_insert_self _ _
  simp only [BlockInfo.addChild, Finset.insert_idem, BlockInfo.mk.injEq, true_and, and_true]
  rw [StakeAggregator.addUnique, if_pos hvote]

/-- The votes of a block for a list of its ancestors: only the cached infos of
    those it votes for change. -/
theorem addChildren_cases {ancestors : List BlockRef} :
    ∀ {state : DagState}, ancestors.foldlM (addChild context block) state = .ok state' →
      state' = { state with recentBlocks := state'.recentBlocks } ∧
      ∀ r, state'.recentBlocks[r]? = state.recentBlocks[r]?.map fun info =>
        if r ∈ ancestors ∧ r.round + 1 = block.round ∧ state.gcRound context < r.round then
          info.addChild block.reference context.committee
        else info := by
  induction ancestors with
  | nil =>
    intro state h
    cases h
    simp
  | cons ancestor rest ih =>
    intro state h
    obtain ⟨next, hstep, hrest⟩ := foldlM_cons_eq_ok.mp h
    obtain ⟨hnext, hget⟩ := addChild_cases hstep
    obtain ⟨hlast, hget'⟩ := ih hrest
    have hgc : next.gcRound context = state.gcRound context := by rw [hnext]; rfl
    refine ⟨by rw [hlast, hnext], fun r => ?_⟩
    rw [hget' r, hget r, Option.map_map, hgc]
    congr 1
    funext info
    simp only [Function.comp_apply, mem_cons]
    by_cases hvote : r.round + 1 = block.round ∧ state.gcRound context < r.round
    · by_cases hr : r = ancestor
      · rw [if_pos (c := r = ancestor ∧ _) ⟨hr, hvote⟩,
          if_pos (c := (r = ancestor ∨ r ∈ rest) ∧ _) ⟨.inl hr, hvote⟩]
        split_ifs
        · exact addChild_idem info block.reference context.committee
        · rfl
      · rw [if_neg (c := r = ancestor ∧ _) fun hand => hr hand.1]
        by_cases hmem : r ∈ rest
        · rw [if_pos ⟨hmem, hvote⟩, if_pos ⟨.inr hmem, hvote⟩]
        · rw [if_neg fun hand => hmem hand.1, if_neg fun hand => hand.1.elim hr hmem]
    · simp [hvote]

theorem gcRound_congr (h : state'.lastCommit = state.lastCommit) :
    state'.gcRound context = state.gcRound context := by
  simp only [gcRound, lastCommitRound, h]

section

variable (h : TableShape context state front)
include h

theorem TableShape.nextRound_eq :
    state.nextRound context = front + state.roundInfo.length := by
  unfold nextRound
  rcases hlast : state.roundInfo.getLast? with _ | info
  · have hnil : state.roundInfo = [] := List.getLast?_eq_none_iff.mp hlast
    have hle := h.front_le
    have hge := h.next_ge
    rw [hnil] at hge ⊢
    simp only [length_nil] at hge ⊢
    omega
  · rw [List.getLast?_eq_getElem?] at hlast
    have hround := h.round_eq hlast
    have hpos : state.roundInfo.length - 1 < state.roundInfo.length := by
      by_contra hnot
      rw [List.getElem?_eq_none (by omega)] at hlast
      simp at hlast
    simp only
    omega

theorem TableShape.extended_get {round k : Nat} {info : RoundInfo}
    (hinfo : (state.extendedRoundInfo context round)[k]? = some info) :
    state.roundInfo[k]? = some info ∨
      (info = { round := round } ∧ k = state.roundInfo.length ∧ round = front + k) := by
  unfold extendedRoundInfo at hinfo
  rw [h.nextRound_eq] at hinfo
  split_ifs at hinfo with hnext
  · rw [List.getElem?_append] at hinfo
    split_ifs at hinfo with hk
    · exact .inl hinfo
    · rw [List.getElem?_singleton] at hinfo
      split_ifs at hinfo with hlast
      simp only [Option.some.injEq] at hinfo
      exact .inr ⟨hinfo.symm, by omega, by omega⟩
  · exact .inl hinfo

theorem TableShape.extended_round_eq {round k : Nat} {info : RoundInfo}
    (hinfo : (state.extendedRoundInfo context round)[k]? = some info) :
    info.round = front + k := by
  rcases h.extended_get hinfo with hold | ⟨rfl, -, hround⟩
  · exact h.round_eq hold
  · exact hround

end

theorem extended_length (state : DagState) (round : Nat) :
    state.roundInfo.length ≤ (state.extendedRoundInfo context round).length := by
  unfold extendedRoundInfo
  split_ifs
  · simp
  · exact le_rfl

theorem updateRoundInfo_eq (h : updateRoundInfo context state block = .ok state') :
    state' = { state with roundInfo := state'.roundInfo } := by
  simp only [updateRoundInfo] at h
  split_ifs at h
  · cases h
    rfl
  · split at h
    · cases h
    · split_ifs at h
      split at h
      · cases h
      · cases h
        rfl

/-- What `update_round_info` does to a table that starts at `front`: above the gc
    round the entry of the block's round, created if it is the next one, gets the
    block. -/
theorem updateRoundInfo_cases (htable : TableShape context state front)
    (h : updateRoundInfo context state block = .ok state') :
    (block.round ≤ state.gcRound context ∧ state'.roundInfo = state.roundInfo) ∨
    ∃ index info, state.gcRound context < block.round ∧
      block.round ≤ front + state.roundInfo.length ∧ block.round = front + index ∧
      (state.extendedRoundInfo context block.round)[index]? = some info ∧
      state'.roundInfo = (state.extendedRoundInfo context block.round).set index
        (info.addBlock block.reference context.committee) := by
  simp only [updateRoundInfo] at h
  split_ifs at h with hgc hnext
  · cases h
    exact .inl ⟨hgc, rfl⟩
  · rw [htable.nextRound_eq] at hnext
    split at h
    · cases h
    · rename_i first hfirst
      rw [List.head?_eq_getElem?] at hfirst
      have hfront := htable.extended_round_eq hfirst
      split_ifs at h with hlow
      split at h
      · cases h
      · rename_i info hinfo
        cases h
        exact .inr ⟨_, info, by omega, hnext, by omega, hinfo, rfl⟩

section OneMore

variable {E P Q : Prop}

theorem and_iff_or_and (h : E → ¬ Q) : P ∧ Q ↔ (P ∨ E) ∧ Q :=
  and_congr_left fun hQ => (or_iff_left fun hE => h hE hQ).symm

theorem or_and_iff (h : E → Q) : E ∨ P ∧ Q ↔ (P ∨ E) ∧ Q := by
  rw [or_and_right, and_iff_left_of_imp h, or_comm]

end OneMore

/-- A table that stays is as good for other cached blocks, if those above the gc round are the
    same. -/
theorem RoundTable.congr (h : RoundTable context state front)
    (hgc : state'.gcRound context = state.gcRound context)
    (hinfo : state'.roundInfo = state.roundInfo)
    (hmem : ∀ r : BlockRef, state.gcRound context < r.round →
      (r ∈ state'.recentBlocks ↔ r ∈ state.recentBlocks)) : RoundTable context state' front := by
  refine ⟨⟨by rw [hgc]; exact h.front_le, by rw [hgc, hinfo]; exact h.next_ge,
    fun hk => h.round_eq (hinfo ▸ hk)⟩, fun {k info} hk hround => ?_, fun r hr hround => ?_⟩
  · rw [hgc] at hround
    obtain ⟨hblocks, hstake⟩ := h.blocks (hinfo ▸ hk) hround
    refine ⟨fun c => ?_, hstake⟩
    rw [hblocks c]
    exact and_congr_left fun hc => (hmem c (hc ▸ hround)).symm
  · rw [hgc] at hround
    rw [hinfo]
    exact h.covered r ((hmem r hround).mp hr) hround

theorem RoundTable.updateRoundInfo {cached : DagState} (h : RoundTable context state front)
    (hinfo : cached.roundInfo = state.roundInfo) (hcommit : cached.lastCommit = state.lastCommit)
    (hmem : ∀ r, r ∈ cached.recentBlocks ↔ r ∈ state.recentBlocks ∨ r = block.reference)
    (hupdate : DagState.updateRoundInfo context cached block = .ok state') :
    RoundTable context state' front := by
  have hgc : cached.gcRound context = state.gcRound context := gcRound_congr hcommit
  have hshape : TableShape context cached front :=
    ⟨by rw [hgc]; exact h.front_le, by rw [hgc, hinfo]; exact h.next_ge,
      fun hk => h.round_eq (hinfo ▸ hk)⟩
  have hstate := updateRoundInfo_eq hupdate
  have hcases := updateRoundInfo_cases hshape hupdate
  have hgc' : state'.gcRound context = state.gcRound context := by
    rw [← hgc, hstate]; rfl
  have hmem' : ∀ r, r ∈ state'.recentBlocks ↔ r ∈ state.recentBlocks ∨ r = block.reference := by
    rw [hstate]; exact hmem
  rw [hgc, hinfo] at hcases
  rcases hcases with ⟨hlow, hsame⟩ | ⟨index, info, hhigh, hnext, hindex, hget, hset⟩
  · refine h.congr hgc' hsame fun r hround => (hmem' r).trans (or_iff_left ?_)
    rintro rfl
    exact Nat.not_lt.mpr hlow hround
  · have hlength : state'.roundInfo.length =
        (cached.extendedRoundInfo context block.round).length := by rw [hset, length_set]
    have hlonger : cached.roundInfo.length ≤
        (cached.extendedRoundInfo context block.round).length := extended_length cached block.round
    have hindexLt : index < (cached.extendedRoundInfo context block.round).length :=
      (List.getElem?_eq_some_iff.mp hget).1
    rw [hinfo] at hlonger
    -- an entry of the new table is the changed one or an old one
    have hentry : ∀ {k : Nat} {entry : RoundInfo}, state'.roundInfo[k]? = some entry →
        (k = index ∧ entry = info.addBlock block.reference context.committee) ∨
        (k ≠ index ∧ state.roundInfo[k]? = some entry) := by
      intro k entry hk
      rw [hset, List.getElem?_set] at hk
      split_ifs at hk with heq
      · simp only [Option.some.injEq] at hk
        exact .inl ⟨heq.symm, hk.symm⟩
      · rcases hshape.extended_get hk with hold | ⟨-, hlast, hround⟩
        · exact .inr ⟨fun h => heq h.symm, hinfo ▸ hold⟩
        · omega
    have hinfoRound : info.round = block.round := by
      rw [hshape.extended_round_eq hget, hindex]
    have hblocks : (∀ c, c ∈ info.blocks ↔ c ∈ state.recentBlocks ∧ c.round = block.round) ∧
        Aggregates context.committee info.totalStake info.blocks := by
      rcases hshape.extended_get hget with hold | ⟨rfl, hlast, -⟩
      · rw [← hinfoRound]
        exact h.blocks (hinfo ▸ hold) (by omega)
      · refine ⟨fun c => ?_, aggregates_empty context.committee⟩
        simp only [Finset.notMem_empty, false_iff, not_and]
        intro hc hround
        have hcovered := h.covered c hc (by omega)
        rw [hinfo] at hlast
        omega
    refine ⟨⟨?_, ?_, ?_⟩, ?_, ?_⟩
    · rw [hgc']; exact h.front_le
    · have hge := h.next_ge
      omega
    · intro k entry hk
      rcases hentry hk with ⟨rfl, rfl⟩ | ⟨-, hold⟩
      · exact hinfoRound.trans hindex
      · exact h.round_eq hold
    · intro k entry hk hround
      rw [hgc'] at hround
      rcases hentry hk with ⟨rfl, rfl⟩ | ⟨hne, hold⟩
      · refine ⟨fun c => ?_, hblocks.2.insert block.reference⟩
        simp only [RoundInfo.addBlock, Finset.mem_insert, hblocks.1 c, hmem' c, hinfoRound]
        exact or_and_iff (congrArg BlockRef.round)
      · obtain ⟨hold', hstake⟩ := h.blocks hold hround
        have hother := h.round_eq hold
        refine ⟨fun c => ?_, hstake⟩
        rw [hold' c, hmem' c]
        refine and_iff_or_and ?_
        rintro rfl
        rw [VerifiedBlock.reference_round]
        omega
    · intro r hr hround
      rw [hgc'] at hround
      rcases (hmem' r).mp hr with hr | rfl
      · have hcovered := h.covered r hr hround
        omega
      · rw [VerifiedBlock.reference_round]
        omega

/-- The cached info of `r` after the votes of `block` have been recorded. -/
def voted (context : Context) (state : DagState) (block : VerifiedBlock) (r : BlockRef)
    (info : BlockInfo) : BlockInfo :=
  if context.protocolConfig.enableV3 = true ∧ r ∈ block.ancestors ∧
      r.round + 1 = block.round ∧ state.gcRound context < r.round then
    info.addChild block.reference context.committee
  else info

@[simp] theorem voted_block (r : BlockRef) (info : BlockInfo) :
    (voted context state block r info).block = info.block := by
  unfold voted
  split_ifs <;> rfl

@[simp] theorem voted_committed (r : BlockRef) (info : BlockInfo) :
    (voted context state block r info).committed = info.committed := by
  unfold voted
  split_ifs <;> rfl

/-- The effect of `update_block_metadata`: the cache gains the block and its votes,
    then the round table its entry. -/
theorem updateBlockMetadata_cases (h : updateBlockMetadata context state block = .ok state') :
    ∃ cached tabled : DagState,
      cached = { state with recentBlocks := cached.recentBlocks } ∧
      (∀ r, cached.recentBlocks[r]? =
        (state.recentBlocks.insert block.reference { block := block })[r]?.map
          (voted context state block r)) ∧
      tabled = { cached with roundInfo := tabled.roundInfo } ∧
      (context.protocolConfig.enableV3 = true → updateRoundInfo context cached block = .ok tabled) ∧
      state' = { tabled with
        highestAcceptedRound := max state.highestAcceptedRound block.round } := by
  simp only [updateBlockMetadata] at h
  split_ifs at h with hv3
  · obtain ⟨cached, hfold, tabled, htable, h⟩ := bind₂_eq_ok.mp h
    cases h
    obtain ⟨hcached, hget⟩ := addChildren_cases hfold
    have htabled := updateRoundInfo_eq htable
    refine ⟨cached, tabled, by rw [hcached], fun r => ?_, htabled, fun _ => htable, ?_⟩
    · rw [hget r]
      congr 1
      funext info
      simp only [voted, hv3, true_and]
      rfl
    · rw [htabled, hcached]
  · cases h
    let cached : DagState :=
      { state with recentBlocks := state.recentBlocks.insert block.reference { block := block } }
    refine ⟨cached, cached, rfl, fun r => ?_, rfl, fun htrue => absurd htrue hv3, rfl⟩
    have hsame : voted context state block r = id := by
      funext info
      simp [voted, hv3]
    rw [hsame, Option.map_id]
    rfl

/-- A step keeps the commit history, and the committed flags of the blocks that
    were cached; other blocks enter the cache uncommitted. -/
structure Extends (state state' : DagState) : Prop where
  lastCommit : state'.lastCommit = state.lastCommit
  old : ∀ {r : BlockRef} {info : BlockInfo}, state.recentBlocks[r]? = some info →
    ∃ info', state'.recentBlocks[r]? = some info' ∧ info'.block = info.block ∧
      info'.committed = info.committed
  new : ∀ {r : BlockRef} {info' : BlockInfo}, state'.recentBlocks[r]? = some info' →
    r ∉ state.recentBlocks → info'.committed = false

theorem updateBlockMetadata_entry (h : updateBlockMetadata context state block = .ok state')
    {r : BlockRef} {info' : BlockInfo} (hinfo' : state'.recentBlocks[r]? = some info') :
    ∃ info, info' = voted context state block r info ∧
      (block.reference = r ∧ info = { block := block } ∨ state.recentBlocks[r]? = some info) := by
  obtain ⟨cached, tabled, -, hget, htabled, -, hstate⟩ := updateBlockMetadata_cases h
  have hcached : state'.recentBlocks = cached.recentBlocks := by rw [hstate, htabled]
  rw [hcached, hget r, Option.map_eq_some_iff] at hinfo'
  obtain ⟨info, hinfo, heq⟩ := hinfo'
  refine ⟨info, heq.symm, ?_⟩
  rw [get_insert] at hinfo
  split_ifs at hinfo with href
  · exact .inl ⟨href, (Option.some.inj hinfo).symm⟩
  · exact .inr hinfo

theorem updateBlockMetadata_mem (h : updateBlockMetadata context state block = .ok state')
    (r : BlockRef) :
    r ∈ state'.recentBlocks ↔ r ∈ state.recentBlocks ∨ r = block.reference := by
  obtain ⟨cached, tabled, -, hget, htabled, -, hstate⟩ := updateBlockMetadata_cases h
  have hcached : state'.recentBlocks = cached.recentBlocks := by rw [hstate, htabled]
  rw [hcached, Std.ExtTreeMap.mem_iff_isSome_getElem?, hget r, Option.isSome_map,
    ← Std.ExtTreeMap.mem_iff_isSome_getElem?, Std.ExtTreeMap.mem_insert, compare_eq_iff_eq]
  exact or_comm.trans (or_congr_right eq_comm)

theorem updateBlockMetadata_extends (hfresh : block.reference ∉ state.recentBlocks)
    (h : updateBlockMetadata context state block = .ok state') : Extends state state' := by
  obtain ⟨cached, tabled, hcached, hget, htabled, -, hstate⟩ := updateBlockMetadata_cases h
  have hrecent : state'.recentBlocks = cached.recentBlocks := by rw [hstate, htabled]
  refine ⟨by rw [hstate, htabled, hcached], ?_, ?_⟩
  · intro r info hinfo
    have hne : block.reference ≠ r := by
      rintro rfl
      exact hfresh (mem_of_get hinfo)
    refine ⟨voted context state block r info, ?_, voted_block r info, voted_committed r info⟩
    rw [hrecent, hget r, get_insert_of_ne hne, hinfo, Option.map_some]
  · intro r info' hinfo' hnot
    obtain ⟨info, rfl, ⟨-, rfl⟩ | hinfo⟩ := updateBlockMetadata_entry h hinfo'
    · exact voted_committed r _
    · exact absurd (mem_of_get hinfo) hnot

theorem acceptBlock_extends (h : acceptBlock context state block = .ok state') :
    Extends state state' := by
  rcases acceptBlock_cases h with ⟨rfl, -⟩ | ⟨hfresh, updated, hupdate, rfl⟩
  · exact ⟨rfl, fun hinfo => ⟨_, hinfo, rfl, rfl⟩, fun hinfo hnot =>
      absurd (mem_of_get hinfo) hnot⟩
  · obtain ⟨hcommit, hold, hnew⟩ := updateBlockMetadata_extends hfresh hupdate
    exact ⟨hcommit, hold, hnew⟩

/-- The promise of the block manager for a block it hands over: the ancestors above
    the gc round have been accepted. -/
def AncestorsAccepted (context : Context) (state : DagState) (block : VerifiedBlock) : Prop :=
  ∀ a ∈ block.ancestors, state.gcRound context < a.round → a ∈ state.recentBlocks

theorem Valid.acceptBlock (hvalid : Valid U state) (hblock : block ∈ U.blocks)
    (hancestors : AncestorsAccepted context state block)
    (h : acceptBlock context state block = .ok state') : Valid U state' := by
  rcases acceptBlock_cases h with ⟨rfl, -⟩ | ⟨hfresh, updated, hupdate, rfl⟩
  · exact hvalid
  · obtain ⟨cached, tabled, hcached, hget, htabled, -, hstate⟩ := updateBlockMetadata_cases hupdate
    have hgc : updated.gcRound context = state.gcRound context :=
      gcRound_congr (by rw [hstate, htabled, hcached])
    refine ⟨?_, ?_, ?_, ?_, ?_⟩
    · intro r info' hinfo'
      obtain ⟨info, rfl, hinfo⟩ := updateBlockMetadata_entry hupdate hinfo'
      rw [voted_block]
      rcases hinfo with ⟨href, rfl⟩ | hinfo
      · exact ⟨hblock, href⟩
      · exact hvalid.block_mem hinfo
    · intro r info' hinfo' a ha hround
      have hround' : state.gcRound context < a.round := by rw [← hgc]; exact hround
      refine (updateBlockMetadata_mem hupdate a).mpr (.inl ?_)
      obtain ⟨info, rfl, hinfo⟩ := updateBlockMetadata_entry hupdate hinfo'
      rw [voted_block] at ha
      rcases hinfo with ⟨-, rfl⟩ | hinfo
      · exact hancestors a ha hround'
      · exact hvalid.closed hinfo a ha hround'
    · intro r b hb
      rw [hstate, htabled, hcached] at hb
      exact hvalid.stored_mem hb
    · intro b hb
      have hbuffered : updated.blocksToWrite = state.blocksToWrite := by
        rw [hstate, htabled, hcached]
      simp only [hbuffered, mem_append, mem_singleton] at hb
      rcases hb with hb | rfl
      · exact hvalid.buffered_mem b hb
      · exact hblock
    · intro r hr
      have hhighest : updated.highestAcceptedRound =
          max state.highestAcceptedRound block.round := by rw [hstate]
      rw [hhighest]
      rcases (updateBlockMetadata_mem hupdate r).mp hr with hr | rfl
      · exact le_trans (hvalid.highest r hr) (le_max_left _ _)
      · exact le_max_right _ _

section

variable (hv3 : context.protocolConfig.enableV3 = true) (hvalid : Valid U state)
  (hblock : block ∈ U.blocks)
include hv3 hvalid hblock

/-- The votes after a block was accepted: its own vote is counted for each of its
    ancestors of the round below, and no cached block votes for it yet. -/
theorem Children.updateBlockMetadata (hchildren : Children U state)
    (hfresh : block.reference ∉ state.recentBlocks)
    (h : updateBlockMetadata context state block = .ok state') : Children U state' := by
  intro r info' hinfo' hround
  have hgc : state'.gcRound context = state.gcRound context :=
    gcRound_congr (updateBlockMetadata_extends hfresh h).lastCommit
  rw [hgc] at hround
  obtain ⟨info, rfl, hinfo⟩ := updateBlockMetadata_entry h hinfo'
  have hmem := updateBlockMetadata_mem h
  -- the votes before the new block's own are those of the cached blocks
  have hold : (∀ c, c ∈ info.children ↔
      c ∈ state.recentBlocks ∧ c.round = r.round + 1 ∧ r ∈ U.ancestors c) ∧
      Aggregates context.committee info.childrenStake info.children := by
    rcases hinfo with ⟨href, rfl⟩ | hinfo
    · refine ⟨fun c => ?_, aggregates_empty context.committee⟩
      simp only [Finset.notMem_empty, false_iff, not_and]
      intro hc _ hvote
      obtain ⟨cinfo, hcinfo⟩ := (mem_iff _ c).mp hc
      obtain ⟨hcblock, hcref⟩ := hvalid.block_mem hcinfo
      rw [← hcref, U.mem_ancestors hcblock, ← href] at hvote
      exact hfresh (hvalid.closed hcinfo _ hvote (by rw [href]; exact hround))
    · exact hchildren r info hinfo hround
  have hvotes : r ∈ U.ancestors block.reference ↔ r ∈ block.ancestors := U.mem_ancestors hblock
  unfold voted
  split_ifs with hvote
  · refine ⟨fun c => ?_, hold.2.insert block.reference⟩
    simp only [BlockInfo.addChild, Finset.mem_insert, hold.1 c, hmem c]
    refine or_and_iff ?_
    rintro rfl
    exact ⟨hvote.2.2.1.symm, hvotes.mpr hvote.2.1⟩
  · refine ⟨fun c => ?_, hold.2⟩
    rw [hold.1 c, hmem c]
    refine and_iff_or_and ?_
    rintro rfl ⟨hcround, hcvote⟩
    exact hvote ⟨hv3, hvotes.mp hcvote, hcround.symm, hround⟩

theorem VoteIndex.acceptBlock (hindex : VoteIndex U state)
    (h : acceptBlock context state block = .ok state') : VoteIndex U state' := by
  rcases acceptBlock_cases h with ⟨rfl, -⟩ | ⟨hfresh, updated, hupdate, rfl⟩
  · exact hindex
  · have hchildren := hindex.children.updateBlockMetadata hv3 hvalid hblock hfresh hupdate
    obtain ⟨front, htable⟩ := hindex.table
    obtain ⟨cached, tabled, hcached, hget, htabled, hround, hstate⟩ :=
      updateBlockMetadata_cases hupdate
    have hmem : ∀ r, r ∈ cached.recentBlocks ↔ r ∈ state.recentBlocks ∨ r = block.reference := by
      have hrecent : updated.recentBlocks = cached.recentBlocks := by rw [hstate, htabled]
      rw [← hrecent]
      exact updateBlockMetadata_mem hupdate
    have htable' := htable.updateRoundInfo (by rw [hcached]) (by rw [hcached]) hmem (hround hv3)
    refine ⟨hchildren, front, ?_⟩
    rw [hstate]
    exact ⟨⟨htable'.front_le, htable'.next_ge, htable'.round_eq⟩, htable'.blocks, htable'.covered⟩

end

end Accept

/-! ### Marking blocks committed -/

section Commit

variable {context : Context} {U : BlockUniverse context} {state state' state'' : DagState}

def uncommitted (info : BlockInfo) : BlockInfo := { info with committed := false }

/-- The two states differ in committed flags only. -/
structure SameBlocks (state state' : DagState) : Prop where
  eq : state' = { state with recentBlocks := state'.recentBlocks }
  get : ∀ r : BlockRef, state'.recentBlocks[r]?.map uncommitted =
    state.recentBlocks[r]?.map uncommitted

theorem SameBlocks.refl (state : DagState) : SameBlocks state state := ⟨rfl, fun _ => rfl⟩

theorem SameBlocks.trans (h : SameBlocks state state') (h' : SameBlocks state' state'') :
    SameBlocks state state'' := by
  refine ⟨?_, fun r => (h'.get r).trans (h.get r)⟩
  rw [h'.eq, h.eq]

theorem SameBlocks.lastCommit (h : SameBlocks state state') :
    state'.lastCommit = state.lastCommit := by rw [h.eq]

variable {r : BlockRef}

section

variable (h : SameBlocks state state')
include h

theorem SameBlocks.entry {info' : BlockInfo} (hinfo' : state'.recentBlocks[r]? = some info') :
    ∃ info, state.recentBlocks[r]? = some info ∧ info.block = info'.block ∧
      info.children = info'.children ∧ info.childrenStake = info'.childrenStake := by
  have hget := h.get r
  rw [hinfo', Option.map_some, eq_comm, Option.map_eq_some_iff] at hget
  obtain ⟨info, hinfo, heq⟩ := hget
  simp only [uncommitted, BlockInfo.mk.injEq] at heq
  exact ⟨info, hinfo, heq.1, heq.2.1, heq.2.2.1⟩

theorem SameBlocks.mem (r : BlockRef) :
    r ∈ state'.recentBlocks ↔ r ∈ state.recentBlocks := by
  have hget := congrArg Option.isSome (h.get r)
  rw [Option.isSome_map, Option.isSome_map] at hget
  rw [Std.ExtTreeMap.mem_iff_isSome_getElem?, Std.ExtTreeMap.mem_iff_isSome_getElem?, hget]

theorem Valid.sameBlocks (hvalid : Valid U state) :
    Valid U state' := by
  have hgc : state'.gcRound context = state.gcRound context := gcRound_congr h.lastCommit
  refine ⟨?_, ?_, ?_, ?_, ?_⟩
  · intro r info' hinfo'
    obtain ⟨info, hinfo, hblock, -, -⟩ := h.entry hinfo'
    rw [← hblock]
    exact hvalid.block_mem hinfo
  · intro r info' hinfo' a ha hround
    obtain ⟨info, hinfo, hblock, -, -⟩ := h.entry hinfo'
    rw [h.mem]
    exact hvalid.closed hinfo a (by rw [hblock]; exact ha) (by rw [← hgc]; exact hround)
  · intro r b hb
    exact hvalid.stored_mem (by rw [h.eq] at hb; exact hb)
  · intro b hb
    exact hvalid.buffered_mem b (by rw [h.eq] at hb; exact hb)
  · intro r hr
    have hhighest : state'.highestAcceptedRound = state.highestAcceptedRound := by rw [h.eq]
    rw [hhighest]
    exact hvalid.highest r ((h.mem r).mp hr)

theorem VoteIndex.sameBlocks (hindex : VoteIndex U state) :
    VoteIndex U state' := by
  have hgc : state'.gcRound context = state.gcRound context := gcRound_congr h.lastCommit
  refine ⟨?_, ?_⟩
  · intro r info' hinfo' hround
    obtain ⟨info, hinfo, -, hchildren, hstake⟩ := h.entry hinfo'
    obtain ⟨hvotes, haggregates⟩ := hindex.children r info hinfo (by rw [← hgc]; exact hround)
    rw [hchildren] at hvotes haggregates
    rw [hstake] at haggregates
    refine ⟨fun c => ?_, haggregates⟩
    rw [hvotes c, h.mem c]
  · obtain ⟨front, htable⟩ := hindex.table
    exact ⟨front, htable.congr hgc (by rw [h.eq]) fun r _ => h.mem r⟩

end

theorem setCommitted_cases {new : Bool} (h : setCommitted state r = .ok (state', new)) :
    ∃ info, state.recentBlocks[r]? = some info ∧ new = !info.committed ∧
      state' = (if info.committed then state else
        { state with recentBlocks := state.recentBlocks.insert r { info with committed := true } }) := by
  unfold setCommitted at h
  cases hinfo : state.recentBlocks[r]? with
  | none =>
    rw [hinfo] at h
    cases h
  | some info =>
    rw [hinfo] at h
    refine ⟨info, rfl, ?_⟩
    simp only at h
    split_ifs at h with hcommitted <;> cases h <;> simp [hcommitted]

theorem setCommitted_sameBlocks {new : Bool}
    (h : setCommitted state r = .ok (state', new)) : SameBlocks state state' := by
  obtain ⟨info, hinfo, -, rfl⟩ := setCommitted_cases h
  split_ifs with hcommitted
  · exact SameBlocks.refl state
  · refine ⟨rfl, fun a => ?_⟩
    rw [get_insert]
    split_ifs with hr
    · subst hr
      rw [hinfo]
      rfl
    · rfl

variable {commit : Commit}

/-- A new last commit, whose leader is cached above the gc round, keeps the
    invariants: the gc round only rises, and not past the round table. -/
theorem addCommit_cases (h : addCommit state commit = .ok state') :
    (∃ last, state.lastCommit = some last ∧ commit.index ≤ last.index ∧ state' = state) ∨
      state' = { state with
        lastCommit := some commit, commitsToWrite := state.commitsToWrite ++ [commit] } := by
  simp only [DagState.addCommit] at h
  split at h
  · next last hlast =>
      split_ifs at h with hle hindex hts
      · exact .inl ⟨last, hlast, hle, (Except.ok.inj h).symm⟩
      · exact .inr (Except.ok.inj h).symm
  · split_ifs at h
    exact .inr (Except.ok.inj h).symm

theorem Valid.addCommit (hvalid : Valid U state)
    (hrise : state.lastCommitRound ≤ commit.leader.round) (commits : List Commit) :
    Valid U { state with lastCommit := some commit, commitsToWrite := commits } := by
  have hgc : state.gcRound context ≤ calculateGcRound context commit.leader.round := by
    simp only [gcRound, calculateGcRound]
    omega
  exact ⟨hvalid.block_mem, fun hinfo a ha hround => hvalid.closed hinfo a ha
    (lt_of_le_of_lt hgc hround), hvalid.stored_mem, hvalid.buffered_mem, hvalid.highest⟩

theorem VoteIndex.addCommit (hindex : VoteIndex U state)
    (hrise : state.lastCommitRound ≤ commit.leader.round)
    (hleader : commit.leader ∈ state.recentBlocks)
    (hround : state.gcRound context < commit.leader.round) (commits : List Commit) :
    VoteIndex U { state with lastCommit := some commit, commitsToWrite := commits } := by
  have hgc : state.gcRound context ≤ calculateGcRound context commit.leader.round := by
    simp only [gcRound, calculateGcRound]
    omega
  obtain ⟨front, htable⟩ := hindex.table
  refine ⟨fun r info hinfo hr => hindex.children r info hinfo (lt_of_le_of_lt hgc hr), front,
    ⟨?_, ?_, htable.round_eq⟩, ?_, ?_⟩
  · exact le_trans htable.front_le (Nat.succ_le_succ hgc)
  · have hcovered := htable.covered commit.leader hleader hround
    change calculateGcRound context commit.leader.round + 1 ≤ front + state.roundInfo.length
    simp only [calculateGcRound]
    omega
  · exact fun hk hr => htable.blocks hk (lt_of_le_of_lt hgc hr)
  · exact fun r hr hhigh => htable.covered r hr (lt_of_le_of_lt hgc hhigh)

end Commit

/-! ### Flushing -/

section Flush

variable {context : Context} {U : BlockUniverse context} {state : DagState}

theorem authorityEvictionRound_le (author : Nat) :
    state.authorityEvictionRound context author ≤ state.gcRound context := by
  exact min_le_left _ _

variable {r : BlockRef}

theorem flush_get {otherPending : Bool} (hround : state.gcRound context < r.round) :
    (state.flush context otherPending).recentBlocks[r]? = state.recentBlocks[r]? := by
  unfold flush
  split_ifs
  · rfl
  · have hkeep : r.round > state.authorityEvictionRound context r.author :=
      lt_of_le_of_lt (authorityEvictionRound_le r.author) hround
    cases hr : state.recentBlocks[r]? with
    | none =>
      rw [Option.eq_none_iff_forall_ne_some]
      intro info hinfo
      rw [(get_filter_eq_some.mp hinfo).1] at hr
      simp at hr
    | some info => exact get_filter_eq_some.mpr ⟨hr, decide_eq_true hkeep⟩

theorem flush_get_old {otherPending : Bool} {info : BlockInfo}
    (h : (state.flush context otherPending).recentBlocks[r]? = some info) :
    state.recentBlocks[r]? = some info := by
  unfold flush at h
  split_ifs at h
  · exact h
  · exact (get_filter_eq_some.mp h).1

theorem flush_lastCommit (otherPending : Bool) :
    (state.flush context otherPending).lastCommit = state.lastCommit := by
  unfold flush
  split_ifs <;> rfl

theorem flush_gcRound (otherPending : Bool) :
    (state.flush context otherPending).gcRound context = state.gcRound context :=
  gcRound_congr (flush_lastCommit otherPending)

/-- The entries at or below the gc round are the first ones of a contiguous table. -/
theorem dropWhile_eq_drop {gc : Nat} {infos : List RoundInfo} :
    ∀ {front : Nat}, (∀ {k : Nat} {info : RoundInfo}, infos[k]? = some info →
      info.round = front + k) →
      (infos.dropWhile fun info => info.round ≤ gc) = infos.drop (gc + 1 - front) := by
  induction infos with
  | nil => simp
  | cons head tail ih =>
    intro front hround
    have hhead : head.round = front := hround (k := 0) rfl
    rw [dropWhile_cons]
    split_ifs with hle
    · rw [decide_eq_true_eq] at hle
      have hdrop : gc + 1 - front = (gc + 1 - (front + 1)) + 1 := by omega
      rw [hdrop, drop_succ_cons]
      refine ih fun {k info} hk => ?_
      have hnext : info.round = front + (k + 1) :=
        hround (by rw [List.getElem?_cons_succ]; exact hk)
      omega
    · rw [decide_eq_true_eq, not_le] at hle
      have hzero : gc + 1 - front = 0 := by omega
      rw [hzero, drop_zero]

theorem stored_of_foldl_insert {blocks : List VerifiedBlock} {b : VerifiedBlock} :
    ∀ {stored : Std.ExtTreeMap BlockRef VerifiedBlock compare},
      (blocks.foldl (fun stored block => stored.insert block.reference block) stored)[r]? =
        some b → stored[r]? = some b ∨ (b ∈ blocks ∧ b.reference = r) := by
  induction blocks with
  | nil =>
    intro stored h
    exact .inl h
  | cons block rest ih =>
    intro stored h
    rcases ih h with h | ⟨hmem, href⟩
    · rw [get_insert] at h
      split_ifs at h with href
      · cases h
        exact .inr ⟨.head _, href⟩
      · exact .inl h
    · exact .inr ⟨.tail block hmem, href⟩

theorem Valid.flush (hvalid : Valid U state) (otherPending : Bool) :
    Valid U (state.flush context otherPending) := by
  refine ⟨?_, ?_, ?_, ?_, ?_⟩
  · intro r info hinfo
    exact hvalid.block_mem (flush_get_old hinfo)
  · intro r info hinfo a ha hround
    rw [flush_gcRound] at hround
    obtain ⟨ainfo, hainfo⟩ := (mem_iff _ a).mp (hvalid.closed (flush_get_old hinfo) a ha hround)
    exact mem_of_get ((flush_get hround).trans hainfo)
  · intro r b hb
    unfold DagState.flush at hb
    split_ifs at hb
    · exact hvalid.stored_mem hb
    · rcases stored_of_foldl_insert hb with hb | ⟨hmem, href⟩
      · exact hvalid.stored_mem hb
      · exact ⟨hvalid.buffered_mem b hmem, href⟩
  · intro b hb
    unfold DagState.flush at hb
    split_ifs at hb
    · exact hvalid.buffered_mem b hb
    · simp at hb
  · intro r hr
    obtain ⟨info, hinfo⟩ := (mem_iff _ r).mp hr
    have hhighest : (state.flush context otherPending).highestAcceptedRound =
        state.highestAcceptedRound := by
      unfold DagState.flush
      split_ifs <;> rfl
    rw [hhighest]
    exact hvalid.highest r (mem_of_get (flush_get_old hinfo))

theorem VoteIndex.flush (hindex : VoteIndex U state) (otherPending : Bool) :
    VoteIndex U (state.flush context otherPending) := by
  have hgc := @flush_gcRound context state otherPending
  have hmem : ∀ r : BlockRef, state.gcRound context < r.round →
      (r ∈ (state.flush context otherPending).recentBlocks ↔ r ∈ state.recentBlocks) := by
    intro r hround
    rw [mem_iff, mem_iff, flush_get hround]
  refine ⟨?_, ?_⟩
  · intro r info hinfo hround
    rw [hgc] at hround
    obtain ⟨hvotes, haggregates⟩ := hindex.children r info (flush_get_old hinfo) hround
    refine ⟨fun c => ?_, haggregates⟩
    rw [hvotes c]
    exact and_congr_left fun hc => (hmem c (by omega)).symm
  · obtain ⟨front, htable⟩ := hindex.table
    by_cases hidle : state.blocksToWrite.isEmpty ∧ state.commitsToWrite.isEmpty ∧ ¬ otherPending
    · refine ⟨front, ?_⟩
      unfold DagState.flush
      rw [if_pos hidle]
      exact htable
    · have hdrop : (state.flush context otherPending).roundInfo =
          state.roundInfo.drop (state.gcRound context + 1 - front) := by
        unfold DagState.flush
        rw [if_neg hidle]
        exact dropWhile_eq_drop htable.round_eq
      have hfront := htable.front_le
      refine ⟨state.gcRound context + 1, ⟨?_, ?_, ?_⟩, ?_, ?_⟩
      · rw [hgc]
      · rw [hgc]
        omega
      · intro k info hk
        rw [hdrop, List.getElem?_drop] at hk
        have hround := htable.round_eq hk
        omega
      · intro k info hk hround
        rw [hgc] at hround
        rw [hdrop, List.getElem?_drop] at hk
        obtain ⟨hblocks, haggregates⟩ := htable.blocks hk hround
        refine ⟨fun c => ?_, haggregates⟩
        rw [hblocks c]
        exact and_congr_left fun hc => (hmem c (by omega)).symm
      · intro r hr hround
        rw [hgc] at hround
        have hcovered := htable.covered r ((hmem r hround).mp hr) hround
        rw [hdrop, length_drop]
        omega

end Flush

/-! ### Reading -/

section Read

variable {context : Context} {U : BlockUniverse context} {state : DagState} {block : VerifiedBlock}

theorem valid_init (ownIndex cachedRounds : Nat) : Valid U { ownIndex, cachedRounds } := by
  refine ⟨?_, ?_, ?_, ?_, ?_⟩ <;> simp

theorem voteIndex_init (ownIndex cachedRounds : Nat) :
    VoteIndex U { ownIndex, cachedRounds } := by
  refine ⟨?_, 1, ⟨?_, ?_, ?_⟩, ?_, ?_⟩
  · intro r info hinfo
    simp at hinfo
  all_goals simp [gcRound, calculateGcRound, lastCommitRound]

/-- The accepted blocks are a view of the universe above the gc round. -/
theorem Valid.isView (hvalid : Valid U state) (hquorum : 0 < context.committee.quorumThreshold) :
    (U.dag hquorum).IsView {r | r ∈ state.recentBlocks} (state.gcRound context) := by
  refine ⟨?_, ?_⟩
  · intro r hr
    obtain ⟨info, hinfo⟩ := (mem_iff _ r).mp hr
    obtain ⟨hblock, href⟩ := hvalid.block_mem hinfo
    exact ⟨info.block, hblock, href⟩
  · intro r a hr ha hround
    obtain ⟨info, hinfo⟩ := (mem_iff _ r).mp hr
    obtain ⟨hblock, href⟩ := hvalid.block_mem hinfo
    have ha' : a ∈ info.block.ancestors := by
      rw [← U.mem_ancestors hblock, href]
      exact ha
    exact hvalid.closed hinfo a ha' hround

/-- The table entry of a round above the gc round: either no block of the round is
    cached, or the entry has exactly the cached ones. -/
theorem VoteIndex.getRoundInfo (hindex : VoteIndex U state) (round : Nat)
    (hround : state.gcRound context < round) :
    (state.getRoundInfo context round = .ok none ∧ ∀ r ∈ state.recentBlocks, r.round ≠ round) ∨
    ∃ info, state.getRoundInfo context round = .ok (some info) ∧
      (∀ c, c ∈ info.blocks ↔ c ∈ state.recentBlocks ∧ c.round = round) ∧
      Aggregates context.committee info.totalStake info.blocks := by
  obtain ⟨front, htable⟩ := hindex.table
  have hfront := htable.front_le
  unfold DagState.getRoundInfo
  rw [List.head?_eq_getElem?]
  cases hhead : state.roundInfo[0]? with
  | none =>
    refine .inl ⟨rfl, fun r hr heq => ?_⟩
    have hcovered := htable.covered r hr (by omega)
    rw [List.getElem?_eq_none_iff] at hhead
    omega
  | some first =>
    have hfirst : first.round = front := htable.round_eq hhead
    simp only [hfirst]
    rw [if_neg (by omega)]
    cases hget : state.roundInfo[round - front]? with
    | none =>
      refine .inl ⟨rfl, fun r hr heq => ?_⟩
      have hcovered := htable.covered r hr (by omega)
      rw [List.getElem?_eq_none_iff] at hget
      omega
    | some info =>
      have hinfo : info.round = round := by
        have := htable.round_eq hget
        omega
      refine .inr ⟨info, by simp [hinfo], ?_⟩
      obtain ⟨hblocks, haggregates⟩ := htable.blocks hget (by omega)
      rw [hinfo] at hblocks
      exact ⟨hblocks, haggregates⟩

theorem mem_blockInfosAtSlot (hvalid : Valid U state) {slot : Slot} {info : BlockInfo} :
    info ∈ state.blockInfosAtSlot slot ↔
      state.recentBlocks[info.block.reference]? = some info ∧ info.block.slot = slot := by
  simp only [blockInfosAtSlot, mem_map, mem_filter, Prod.exists, decide_eq_true_eq,
    exists_eq_right, Std.ExtTreeMap.mem_toList_iff_getElem?_eq_some]
  constructor
  · rintro ⟨r, hinfo, hslot⟩
    obtain ⟨-, href⟩ := hvalid.block_mem hinfo
    subst href
    exact ⟨hinfo, hslot⟩
  · rintro ⟨hinfo, hslot⟩
    exact ⟨info.block.reference, hinfo, hslot⟩

/-- The block is the cached one with its reference. -/
def Cached (state : DagState) (block : VerifiedBlock) : Prop :=
  ∃ info, state.recentBlocks[block.reference]? = some info ∧ info.block = block

theorem Cached.mem (h : Cached state block) :
    block.reference ∈ state.recentBlocks := by
  obtain ⟨info, hinfo, -⟩ := h
  exact mem_of_get hinfo

theorem Cached.mem_blocks (hvalid : Valid U state) (h : Cached state block) : block ∈ U.blocks := by
  obtain ⟨info, hinfo, rfl⟩ := h
  exact (hvalid.block_mem hinfo).1

theorem mem_getUncommittedBlocksAtSlot (hvalid : Valid U state) {slot : Slot} :
    block ∈ state.getUncommittedBlocksAtSlot slot ↔ Cached state block ∧ block.slot = slot := by
  simp only [getUncommittedBlocksAtSlot, mem_map, mem_blockInfosAtSlot hvalid]
  constructor
  · rintro ⟨info, ⟨hinfo, hslot⟩, rfl⟩
    exact ⟨⟨info, hinfo, rfl⟩, hslot⟩
  · rintro ⟨⟨info, hinfo, rfl⟩, hslot⟩
    exact ⟨info, ⟨hinfo, hslot⟩, rfl⟩

theorem nodup_getUncommittedBlocksAtSlot (hvalid : Valid U state) (slot : Slot) :
    (state.getUncommittedBlocksAtSlot slot).Nodup := by
  have hkeys : (state.recentBlocks.toList.map Prod.fst).Nodup := by
    rw [Std.ExtTreeMap.map_fst_toList_eq_keys]
    exact Std.ExtTreeMap.nodup_keys
  have hrefs : ((state.getUncommittedBlocksAtSlot slot).map VerifiedBlock.reference) =
      (state.recentBlocks.toList.filter fun entry => entry.1.slot = slot).map Prod.fst := by
    simp only [getUncommittedBlocksAtSlot, blockInfosAtSlot, map_map]
    apply map_congr_left
    intro entry hentry
    exact (hvalid.block_mem (Std.ExtTreeMap.mem_toList_iff_getElem?_eq_some.mp
      (mem_of_mem_filter hentry))).2
  apply List.Nodup.of_map VerifiedBlock.reference
  rw [hrefs]
  exact hkeys.sublist (filter_sublist.map _)

theorem getUncommittedBlocksAtRound_spec (hvalid : Valid U state) {round : Nat}
    (hround : state.lastCommitRound < round) :
    ∃ blocks, state.getUncommittedBlocksAtRound round = .ok blocks ∧
      ∀ block, block ∈ blocks ↔ Cached state block ∧ block.round = round := by
  refine ⟨_, if_neg (not_le.mpr hround), fun block => ?_⟩
  simp only [mem_map, mem_filter, Prod.exists, decide_eq_true_eq,
    Std.ExtTreeMap.mem_toList_iff_getElem?_eq_some]
  constructor
  · rintro ⟨r, info, ⟨hinfo, hr⟩, rfl⟩
    obtain ⟨-, href⟩ := hvalid.block_mem hinfo
    subst href
    exact ⟨⟨info, hinfo, rfl⟩, hr⟩
  · rintro ⟨⟨info, hinfo, rfl⟩, hr⟩
    exact ⟨info.block.reference, info, ⟨hinfo, hr⟩, rfl⟩

variable {r : BlockRef}

theorem getBlock_of_mem (hvalid : Valid U state) (hr : r ∈ state.recentBlocks) :
    ∃ block, state.getBlock context r = some block ∧ Cached state block ∧ block.reference = r := by
  obtain ⟨info, hinfo⟩ := (mem_iff _ r).mp hr
  obtain ⟨hblock, href⟩ := hvalid.block_mem hinfo
  have hround : r.round ≠ GENESIS_ROUND := by
    have hpos := (U.wellFormed hblock).round_pos
    rw [← href]
    exact Nat.ne_of_gt hpos
  refine ⟨info.block, ?_, ⟨info, by rw [href]; exact hinfo, rfl⟩, href⟩
  rw [getBlock, if_neg hround, hinfo]

/-- What is cached above the gc round of the later state stays cached. -/
structure Retains (context : Context) (state state' : DagState) : Prop where
  gcRound_le : state.gcRound context ≤ state'.gcRound context
  cached : ∀ {b : VerifiedBlock}, Cached state b → state'.gcRound context < b.round → Cached state' b

theorem Retains.refl (state : DagState) : Retains context state state := ⟨le_rfl, fun hb _ => hb⟩

theorem Retains.trans {state'' : DagState} (h : Retains context state state')
    (h' : Retains context state' state'') : Retains context state state'' :=
  ⟨h.gcRound_le.trans h'.gcRound_le,
    fun hb hround => h'.cached (h.cached hb (h'.gcRound_le.trans_lt hround)) hround⟩

theorem Retains.mem (hvalid : Valid U state) (h : Retains context state state')
    (hr : r ∈ state.recentBlocks) (hround : state'.gcRound context < r.round) :
    r ∈ state'.recentBlocks := by
  obtain ⟨info, hinfo⟩ := (mem_iff _ r).mp hr
  obtain ⟨-, href⟩ := hvalid.block_mem hinfo
  subst href
  exact (h.cached ⟨info, hinfo, rfl⟩ hround).mem

theorem Extends.retains (h : Extends state state') :
    Retains context state state' := by
  refine ⟨(gcRound_congr h.lastCommit).ge, ?_⟩
  rintro b ⟨info, hinfo, rfl⟩ -
  obtain ⟨info', hinfo', hblock, -⟩ := h.old hinfo
  exact ⟨info', hinfo', hblock⟩

theorem flush_retains (state : DagState) (otherPending : Bool) :
    Retains context state (state.flush context otherPending) := by
  refine ⟨(flush_gcRound otherPending).ge, ?_⟩
  rintro b ⟨info, hinfo, rfl⟩ hround
  rw [flush_gcRound] at hround
  exact ⟨info, (flush_get hround).trans hinfo, rfl⟩

theorem Valid.getBlock_mem (hvalid : Valid U state)
    (hround : r.round ≠ GENESIS_ROUND) (h : state.getBlock context r = some block) :
    block ∈ U.blocks ∧ block.reference = r := by
  rw [getBlock, if_neg hround] at h
  split at h
  · next info hinfo =>
      rw [Option.some.injEq] at h
      exact h ▸ hvalid.block_mem hinfo
  · exact hvalid.stored_mem h

theorem getBlock_agree (hvalid : Valid U state) (hvalid' : Valid U state')
    {block block' : VerifiedBlock} (h : state.getBlock context r = some block)
    (h' : state'.getBlock context r = some block') : block = block' := by
  by_cases hround : r.round = GENESIS_ROUND
  · rw [getBlock, if_pos hround] at h h'
    exact Option.some.inj (h.symm.trans h')
  · obtain ⟨hmem, href⟩ := hvalid.getBlock_mem hround h
    obtain ⟨hmem', href'⟩ := hvalid'.getBlock_mem hround h'
    exact U.reference_inj hmem hmem' (href.trans href'.symm)

end Read

end DagState

end Haneul.Consensus
