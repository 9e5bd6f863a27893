import Haneul.Consensus.DagInvariants

/-!
# Accepting blocks that the block manager hands over

What the block manager relies on when it asks a `DagState` which blocks it has: above
the gc round a block is found exactly if it was accepted (`containsBlock_iff`).  In
return a block whose ancestors above the gc round are accepted is accepted without an
abort, unless the node itself has signed two blocks for one slot (`acceptBlock_total`).
-/

namespace Haneul.Consensus

open Quorum List Map

namespace DagState

variable {context : Context} {U : BlockUniverse context} {state state' : DagState}
  {block : VerifiedBlock} {r : BlockRef}

/-- The block was accepted at some time: it is cached, stored or about to be stored. -/
def Known (state : DagState) (r : BlockRef) : Prop :=
  r ∈ state.recentBlocks ∨ r ∈ state.storedBlocks ∨ ∃ b ∈ state.blocksToWrite, b.reference = r

/-- Above the gc round every block that was accepted is cached. -/
def Tracked (context : Context) (state : DagState) : Prop :=
  ∀ r, Known state r → state.gcRound context < r.round → r ∈ state.recentBlocks

theorem known_of_containsBlock (h : state.containsBlock context r = true)
    (hround : r.round ≠ GENESIS_ROUND) : Known state r := by
  have hgenesis : r ∉ context.genesisRefs := fun hmem =>
    hround (Context.round_of_mem_genesisRefs hmem)
  unfold containsBlock at h
  split_ifs at h with hcached
  · exact .inl (hcached.resolve_right hgenesis)
  · split at h
    · cases h
    · split_ifs at h
      exact .inr (.inl (of_decide_eq_true h))

theorem containsBlock_of_mem (h : r ∈ state.recentBlocks) :
    state.containsBlock context r = true := by
  unfold containsBlock
  rw [if_pos (.inl h)]

theorem containsBlock_iff (htracked : Tracked context state)
    (hround : state.gcRound context < r.round) :
    state.containsBlock context r = true ↔ r ∈ state.recentBlocks := by
  constructor
  · intro h
    exact htracked r (known_of_containsBlock h (Nat.ne_of_gt (Nat.zero_lt_of_lt hround))) hround
  · exact containsBlock_of_mem

theorem containsBlock_genesis (h : r ∈ context.genesisRefs) :
    state.containsBlock context r = true := by
  unfold containsBlock
  rw [if_pos (.inr h)]

/-! ### What an accepted block changes -/

theorem updateBlockMetadata_stored (h : updateBlockMetadata context state block = .ok state') :
    state'.storedBlocks = state.storedBlocks ∧ state'.blocksToWrite = state.blocksToWrite := by
  obtain ⟨cached, tabled, hcached, -, htabled, -, hstate⟩ := updateBlockMetadata_cases h
  rw [hstate, htabled, hcached]
  exact ⟨rfl, rfl⟩

section

variable (h : acceptBlock context state block = .ok state')
include h

theorem acceptBlock_known :
    Known state' r ↔ Known state r ∨ r = block.reference := by
  rcases acceptBlock_cases h with ⟨rfl, hround, hcontains⟩ | ⟨-, updated, hupdate, rfl⟩
  · refine (or_iff_left_of_imp ?_).symm
    rintro rfl
    exact known_of_containsBlock hcontains hround
  · obtain ⟨hstored, hbuffer⟩ := updateBlockMetadata_stored hupdate
    simp only [Known, updateBlockMetadata_mem hupdate r, hstored, hbuffer, mem_append,
      mem_singleton, or_and_right, exists_or, exists_eq_left]
    constructor
    · rintro ((hr | hr) | hr | hr | hr)
      · exact .inl (.inl hr)
      · exact .inr hr
      · exact .inl (.inr (.inl hr))
      · exact .inl (.inr (.inr hr))
      · exact .inr hr.symm
    · rintro ((hr | hr | hr) | hr)
      · exact .inl (.inl hr)
      · exact .inr (.inl hr)
      · exact .inr (.inr (.inl hr))
      · exact .inl (.inr hr)

theorem acceptBlock_gcRound :
    state'.gcRound context = state.gcRound context :=
  gcRound_congr (acceptBlock_extends h).lastCommit

theorem acceptBlock_ownIndex :
    state'.ownIndex = state.ownIndex := by
  rcases acceptBlock_cases h with ⟨rfl, -⟩ | ⟨-, updated, hupdate, rfl⟩
  · rfl
  · obtain ⟨cached, tabled, hcached, -, htabled, -, hstate⟩ := updateBlockMetadata_cases hupdate
    rw [hstate, htabled, hcached]

theorem Tracked.acceptBlock (htracked : Tracked context state) : Tracked context state' := by
  intro r hr hround
  rw [acceptBlock_gcRound h] at hround
  rcases acceptBlock_cases h with ⟨rfl, -⟩ | ⟨-, updated, hupdate, rfl⟩
  · exact htracked r hr hround
  · rcases (acceptBlock_known h).mp hr with hr | hr
    · exact (updateBlockMetadata_mem hupdate r).mpr (.inl (htracked r hr hround))
    · exact (updateBlockMetadata_mem hupdate r).mpr (.inr hr)

end

/-! ### Acceptance does not abort -/

theorem addChildren_total {ancestors : List BlockRef}
    (hancestors : ∀ a ∈ ancestors, state.gcRound context < a.round → a ∈ state.recentBlocks) :
    ∃ state', ancestors.foldlM (addChild context block) state = .ok state' := by
  let Inv : DagState → Prop := fun s => s.gcRound context = state.gcRound context ∧
    ∀ r, r ∈ state.recentBlocks → r ∈ s.recentBlocks
  have hstep : ∀ a ∈ ancestors, ∀ s, Inv s → ∃ s', addChild context block s a = .ok s' ∧ Inv s' := by
    rintro a ha s ⟨hgc, hmem⟩
    unfold addChild
    by_cases hskip : a.round + 1 ≠ block.round ∨ a.round ≤ s.gcRound context
    · exact ⟨s, if_pos hskip, hgc, hmem⟩
    · rw [if_neg hskip]
      have habove : state.gcRound context < a.round := by omega
      obtain ⟨info, hinfo⟩ := (mem_iff _ a).mp (hmem a (hancestors a ha habove))
      rw [hinfo]
      exact ⟨_, rfl, hgc, fun r hr => Std.ExtTreeMap.mem_insert.mpr (.inr (hmem r hr))⟩
  obtain ⟨state', hfold, -⟩ := foldlM_total Inv hstep ⟨rfl, fun r hr => hr⟩
  exact ⟨state', hfold⟩

/-- A block of a round that the table covers, or of the next one, is entered. -/
theorem updateRoundInfo_total {front : Nat} (htable : TableShape context state front)
    (hle : block.round ≤ front + state.roundInfo.length) :
    ∃ state', updateRoundInfo context state block = .ok state' := by
  unfold updateRoundInfo
  dsimp only
  by_cases hgc : block.round ≤ state.gcRound context
  · exact ⟨state, if_pos hgc⟩
  · have hfront := htable.front_le
    have hlength : block.round - front <
        (state.extendedRoundInfo context block.round).length := by
      unfold extendedRoundInfo
      rw [htable.nextRound_eq]
      split_ifs with hnext
      · rw [length_append, length_singleton]
        omega
      · omega
    rw [if_neg hgc, htable.nextRound_eq, if_neg (not_not.mpr hle), List.head?_eq_getElem?,
      List.getElem?_eq_getElem (Nat.zero_lt_of_lt hlength)]
    have hfirst := htable.extended_round_eq (List.getElem?_eq_getElem (Nat.zero_lt_of_lt hlength))
    simp only [hfirst, Nat.add_zero]
    rw [if_neg (by omega), List.getElem?_eq_getElem hlength]
    exact ⟨_, rfl⟩

theorem round_le_of_ancestors (hquorum : 0 < context.committee.quorumThreshold)
    (hblock : block ∈ U.blocks) (hancestors : AncestorsAccepted context state block)
    {front : Nat} (htable : RoundTable context state front) :
    block.round ≤ front + state.roundInfo.length := by
  by_cases hlow : block.round ≤ state.gcRound context + 1
  · exact hlow.trans htable.next_ge
  · obtain ⟨P, hP, hparents⟩ := (U.dag hquorum).parents (U.reference_mem hblock)
    obtain ⟨i, hi⟩ := nonempty_of_weight_pos (Nat.lt_of_lt_of_le hquorum hP)
    obtain ⟨a, ha, -, hround⟩ := hparents i hi
    have hround : a.round + 1 = block.round := hround
    have hcached := hancestors a ((U.mem_ancestors hblock).mp ha) (by omega)
    have hcovered := htable.covered a hcached (by omega)
    omega

/-- A second block for a slot was signed by a faulty author. -/
theorem faulty_of_slot_occupied (hvalid : Valid U state) (hblock : block ∈ U.blocks)
    (hcontains : ¬ state.containsBlock context block.reference = true)
    (hoccupied : state.getUncommittedBlocksAtSlot block.slot ≠ []) : block.author ∈ U.faulty := by
  by_contra hnot
  obtain ⟨other, hother⟩ := exists_mem_of_ne_nil _ hoccupied
  obtain ⟨hcached, hslot⟩ := (mem_getUncommittedBlocksAtSlot hvalid).mp hother
  obtain ⟨hround, hauthor⟩ := Slot.mk.injEq .. ▸ hslot
  have heq := U.single hblock (hcached.mem_blocks hvalid) hauthor.symm hnot hround.symm
  exact hcontains (containsBlock_of_mem (heq ▸ hcached.mem))

theorem acceptBlock_total (hquorum : 0 < context.committee.quorumThreshold)
    (hvalid : Valid U state) (hindex : context.protocolConfig.enableV3 = true → VoteIndex U state)
    (hblock : block ∈ U.blocks) (hancestors : AncestorsAccepted context state block) :
    (∃ state', acceptBlock context state block = .ok state') ∨
      acceptBlock context state block = .error (.ownSlotOccupied block.reference) ∧
        state.ownIndex ∈ U.faulty := by
  have hround : block.round ≠ 0 := Nat.ne_of_gt (U.wellFormed hblock).round_pos
  unfold acceptBlock
  rw [if_neg hround]
  split_ifs with hcontains hown
  · exact .inl ⟨state, rfl⟩
  · exact .inr ⟨rfl, hown.1 ▸ faulty_of_slot_occupied hvalid hblock hcontains hown.2⟩
  · obtain ⟨updated, hupdate⟩ : ∃ updated, updateBlockMetadata context state block = .ok updated := by
      unfold updateBlockMetadata
      dsimp only
      by_cases hv3 : context.protocolConfig.enableV3 = true
      · rw [if_pos hv3]
        obtain ⟨front, htable⟩ := (hindex hv3).table
        obtain ⟨voted, hvoted⟩ := @addChildren_total context
          { state with recentBlocks := state.recentBlocks.insert block.reference { block := block } }
          block block.ancestors
          (fun a ha habove => Std.ExtTreeMap.mem_insert.mpr (.inr (hancestors a ha habove)))
        obtain ⟨hsame, -⟩ := addChildren_cases hvoted
        have hshape : TableShape context voted front := by
          rw [hsame]
          exact ⟨htable.front_le, htable.next_ge, htable.round_eq⟩
        have hinfo : voted.roundInfo = state.roundInfo := by rw [hsame]
        obtain ⟨tabled, htabled⟩ := updateRoundInfo_total hshape
          (by rw [hinfo]; exact round_le_of_ancestors hquorum hblock hancestors htable)
        exact ⟨_, bind₂_eq_ok.mpr ⟨voted, hvoted, tabled, htabled, rfl⟩⟩
      · rw [if_neg hv3]
        exact ⟨_, rfl⟩
    exact .inl ⟨_, bind_eq_ok.mpr ⟨updated, hupdate, rfl⟩⟩

/-! ### Batches -/

/-- Each block of the batch has its ancestors above the gc round in the cache or before
    it in the batch. -/
def CausallyOrdered (context : Context) (state : DagState) (batch : List VerifiedBlock) : Prop :=
  ∀ before block after, batch = before ++ block :: after →
    ∀ a ∈ block.ancestors, state.gcRound context < a.round →
      a ∈ state.recentBlocks ∨ a ∈ before.map VerifiedBlock.reference

/-- What a state satisfies between the calls of the block manager. -/
structure Accepting (U : BlockUniverse context) (state : DagState) : Prop where
  valid : Valid U state
  voteIndex : context.protocolConfig.enableV3 = true → VoteIndex U state
  tracked : Tracked context state

theorem Accepting.acceptBlock (h : Accepting U state) (hblock : block ∈ U.blocks)
    (hancestors : AncestorsAccepted context state block)
    (haccept : acceptBlock context state block = .ok state') : Accepting U state' where
  valid := h.valid.acceptBlock hblock hancestors haccept
  voteIndex := fun hv3 => (h.voteIndex hv3).acceptBlock hv3 h.valid hblock haccept
  tracked := h.tracked.acceptBlock haccept

/-- A causally ordered batch is accepted as a whole, unless it brings a second block for
    the node's own slot. -/
theorem acceptBlocks_total (hquorum : 0 < context.committee.quorumThreshold)
    {batch : List VerifiedBlock} (hblocks : ∀ b ∈ batch, b ∈ U.blocks) :
    ∀ {state : DagState}, Accepting U state → CausallyOrdered context state batch →
      (∃ r, acceptBlocks context state batch = .error (.ownSlotOccupied r) ∧
        state.ownIndex ∈ U.faulty) ∨
      ∃ state', acceptBlocks context state batch = .ok state' ∧ Accepting U state' ∧
        state'.ownIndex = state.ownIndex ∧
        state'.gcRound context = state.gcRound context ∧
        (∀ r, Known state' r ↔ Known state r ∨ r ∈ batch.map VerifiedBlock.reference) ∧
        (∀ r, r ∈ state.recentBlocks → r ∈ state'.recentBlocks) := by
  induction batch with
  | nil => exact fun h _ => .inr ⟨_, rfl, h, rfl, rfl, by simp, fun r hr => hr⟩
  | cons block rest ih =>
    intro state h hordered
    have hblock := hblocks block (.head _)
    have hancestors : AncestorsAccepted context state block := fun a ha hround =>
      (hordered [] block rest rfl a ha hround).resolve_right not_mem_nil
    rcases acceptBlock_total hquorum h.valid h.voteIndex hblock hancestors with
      ⟨state₁, hok⟩ | ⟨herror, hfaulty⟩
    · have hown := acceptBlock_ownIndex hok
      have hgc := acceptBlock_gcRound hok
      have hkeep : ∀ r, r ∈ state.recentBlocks → r ∈ state₁.recentBlocks := by
        intro r hr
        obtain ⟨info, hinfo⟩ := (mem_iff _ r).mp hr
        obtain ⟨info', hinfo', -⟩ := (acceptBlock_extends hok).old hinfo
        exact mem_of_get hinfo'
      have h₁ := h.acceptBlock hblock hancestors hok
      have hordered₁ : CausallyOrdered context state₁ rest := by
        intro before b after hsplit a ha hround
        rw [hgc] at hround
        rcases hordered (block :: before) b after (by rw [hsplit]; rfl) a ha hround with hcached | hin
        · exact .inl (hkeep a hcached)
        · rcases mem_cons.mp hin with rfl | hin
          · exact .inl (h₁.tracked _ ((acceptBlock_known hok).mpr (.inr rfl))
              (by rw [hgc]; exact hround))
          · exact .inr hin
      rcases ih (fun b hb => hblocks b (.tail block hb)) h₁ hordered₁ with
        ⟨r, herror, hfaulty⟩ | ⟨state', hrun, h', hown', hgc', hknown, hcached⟩
      · exact .inl ⟨r, by rw [acceptBlocks, foldlM_cons, hok]; exact herror, hown ▸ hfaulty⟩
      · refine .inr ⟨state', foldlM_cons_eq_ok.mpr ⟨state₁, hok, hrun⟩, h',
          hown'.trans hown, hgc'.trans hgc, fun r => ?_, fun r hr => hcached r (hkeep r hr)⟩
        rw [hknown r, acceptBlock_known hok, map_cons, mem_cons, or_assoc]
    · exact .inl ⟨block.reference, by rw [acceptBlocks, foldlM_cons, herror]; rfl, hfaulty⟩

/-! ### The other changes of the state -/

/-- What happens to a state between the calls of the block manager: no block is added,
    those above the gc round stay, and the gc round does not fall. -/
structure Evolves (U : BlockUniverse context) (state state' : DagState) : Prop where
  accepting : Accepting U state'
  gcRound_le : state.gcRound context ≤ state'.gcRound context
  known : ∀ {r : BlockRef}, Known state' r → Known state r
  kept : ∀ {r : BlockRef}, r ∈ state.recentBlocks → state'.gcRound context < r.round →
    r ∈ state'.recentBlocks

theorem Evolves.sameBlocks (h : Accepting U state) (hsame : SameBlocks state state') :
    Evolves U state state' := by
  have hgc : state'.gcRound context = state.gcRound context := gcRound_congr hsame.lastCommit
  have hknown : ∀ {r : BlockRef}, Known state' r → Known state r := by
    intro r hr
    rw [Known, hsame.mem r, hsame.eq] at hr
    exact hr
  refine ⟨⟨h.valid.sameBlocks hsame, fun hv3 => (h.voteIndex hv3).sameBlocks hsame, ?_⟩, hgc.ge,
    hknown, fun hr _ => (hsame.mem _).mpr hr⟩
  intro r hr hround
  rw [hgc] at hround
  exact (hsame.mem r).mpr (h.tracked r (hknown hr) hround)

/-- A commit above the last one.  Under v3 its leader is cached above the gc round. -/
def Advances (context : Context) (state : DagState) (commit : Commit) : Prop :=
  state.lastCommitRound ≤ commit.leader.round ∧
    (context.protocolConfig.enableV3 = true →
      commit.leader ∈ state.recentBlocks ∧ state.gcRound context < commit.leader.round)

theorem Evolves.addCommit (h : Accepting U state) {commit : Commit}
    (hadvances : Advances context state commit) (hadd : addCommit state commit = .ok state') :
    Evolves U state state' := by
  obtain ⟨hrise, hleader⟩ := hadvances
  rcases addCommit_cases hadd with ⟨-, -, -, rfl⟩ | rfl
  · exact ⟨h, le_rfl, id, fun hr _ => hr⟩
  · have hgc : state.gcRound context ≤ calculateGcRound context commit.leader.round :=
      Nat.sub_le_sub_right hrise _
    refine ⟨⟨h.valid.addCommit hrise _, fun hv3 => ?_, ?_⟩, hgc, id, fun hr _ => hr⟩
    · exact (h.voteIndex hv3).addCommit hrise (hleader hv3).1 (hleader hv3).2 _
    · exact fun r hr hround => h.tracked r hr (hgc.trans_lt hround)

theorem Known.flush {otherPending : Bool} (hr : Known (state.flush context otherPending) r) :
    Known state r := by
  rcases hr with hr | hr | ⟨b, hb, rfl⟩
  · obtain ⟨info, hinfo⟩ := (mem_iff _ r).mp hr
    exact .inl (mem_of_get (flush_get_old hinfo))
  · obtain ⟨b, hb⟩ := (mem_iff _ r).mp hr
    unfold DagState.flush at hb
    split_ifs at hb
    · exact .inr (.inl (mem_of_get hb))
    · rcases stored_of_foldl_insert hb with hb | ⟨hmem, href⟩
      · exact .inr (.inl (mem_of_get hb))
      · exact .inr (.inr ⟨b, hmem, href⟩)
  · unfold DagState.flush at hb
    split_ifs at hb
    · exact .inr (.inr ⟨b, hb, rfl⟩)
    · exact nomatch hb

theorem Evolves.flush (h : Accepting U state) (otherPending : Bool) :
    Evolves U state (state.flush context otherPending) := by
  have hkept : ∀ {r : BlockRef}, r ∈ state.recentBlocks → state.gcRound context < r.round →
      r ∈ (state.flush context otherPending).recentBlocks := by
    intro r hr hround
    obtain ⟨info, hinfo⟩ := (mem_iff _ r).mp hr
    exact mem_of_get ((flush_get hround).trans hinfo)
  refine ⟨⟨h.valid.flush otherPending, fun hv3 => (h.voteIndex hv3).flush otherPending, ?_⟩,
    (flush_gcRound otherPending).ge, Known.flush, fun hr hround => hkept hr (flush_gcRound otherPending ▸ hround)⟩
  intro r hr hround
  rw [flush_gcRound] at hround
  exact hkept (h.tracked r hr.flush hround) hround

theorem accepting_init (ownIndex cachedRounds : Nat) :
    Accepting U { ownIndex, cachedRounds } where
  valid := valid_init ownIndex cachedRounds
  voteIndex := fun _ => voteIndex_init ownIndex cachedRounds
  tracked := by
    rintro r (hr | hr | ⟨b, hb, -⟩) -
    · exact hr
    · simp at hr
    · simp at hb

end DagState

end Haneul.Consensus
