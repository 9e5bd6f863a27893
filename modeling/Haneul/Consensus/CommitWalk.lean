import Haneul.Consensus.DagInvariants

/-!
# The walk of a commit

A commit marks its leaders and walks down their ancestors.  Each block that is
taken from the worklist adds its ancestors above the gc round that are not marked
yet, and marks them.  The v3 committer and the linearizer of v2 have this walk in
two forms; `WalkTurn` says what one turn of either does.

The walk visits exactly the blocks reachable from the leaders through blocks that
were not committed before (`Walk.exact`), and the order of its visits depends on
nothing but the blocks and the flags above the gc round (`Lockstep`).
-/

namespace Haneul.Consensus

open List VerifiedBlock

namespace DagState

/-- Whether a block is in the cache and marked committed. -/
def committedFlag (state : DagState) (r : BlockRef) : Bool :=
  match state.recentBlocks[r]? with
  | some info => info.committed
  | none => false

variable {state : DagState}

theorem committedFlag_of_get {r : BlockRef} {info : BlockInfo}
    (h : state.recentBlocks[r]? = some info) : state.committedFlag r = info.committed := by
  rw [committedFlag, h]

theorem Extends.committedFlag_eq {state state' : DagState} (h : Extends state state')
    (r : BlockRef) :
    state'.committedFlag r = state.committedFlag r := by
  rcases hr : state.recentBlocks[r]? with _ | info
  · rcases hr' : state'.recentBlocks[r]? with _ | info'
    · rw [committedFlag, committedFlag, hr, hr']
    · have hfresh : r ∉ state.recentBlocks := by
        rw [Map.mem_iff, hr]
        simp
      rw [committedFlag_of_get hr', h.new hr' hfresh, committedFlag, hr]
  · obtain ⟨info', hr', -, hcommitted⟩ := h.old hr
    rw [committedFlag_of_get hr', committedFlag_of_get hr, hcommitted]

/-- `state'` is `state` with the blocks of `new` marked. -/
structure Marks (state state' : DagState) (new : List BlockRef) : Prop where
  same : SameBlocks state state'
  flag : ∀ r, state'.committedFlag r = true ↔ state.committedFlag r = true ∨ r ∈ new

theorem Marks.refl (state : DagState) : Marks state state [] :=
  ⟨SameBlocks.refl state, fun r => by simp⟩

theorem Marks.trans {state state' state'' : DagState} {new new' : List BlockRef}
    (h : Marks state state' new) (h' : Marks state' state'' new') :
    Marks state state'' (new ++ new') := by
  refine ⟨h.same.trans h'.same, fun r => ?_⟩
  rw [h'.flag, h.flag, mem_append, or_assoc]

theorem Marks.cached {state state' : DagState} {new : List BlockRef} (h : Marks state state' new)
    {block : VerifiedBlock} : Cached state' block ↔ Cached state block := by
  constructor
  · rintro ⟨info', hinfo', rfl⟩
    obtain ⟨info, hinfo, hblock, -⟩ := h.same.entry hinfo'
    exact ⟨info, hinfo, hblock⟩
  · rintro ⟨info, hinfo, rfl⟩
    obtain ⟨info', hinfo'⟩ := (Map.mem_iff _ _).mp ((h.same.mem _).mpr (Map.mem_of_get hinfo))
    obtain ⟨info₀, hinfo₀, hblock, -⟩ := h.same.entry hinfo'
    rw [hinfo] at hinfo₀
    cases hinfo₀
    exact ⟨info', hinfo', hblock.symm⟩

theorem setCommitted_spec {r : BlockRef} (hr : r ∈ state.recentBlocks) :
    (state.committedFlag r = true ∧ setCommitted state r = .ok (state, false)) ∨
    (state.committedFlag r = false ∧
      ∃ state', setCommitted state r = .ok (state', true) ∧ Marks state state' [r]) := by
  obtain ⟨info, hinfo⟩ := (Map.mem_iff _ r).mp hr
  rw [committedFlag_of_get hinfo]
  cases hcommitted : info.committed with
  | true =>
    refine .inl ⟨rfl, ?_⟩
    simp only [setCommitted, hinfo, hcommitted, if_true]
  | false =>
    have hset : setCommitted state r = .ok ({ state with
        recentBlocks := state.recentBlocks.insert r { info with committed := true } }, true) := by
      simp only [setCommitted, hinfo, hcommitted, Bool.false_eq_true, if_false]
    refine .inr ⟨rfl, _, hset, setCommitted_sameBlocks hset, fun a => ?_⟩
    rw [mem_singleton]
    by_cases ha : a = r
    · subst ha
      simp [committedFlag]
    · simp [committedFlag, Map.get_insert_of_ne (Ne.symm ha), ha]

/-! Marking some blocks and adding a commit that does not lower the gc round. -/

section AddCommit

variable {context : Context} {U : BlockUniverse context} {state marked : DagState}
  {new : List BlockRef} {commit : Commit}

theorem Marks.lastCommitRound (h : Marks state marked new) :
    marked.lastCommitRound = state.lastCommitRound := by
  rw [DagState.lastCommitRound, DagState.lastCommitRound, h.same.lastCommit]

section

variable (h : Marks state marked new) (hrise : state.lastCommitRound ≤ commit.leader.round)
include h hrise

theorem Marks.valid_addCommit (hvalid : Valid U state) (commits : List Commit) :
    Valid U { marked with lastCommit := some commit, commitsToWrite := commits } :=
  (hvalid.sameBlocks h.same).addCommit (h.lastCommitRound ▸ hrise) commits

theorem Marks.voteIndex_addCommit (hindex : VoteIndex U state)
    (hleader : commit.leader ∈ state.recentBlocks)
    (hround : state.gcRound context < commit.leader.round) (commits : List Commit) :
    VoteIndex U { marked with lastCommit := some commit, commitsToWrite := commits } := by
  refine (hindex.sameBlocks h.same).addCommit (h.lastCommitRound ▸ hrise)
    ((h.same.mem _).mpr hleader) ?_ commits
  rw [gcRound_congr h.same.lastCommit]
  exact hround

theorem Marks.retains_addCommit (commits : List Commit) :
    Retains context state { marked with lastCommit := some commit, commitsToWrite := commits } := by
  refine ⟨?_, fun hb _ => h.cached.mpr hb⟩
  simp only [gcRound, calculateGcRound, DagState.lastCommitRound] at hrise ⊢
  omega

end

end AddCommit

def fresh (gcRound : Nat) (state : DagState) (ancestors : List BlockRef) : List BlockRef :=
  ancestors.filter fun a => gcRound < a.round && !state.committedFlag a

theorem mem_fresh {gcRound : Nat} {ancestors : List BlockRef} {a : BlockRef} :
    a ∈ fresh gcRound state ancestors ↔
      a ∈ ancestors ∧ gcRound < a.round ∧ state.committedFlag a = false := by
  simp [fresh]

end DagState

open DagState

/-- One turn of the walk: `block` is taken from the worklist, and its fresh ancestors
    are marked and added to it, the last one first. -/
structure WalkTurn (gcRound : Nat) (block : VerifiedBlock) (rest : List VerifiedBlock)
    (state state' : DagState) (toVisit' : List VerifiedBlock) : Prop where
  marks : Marks state state' (fresh gcRound state block.ancestors)
  toVisit : ∃ new, toVisit' = new ++ rest ∧ (∀ b ∈ new, Cached state b) ∧
    new.map VerifiedBlock.reference = (fresh gcRound state block.ancestors).reverse

section Walk

variable {context : Context} (U : BlockUniverse context)

/-- The edges of the walk: to an ancestor above the gc round that was not committed
    when the walk began. -/
def WalkEdge (gcRound : Nat) (start : DagState) (b a : BlockRef) : Prop :=
  a ∈ U.ancestors b ∧ gcRound < a.round ∧ start.committedFlag a = false

/-- The invariant of the walk from `leaders` in the state `start`. -/
structure Walk (gcRound : Nat) (start : DagState) (leaders : List VerifiedBlock)
    (state : DagState) (toVisit toCommit : List VerifiedBlock) : Prop where
  searched : Search (WalkEdge U gcRound start) {r | r ∈ leaders.map VerifiedBlock.reference}
    (toCommit.map VerifiedBlock.reference) (toVisit.map VerifiedBlock.reference)
  marks : Marks start state ((toCommit ++ toVisit).map VerifiedBlock.reference)
  cached : ∀ b ∈ toCommit ++ toVisit, Cached start b
  unmarked : ∀ b ∈ toCommit ++ toVisit, gcRound < b.round ∧ start.committedFlag b.reference = false

variable {U} {gcRound : Nat} {start state state' : DagState}
  {leaders toVisit toVisit' toCommit rest : List VerifiedBlock} {block : VerifiedBlock}

theorem ancestors_nodup (hblock : block ∈ U.blocks) : block.ancestors.Nodup :=
  List.Nodup.of_map _ (U.wellFormed hblock).ancestor_authors

theorem Walk.turn (hvalid : Valid U start)
    (h : Walk U gcRound start leaders state (block :: rest) toCommit)
    (hturn : WalkTurn gcRound block rest state state' toVisit') :
    Walk U gcRound start leaders state' toVisit' (toCommit ++ [block]) := by
  have hblock : block ∈ U.blocks := (h.cached block (by simp)).mem_blocks hvalid
  obtain ⟨new, rfl, hcached, hnew⟩ := hturn.toVisit
  have hfresh : ∀ a, a ∈ fresh gcRound state block.ancestors ↔ WalkEdge U gcRound start block.reference a ∧
      a ∉ (toCommit ++ block :: rest).map reference := by
    intro a
    have hflag := h.marks.flag a
    rw [mem_fresh, WalkEdge, U.mem_ancestors hblock, ← Bool.not_eq_true, ← Bool.not_eq_true, hflag,
      not_or]
    exact ⟨fun ⟨ha, hround, hstart, hnot⟩ => ⟨⟨ha, hround, hstart⟩, hnot⟩,
      fun ⟨⟨ha, hround, hstart⟩, hnot⟩ => ⟨ha, hround, hstart, hnot⟩⟩
  have hmap : (toCommit ++ block :: rest).map reference =
      toCommit.map reference ++ block.reference :: rest.map reference := by
    rw [map_append, map_cons]
  have hmem : ∀ b, b ∈ toCommit ++ [block] ++ (new ++ rest) ↔
      b ∈ toCommit ++ block :: rest ∨ b ∈ new := by
    intro b
    simp only [mem_append, mem_cons, not_mem_nil, or_false]
    tauto
  have hnewMem : ∀ r, r ∈ new.map reference ↔
      r ∈ fresh gcRound state block.ancestors := by
    intro r
    rw [hnew, mem_reverse]
  refine ⟨?_, ?_, ?_, ?_⟩
  · have hsearch := h.searched
    rw [map_cons] at hsearch
    rw [map_append, map_append, hnew, map_cons, map_nil]
    apply hsearch.serve (fresh gcRound state block.ancestors) ((ancestors_nodup hblock).filter _)
    · intro y hy
      rw [← hmap]
      exact (hfresh y).mp hy
    · intro y hy
      rw [← hmap]
      by_cases hfound : y ∈ (toCommit ++ block :: rest).map reference
      · exact .inl hfound
      · exact .inr ((hfresh y).mpr ⟨hy, hfound⟩)
    · exact (perm_append_comm).trans ((reverse_perm _).append_left _)
  · have hmarks := h.marks.trans hturn.marks
    refine ⟨hmarks.same, fun r => ?_⟩
    rw [hmarks.flag, mem_append, ← hnewMem]
    simp only [mem_map, hmem, or_and_right, exists_or]
  · intro b hb
    rcases (hmem b).mp hb with hold | hb
    · exact h.cached b hold
    · exact h.marks.cached.mp (hcached b hb)
  · intro b hb
    rcases (hmem b).mp hb with hold | hb
    · exact h.unmarked b hold
    · have hedge := ((hfresh _).mp ((hnewMem _).mp (mem_map_of_mem hb))).1
      exact ⟨hedge.2.1, hedge.2.2⟩

theorem Walk.of_leaders (hmarks : Marks start state (leaders.map reference))
    (hnodup : (leaders.map reference).Nodup) (hcached : ∀ b ∈ leaders, Cached start b)
    (hunmarked : ∀ b ∈ leaders, gcRound < b.round ∧ start.committedFlag b.reference = false)
    (hperm : toVisit.Perm leaders) : Walk U gcRound start leaders state toVisit [] := by
  refine ⟨Search.start ?_ ?_, ?_, ?_, ?_⟩
  · exact ((hperm.map _).nodup_iff).mpr hnodup
  · exact fun r => (hperm.map _).mem_iff
  · refine ⟨hmarks.same, fun r => ?_⟩
    rw [hmarks.flag, nil_append, (hperm.map _).mem_iff]
  · exact fun b hb => hcached b (hperm.mem_iff.mp hb)
  · exact fun b hb => hunmarked b (hperm.mem_iff.mp hb)

theorem Walk.length_le (h : Walk U gcRound start leaders state toVisit toCommit) :
    toCommit.length + toVisit.length ≤ start.recentBlocks.size := by
  have hkeys : ∀ r ∈ toCommit.map reference ++ toVisit.map reference,
      r ∈ start.recentBlocks.keys.toFinset := by
    intro r hr
    rw [← map_append] at hr
    obtain ⟨b, hb, rfl⟩ := mem_map.mp hr
    rw [mem_toFinset, Std.ExtTreeMap.mem_keys]
    exact (h.cached b hb).mem
  have hle := h.searched.length_le hkeys
  rw [length_map, length_map] at hle
  calc toCommit.length + toVisit.length ≤ start.recentBlocks.keys.toFinset.card := hle
    _ ≤ start.recentBlocks.keys.length := toFinset_card_le _
    _ = start.recentBlocks.size := Std.ExtTreeMap.length_keys

structure Collected (U : BlockUniverse context) (gcRound : Nat) (start : DagState)
    (leaders : List VerifiedBlock) (state : DagState) (toCommit : List VerifiedBlock) : Prop where
  nodup : (toCommit.map VerifiedBlock.reference).Nodup
  exact : ∀ r, r ∈ toCommit.map VerifiedBlock.reference ↔
    ∃ leader ∈ leaders, Relation.ReflTransGen (WalkEdge U gcRound start) leader.reference r
  marks : Marks start state (toCommit.map VerifiedBlock.reference)
  cached : ∀ b ∈ toCommit, Cached start b
  unmarked : ∀ b ∈ toCommit, gcRound < b.round ∧ start.committedFlag b.reference = false

theorem Walk.collected (h : Walk U gcRound start leaders state [] toCommit) :
    Collected U gcRound start leaders state toCommit := by
  refine ⟨?_, ?_, ?_, ?_, ?_⟩
  · have hnodup := h.searched.nodup
    rw [map_nil, append_nil] at hnodup
    exact hnodup
  · intro r
    rw [h.searched.exact r]
    constructor
    · rintro ⟨root, hroot, hpath⟩
      obtain ⟨leader, hleader, rfl⟩ := mem_map.mp hroot
      exact ⟨leader, hleader, hpath⟩
    · rintro ⟨leader, hleader, hpath⟩
      exact ⟨leader.reference, mem_map_of_mem hleader, hpath⟩
  · have hmarks := h.marks
    rw [append_nil] at hmarks
    exact hmarks
  · exact fun b hb => h.cached b (mem_append_left _ hb)
  · exact fun b hb => h.unmarked b (mem_append_left _ hb)

/-! ### Two walks in lockstep -/

/-- The two states have the same flags above the gc round, where both have the block. -/
def SameFlags (gcRound : Nat) (state state' : DagState) : Prop :=
  ∀ r : BlockRef, gcRound < r.round → r ∈ state.recentBlocks → r ∈ state'.recentBlocks →
    state.committedFlag r = state'.committedFlag r

variable {state₁ state₂ state₁' state₂' : DagState}

theorem SameFlags.marks {new : List BlockRef}
    (h : SameFlags gcRound state₁ state₂) (h₁ : Marks state₁ state₁' new)
    (h₂ : Marks state₂ state₂' new) : SameFlags gcRound state₁' state₂' := by
  intro r hround hr₁ hr₂
  have hflag := h r hround ((h₁.same.mem r).mp hr₁) ((h₂.same.mem r).mp hr₂)
  rw [Bool.eq_iff_iff, h₁.flag, h₂.flag, hflag]

theorem blocks_eq_of_references {bs : List VerifiedBlock} :
    ∀ {bs' : List VerifiedBlock}, (∀ b ∈ bs, b ∈ U.blocks) → (∀ b ∈ bs', b ∈ U.blocks) →
      bs.map reference = bs'.map reference → bs = bs' := by
  induction bs with
  | nil =>
    intro bs' _ _ h
    exact (map_eq_nil_iff.mp h.symm).symm
  | cons b bs ih =>
    intro bs' hbs hbs' h
    cases bs' with
    | nil => simp at h
    | cons b' bs' =>
      rw [map_cons, map_cons, List.cons.injEq] at h
      rw [U.reference_inj (hbs b (.head _)) (hbs' b' (.head _)) h.1,
        ih (fun x hx => hbs x (.tail b hx)) (fun x hx => hbs' x (mem_cons_of_mem b' hx)) h.2]

/-- Two walks in states with the same flags take the same turn. -/
theorem WalkTurn.lockstep {toVisit₁ toVisit₂ : List VerifiedBlock} (hvalid₁ : Valid U state₁)
    (hvalid₂ : Valid U state₂) (hflags : SameFlags gcRound state₁ state₂)
    (hclosed₁ : ∀ a ∈ block.ancestors, gcRound < a.round → a ∈ state₁.recentBlocks)
    (hclosed₂ : ∀ a ∈ block.ancestors, gcRound < a.round → a ∈ state₂.recentBlocks)
    (h₁ : WalkTurn gcRound block rest state₁ state₁' toVisit₁)
    (h₂ : WalkTurn gcRound block rest state₂ state₂' toVisit₂) :
    toVisit₁ = toVisit₂ ∧ SameFlags gcRound state₁' state₂' := by
  have hfresh : fresh gcRound state₁ block.ancestors = fresh gcRound state₂ block.ancestors := by
    apply filter_congr
    intro a ha
    by_cases hround : gcRound < a.round
    · rw [hflags a hround (hclosed₁ a ha hround) (hclosed₂ a ha hround)]
    · simp [hround]
  obtain ⟨new₁, rfl, hcached₁, hnew₁⟩ := h₁.toVisit
  obtain ⟨new₂, rfl, hcached₂, hnew₂⟩ := h₂.toVisit
  constructor
  · rw [blocks_eq_of_references (fun b hb => (hcached₁ b hb).mem_blocks hvalid₁)
      (fun b hb => (hcached₂ b hb).mem_blocks hvalid₂) (by rw [hnew₁, hnew₂, hfresh])]
  · exact hflags.marks h₁.marks (hfresh ▸ h₂.marks)

end Walk

end Haneul.Consensus
