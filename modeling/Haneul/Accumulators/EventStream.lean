import Haneul.Accumulators.Settlement

/-!
# Event streams and their light client

The head of an event stream has one root for each checkpoint with events of the stream, kept as a
Merkle mountain range.  `add_to_mmr` is a binary counter whose digits are roots; `mountainRange`
says what it holds after `n` roots, by pairing them level by level.  The light client
(`authenticated_events/mmr.rs`) replays the updates from the events of the checkpoints.
-/

namespace Haneul.Accumulators

open List

open Codec (leNat)

/-! ### Mountain ranges -/

section MountainRange

variable (hash : Nat → Nat → Nat)

/-- The root of the perfect tree over the `k`-th block of `2 ^ level` leaves, older ones on the
    left. -/
def perfectRoot (leaf : Nat → Nat) : Nat → Nat → Nat
  | 0, k => leaf k
  | level + 1, k => hash (perfectRoot leaf level (2 * k)) (perfectRoot leaf level (2 * k + 1))

/-- The slots after `n` leaves: the last one stands alone if it is odd, all others are paired. -/
def mountainRange (leaf : Nat → Nat) : Nat → List Nat
  | 0 => []
  | n + 1 => (if (n + 1) % 2 = 1 then leaf n else 0) ::
      mountainRange (perfectRoot hash leaf 1) ((n + 1) / 2)

variable {hash} {leaf : Nat → Nat}

theorem perfectRoot_pairs (level k : Nat) :
    perfectRoot hash (perfectRoot hash leaf 1) level k = perfectRoot hash leaf (level + 1) k := by
  induction level generalizing k with
  | zero => rfl
  | succ level ih =>
    rw [perfectRoot, ih, ih]
    rfl

theorem getElem?_mountainRange (n i : Nat) : (mountainRange hash leaf n)[i]? =
    if 2 ^ i ≤ n then some (if n.testBit i then perfectRoot hash leaf i (n / 2 ^ i - 1) else 0)
    else none := by
  induction i generalizing leaf n with
  | zero =>
    cases n with
    | zero => simp [mountainRange]
    | succ n => simp [mountainRange, perfectRoot]
  | succ i ih =>
    cases n with
    | zero => simp [mountainRange]
    | succ n =>
      have hle : 2 ^ i ≤ (n + 1) / 2 ↔ 2 ^ (i + 1) ≤ n + 1 := by
        rw [Nat.le_div_iff_mul_le (by decide), pow_succ]
      rw [mountainRange, List.getElem?_cons_succ, ih, Nat.testBit_succ, Nat.div_div_eq_div_mul,
        ← pow_succ', perfectRoot_pairs]
      simp only [hle]

theorem length_mountainRange (n : Nat) : (mountainRange hash leaf n).length = n.size := by
  refine eq_of_forall_ge_iff fun i => ?_
  rw [Nat.size_le, ← List.getElem?_eq_none_iff, getElem?_mountainRange]
  split_ifs with hle <;> simp <;> omega

end MountainRange

section Counter

variable {hashes : Hashes} (hhash : ∀ left right, hashes.hashTwoToOneU256 left right ≠ 0)
include hhash

/-- A root is added like one to a binary number, where the digits that carry are hashed. -/
theorem addToMmr_mountainRange {leaf : Nat → Nat} {n : Nat} (hleaf : ∀ k < n, leaf k ≠ 0) :
    addToMmr hashes (leaf n) (mountainRange hashes.hashTwoToOneU256 leaf n) =
      mountainRange hashes.hashTwoToOneU256 leaf (n + 1) := by
  induction n using Nat.strong_induction_on generalizing leaf with
  | _ n ih =>
    cases n with
    | zero => simp [addToMmr, mountainRange]
    | succ n =>
      rw [mountainRange, mountainRange, addToMmr]
      by_cases hodd : (n + 1) % 2 = 1
      · have hpair : hashes.hashTwoToOneU256 (leaf n) (leaf (n + 1)) =
            perfectRoot hashes.hashTwoToOneU256 leaf 1 ((n + 1) / 2) := by
          have hhalf : 2 * ((n + 1) / 2) = n := by omega
          rw [perfectRoot, hhalf]
          rfl
        have hcarry : (n + 1 + 1) / 2 = (n + 1) / 2 + 1 := by omega
        rw [if_pos hodd, if_neg (hleaf n (by omega)), if_neg (by omega), hpair, hcarry]
        rw [@ih ((n + 1) / 2) (by omega) (perfectRoot _ leaf 1) fun k _ => hhash _ _]
      · have hsame : (n + 1 + 1) / 2 = (n + 1) / 2 := by omega
        rw [if_neg hodd, if_pos rfl, if_pos (by omega), hsame]

theorem foldl_addToMmr {roots : List Nat} (hroots : ∀ r ∈ roots, r ≠ 0) :
    roots.foldl (fun mmr root => addToMmr hashes root mmr) [] =
      mountainRange hashes.hashTwoToOneU256 (roots.getD · 0) roots.length := by
  have hupto : ∀ n ≤ roots.length,
      (roots.take n).foldl (fun mmr root => addToMmr hashes root mmr) [] =
        mountainRange hashes.hashTwoToOneU256 (roots.getD · 0) n := by
    intro n hn
    induction n with
    | zero => simp [mountainRange]
    | succ n ih =>
      rw [take_succ_eq_append_getElem hn, foldl_append, ih (by omega),
        ← addToMmr_mountainRange hhash fun k hk => ?_]
      · simp [List.getElem?_eq_getElem hn]
      · have hk' : k < roots.length := by omega
        simpa [List.getElem?_eq_getElem hk'] using hroots _ (getElem_mem hk')
  simpa using hupto roots.length le_rfl

end Counter

/-! ### The light client -/

inductive ClientPanic where
  | emptyCheckpoint
  | mixedCheckpoints
  | decreasingCheckpoint
deriving DecidableEq, Repr

def EventStreamHead.new : EventStreamHead := ⟨[], 0, 0⟩

variable (hashes : Hashes)

def addToStream (mmr : List Nat) (newVal : Nat) : List Nat :=
  match mmr with
  | [] => [newVal]
  | r :: rest =>
    if r = 0 then newVal :: rest
    else 0 :: addToStream rest (hashes.hashTwoToOneU256 r newVal)

/-- One turn of the loop of `apply_stream_updates`. -/
def applyCheckpoint (head : EventStreamHead) (cpEvents : List EventCommitment) :
    Except ClientPanic EventStreamHead :=
  match cpEvents with
  | [] => .error .emptyCheckpoint
  | first :: _ =>
    if ¬ cpEvents.all (·.checkpointSeq == first.checkpointSeq) then .error .mixedCheckpoints
    else if ¬ (first.checkpointSeq ≥ head.checkpointSeq ∨ head.numEvents = 0) then
      .error .decreasingCheckpoint
    else .ok {
      mmr := addToStream hashes head.mmr (leNat (hashes.buildEventMerkleRoot cpEvents).toList)
      checkpointSeq := first.checkpointSeq
      numEvents := head.numEvents + UInt64.ofNat cpEvents.length }

def applyStreamUpdates (head : EventStreamHead) (events : List (List EventCommitment)) :
    Except ClientPanic EventStreamHead :=
  events.foldlM (applyCheckpoint hashes) head

variable (streamId : HaneulAddress)

/-- The call of `settle_events` for the events of one checkpoint. -/
def settleCheckpoint (root : AccumulatorRoot) (cpEvents : List EventCommitment) :
    Except Failure AccumulatorRoot :=
  match cpEvents with
  | [] => .ok root
  | first :: _ =>
    settleEvents hashes systemTx root streamId
      (leNat (hashes.buildEventMerkleRoot cpEvents).toList) (UInt64.ofNat cpEvents.length)
      first.checkpointSeq

/-- The head of a stream; one that does not exist yet is empty. -/
def HasHead (root : AccumulatorRoot) (head : EventStreamHead) : Prop :=
  root.accumulators[hashes.fieldId ⟨streamId, eventStreamHeadType⟩]? = some (.eventStreamHead head) ∨
    root.accumulators[hashes.fieldId ⟨streamId, eventStreamHeadType⟩]? = none ∧ head = .new

/-- Events of checkpoints in their order, from one checkpoint on. -/
def InOrder : UInt64 → List (List EventCommitment) → Prop
  | _, [] => True
  | last, cpEvents :: rest => ∃ seq ≥ last, cpEvents ≠ [] ∧
      (∀ e ∈ cpEvents, e.checkpointSeq = seq) ∧ InOrder seq rest

variable {hashes streamId} {root : AccumulatorRoot} {head : EventStreamHead}

theorem addToStream_eq (mmr : List Nat) (newVal : Nat) :
    addToStream hashes mmr newVal = addToMmr hashes newVal mmr := by
  induction mmr generalizing newVal with
  | nil => rfl
  | cons r rest ih => rw [addToStream, addToMmr, ih]

/-- The events of one checkpoint are added alike by the framework and by the client. -/
theorem settleCheckpoint_step {cpEvents : List EventCommitment} {seq : UInt64}
    (hhead : HasHead hashes streamId root head)
    (hseq : seq ≥ head.checkpointSeq ∨ head.numEvents = 0) (hne : cpEvents ≠ [])
    (hall : ∀ e ∈ cpEvents, e.checkpointSeq = seq)
    (hfits : head.numEvents.toNat + cpEvents.length < 2 ^ 64) :
    ∃ root' head', settleCheckpoint hashes streamId root cpEvents = .ok root' ∧
      applyCheckpoint hashes head cpEvents = .ok head' ∧ HasHead hashes streamId root' head' ∧
      head'.checkpointSeq = seq ∧
      head'.numEvents.toNat = head.numEvents.toNat + cpEvents.length := by
  obtain ⟨first, rest, rfl⟩ := exists_cons_of_ne_nil hne
  obtain rfl := hall first (.head _)
  have hlength : (UInt64.ofNat (first :: rest).length).toNat = (first :: rest).length :=
    UInt64.toNat_ofNat_of_lt (by simp only [UInt64.size]; omega)
  have hsum : (head.numEvents + UInt64.ofNat (first :: rest).length).toNat =
      head.numEvents.toNat + (first :: rest).length := by
    rw [UInt64.toNat_add, hlength, Nat.mod_eq_of_lt hfits]
  have happly : applyCheckpoint hashes head (first :: rest) = .ok ⟨addToMmr hashes
      (leNat (hashes.buildEventMerkleRoot (first :: rest)).toList) head.mmr, first.checkpointSeq,
      head.numEvents + UInt64.ofNat (first :: rest).length⟩ := by
    have hsame : (first :: rest).all (·.checkpointSeq == first.checkpointSeq) = true :=
      all_eq_true.mpr fun e he => beq_iff_eq.mpr (hall e he)
    rw [applyCheckpoint, if_neg (not_not.mpr hsame), if_neg (not_not.mpr hseq), addToStream_eq]
  refine ⟨{ root with accumulators := root.accumulators.insert _ _ }, _, ?_, happly,
    .inl Std.ExtTreeMap.getElem?_insert_self, rfl, hsum⟩
  rw [settleCheckpoint, settleEvents]
  refine bind_eq_ok.mpr ⟨(), if_pos rfl, ?_⟩
  dsimp only
  rcases hhead with hsome | ⟨hnone, rfl⟩
  · rw [hsome]
    exact if_pos (hlength.symm ▸ hfits)
  · rw [hnone]
    simp [AccumulatorRoot.addAccumulator, hnone, EventStreamHead.new]

theorem settleCheckpoint_run {events : List (List EventCommitment)} {last : UInt64}
    (hhead : HasHead hashes streamId root head)
    (hlast : last ≥ head.checkpointSeq ∨ head.numEvents = 0) (horder : InOrder last events)
    (hfits : head.numEvents.toNat + (events.map List.length).sum < 2 ^ 64) :
    ∃ root' head', events.foldlM (settleCheckpoint hashes streamId) root = .ok root' ∧
      applyStreamUpdates hashes head events = .ok head' ∧ HasHead hashes streamId root' head' := by
  induction events generalizing root head last with
  | nil => exact ⟨root, head, rfl, rfl, hhead⟩
  | cons cpEvents events ih =>
    obtain ⟨seq, hseq, hne, hall, hrest⟩ := horder
    rw [map_cons, sum_cons] at hfits
    obtain ⟨root₁, head₁, hsettle, happly, hhead₁, rfl, hcount⟩ :=
      settleCheckpoint_step hhead (hlast.imp_left fun h => UInt64.le_trans h hseq) hne hall (by omega)
    obtain ⟨root', head', hsettles, happlies, hhead'⟩ :=
      ih hhead₁ (.inl (UInt64.le_refl _)) hrest (by omega)
    exact ⟨root', head', foldlM_cons_eq_ok.mpr ⟨_, hsettle, hsettles⟩,
      foldlM_cons_eq_ok.mpr ⟨_, happly, happlies⟩, hhead'⟩

/-- The head of a stream is a mountain range of the roots of its checkpoints.  If the events are
    given in the order of their checkpoints and their number fits into a `u64`, the calls of the
    framework and the light client both return, with the same head. -/
theorem event_stream_heads_faithful (hhash : ∀ left right, hashes.hashTwoToOneU256 left right ≠ 0) :
    (∀ roots mmr : List Nat, (∀ r ∈ roots, r ≠ 0) →
      roots.foldl (fun mmr root => addToMmr hashes root mmr) [] = mmr →
      mmr.length = roots.length.size ∧ ∀ i (hi : i < mmr.length),
        (mmr[i] ≠ 0 ↔ roots.length.testBit i = true) ∧
        (mmr[i] ≠ 0 → mmr[i] = perfectRoot hashes.hashTwoToOneU256 (roots.getD · 0) i
          (roots.length / 2 ^ i - 1))) ∧
    ∀ streamId root head last events, HasHead hashes streamId root head →
      (last ≥ head.checkpointSeq ∨ head.numEvents = 0) → InOrder last events →
      head.numEvents.toNat + (events.map List.length).sum < 2 ^ 64 →
      ∃ root' head', events.foldlM (settleCheckpoint hashes streamId) root = .ok root' ∧
        applyStreamUpdates hashes head events = .ok head' ∧
        HasHead hashes streamId root' head' := by
  refine ⟨?_, fun streamId root head last events => settleCheckpoint_run⟩
  rintro roots mmr hroots rfl
  rw [foldl_addToMmr hhash hroots]
  refine ⟨length_mountainRange _, fun i hi => ?_⟩
  have hle : 2 ^ i ≤ roots.length := by
    rwa [length_mountainRange, Nat.lt_size] at hi
  have hslot := @getElem?_mountainRange hashes.hashTwoToOneU256 (roots.getD · 0) roots.length i
  rw [if_pos hle, List.getElem?_eq_getElem hi, Option.some.injEq] at hslot
  have hroot : perfectRoot hashes.hashTwoToOneU256 (roots.getD · 0) i
      (roots.length / 2 ^ i - 1) ≠ 0 := by
    cases i with
    | succ i => exact hhash _ _
    | zero =>
      have hlast : roots.length - 1 < roots.length := by omega
      simpa [perfectRoot, List.getElem?_eq_getElem hlast] using hroots _ (getElem_mem hlast)
  rw [hslot]
  split_ifs with hbit
  · exact ⟨iff_of_true hroot hbit, fun _ => rfl⟩
  · simp [hbit]

/-- Hashes that are never zero, and the events of two checkpoints. -/
def constantHashes : Hashes where
  fieldId _ := 0
  buildEventMerkleRoot _ := Vector.replicate 32 1
  hashTwoToOneU256 _ _ := 1

def checkpointEvents (seq : UInt64) : List EventCommitment := [⟨seq, 0, 0, Vector.replicate 32 0⟩]

theorem event_stream_heads_faithful_two :
    (addToMmr constantHashes 4 (addToMmr constantHashes 3 [])).length = Nat.size 2 ∧
    ∃ root' head', [checkpointEvents 7, checkpointEvents 7].foldlM
        (settleCheckpoint constantHashes systemTx.sender) {} = .ok root' ∧
      applyStreamUpdates constantHashes .new [checkpointEvents 7, checkpointEvents 7] = .ok head' ∧
      HasHead constantHashes systemTx.sender root' head' := by
  obtain ⟨hmmr, hagree⟩ := @event_stream_heads_faithful constantHashes fun _ _ => one_ne_zero
  refine ⟨(hmmr [3, 4] _ (by decide) rfl).1, ?_⟩
  refine hagree _ _ .new 7 _ (.inr ⟨Std.ExtTreeMap.getElem?_empty, rfl⟩) (.inr rfl) ?_ (by decide)
  exact ⟨7, by decide, by decide, by decide, 7, by decide, by decide, by decide, trivial⟩

/-- The framework takes the events of an earlier checkpoint, where the client panics. -/
theorem client_panics_on_earlier_checkpoint :
    ([checkpointEvents 7, checkpointEvents 6].foldlM
      (settleCheckpoint constantHashes systemTx.sender) {}).toBool = true ∧
    applyStreamUpdates constantHashes .new [checkpointEvents 7, checkpointEvents 6] =
      .error .decreasingCheckpoint := by
  decide +kernel

end Haneul.Accumulators
