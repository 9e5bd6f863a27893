import Mathlib

/-!
# Causal admission of transactions to execution

Mirror of `execution_scheduler/causal_admission.rs`.  Units get causal indices in the
order in which they are enqueued; the driver admits them under a concurrency limit, and
one more if it is the lowest index that is not done.  An index is done when the slot
that was admitted for it is dropped, in any order.

The counters of the source are `u64` and `usize`; here they are numbers, since one index
is assigned for each unit.  The metrics and the wake-ups of the driver are left out.
-/

namespace Haneul.Execution

open List

structure AdmissionInner where
  nextIndex : Nat := 1
  enqueueWatermark : Option Nat := none
  watermark : Nat := 0
  doneAbove : Finset Nat := ∅
  inFlight : Nat := 0
  nextAdmitted : Bool := false
deriving DecidableEq

/-- What admission reads and writes of the environment of a unit. -/
structure ExecutionEnv where
  accumulatorVersion : Option Nat
  causalIndex : Option Nat := none
deriving DecidableEq

structure InFlightSlot where
  isNext : Bool
  retireOnDrop : Option Nat
deriving DecidableEq

namespace CausalAdmission

/-! ### The code -/

def raise : Option Nat → Nat → Option Nat
  | none, version => some version
  | some highest, version => some (max highest version)

structure Dedup (α : Type) where
  nextIndex : Nat
  maxVersion : Option Nat
  certs : List (α × ExecutionEnv) := []

variable {α : Type}

def Dedup.assign (dedup : Dedup α) (maxVersion : Option Nat) (cert : α × ExecutionEnv) :
    Dedup α where
  nextIndex := dedup.nextIndex + 1
  maxVersion := maxVersion
  certs := dedup.certs ++ [(cert.1, { cert.2 with causalIndex := some dedup.nextIndex })]

def dedupStep (watermark : Option Nat) (dedup : Dedup α) (cert : α × ExecutionEnv) : Dedup α :=
  match cert.2.accumulatorVersion with
  | some version =>
    if watermark.any fun highest => version ≤ highest then dedup
    else dedup.assign (raise dedup.maxVersion version) cert
  | none => dedup.assign dedup.maxVersion cert

variable (inner : AdmissionInner)

/-- Drops the units of versions that were enqueued before, and assigns indices to the
    others. -/
def dedupAndAssign (certs : List (α × ExecutionEnv)) :
    AdmissionInner × List (α × ExecutionEnv) :=
  let dedup := certs.foldl (dedupStep inner.enqueueWatermark)
    ⟨inner.nextIndex, inner.enqueueWatermark, []⟩
  ({ inner with nextIndex := dedup.nextIndex, enqueueWatermark := dedup.maxVersion }, dedup.certs)

variable (concurrencyLimit : Nat)

def tryAdmit (inner : AdmissionInner) (index : Nat) :
    Option (AdmissionInner × InFlightSlot) :=
  if inner.inFlight < concurrencyLimit then
    some ({ inner with inFlight := inner.inFlight + 1 }, ⟨false, some index⟩)
  else if index = inner.watermark + 1 ∧ ¬ inner.nextAdmitted then
    some ({ inner with inFlight := inner.inFlight + 1, nextAdmitted := true }, ⟨true, some index⟩)
  else none

def tryTakeSlot (inner : AdmissionInner) :
    Option (AdmissionInner × InFlightSlot) :=
  if inner.inFlight ≥ concurrencyLimit then none
  else some ({ inner with inFlight := inner.inFlight + 1 }, ⟨false, none⟩)

/-- The loop of `mark_done_locked`; every turn but the last removes an element. -/
def drain : Nat → Nat → Finset Nat → Nat × Finset Nat
  | 0, watermark, doneAbove => (watermark, doneAbove)
  | fuel + 1, watermark, doneAbove =>
    if watermark + 1 ∈ doneAbove then drain fuel (watermark + 1) (doneAbove.erase (watermark + 1))
    else (watermark, doneAbove)

def markDoneLocked (index : Nat) : AdmissionInner :=
  if index = inner.watermark + 1 then
    let (watermark, doneAbove) := drain (inner.doneAbove.card + 1) index inner.doneAbove
    { inner with watermark := watermark, doneAbove := doneAbove }
  else { inner with doneAbove := insert index inner.doneAbove }

def skipRetire (slot : InFlightSlot) : InFlightSlot := { slot with retireOnDrop := none }

/-- `Drop for InFlightSlot`. -/
def dropSlot (slot : InFlightSlot) : AdmissionInner :=
  let inner := { inner with
    inFlight := inner.inFlight - 1
    nextAdmitted := if slot.isNext then false else inner.nextAdmitted }
  match slot.retireOnDrop with
  | some index => markDoneLocked inner index
  | none => inner

def isQuiescent : Bool :=
  inner.inFlight = 0 ∧ ¬ inner.nextAdmitted ∧ inner.doneAbove = ∅ ∧
    inner.watermark + 1 = inner.nextIndex

/-! ### The indices that are done -/

/-- `watermark` and `doneAbove` describe the set of indices that are done. -/
structure Frontier (done : Finset Nat) (watermark : Nat) (doneAbove : Finset Nat) : Prop where
  below : ∀ i, 1 ≤ i → i ≤ watermark → i ∈ done
  above : ∀ i, i ∈ doneAbove ↔ i ∈ done ∧ watermark < i

variable {done : Finset Nat}

/-- The loop moves the watermark over what is done, up to the first gap. -/
theorem Frontier.drain :
    ∀ {fuel watermark : Nat} {doneAbove : Finset Nat}, Frontier done watermark doneAbove →
      doneAbove.card < fuel →
      Frontier done (CausalAdmission.drain fuel watermark doneAbove).1
        (CausalAdmission.drain fuel watermark doneAbove).2 ∧
      (CausalAdmission.drain fuel watermark doneAbove).1 + 1 ∉ done ∧
      watermark ≤ (CausalAdmission.drain fuel watermark doneAbove).1 := by
  intro fuel
  induction fuel with
  | zero => exact fun _ hfuel => absurd hfuel (Nat.not_lt_zero _)
  | succ fuel ih =>
    intro watermark doneAbove h hfuel
    unfold CausalAdmission.drain
    split_ifs with hnext
    · have hdone : watermark + 1 ∈ done := ((h.above _).mp hnext).1
      have h' : Frontier done (watermark + 1) (doneAbove.erase (watermark + 1)) := by
        refine ⟨fun i hpos hi => ?_, fun i => ?_⟩
        · rcases Nat.le_succ_iff.mp hi with hi | rfl
          · exact h.below i hpos hi
          · exact hdone
        · rw [Finset.mem_erase, h.above]
          constructor
          · rintro ⟨hne, hi, hlt⟩
            exact ⟨hi, by omega⟩
          · rintro ⟨hi, hlt⟩
            exact ⟨by omega, hi, by omega⟩
      have hcard : (doneAbove.erase (watermark + 1)).card < fuel := by
        have hpos := Finset.card_pos.mpr ⟨_, hnext⟩
        rw [Finset.card_erase_of_mem hnext]
        omega
      obtain ⟨hfrontier, hgap, hle⟩ := ih h' hcard
      exact ⟨hfrontier, hgap, by omega⟩
    · refine ⟨h, fun hdone => hnext ?_, Nat.le_refl _⟩
      exact (h.above _).mpr ⟨hdone, Nat.lt_succ_self _⟩

theorem Frontier.markDone {inner : AdmissionInner}
    (h : Frontier done inner.watermark inner.doneAbove) (hgap : inner.watermark + 1 ∉ done)
    {index : Nat} (hpos : 1 ≤ index) (hnew : index ∉ done) :
    Frontier (insert index done) (markDoneLocked inner index).watermark
      (markDoneLocked inner index).doneAbove ∧
    (markDoneLocked inner index).watermark + 1 ∉ insert index done ∧
    (index ≠ inner.watermark + 1 → (markDoneLocked inner index).watermark = inner.watermark) := by
  unfold markDoneLocked
  split_ifs with hnext
  · have h' : Frontier (insert index done) index inner.doneAbove := by
      refine ⟨fun i hi hle => ?_, fun i => ?_⟩
      · rw [Finset.mem_insert]
        rcases Nat.lt_or_eq_of_le hle with hlt | heq
        · exact .inr (h.below i hi (by omega))
        · exact .inl heq
      · rw [h.above, Finset.mem_insert]
        constructor
        · rintro ⟨hi, hlt⟩
          refine ⟨.inr hi, ?_⟩
          have hne : i ≠ inner.watermark + 1 := fun heq => hgap (heq ▸ hi)
          omega
        · rintro ⟨rfl | hi, hlt⟩
          · omega
          · exact ⟨hi, by omega⟩
    obtain ⟨hfrontier, hgap', -⟩ := h'.drain (Nat.lt_succ_self _)
    exact ⟨hfrontier, hgap', fun hne => absurd hnext hne⟩
  · have habove : inner.watermark < index := by
      by_contra hle
      exact hnew (h.below index hpos (by omega))
    refine ⟨⟨fun i hi hle => Finset.mem_insert_of_mem (h.below i hi hle), fun i => ?_⟩,
      fun hmem => ?_, fun _ => rfl⟩
    · rw [Finset.mem_insert, Finset.mem_insert, h.above]
      constructor
      · rintro (rfl | ⟨hi, hlt⟩)
        · exact ⟨.inl rfl, habove⟩
        · exact ⟨.inr hi, hlt⟩
      · rintro ⟨rfl | hi, hlt⟩
        · exact .inl rfl
        · exact .inr ⟨hi, hlt⟩
    · rcases Finset.mem_insert.mp hmem with heq | hmem
      · exact hnext heq.symm
      · exact hgap hmem

/-- The watermark is the length of the longest prefix of done indices. -/
theorem Frontier.prefix_iff {watermark : Nat} {doneAbove : Finset Nat}
    (h : Frontier done watermark doneAbove) (hgap : watermark + 1 ∉ done) (n : Nat) :
    (∀ i, 1 ≤ i → i ≤ n → i ∈ done) ↔ n ≤ watermark := by
  constructor
  · intro hall
    by_contra hlt
    exact hgap (hall _ (Nat.succ_le_succ (Nat.zero_le _)) (by omega))
  · exact fun hle i hpos hi => h.below i hpos (hi.trans hle)

/-! ### Enqueueing -/

/-- Some version that was enqueued is at least `version`. -/
def Covers (highest : Option Nat) (version : Nat) : Prop := ∃ v, highest = some v ∧ version ≤ v

theorem covers_raise (highest : Option Nat) (version v : Nat) :
    Covers (raise highest version) v ↔ Covers highest v ∨ v ≤ version := by
  cases highest with
  | none => simp [Covers, raise]
  | some h => simp [Covers, raise]

/-- The loop over a batch: the survivors are numbered in order, their versions are new
    and covered by the new watermark, which does not fall. -/
structure DedupInv (inner : AdmissionInner) (dedup : Dedup α) : Prop where
  indices : dedup.certs.map (fun cert => cert.2.causalIndex) =
    (List.range' inner.nextIndex dedup.certs.length).map some
  nextIndex : dedup.nextIndex = inner.nextIndex + dedup.certs.length
  fresh : ∀ cert ∈ dedup.certs, ∀ v, cert.2.accumulatorVersion = some v →
    ¬ Covers inner.enqueueWatermark v
  covered : ∀ cert ∈ dedup.certs, ∀ v, cert.2.accumulatorVersion = some v →
    Covers dedup.maxVersion v
  kept : ∀ v, Covers inner.enqueueWatermark v → Covers dedup.maxVersion v

theorem DedupInv.assign {inner : AdmissionInner} {dedup : Dedup α} (h : DedupInv inner dedup)
    {maxVersion : Option Nat} {cert : α × ExecutionEnv}
    (hfresh : ∀ v, cert.2.accumulatorVersion = some v → ¬ Covers inner.enqueueWatermark v)
    (hcovered : ∀ v, cert.2.accumulatorVersion = some v → Covers maxVersion v)
    (hkept : ∀ v, Covers dedup.maxVersion v → Covers maxVersion v) :
    DedupInv inner (dedup.assign maxVersion cert) where
  indices := by
    simp only [Dedup.assign, map_append, h.indices, length_append, length_singleton,
      range'_concat, h.nextIndex, map_cons, map_nil, Nat.one_mul]
  nextIndex := by
    simp only [Dedup.assign, h.nextIndex, length_append, length_singleton]
    omega
  fresh := forall_mem_append.mpr ⟨h.fresh, forall_mem_singleton.mpr hfresh⟩
  covered := forall_mem_append.mpr
    ⟨fun c hc v hv => hkept v (h.covered c hc v hv), forall_mem_singleton.mpr hcovered⟩
  kept := fun v hv => hkept v (h.kept v hv)

theorem DedupInv.step {inner : AdmissionInner} {dedup : Dedup α} (h : DedupInv inner dedup)
    (cert : α × ExecutionEnv) :
    DedupInv inner (dedupStep inner.enqueueWatermark dedup cert) := by
  unfold dedupStep
  cases hversion : cert.2.accumulatorVersion with
  | none => exact h.assign (by simp [hversion]) (by simp [hversion]) fun v hv => hv
  | some version =>
    dsimp only
    split_ifs with hold
    · exact h
    · refine h.assign (fun v hv => ?_) (fun v hv => ?_) fun v hv => ?_
      · rw [hversion] at hv
        cases hv
        rintro ⟨highest, hhighest, hle⟩
        exact hold (by simp [hhighest, hle])
      · rw [hversion] at hv
        cases hv
        exact (covers_raise _ _ _).mpr (.inr (Nat.le_refl _))
      · exact (covers_raise _ _ _).mpr (.inl hv)

theorem dedupAndAssign_spec (certs : List (α × ExecutionEnv)) :
    ∃ dedup : Dedup α, DedupInv inner dedup ∧ dedupAndAssign inner certs =
      ({ inner with nextIndex := dedup.nextIndex, enqueueWatermark := dedup.maxVersion },
        dedup.certs) := by
  have hfold : ∀ {dedup : Dedup α}, DedupInv inner dedup →
      DedupInv inner (certs.foldl (dedupStep inner.enqueueWatermark) dedup) := by
    induction certs with
    | nil => exact id
    | cons cert rest ih => exact fun h => ih (h.step cert)
  exact ⟨_, hfold ⟨rfl, rfl, by simp, by simp, fun v hv => hv⟩, rfl⟩

/-! ### Runs -/

/-- An outstanding slot, with the index it was admitted for.  It holds the index until it
    is dropped, also after `skip_retire`. -/
structure Held where
  slot : InFlightSlot
  index : Option Nat

/-- A unit that got an index, and the call that assigned it. -/
structure Assignment where
  call : Nat
  version : Option Nat
  index : Option Nat
deriving DecidableEq

/-- The admission state together with what its users hold, and the history of a run. -/
structure System where
  inner : AdmissionInner := {}
  slots : List Held := []
  retired : Finset Nat := ∅
  assignments : List Assignment := []
  calls : Nat := 0

def Assigned (s : System) (index : Nat) : Prop := ∃ a ∈ s.assignments, a.index = some index

def retire (retired : Finset Nat) : Option Nat → Finset Nat
  | some index => insert index retired
  | none => retired

/-- The calls, in any interleaving.  Only an index that was assigned, is not retired and is
    not held by another slot is admitted. -/
inductive Step (concurrencyLimit : Nat) (s : System) : System → Prop where
  | dedupAndAssign {α : Type} (certs : List (α × ExecutionEnv)) : Step concurrencyLimit s
      { s with
        inner := (CausalAdmission.dedupAndAssign s.inner certs).1
        assignments := s.assignments ++ (CausalAdmission.dedupAndAssign s.inner certs).2.map
          fun cert => ⟨s.calls, cert.2.accumulatorVersion, cert.2.causalIndex⟩
        calls := s.calls + 1 }
  | tryAdmit {index : Nat} {inner : AdmissionInner} {slot : InFlightSlot}
      (assigned : Assigned s index) (unretired : index ∉ s.retired)
      (unheld : ∀ h ∈ s.slots, h.index ≠ some index)
      (run : CausalAdmission.tryAdmit concurrencyLimit s.inner index = some (inner, slot)) :
      Step concurrencyLimit s { s with inner := inner, slots := ⟨slot, some index⟩ :: s.slots }
  | tryTakeSlot {inner : AdmissionInner} {slot : InFlightSlot}
      (run : CausalAdmission.tryTakeSlot concurrencyLimit s.inner = some (inner, slot)) :
      Step concurrencyLimit s { s with inner := inner, slots := ⟨slot, none⟩ :: s.slots }
  | skipRetire {before after : List Held} {held : Held} (slots : s.slots = before ++ held :: after) :
      Step concurrencyLimit s
        { s with slots := before ++ { held with slot := CausalAdmission.skipRetire held.slot } :: after }
  | dropSlot {before after : List Held} {held : Held} (slots : s.slots = before ++ held :: after) :
      Step concurrencyLimit s
        { s with
          inner := CausalAdmission.dropSlot s.inner held.slot
          slots := before ++ after
          retired := retire s.retired held.slot.retireOnDrop }

inductive Reachable (concurrencyLimit : Nat) : System → Prop where
  | init : Reachable concurrencyLimit {}
  | step {s s' : System} (reachable : Reachable concurrencyLimit s)
      (step : Step concurrencyLimit s s') : Reachable concurrencyLimit s'

/-- The slots beyond the limit. -/
def nextSlots (slots : List Held) : Nat := slots.countP fun held => held.slot.isNext

structure Inv (concurrencyLimit : Nat) (s : System) : Prop where
  frontier : Frontier s.retired s.inner.watermark s.inner.doneAbove
  gap : s.inner.watermark + 1 ∉ s.retired
  indices : s.assignments.map Assignment.index = (List.range' 1 s.assignments.length).map some
  nextIndex : s.inner.nextIndex = s.assignments.length + 1
  retired : ∀ i ∈ s.retired, 1 ≤ i ∧ i < s.inner.nextIndex
  inFlight : s.inner.inFlight = s.slots.length
  next : nextSlots s.slots = if s.inner.nextAdmitted then 1 else 0
  limit : s.slots.length ≤ concurrencyLimit + nextSlots s.slots
  held : ∀ h ∈ s.slots, ∀ i, h.index = some i → 1 ≤ i ∧ i < s.inner.nextIndex ∧ i ∉ s.retired
  single : s.slots.Pairwise fun h h' => ∀ i, h.index = some i → h'.index ≠ some i
  retires : ∀ h ∈ s.slots, ∀ i, h.slot.retireOnDrop = some i → h.index = some i
  lowest : ∀ h ∈ s.slots, h.slot.isNext = true → h.index = some (s.inner.watermark + 1)
  covered : ∀ a ∈ s.assignments, ∀ v, a.version = some v → Covers s.inner.enqueueWatermark v
  calls : ∀ a ∈ s.assignments, a.call < s.calls
  groups : ∀ a ∈ s.assignments, ∀ b ∈ s.assignments, ∀ v, a.version = some v →
    b.version = some v → a.call = b.call

theorem inv_init : Inv concurrencyLimit {} where
  frontier := ⟨by simp; omega, by simp⟩
  gap := by simp
  indices := rfl
  nextIndex := rfl
  retired := by simp
  inFlight := rfl
  next := rfl
  limit := by simp
  held := by simp
  single := .nil
  retires := by simp
  lowest := by simp
  covered := by simp
  calls := by simp
  groups := by simp

section Steps

variable {concurrencyLimit : Nat} {s : System}

section

variable (h : Inv concurrencyLimit s)
include h

theorem Inv.assigned_iff {index : Nat} :
    Assigned s index ↔ 1 ≤ index ∧ index < s.inner.nextIndex := by
  have hmem : Assigned s index ↔ some index ∈ s.assignments.map Assignment.index := by
    rw [mem_map, Assigned]
  rw [hmem, h.indices, mem_map, h.nextIndex]
  simp only [Option.some.injEq, exists_eq_right, mem_range'_1]
  omega

theorem Inv.dedupAndAssign (certs : List (α × ExecutionEnv)) :
    Inv concurrencyLimit { s with
      inner := (CausalAdmission.dedupAndAssign s.inner certs).1
      assignments := s.assignments ++ (CausalAdmission.dedupAndAssign s.inner certs).2.map
        fun cert => ⟨s.calls, cert.2.accumulatorVersion, cert.2.causalIndex⟩
      calls := s.calls + 1 } := by
  obtain ⟨dedup, hdedup, hrun⟩ := dedupAndAssign_spec s.inner certs
  rw [hrun]
  have hnext := hdedup.nextIndex
  -- an assignment of this call
  have hnew : ∀ {a : Assignment}, a ∈ s.assignments ++ dedup.certs.map (fun cert =>
      Assignment.mk s.calls cert.2.accumulatorVersion cert.2.causalIndex) →
      a ∈ s.assignments ∨ a.call = s.calls ∧ ∃ cert ∈ dedup.certs,
        cert.2.accumulatorVersion = a.version := by
    intro a ha
    refine (mem_append.mp ha).imp_right fun ha => ?_
    obtain ⟨cert, hcert, rfl⟩ := mem_map.mp ha
    exact ⟨rfl, cert, hcert, rfl⟩
  refine { h with
    indices := ?indices, nextIndex := ?nextIndex, retired := ?retired, held := ?held,
    covered := ?covered, calls := ?calls, groups := ?groups }
  case indices =>
    have hcount : s.inner.nextIndex = 1 + s.assignments.length := by rw [h.nextIndex]; omega
    simp only [map_append, h.indices, map_map, Function.comp_def, hdedup.indices, hcount,
      length_append, length_map]
    rw [← map_append, range'_append_1]
  case nextIndex =>
    simp only [hnext, h.nextIndex, length_append, length_map]
    omega
  case retired =>
    intro i hi
    have hold := h.retired i hi
    dsimp only
    omega
  case held =>
    intro g hg i hi
    obtain ⟨hpos, hlt, hnot⟩ := h.held g hg i hi
    exact ⟨hpos, by dsimp only; omega, hnot⟩
  case covered =>
    intro a ha v hv
    rcases hnew ha with ha | ⟨-, cert, hcert, hversion⟩
    · exact hdedup.kept v (h.covered a ha v hv)
    · exact hdedup.covered cert hcert v (hversion.trans hv)
  case calls =>
    intro a ha
    rcases hnew ha with ha | ⟨hcall, -⟩
    · exact Nat.lt_succ_of_lt (h.calls a ha)
    · rw [hcall]
      exact Nat.lt_succ_self _
  case groups =>
    intro a ha b hb v hav hbv
    -- a version that was enqueued before is not assigned again
    rcases hnew ha with ha | ⟨hcalla, certa, hcerta, hva⟩
    · rcases hnew hb with hb | ⟨-, certb, hcertb, hvb⟩
      · exact h.groups a ha b hb v hav hbv
      · exact absurd (h.covered a ha v hav) (hdedup.fresh certb hcertb v (hvb.trans hbv))
    · rcases hnew hb with hb | ⟨hcallb, -⟩
      · exact absurd (h.covered b hb v hbv) (hdedup.fresh certa hcerta v (hva.trans hav))
      · rw [hcalla, hcallb]

variable {slot : InFlightSlot}

/-- A slot that is taken: it is within the limit, or it is the next in causal order. -/
theorem Inv.take {index : Option Nat} {nextAdmitted : Bool}
    (hheld : ∀ i, index = some i → 1 ≤ i ∧ i < s.inner.nextIndex ∧ i ∉ s.retired)
    (hunheld : ∀ i, index = some i → ∀ g ∈ s.slots, g.index ≠ some i)
    (hretires : ∀ i, slot.retireOnDrop = some i → index = some i)
    (hcase : slot.isNext = false ∧ nextAdmitted = s.inner.nextAdmitted ∧
        s.slots.length < concurrencyLimit ∨
      slot.isNext = true ∧ nextAdmitted = true ∧ s.inner.nextAdmitted = false ∧
        index = some (s.inner.watermark + 1)) :
    Inv concurrencyLimit { s with
      inner := { s.inner with inFlight := s.inner.inFlight + 1, nextAdmitted := nextAdmitted }
      slots := ⟨slot, index⟩ :: s.slots } := by
  have hnext := h.next
  have hlimit := h.limit
  refine { h with
    inFlight := ?inFlight, next := ?next, limit := ?limit, held := ?held, single := ?single,
    retires := ?retires, lowest := ?lowest }
  case inFlight => simp only [h.inFlight, length_cons]
  case next =>
    rcases hcase with ⟨hslot, rfl, -⟩ | ⟨hslot, rfl, hfalse, -⟩
    · simpa [nextSlots, hslot] using hnext
    · simpa [nextSlots, hslot, hfalse] using hnext
  case limit =>
    rcases hcase with ⟨hslot, -, hlt⟩ | ⟨hslot, -, hfalse, -⟩
    · simp only [length_cons]
      omega
    · simp only [nextSlots, countP_cons, hslot, if_true, length_cons] at hlimit ⊢
      omega
  case held =>
    intro g hg i hi
    rcases mem_cons.mp hg with rfl | hg
    · exact hheld i hi
    · exact h.held g hg i hi
  case single =>
    refine pairwise_cons.mpr ⟨fun g hg i hi => hunheld i hi g hg, h.single⟩
  case retires =>
    intro g hg i hi
    rcases mem_cons.mp hg with rfl | hg
    · exact hretires i hi
    · exact h.retires g hg i hi
  case lowest =>
    intro g hg hnextSlot
    rcases mem_cons.mp hg with rfl | hg
    · rcases hcase with ⟨hslot, -⟩ | ⟨-, -, -, hindex⟩
      · rw [hslot] at hnextSlot
        cases hnextSlot
      · exact hindex
    · exact h.lowest g hg hnextSlot

theorem Inv.tryAdmit {index : Nat} {inner : AdmissionInner} (hassigned : Assigned s index)
    (hunretired : index ∉ s.retired) (hunheld : ∀ g ∈ s.slots, g.index ≠ some index)
    (hrun : CausalAdmission.tryAdmit concurrencyLimit s.inner index = some (inner, slot)) :
    Inv concurrencyLimit { s with inner := inner, slots := ⟨slot, some index⟩ :: s.slots } := by
  obtain ⟨hpos, hlt⟩ := h.assigned_iff.mp hassigned
  have hheld : ∀ i, some index = some i → 1 ≤ i ∧ i < s.inner.nextIndex ∧ i ∉ s.retired := by
    rintro i hi
    cases hi
    exact ⟨hpos, hlt, hunretired⟩
  have hunheld' : ∀ i, some index = some i → ∀ g ∈ s.slots, g.index ≠ some i := by
    rintro i hi
    cases hi
    exact hunheld
  unfold CausalAdmission.tryAdmit at hrun
  split_ifs at hrun with hfree hnext
  · cases hrun
    refine h.take hheld hunheld' (fun i hi => hi) (.inl ⟨rfl, rfl, ?_⟩)
    rw [← h.inFlight]
    exact hfree
  · cases hrun
    obtain ⟨rfl, hfalse⟩ := hnext
    exact h.take hheld hunheld' (fun i hi => hi) (.inr ⟨rfl, rfl, by simpa using hfalse, rfl⟩)

theorem Inv.tryTakeSlot {inner : AdmissionInner}
    (hrun : CausalAdmission.tryTakeSlot concurrencyLimit s.inner = some (inner, slot)) :
    Inv concurrencyLimit { s with inner := inner, slots := ⟨slot, none⟩ :: s.slots } := by
  unfold CausalAdmission.tryTakeSlot at hrun
  split_ifs at hrun with hfull
  cases hrun
  refine h.take (by simp) (by simp) (by simp) (.inl ⟨rfl, rfl, ?_⟩)
  rw [← h.inFlight]
  exact Nat.lt_of_not_le hfull

theorem Inv.skipRetire {before after : List Held} {held : Held}
    (hslots : s.slots = before ++ held :: after) :
    Inv concurrencyLimit { s with
      slots := before ++ { held with slot := CausalAdmission.skipRetire held.slot } :: after } := by
  -- only the retirement of one slot is gone
  have hmem : ∀ {g : Held}, g ∈ before ++ { held with
        slot := CausalAdmission.skipRetire held.slot } :: after →
      ∃ g₀ ∈ s.slots, g.index = g₀.index ∧ g.slot.isNext = g₀.slot.isNext ∧
        ∀ i, g.slot.retireOnDrop = some i → g₀.slot.retireOnDrop = some i := by
    intro g hg
    rw [hslots]
    rcases mem_append.mp hg with hg | hg
    · exact ⟨g, mem_append_left _ hg, rfl, rfl, fun i hi => hi⟩
    · rcases mem_cons.mp hg with rfl | hg
      · exact ⟨held, by simp, rfl, rfl, by simp [CausalAdmission.skipRetire]⟩
      · exact ⟨g, by simp [hg], rfl, rfl, fun i hi => hi⟩
  have hlength : (before ++ { held with
      slot := CausalAdmission.skipRetire held.slot } :: after).length = s.slots.length := by
    rw [hslots]
    simp
  have hcount : nextSlots (before ++ { held with
      slot := CausalAdmission.skipRetire held.slot } :: after) = nextSlots s.slots := by
    rw [hslots]
    simp [nextSlots, CausalAdmission.skipRetire, countP_cons]
  have hsingle := h.single
  rw [hslots] at hsingle
  refine { h with
    inFlight := h.inFlight.trans hlength.symm, next := hcount.trans h.next,
    limit := hlength.le.trans (h.limit.trans (by rw [hcount])), held := ?held, single := ?single,
    retires := ?retires, lowest := ?lowest }
  case held =>
    intro g hg i hi
    obtain ⟨g₀, hg₀, hindex, -⟩ := hmem hg
    exact h.held g₀ hg₀ i (hindex ▸ hi)
  case single =>
    rw [pairwise_append, pairwise_cons] at hsingle ⊢
    obtain ⟨hbefore, ⟨hfirst, hafter⟩, hcross⟩ := hsingle
    refine ⟨hbefore, ⟨hfirst, hafter⟩, fun g hg g' hg' => ?_⟩
    rcases mem_cons.mp hg' with rfl | hg'
    · exact hcross g hg held (.head _)
    · exact hcross g hg g' (.tail held hg')
  case retires =>
    intro g hg i hi
    obtain ⟨g₀, hg₀, hindex, -, hretire⟩ := hmem hg
    exact hindex.trans (h.retires g₀ hg₀ i (hretire i hi))
  case lowest =>
    intro g hg hnext
    obtain ⟨g₀, hg₀, hindex, hisNext, -⟩ := hmem hg
    exact hindex.trans (h.lowest g₀ hg₀ (hisNext ▸ hnext))

end

theorem dropSlot_fields (inner : AdmissionInner) (slot : InFlightSlot) :
    (CausalAdmission.dropSlot inner slot).inFlight = inner.inFlight - 1 ∧
    (CausalAdmission.dropSlot inner slot).nextAdmitted =
      (if slot.isNext then false else inner.nextAdmitted) ∧
    (CausalAdmission.dropSlot inner slot).nextIndex = inner.nextIndex ∧
    (CausalAdmission.dropSlot inner slot).enqueueWatermark = inner.enqueueWatermark := by
  unfold CausalAdmission.dropSlot
  cases slot.retireOnDrop with
  | none => exact ⟨rfl, rfl, rfl, rfl⟩
  | some index =>
    dsimp only
    unfold markDoneLocked
    split_ifs <;> exact ⟨rfl, rfl, rfl, rfl⟩

theorem dropSlot_frontier {done : Finset Nat} {inner : AdmissionInner} {slot : InFlightSlot}
    (h : Frontier done inner.watermark inner.doneAbove) (hgap : inner.watermark + 1 ∉ done)
    (hnew : ∀ i, slot.retireOnDrop = some i → 1 ≤ i ∧ i ∉ done) :
    Frontier (retire done slot.retireOnDrop) (CausalAdmission.dropSlot inner slot).watermark
      (CausalAdmission.dropSlot inner slot).doneAbove ∧
    (CausalAdmission.dropSlot inner slot).watermark + 1 ∉ retire done slot.retireOnDrop ∧
    (slot.retireOnDrop ≠ some (inner.watermark + 1) →
      (CausalAdmission.dropSlot inner slot).watermark = inner.watermark) := by
  unfold CausalAdmission.dropSlot
  cases hretire : slot.retireOnDrop with
  | none => exact ⟨h, hgap, fun _ => rfl⟩
  | some index =>
    obtain ⟨hpos, hnot⟩ := hnew index hretire
    obtain ⟨hfrontier, hgap', hsame⟩ := @Frontier.markDone done
      { inner with
        inFlight := inner.inFlight - 1
        nextAdmitted := if slot.isNext then false else inner.nextAdmitted }
      h hgap index hpos hnot
    exact ⟨hfrontier, hgap', fun hne => hsame fun heq => hne (congrArg some heq)⟩

theorem Inv.dropSlot (h : Inv concurrencyLimit s) {before after : List Held} {held : Held}
    (hslots : s.slots = before ++ held :: after) :
    Inv concurrencyLimit { s with
      inner := CausalAdmission.dropSlot s.inner held.slot
      slots := before ++ after
      retired := retire s.retired held.slot.retireOnDrop } := by
  have hperm : s.slots.Perm (held :: (before ++ after)) := by
    rw [hslots]
    exact perm_middle
  have hheld : held ∈ s.slots := hperm.mem_iff.mpr (.head _)
  have hrest : ∀ {g}, g ∈ before ++ after → g ∈ s.slots := fun hg =>
    hperm.mem_iff.mpr (.tail held hg)
  have hlength : s.slots.length = (before ++ after).length + 1 := by
    rw [hperm.length_eq, length_cons]
  have hcount : nextSlots s.slots =
      nextSlots (before ++ after) + if held.slot.isNext then 1 else 0 := by
    unfold nextSlots
    rw [hperm.countP_eq, countP_cons]
  obtain ⟨hfirst, hpairwise⟩ := pairwise_cons.mp
    ((hperm.pairwise_iff fun {g g'} hgg i hi hi' => hgg i hi' hi).mp h.single)
  -- the index of the dropped slot is nobody else's
  have hother : ∀ i, held.slot.retireOnDrop = some i → ∀ g ∈ before ++ after,
      g.index ≠ some i := fun i hi g hg => hfirst g hg i (h.retires held hheld i hi)
  have hretired : ∀ i, i ∈ retire s.retired held.slot.retireOnDrop ↔
      i ∈ s.retired ∨ held.slot.retireOnDrop = some i := by
    intro i
    cases held.slot.retireOnDrop with
    | none => simp [retire]
    | some index =>
      rw [retire, Finset.mem_insert, Option.some.injEq, or_comm, eq_comm]
  obtain ⟨hinFlight, hnextAdmitted, hnextIndex, hwatermark⟩ := dropSlot_fields s.inner held.slot
  obtain ⟨hfrontier, hgap, hsame⟩ := @dropSlot_frontier s.retired s.inner held.slot h.frontier h.gap
    (fun i hi => by
      obtain ⟨hpos, -, hnot⟩ := h.held held hheld i (h.retires held hheld i hi)
      exact ⟨hpos, hnot⟩)
  have hnext := h.next
  have hlimit := h.limit
  constructor
  case frontier => exact hfrontier
  case gap => exact hgap
  case indices => exact h.indices
  case nextIndex => exact hnextIndex.trans h.nextIndex
  case retired =>
    intro i hi
    dsimp only
    rw [hnextIndex]
    rcases (hretired i).mp hi with hi | hi
    · exact h.retired i hi
    · obtain ⟨hpos, hlt, -⟩ := h.held held hheld i (h.retires held hheld i hi)
      exact ⟨hpos, hlt⟩
  case inFlight =>
    dsimp only
    rw [hinFlight, h.inFlight, hlength, Nat.add_sub_cancel]
  case next =>
    dsimp only
    rw [hnextAdmitted]
    cases hslot : held.slot.isNext with
    | false => simpa [hslot, hcount] using hnext
    | true =>
      rw [hcount, hslot] at hnext
      simp only [if_true, if_false, Bool.false_eq_true] at hnext ⊢
      split_ifs at hnext
      · omega
  case limit =>
    dsimp only
    cases hslot : held.slot.isNext with
    | false =>
      simp only [hslot, Bool.false_eq_true, if_false] at hcount
      omega
    | true =>
      simp only [hslot, if_true] at hcount
      omega
  case held =>
    intro g hg i hi
    obtain ⟨hpos, hlt, hnot⟩ := h.held g (hrest hg) i hi
    refine ⟨hpos, by dsimp only; rw [hnextIndex]; exact hlt, fun hin => ?_⟩
    rcases (hretired i).mp hin with hin | hin
    · exact hnot hin
    · exact hother i hin g hg hi
  case single => exact hpairwise
  case retires => exact fun g hg => h.retires g (hrest hg)
  case lowest =>
    intro g hg hisNext
    have hindex := h.lowest g (hrest hg) hisNext
    dsimp only
    rw [hsame fun heq => hother _ heq g hg hindex]
    exact hindex
  case covered =>
    dsimp only
    rw [hwatermark]
    exact h.covered
  case calls => exact h.calls
  case groups => exact h.groups

theorem Reachable.inv (h : Reachable concurrencyLimit s) : Inv concurrencyLimit s := by
  induction h with
  | init => exact inv_init concurrencyLimit
  | step _ step ih =>
    cases step with
    | dedupAndAssign certs => exact ih.dedupAndAssign certs
    | tryAdmit assigned unretired unheld run => exact ih.tryAdmit assigned unretired unheld run
    | tryTakeSlot run => exact ih.tryTakeSlot run
    | skipRetire slots => exact ih.skipRetire slots
    | dropSlot slots => exact ih.dropSlot slots

end Steps

end CausalAdmission

end Haneul.Execution
