import Mathlib

/-!
# The weighted moving average of execution times

A window of at most `maxSize` samples.  A full window first gives up the samples at its
front over which enough weight has passed; if it is still full, the new sample takes the
place of the first lighter one or is dropped.  The sums are `u64` in the source and are
taken not to overflow; a subtraction below zero and a division by zero are panics.

The average divides by the weight held, and a gasless transaction has weight zero.  The
window never gives up its last sample of positive weight, so the division fails exactly
on the streams in which every sample weighs nothing.
-/

namespace Haneul.Authority

open List

inductive AveragePanic where
  | underflow
  | divisionByZero
deriving DecidableEq, Repr

structure Sample where
  value : Nat
  weight : Nat
  /-- The cumulative weight at insertion time. -/
  insertionTotal : Nat
deriving DecidableEq, Repr

structure WeightedMovingAverage where
  /-- The samples held, the oldest first. -/
  queue : List Sample
  /-- The cumulative weight of all the samples added, held or not. -/
  totalWeight : Nat
  maxSize : Nat
  default : Nat
deriving DecidableEq, Repr

namespace WeightedMovingAverage

def new (default maxSize : Nat) : WeightedMovingAverage :=
  { queue := [], totalWeight := 0, maxSize, default }

/-- Whether the sample at the front is old enough to be popped. -/
def tryEvictOldestSample (maxSize totalWeight : Nat) (oldSample : Sample) :
    Except AveragePanic Bool :=
  if totalWeight < oldSample.insertionTotal then
    .error .underflow
  else
    .ok (oldSample.weight * maxSize ≤ totalWeight - oldSample.insertionTotal)

/-- The loop of `add_sample` over a queue: it ends when the queue is not full, is empty, or
has a front that is not old enough. -/
def evictOldSamples (maxSize totalWeight : Nat) : List Sample → Except AveragePanic (List Sample)
  | [] => .ok []
  | oldSample :: queue =>
    if maxSize ≤ queue.length + 1 then do
      if ← tryEvictOldestSample maxSize totalWeight oldSample then
        evictOldSamples maxSize totalWeight queue
      else
        return oldSample :: queue
    else
      .ok (oldSample :: queue)

/-- What becomes of the new sample once the old ones are gone. -/
def placeSample (maxSize : Nat) (queue : List Sample) (sample : Sample) : List Sample :=
  if maxSize ≤ queue.length then
    match queue.findIdx? fun s => s.weight < sample.weight with
    | some minIdx => queue.eraseIdx minIdx ++ [sample]
    | none => queue
  else
    queue ++ [sample]

def addSample (self : WeightedMovingAverage) (value weight : Nat) :
    Except AveragePanic WeightedMovingAverage := do
  let totalWeight := self.totalWeight + weight
  let queue ← evictOldSamples self.maxSize totalWeight self.queue
  let queue := placeSample self.maxSize queue ⟨value, weight, totalWeight⟩
  return { self with queue, totalWeight }

def addSamples (self : WeightedMovingAverage) (samples : List (Nat × Nat)) :
    Except AveragePanic WeightedMovingAverage :=
  samples.foldlM (fun self sample => self.addSample sample.1 sample.2) self

def getWeightedAverage (self : WeightedMovingAverage) : Except AveragePanic Nat :=
  if self.queue.isEmpty then
    .ok self.default
  else
    let (weightedSum, totalW) := self.queue.foldl
      (fun (sum, wSum) s => (sum + s.value * s.weight, wSum + s.weight)) (0, 0)
    if totalW = 0 then .error .divisionByZero else .ok (weightedSum / totalW)

end WeightedMovingAverage

open WeightedMovingAverage

/-! ### The window -/

section Window

variable {maxSize totalWeight : Nat} {queue : List Sample} {sample : Sample}

/-- The sample is not old enough to be evicted; in particular it has positive weight. -/
def Sample.Young (maxSize totalWeight : Nat) (s : Sample) : Prop :=
  totalWeight - s.insertionTotal < s.weight * maxSize

theorem Sample.Young.weight_pos (h : sample.Young maxSize totalWeight) : 0 < sample.weight :=
  Nat.pos_of_mul_pos_right (Nat.zero_lt_of_lt h)

theorem evictOldSamples_young (hle : sample.insertionTotal ≤ totalWeight)
    (h : sample.Young maxSize totalWeight) :
    evictOldSamples maxSize totalWeight (sample :: queue) = .ok (sample :: queue) := by
  have hstay : tryEvictOldestSample maxSize totalWeight sample = .ok false := by
    simp [tryEvictOldestSample, not_lt.mpr hle, not_le.mpr h]
  unfold evictOldSamples
  split
  · rw [hstay]
    rfl
  · rfl

/-- The loop pops a part of the front in which no sample is young. -/
theorem evictOldSamples_spec (hmax : 0 < maxSize)
    (hle : ∀ s ∈ queue, s.insertionTotal ≤ totalWeight) :
    ∃ kept, evictOldSamples maxSize totalWeight queue = .ok kept ∧ kept <:+ queue ∧
      (∀ s ∈ queue, s.Young maxSize totalWeight → s ∈ kept) ∧
      (maxSize ≤ kept.length → ∃ front ∈ kept.head?, front.Young maxSize totalWeight) := by
  induction queue with
  | nil =>
    refine ⟨[], rfl, suffix_rfl, fun s hs _ => hs, ?_⟩
    intro hfull
    exact absurd hfull (not_le.mpr hmax)
  | cons s queue ih =>
    obtain ⟨hs, hrest⟩ := forall_mem_cons.mp hle
    by_cases hyoung : s.Young maxSize totalWeight
    · exact ⟨s :: queue, evictOldSamples_young hs hyoung, suffix_rfl, fun t ht _ => ht,
        fun _ => ⟨s, rfl, hyoung⟩⟩
    by_cases hfull : maxSize ≤ queue.length + 1
    · obtain ⟨kept, hkept, hsuffix, hmem, hfront⟩ := ih hrest
      have hpop : tryEvictOldestSample maxSize totalWeight s = .ok true := by
        simp [tryEvictOldestSample, not_lt.mpr hs, not_lt.mp hyoung]
      refine ⟨kept, ?_, hsuffix.trans (suffix_cons s queue), ?_, hfront⟩
      · rw [evictOldSamples, if_pos hfull, hpop]
        exact hkept
      · rintro t (_ | ⟨_, ht⟩) htyoung
        · exact absurd htyoung hyoung
        · exact hmem t ht htyoung
    · refine ⟨s :: queue, ?_, suffix_rfl, fun t ht _ => ht, fun h => absurd h hfull⟩
      rw [evictOldSamples, if_neg hfull]

/-- The new sample is dropped by a full window, or put behind what is left of it. -/
theorem placeSample_cases (hmax : 0 < maxSize) (hlen : queue.length ≤ maxSize) :
    (maxSize ≤ queue.length ∧ placeSample maxSize queue sample = queue) ∨
      ∃ left, placeSample maxSize queue sample = left ++ [sample] ∧ left.length < maxSize ∧
        left <+ queue ∧ (left = queue ∧ queue.length < maxSize ∨ 0 < sample.weight) := by
  unfold placeSample
  split
  case isTrue hfull =>
    split
    case h_1 minIdx hfind =>
      obtain ⟨hlt, hlighter, -⟩ := findIdx?_eq_some_iff_getElem.mp hfind
      refine Or.inr ⟨queue.eraseIdx minIdx, rfl, ?_, eraseIdx_sublist queue minIdx, Or.inr ?_⟩
      · rw [length_eraseIdx_of_lt hlt]
        omega
      · exact Nat.zero_lt_of_lt (of_decide_eq_true hlighter)
    case h_2 => exact Or.inl ⟨hfull, rfl⟩
  case isFalse hroom =>
    have hroom : queue.length < maxSize := not_le.mp hroom
    exact Or.inr ⟨queue, rfl, hroom, Sublist.refl queue, Or.inl ⟨rfl, hroom⟩⟩

end Window

/-! ### What every addition keeps -/

section Steps

variable {self : WeightedMovingAverage} {samples : List (Nat × Nat)} {value weight : Nat}

/-- As long as some weight was added, some weight is held: by the last sample that added
any, or by the front of a full window. -/
def WeightedMovingAverage.Live (self : WeightedMovingAverage) : Prop :=
  self.totalWeight = 0 ∨
    (∃ s ∈ self.queue, 0 < s.weight ∧ s.insertionTotal = self.totalWeight) ∨
    (self.maxSize ≤ self.queue.length ∧
      ∃ front ∈ self.queue.head?, front.Young self.maxSize self.totalWeight)

/-- What holds of the window after the samples of a stream. -/
structure WindowOf (default maxSize : Nat) (samples : List (Nat × Nat))
    (window : WeightedMovingAverage) : Prop where
  default_eq : window.default = default
  maxSize_eq : window.maxSize = maxSize
  total : window.totalWeight = (samples.map Prod.snd).sum
  inserted : ∀ s ∈ window.queue, s.insertionTotal ≤ window.totalWeight
  length_le : window.queue.length ≤ window.maxSize
  held : window.queue.map (fun s => (s.value, s.weight)) <+ samples
  empty : window.queue = [] → samples = []
  live : window.Live

theorem windowOf_new (default maxSize : Nat) :
    WindowOf default maxSize [] (new default maxSize) where
  default_eq := rfl
  maxSize_eq := rfl
  total := rfl
  inserted := forall_mem_nil _
  length_le := Nat.zero_le maxSize
  held := Sublist.refl []
  empty := fun _ => rfl
  live := Or.inl rfl

/-- The samples evicted for a sample without weight are not what keeps the window live. -/
theorem live_of_weightless {kept : List Sample} (hmax : 0 < self.maxSize)
    (hlive : self.Live) (hle : ∀ s ∈ self.queue, s.insertionTotal ≤ self.totalWeight)
    (hkept : evictOldSamples self.maxSize self.totalWeight self.queue = .ok kept)
    (hmem : ∀ s ∈ self.queue, s.Young self.maxSize self.totalWeight → s ∈ kept)
    (hroom : kept.length < self.maxSize) :
    self.totalWeight = 0 ∨ ∃ s ∈ kept, 0 < s.weight ∧ s.insertionTotal = self.totalWeight := by
  rcases hlive with hzero | ⟨s, hs, hpos, hlast⟩ | ⟨hfull, front, hfront, hyoung⟩
  · exact Or.inl hzero
  · refine Or.inr ⟨s, hmem s hs ?_, hpos, hlast⟩
    rw [Sample.Young, hlast, Nat.sub_self]
    exact Nat.mul_pos hpos hmax
  · -- a young front stops the loop at once, so the window would still be full
    obtain ⟨queue, hqueue⟩ := head?_eq_some_iff.mp hfront
    have hfrontLe := hle front (mem_of_mem_head? hfront)
    rw [hqueue, evictOldSamples_young hfrontLe hyoung, ← hqueue] at hkept
    cases hkept
    exact absurd hfull (not_le.mpr hroom)

theorem WindowOf.addSample {default maxSize : Nat} (h : WindowOf default maxSize samples self)
    (hmax : 0 < maxSize) (value weight : Nat) :
    ∃ next, self.addSample value weight = .ok next ∧
      WindowOf default maxSize (samples ++ [(value, weight)]) next := by
  have hmax : 0 < self.maxSize := h.maxSize_eq ▸ hmax
  have hgrow : self.totalWeight ≤ self.totalWeight + weight := Nat.le_add_right _ _
  have hle : ∀ s ∈ self.queue, s.insertionTotal ≤ self.totalWeight + weight :=
    fun s hs => (h.inserted s hs).trans hgrow
  have htotal : self.totalWeight + weight = ((samples ++ [(value, weight)]).map Prod.snd).sum := by
    rw [h.total]
    simp
  obtain ⟨kept, hkept, hsuffix, hmem, hfront⟩ := evictOldSamples_spec hmax hle
  have hheld := (hsuffix.sublist.map fun s => (s.value, s.weight)).trans h.held
  refine ⟨_, by rw [WeightedMovingAverage.addSample, hkept]; rfl, ?_⟩
  rcases @placeSample_cases self.maxSize kept ⟨value, weight, self.totalWeight + weight⟩ hmax
      (hsuffix.length_le.trans h.length_le) with
    ⟨hfull, hdrop⟩ | ⟨left, hpush, hroom, hleft, hcase⟩
  · rw [hdrop]
    refine ⟨h.default_eq, h.maxSize_eq, htotal, fun s hs => hle s (hsuffix.subset hs),
      hsuffix.length_le.trans h.length_le, hheld.trans (sublist_append_left _ _), ?_,
      Or.inr (Or.inr ⟨hfull, hfront hfull⟩)⟩
    rintro (hempty : kept = [])
    rw [hempty] at hfull
    exact absurd hfull (not_le.mpr hmax)
  · rw [hpush]
    refine ⟨h.default_eq, h.maxSize_eq, htotal, ?_, ?_, ?_, ?_, ?_⟩
    · rintro s hs
      rcases mem_append.mp hs with hs | hs
      · exact hle s (hsuffix.subset (hleft.subset hs))
      · cases mem_singleton.mp hs
        exact Nat.le_refl _
    · simpa using hroom
    · rw [map_append]
      exact ((hleft.map _).trans hheld).append (Sublist.refl _)
    · intro hempty
      simp at hempty
    · rcases Nat.eq_zero_or_pos weight with rfl | hpos
      · rcases hcase with ⟨rfl, hkeptRoom⟩ | habsurd
        · rcases live_of_weightless hmax h.live h.inserted hkept hmem hkeptRoom with
            hzero | ⟨s, hs, hlive⟩
          · exact Or.inl hzero
          · exact Or.inr (Or.inl ⟨s, mem_append_left _ hs, hlive⟩)
        · exact absurd habsurd (Nat.lt_irrefl 0)
      · exact Or.inr (Or.inl ⟨_, mem_concat_self, hpos, rfl⟩)

theorem addSamples_windowOf (default maxSize : Nat) (hmax : 0 < maxSize)
    (samples : List (Nat × Nat)) :
    ∃ self, (new default maxSize).addSamples samples = .ok self ∧
      WindowOf default maxSize samples self := by
  induction samples using List.reverseRecOn with
  | nil => exact ⟨_, rfl, windowOf_new default maxSize⟩
  | append_singleton samples sample ih =>
    obtain ⟨self, hrun, hself⟩ := ih
    obtain ⟨next, hadd, hnext⟩ := hself.addSample hmax sample.1 sample.2
    refine ⟨next, ?_, hnext⟩
    rw [addSamples, foldlM_append]
    change (addSamples _ samples >>= _) = _
    rw [hrun]
    change (self.addSample sample.1 sample.2 >>= pure) = _
    rw [hadd]
    rfl

end Steps

/-! ### The average -/

section Average

variable {self : WeightedMovingAverage} {queue : List Sample} {average : Nat}

theorem foldl_weightedSum (queue : List Sample) (acc : Nat × Nat) :
    queue.foldl (fun (sum, wSum) s => (sum + s.value * s.weight, wSum + s.weight)) acc =
      (acc.1 + (queue.map fun s => s.value * s.weight).sum,
        acc.2 + (queue.map Sample.weight).sum) := by
  induction queue generalizing acc with
  | nil => simp
  | cons s queue ih => simp [ih, Nat.add_assoc]

theorem getWeightedAverage_eq (hne : self.queue ≠ []) :
    self.getWeightedAverage =
      if (self.queue.map Sample.weight).sum = 0 then .error .divisionByZero
      else .ok ((self.queue.map fun s => s.value * s.weight).sum /
        (self.queue.map Sample.weight).sum) := by
  simp [getWeightedAverage, foldl_weightedSum, hne]

theorem weightedMean_between (hpos : (queue.map Sample.weight).sum ≠ 0)
    (hmean : average = (queue.map fun s => s.value * s.weight).sum /
      (queue.map Sample.weight).sum) :
    (∃ s ∈ queue, s.value ≤ average) ∧ ∃ s ∈ queue, average ≤ s.value := by
  have hpos := Nat.pos_of_ne_zero hpos
  constructor
  · by_contra! habove
    have hsum : (average + 1) * (queue.map Sample.weight).sum ≤
        (queue.map fun s => s.value * s.weight).sum := by
      rw [← sum_map_mul_left]
      exact sum_le_sum fun s hs => Nat.mul_le_mul_right s.weight (habove s hs)
    have := (Nat.le_div_iff_mul_le hpos).mpr hsum
    omega
  · by_contra! hbelow
    have hsum : (queue.map fun s => s.value * s.weight).sum ≤
        (average - 1) * (queue.map Sample.weight).sum := by
      rw [← sum_map_mul_left]
      exact sum_le_sum fun s hs => Nat.mul_le_mul_right s.weight (Nat.le_sub_one_of_lt (hbelow s hs))
    have hle : average ≤ average - 1 :=
      hmean.trans_le (Nat.div_le_of_le_mul (Nat.mul_comm _ _ ▸ hsum))
    obtain ⟨s, hs⟩ := exists_mem_of_ne_nil queue (by rintro rfl; simp at hpos)
    have := hbelow s hs
    omega

theorem WindowOf.weight_ne_zero {default maxSize : Nat} {samples : List (Nat × Nat)}
    (h : WindowOf default maxSize samples self) :
    (self.queue.map Sample.weight).sum ≠ 0 ↔ ∃ sample ∈ samples, 0 < sample.2 := by
  have hpos : (self.queue.map Sample.weight).sum ≠ 0 ↔ ∃ s ∈ self.queue, 0 < s.weight := by
    simp [sum_eq_zero_iff, Nat.pos_iff_ne_zero]
  rw [hpos]
  constructor
  · rintro ⟨s, hs, hweight⟩
    exact ⟨_, h.held.subset (mem_map_of_mem hs), hweight⟩
  · rintro ⟨sample, hsample, hweight⟩
    have hle : sample.2 ≤ self.totalWeight := by
      rw [h.total]
      exact List.single_le_sum (fun _ _ => Nat.zero_le _) _ (mem_map_of_mem hsample)
    rcases h.live with hzero | ⟨s, hs, hpos, -⟩ | ⟨-, front, hfront, hyoung⟩
    · omega
    · exact ⟨s, hs, hpos⟩
    · exact ⟨front, mem_of_mem_head? hfront, hyoung.weight_pos⟩

end Average

/-- After every stream of samples the window holds at most `maxSize` of them, in the order
of their insertion.  The average panics exactly when there were samples and none had any
weight; otherwise it is the default of an empty window or lies between two values held. -/
theorem weighted_average_panics_iff_weightless (default : Nat) (maxSize : ℕ+)
    (samples : List (Nat × Nat)) :
    ∃ self, (new default maxSize).addSamples samples = .ok self ∧
      self.queue.length ≤ maxSize ∧
      self.queue.map (fun s => (s.value, s.weight)) <+ samples ∧
      (self.getWeightedAverage = .error .divisionByZero ↔
        samples ≠ [] ∧ ∀ sample ∈ samples, sample.2 = 0) ∧
      (self.getWeightedAverage ≠ .error .divisionByZero →
        ∃ average, self.getWeightedAverage = .ok average ∧
          (self.queue = [] ∧ average = default ∨
            (∃ s ∈ self.queue, s.value ≤ average) ∧ ∃ s ∈ self.queue, average ≤ s.value)) := by
  obtain ⟨self, hrun, hself⟩ := addSamples_windowOf default maxSize maxSize.pos samples
  refine ⟨self, hrun, hself.length_le.trans_eq hself.maxSize_eq, hself.held, ?_⟩
  by_cases hempty : self.queue = []
  · have havg : self.getWeightedAverage = .ok default := by
      rw [getWeightedAverage, hempty, hself.default_eq]
      rfl
    rw [havg]
    exact ⟨by simp [hself.empty hempty], fun _ => ⟨default, rfl, Or.inl ⟨hempty, rfl⟩⟩⟩
  have hsamples : samples ≠ [] := by
    rintro rfl
    exact hempty (map_eq_nil_iff.mp (sublist_nil.mp hself.held))
  have hweight : (self.queue.map Sample.weight).sum = 0 ↔ ∀ sample ∈ samples, sample.2 = 0 := by
    rw [← not_iff_not, ← ne_eq, hself.weight_ne_zero]
    simp [Nat.pos_iff_ne_zero]
  rw [getWeightedAverage_eq hempty]
  split
  case isTrue hzero => simpa [hsamples] using hweight.mp hzero
  case isFalse hpos =>
    refine ⟨?_, fun _ => ⟨_, rfl, Or.inr (weightedMean_between hpos rfl)⟩⟩
    rw [← hweight]
    simp [hpos]

/-- A gasless transaction is the first to be recorded: its only sample has no weight. -/
theorem weighted_average_panics_gasless :
    ((new 0 20).addSamples [(5, 0)] >>= getWeightedAverage) = .error .divisionByZero := by
  decide

end Haneul.Authority
