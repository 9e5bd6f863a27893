import Mathlib

/-!
# The compressed stack of the bytecode verifier

`AbstractStack` keeps runs of equal values with their counts. `pop_eq_n` compares counts only: that
the values under a run differ from it is what makes the comparison right. The stack is shown to
refine a plain list, on which the operations are what their names say.
-/

namespace Haneul.Verifier

open List

inductive AbsStackError where
  | elementNotEqual
  | underflow
  | overflow
deriving DecidableEq

/-- The runs, the last of the source's vector first, and the length they stand for. -/
structure AbstractStack (α : Type*) where
  values : List (Nat × α)
  len : Nat

def u64Max : Nat := 2 ^ 64 - 1

variable {α β γ : Type*} {stack : AbstractStack α} {values : List (Nat × α)} {count n : Nat}
  {last : α}

abbrev Outcome (α β : Type*) := Option (Except AbsStackError β × AbstractStack α)

namespace AbstractStack

def new : AbstractStack α := ⟨[], 0⟩

def pushN [DecidableEq α] (item : α) (n : Nat) (stack : AbstractStack α) : Outcome α Unit :=
  if n = 0 then some (.ok (), stack)
  else if u64Max < stack.len + n then some (.error .overflow, stack)
  else match stack.values with
    | [] => some (.ok (), ⟨[(n, item)], stack.len + n⟩)
    | (count, last) :: rest =>
      if item = last then
        -- the count of the run is added to without a check
        if u64Max < count + n then none
        else some (.ok (), ⟨(count + n, last) :: rest, stack.len + n⟩)
      else some (.ok (), ⟨(n, item) :: (count, last) :: rest, stack.len + n⟩)

def push [DecidableEq α] (item : α) (stack : AbstractStack α) : Outcome α Unit := pushN item 1 stack

def popEqN (n : ℕ+) (stack : AbstractStack α) : Outcome α α :=
  if stack.values.isEmpty || stack.len < n then some (.error .underflow, stack)
  else match stack.values with
    | [] => none
    | (count, last) :: rest =>
      if count < n then some (.error .elementNotEqual, stack)
      else if count = n then some (.ok last, ⟨rest, stack.len - n⟩)
      else some (.ok last, ⟨(count - n, last) :: rest, stack.len - n⟩)

def pop (stack : AbstractStack α) : Outcome α α := popEqN 1 stack

/-- The loop of `pop_any_n`: whole runs go while they fit in what is left to pop. -/
def popRuns : List (Nat × α) → Nat → Option (List (Nat × α))
  | values, 0 => some values
  | [], _ + 1 => none
  | (count, last) :: rest, rem + 1 =>
    if count ≤ rem + 1 then popRuns rest (rem + 1 - count)
    else some ((count - (rem + 1), last) :: rest)

def popAnyN (n : ℕ+) (stack : AbstractStack α) : Outcome α Unit :=
  if stack.values.isEmpty || stack.len < n then some (.error .underflow, stack)
  else (popRuns stack.values n).map fun values => (.ok (), ⟨values, stack.len - n⟩)

end AbstractStack

/-! ### The plain stack -/

namespace PlainStack

def pushN (item : α) (n : Nat) (content : List α) : Except AbsStackError Unit × List α :=
  if u64Max < content.length + n then (.error .overflow, content)
  else (.ok (), replicate n item ++ content)

def popEqN [DecidableEq α] (n : ℕ+) (content : List α) : Except AbsStackError α × List α :=
  if content.length < n then (.error .underflow, content)
  else match content.head? with
    | none => (.error .underflow, content)
    | some top =>
      if ∀ item ∈ content.take n, item = top then (.ok top, content.drop n)
      else (.error .elementNotEqual, content)

def popAnyN (n : ℕ+) (content : List α) : Except AbsStackError Unit × List α :=
  if content.length < n then (.error .underflow, content) else (.ok (), content.drop n)

end PlainStack

inductive StackOp (α : Type*) where
  | push (item : α)
  | pushN (item : α) (n : Nat)
  | pop
  | popEqN (n : ℕ+)
  | popAnyN (n : ℕ+)

namespace StackOp

/-- Forgets which of the operations return a value. -/
def returned
    (f : β → Option α) : Except AbsStackError β × γ → Except AbsStackError (Option α) × γ :=
  Prod.map (Except.map f) id

variable [DecidableEq α]

def apply : StackOp α → AbstractStack α → Outcome α (Option α)
  | push item, stack => (stack.push item).map (returned fun _ => none)
  | pushN item n, stack => (stack.pushN item n).map (returned fun _ => none)
  | pop, stack => stack.pop.map (returned some)
  | popEqN n, stack => (stack.popEqN n).map (returned some)
  | popAnyN n, stack => (stack.popAnyN n).map (returned fun _ => none)

def applyPlain : StackOp α → List α → Except AbsStackError (Option α) × List α
  | push item, content => returned (fun _ => none) (PlainStack.pushN item 1 content)
  | pushN item n, content => returned (fun _ => none) (PlainStack.pushN item n content)
  | pop, content => returned some (PlainStack.popEqN 1 content)
  | popEqN n, content => returned some (PlainStack.popEqN n content)
  | popAnyN n, content => returned (fun _ => none) (PlainStack.popAnyN n content)

def run : List (StackOp α) → AbstractStack α →
    Option (List (Except AbsStackError (Option α)) × AbstractStack α)
  | [], stack => some ([], stack)
  | op :: ops, stack => do
    let (result, stack) ← op.apply stack
    let (results, stack) ← run ops stack
    return (result :: results, stack)

def runPlain : List (StackOp α) → List α → List (Except AbsStackError (Option α)) × List α
  | [], content => ([], content)
  | op :: ops, content =>
    let (results, content') := runPlain ops (op.applyPlain content).2
    ((op.applyPlain content).1 :: results, content')

end StackOp

/-! ### Refinement -/

def expand (values : List (Nat × α)) : List α := values.flatMap fun run => replicate run.1 run.2

/-- Runs are not empty, and neighbours hold different values. -/
structure Separated (values : List (Nat × α)) : Prop where
  positive : ∀ run ∈ values, 0 < run.1
  differ : values.IsChain fun run next => run.2 ≠ next.2

structure AbstractStack.Inv (stack : AbstractStack α) : Prop where
  runs : Separated stack.values
  sum : (stack.values.map Prod.fst).sum = stack.len
  bound : stack.len ≤ u64Max

/-- The call returns what the plain stack's does, and the runs it leaves stand for its content. -/
def Refines (outcome : Outcome α β) (plain : Except AbsStackError β × List α) : Prop :=
  ∃ stack : AbstractStack α, outcome = some (plain.1, stack) ∧ stack.Inv ∧
    expand stack.values = plain.2

@[simp] theorem expand_cons (count : Nat) (last : α) :
    expand ((count, last) :: values) = replicate count last ++ expand values := by
  simp [expand]

theorem AbstractStack.Inv.length_expand (h : stack.Inv) :
    (expand stack.values).length = stack.len := by
  rw [← h.sum, expand, length_flatMap]
  simp

theorem AbstractStack.Inv.underflow (h : stack.Inv) (n : ℕ+) :
    (stack.values.isEmpty || decide (stack.len < n)) = decide (stack.len < n) := by
  cases hvalues : stack.values with
  | nil => simp [← h.sum, hvalues]
  | cons => rfl

theorem AbstractStack.Inv.popped (h : stack.Inv) (hruns : Separated values)
    (hsum : (values.map Prod.fst).sum + n = stack.len) : Inv ⟨values, stack.len - n⟩ :=
  ⟨hruns, Nat.eq_sub_of_add_eq hsum, (Nat.sub_le _ _).trans h.bound⟩

theorem Separated.tail {run : Nat × α} (h : Separated (run :: values)) : Separated values where
  positive := fun run' hmem => h.positive run' (.tail _ hmem)
  differ := h.differ.tail

theorem Separated.recount {count' : Nat} (h : Separated ((count, last) :: values))
    (hpos : 0 < count') : Separated ((count', last) :: values) := by
  constructor
  · exact forall_mem_cons.mpr ⟨hpos, h.tail.positive⟩
  · simpa only [isChain_cons] using h.differ

theorem drop_expand (hle : n ≤ count) : (expand ((count, last) :: values)).drop n =
    expand ((count - n, last) :: values) := by
  rw [expand_cons, expand_cons, drop_append, drop_replicate, length_replicate,
    Nat.sub_eq_zero_of_le hle, drop_zero]

theorem Separated.exists_ne (h : Separated ((count, last) :: values))
    (hlt : count < n) (hle : n ≤ (expand ((count, last) :: values)).length) :
    ∃ item ∈ (expand ((count, last) :: values)).take n, item ≠ last := by
  rcases values with _ | ⟨⟨count', next⟩, rest⟩
  · simp [expand] at hle
    omega
  have hnext := h.positive _ (.tail _ (.head _))
  have hne := (isChain_cons_cons.mp h.differ).1
  refine ⟨next, ?_, hne.symm⟩
  rw [expand_cons, expand_cons, take_append, length_replicate, take_append, take_replicate]
  simp
  omega

theorem popRuns_spec (h : Separated values) (hle : n ≤ (values.map Prod.fst).sum) :
    ∃ values', AbstractStack.popRuns values n = some values' ∧ Separated values' ∧
      (values'.map Prod.fst).sum + n = (values.map Prod.fst).sum ∧
      expand values' = (expand values).drop n := by
  induction values generalizing n with
  | nil =>
    obtain rfl : n = 0 := by simpa using hle
    exact ⟨[], rfl, h, rfl, rfl⟩
  | cons run rest ih =>
    obtain ⟨count, last⟩ := run
    have hcount : 0 < count := h.positive _ (.head _)
    simp only [map_cons, sum_cons] at hle ⊢
    cases n with
    | zero => exact ⟨_, rfl, h, rfl, rfl⟩
    | succ rem =>
      by_cases hfit : count ≤ rem + 1
      · obtain ⟨values', hrun, hsep, hsum, hexp⟩ := ih h.tail (n := rem + 1 - count) (by omega)
        refine ⟨values', ?_, hsep, by omega, ?_⟩
        · rw [AbstractStack.popRuns, if_pos hfit, hrun]
        · rw [hexp, expand_cons, drop_append, drop_replicate, length_replicate]
          simp [Nat.sub_eq_zero_of_le hfit]
      · refine ⟨_, if_neg hfit, h.recount (by omega), ?_, ?_⟩
        · simp only [map_cons, sum_cons]
          omega
        · rw [drop_expand (Nat.le_of_not_le hfit)]

theorem popAnyN_refines (h : stack.Inv) (n : ℕ+) :
    Refines (stack.popAnyN n) (PlainStack.popAnyN n (expand stack.values)) := by
  simp only [AbstractStack.popAnyN, PlainStack.popAnyN, h.length_expand, h.underflow,
    decide_eq_true_eq]
  split_ifs with hshort
  · exact ⟨stack, rfl, h, rfl⟩
  obtain ⟨values', hrun, hruns, hsum, hexp⟩ :=
    popRuns_spec h.runs (n := n) (h.sum ▸ Nat.not_lt.mp hshort)
  rw [hrun]
  exact ⟨_, rfl, h.popped hruns (hsum.trans h.sum), hexp⟩

theorem Refines.returned {outcome : Outcome α β} {plain : Except AbsStackError β × List α}
    (h : Refines outcome plain) (f : β → Option α) :
    Refines (outcome.map (StackOp.returned f)) (StackOp.returned f plain) := by
  obtain ⟨stack, rfl, hinv, hexp⟩ := h
  exact ⟨stack, rfl, hinv, hexp⟩

variable [DecidableEq α]

theorem pushN_refines (h : stack.Inv) (item : α) (n : Nat) :
    Refines (stack.pushN item n) (PlainStack.pushN item n (expand stack.values)) := by
  have hlength := h.length_expand
  have hbound := h.bound
  obtain ⟨values, len⟩ := stack
  dsimp only at hlength hbound
  simp only [AbstractStack.pushN, PlainStack.pushN, hlength]
  split_ifs with hzero hover hover
  · omega
  · subst hzero
    exact ⟨_, rfl, h, rfl⟩
  · exact ⟨_, rfl, h, rfl⟩
  have hsum := h.sum
  have hle : len + n ≤ u64Max := Nat.not_lt.mp hover
  have hpos : 0 < n := Nat.pos_of_ne_zero hzero
  rcases values with _ | ⟨⟨count, last⟩, rest⟩
  · refine ⟨_, rfl, ⟨⟨by simpa using hpos, by simp⟩, ?_, hle⟩, by simp [expand]⟩
    simp at hsum ⊢
    omega
  simp only [map_cons, sum_cons] at hsum
  by_cases hitem : item = last
  · subst hitem
    have hcount : ¬ u64Max < count + n := by omega
    simp only [if_true, if_neg hcount]
    refine ⟨_, rfl, ⟨h.runs.recount (by omega), ?_, hle⟩, ?_⟩
    · simp only [map_cons, sum_cons]
      omega
    · rw [expand_cons, expand_cons, ← append_assoc, replicate_append_replicate, Nat.add_comm]
  · simp only [if_neg hitem]
    refine ⟨_, rfl, ⟨⟨forall_mem_cons.mpr ⟨hpos, h.runs.positive⟩, ?_⟩, ?_, hle⟩, by simp⟩
    · exact isChain_cons_cons.mpr ⟨hitem, h.runs.differ⟩
    · simp only [map_cons, sum_cons]
      omega

theorem popEqN_refines (h : stack.Inv) (n : ℕ+) :
    Refines (stack.popEqN n) (PlainStack.popEqN n (expand stack.values)) := by
  simp only [AbstractStack.popEqN, PlainStack.popEqN, h.length_expand, h.underflow,
    decide_eq_true_eq]
  split_ifs with hshort
  · exact ⟨stack, rfl, h, rfl⟩
  have hlength := h.length_expand
  have hsum := h.sum
  have hruns := h.runs
  rcases hvalues : stack.values with _ | ⟨⟨count, last⟩, rest⟩ <;> rw [hvalues] at hlength hsum hruns
  · exact absurd (hlength ▸ n.pos) hshort
  have hcount : 0 < count := hruns.positive _ (.head _)
  have hhead : (expand ((count, last) :: rest)).head? = some last := by
    rw [expand_cons, head?_append, head?_replicate, if_neg hcount.ne', Option.some_or]
  rw [map_cons, sum_cons] at hsum
  simp only [hhead]
  by_cases hlt : count < n
  · obtain ⟨item, hmem, hne⟩ := hruns.exists_ne hlt (hlength ▸ Nat.not_lt.mp hshort)
    rw [if_pos hlt, if_neg fun hall => hne (hall item hmem)]
    exact ⟨stack, rfl, h, by rw [hvalues]⟩
  have hle : (n : Nat) ≤ count := Nat.not_lt.mp hlt
  have hall : ∀ item ∈ (expand ((count, last) :: rest)).take n, item = last := by
    intro item hmem
    rw [expand_cons, take_append_of_le_length (by simpa using hle)] at hmem
    exact eq_of_mem_replicate (mem_of_mem_take hmem)
  rw [if_neg hlt, if_pos hall, drop_expand hle]
  by_cases heq : count = n
  · rw [if_pos heq]
    exact ⟨_, rfl, h.popped hruns.tail (by omega), by simp [heq]⟩
  · rw [if_neg heq]
    refine ⟨_, rfl, h.popped (hruns.recount (by omega)) ?_, rfl⟩
    rw [map_cons, sum_cons]
    omega

theorem StackOp.apply_refines (h : stack.Inv) (op : StackOp α) :
    Refines (op.apply stack) (op.applyPlain (expand stack.values)) := by
  cases op with
  | push item => exact (pushN_refines h item 1).returned _
  | pushN item n => exact (pushN_refines h item n).returned _
  | pop => exact (popEqN_refines h 1).returned _
  | popEqN n => exact (popEqN_refines h n).returned _
  | popAnyN n => exact (popAnyN_refines h n).returned _

theorem StackOp.run_refines (ops : List (StackOp α)) (h : stack.Inv) :
    ∃ stack', run ops stack = some ((runPlain ops (expand stack.values)).1, stack') ∧
      stack'.Inv ∧ expand stack'.values = (runPlain ops (expand stack.values)).2 := by
  induction ops generalizing stack with
  | nil => exact ⟨stack, rfl, h, rfl⟩
  | cons op ops ih =>
    obtain ⟨next, happly, hnext, hexp⟩ := op.apply_refines h
    obtain ⟨stack', hrun, hinv, hcontent⟩ := ih hnext
    refine ⟨stack', ?_, hinv, ?_⟩
    · simp [run, runPlain, happly, hrun, hexp]
    · rw [hcontent, hexp, runPlain]

theorem StackOp.applyPlain_error {op : StackOp α} {content : List α} {e : AbsStackError}
    (h : (op.applyPlain content).1 = .error e) : (op.applyPlain content).2 = content := by
  cases op <;> simp only [applyPlain, returned, PlainStack.pushN, PlainStack.popEqN,
    PlainStack.popAnyN, Prod.map] at h ⊢ <;> split_ifs at h ⊢ <;> first | rfl | cases h | skip
  all_goals grind [Except.map]

/-- **The compressed stack refines the plain one.** After every sequence of operations it has
returned what the plain stack returns and stands for its content, neighbouring runs differ, counts
are positive and sum to the length, and an operation that fails leaves the content as it was. -/
theorem abstract_stack_refines (ops : List (StackOp α)) : ∃ stack : AbstractStack α,
    StackOp.run ops .new = some ((StackOp.runPlain ops []).1, stack) ∧ stack.Inv ∧
      expand stack.values = (StackOp.runPlain ops []).2 ∧
      ∀ op e stack', StackOp.apply op stack = some (.error e, stack') →
        expand stack'.values = expand stack.values := by
  have hnew : (AbstractStack.new : AbstractStack α).Inv :=
    ⟨⟨forall_mem_nil _, .nil⟩, rfl, Nat.zero_le _⟩
  obtain ⟨stack, hrun, hinv, hcontent⟩ := StackOp.run_refines ops hnew
  refine ⟨stack, hrun, hinv, hcontent, fun op e stack' hfail => ?_⟩
  obtain ⟨after, happly, -, hafter⟩ := op.apply_refines hinv
  rw [happly, Option.some_inj, Prod.mk.injEq] at hfail
  rw [← hfail.2, hafter, StackOp.applyPlain_error hfail.1]

end Haneul.Verifier
