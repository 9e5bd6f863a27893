import Haneul.Lib.Quorum

/-!
# Round-based DAGs with weighted authors

Nodes carry a round and an author and point to ancestors of lower rounds.  Each
node has a quorum of parents in the round just below it, names at most one
ancestor of each author, and the authors outside `faulty` have at most one node
in each round.

All counting arguments of a commit rule are about one notion, `Backed`: at a
round, authors of at least a given weight have a node with a given property.
Two backings at the same round have a common part (`Backed.common`), and from
any node the nodes reached at a lower round are backed by a quorum
(`backed_reaches`).  A *view* is a part of the DAG that is closed under the
ancestors above a floor, which is how a node that collects garbage sees it.
-/

namespace Haneul

open Quorum

/-- A DAG of nodes with rounds and weighted authors. -/
structure RoundDag (ν ι : Type*) [DecidableEq ι] where
  nodes : Set ν
  round : ν → ℕ
  author : ν → ι
  anc : ν → Set ν
  stake : ι → ℕ
  total : ℕ
  quorum : ℕ
  faulty : Finset ι
  bounded : Bounded stake total
  quorum_pos : 0 < quorum
  round_lt : ∀ {b a}, b ∈ nodes → a ∈ anc b → round a < round b
  anc_author : ∀ {b a a'}, b ∈ nodes → a ∈ anc b → a' ∈ anc b → author a = author a' → a = a'
  parents : ∀ {b}, b ∈ nodes → ∃ P : Finset ι, quorum ≤ weight stake P ∧
    ∀ i ∈ P, ∃ a ∈ anc b, author a = i ∧ round a + 1 = round b
  single : ∀ {b b'}, b ∈ nodes → b' ∈ nodes → author b = author b' → author b ∉ faulty →
    round b = round b' → b = b'

namespace RoundDag

variable {ν ι : Type*} [DecidableEq ι] (D : RoundDag ν ι)

/-! ### Paths and views -/

/-- `a` is reached from `b` through ancestors of rounds above `floor`. -/
def Reaches (floor : ℕ) : ν → ν → Prop :=
  Relation.ReflTransGen fun b a => a ∈ D.anc b ∧ floor < D.round a

/-- A part of the DAG closed under the ancestors above `floor`. -/
structure IsView (V : Set ν) (floor : ℕ) : Prop where
  subset : V ⊆ D.nodes
  closed : ∀ {b a}, b ∈ V → a ∈ D.anc b → floor < D.round a → a ∈ V

variable {D} {V : Set ν} {floor : ℕ}

theorem IsView.mono {floor' : ℕ} (hV : D.IsView V floor) (hle : floor ≤ floor') :
    D.IsView V floor' :=
  ⟨hV.subset, fun hb ha hround => hV.closed hb ha (lt_of_le_of_lt hle hround)⟩

theorem IsView.reaches_mem (hV : D.IsView V floor) {b a : ν} (hb : b ∈ V)
    (h : D.Reaches floor b a) : a ∈ V := by
  induction h with
  | refl => exact hb
  | tail _ hedge ih => exact hV.closed ih hedge.1 hedge.2

/-! ### Backing -/

/-- At `round`, authors of weight at least `t` have a node with property `p`. -/
def Backed (D : RoundDag ν ι) (ρ t : ℕ) (p : ν → Prop) : Prop :=
  ∃ A : Finset ι, t ≤ weight D.stake A ∧
    ∀ i ∈ A, ∃ b ∈ D.nodes, D.author b = i ∧ D.round b = ρ ∧ p b

namespace Backed

variable {ρ t t' s : ℕ} {p q : ν → Prop}

theorem mono (h : D.Backed ρ t p) (hle : s ≤ t)
    (himp : ∀ b ∈ D.nodes, D.round b = ρ → p b → q b) : D.Backed ρ s q := by
  obtain ⟨A, hA, hback⟩ := h
  refine ⟨A, le_trans hle hA, fun i hi => ?_⟩
  obtain ⟨b, hb, hauthor, hround, hp⟩ := hback i hi
  exact ⟨b, hb, hauthor, hround, himp b hb hround hp⟩

theorem exists_node (h : D.Backed ρ t p) (ht : 0 < t) :
    ∃ b ∈ D.nodes, D.round b = ρ ∧ p b := by
  obtain ⟨A, hA, hback⟩ := h
  obtain ⟨i, hi⟩ := nonempty_of_weight_pos (w := D.stake) (A := A) (by omega)
  obtain ⟨b, hb, -, hround, hp⟩ := hback i hi
  exact ⟨b, hb, hround, hp⟩

/-- **The common part of two backings.**  An author in both that is not faulty
    has a single node at the round, so that node has both properties. -/
theorem common (hp : D.Backed ρ t p) (hq : D.Backed ρ t' q)
    (hle : D.total + weight D.stake D.faulty + s ≤ t + t') :
    D.Backed ρ s fun b => p b ∧ q b := by
  obtain ⟨A, hA, hbackA⟩ := hp
  obtain ⟨B, hB, hbackB⟩ := hq
  have hcommon := weight_common D.bounded A B D.faulty
  refine ⟨(A ∩ B) \ D.faulty, by omega, fun i hi => ?_⟩
  simp only [Finset.mem_sdiff, Finset.mem_inter] at hi
  obtain ⟨b, hb, hauthor, hround, hpb⟩ := hbackA i hi.1.1
  obtain ⟨b', hb', hauthor', hround', hqb'⟩ := hbackB i hi.1.2
  have heq : b = b' := D.single hb hb' (hauthor.trans hauthor'.symm)
    (by rw [hauthor]; exact hi.2) (hround.trans hround'.symm)
  subst heq
  exact ⟨b, hb, hauthor, hround, hpb, hqb'⟩

/-- Two backings that exceed the total by more than the faulty weight meet in
    one node. -/
theorem meet (hp : D.Backed ρ t p) (hq : D.Backed ρ t' q)
    (hlt : D.total + weight D.stake D.faulty < t + t') :
    ∃ b ∈ D.nodes, D.round b = ρ ∧ p b ∧ q b :=
  (hp.common hq (s := 1) (by omega)).exists_node Nat.one_pos

end Backed

theorem IsView.backed_parents (hV : D.IsView V floor) {b : ν} (hb : b ∈ V) {ρ : ℕ}
    (hround : ρ + 1 = D.round b) (hfloor : floor < ρ) :
    D.Backed ρ D.quorum fun a => a ∈ V ∧ a ∈ D.anc b := by
  obtain ⟨P, hP, hparents⟩ := D.parents (hV.subset hb)
  refine ⟨P, hP, fun i hi => ?_⟩
  obtain ⟨a, ha, hauthor, hparent⟩ := hparents i hi
  have haV : a ∈ V := hV.closed hb ha (by omega)
  exact ⟨a, hV.subset haV, hauthor, by omega, haV, ha⟩

/-- **A quorum of the nodes at a lower round is reached.**  The path goes through
    one parent at a time down to the round just above `ρ`, whose parents are a
    quorum. -/
theorem IsView.backed_reaches (hV : D.IsView V floor) {b : ν} (hb : b ∈ V) {ρ : ℕ}
    (hfloor : floor < ρ) (hround : ρ < D.round b) :
    D.Backed ρ D.quorum fun a => a ∈ V ∧ D.Reaches (ρ - 1) b a := by
  -- induction on the distance of `b` to the round
  obtain ⟨n, hn⟩ : ∃ n, D.round b = ρ + 1 + n := ⟨D.round b - (ρ + 1), by omega⟩
  induction n generalizing b with
  | zero =>
    refine (hV.backed_parents hb (ρ := ρ) (by omega) hfloor).mono le_rfl ?_
    rintro a - hρ ⟨haV, ha⟩
    exact ⟨haV, Relation.ReflTransGen.single ⟨ha, by omega⟩⟩
  | succ n ih =>
    obtain ⟨c, -, hcround, hcV, hc⟩ :=
      (hV.backed_parents hb (ρ := ρ + 1 + n) (by omega) (by omega)).exists_node D.quorum_pos
    refine (ih hcV (by omega) hcround).mono le_rfl ?_
    rintro a - - ⟨haV, hreach⟩
    exact ⟨haV, Relation.ReflTransGen.head ⟨hc, by omega⟩ hreach⟩

end RoundDag

end Haneul
