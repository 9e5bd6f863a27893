import Mathlib

/-!
# Loops with fuel, and searches that mark what they have found

A `while` loop is a function from a state to its next turn, run with fuel.  The
rule `loop_total` is the total-correctness rule: an invariant, and a variant that
each turn lowers, give a result without running out of fuel.

The loops of a search keep a worklist and mark the nodes they have found.  `Search`
is the invariant they share, whatever the order in which the worklist is served: at
the end the served nodes are exactly the reachable ones.
-/

universe u

namespace Haneul

open List

/-! ### Fallible steps -/

section Except

variable {ε α : Type*} {β γ σ : Type u} {l : List α} {step : σ → α → Except ε σ}
  {f : α → Except ε β} {x : Except ε β}

theorem bind_eq_ok {f : β → Except ε γ} {b : γ} :
    (x >>= f) = .ok b ↔ ∃ a, x = .ok a ∧ f a = .ok b := by
  cases x with
  | error e => simp [bind, Except.bind]
  | ok a => simp [bind, Except.bind]

/-! Several steps at once, so that a function with a row of checks is taken apart in one line. -/

section Row

variable {β₁ β₂ β₃ : Type u} {g₁ : β → Except ε β₁} {g₂ : β → β₁ → Except ε β₂}
  {g₃ : β → β₁ → β₂ → Except ε β₃} {b : γ}

theorem bind₂_eq_ok {f : β → β₁ → Except ε γ} :
    (x >>= fun a => g₁ a >>= f a) = .ok b ↔
      ∃ a, x = .ok a ∧ ∃ a₁, g₁ a = .ok a₁ ∧ f a a₁ = .ok b := by
  simp only [bind_eq_ok]

theorem bind₃_eq_ok {f : β → β₁ → β₂ → Except ε γ} :
    (x >>= fun a => g₁ a >>= fun a₁ => g₂ a a₁ >>= f a a₁) = .ok b ↔
      ∃ a, x = .ok a ∧ ∃ a₁, g₁ a = .ok a₁ ∧ ∃ a₂, g₂ a a₁ = .ok a₂ ∧ f a a₁ a₂ = .ok b := by
  simp only [bind_eq_ok]

theorem bind₄_eq_ok {f : β → β₁ → β₂ → β₃ → Except ε γ} :
    (x >>= fun a => g₁ a >>= fun a₁ => g₂ a a₁ >>= fun a₂ => g₃ a a₁ a₂ >>= f a a₁ a₂) = .ok b ↔
      ∃ a, x = .ok a ∧ ∃ a₁, g₁ a = .ok a₁ ∧ ∃ a₂, g₂ a a₁ = .ok a₂ ∧
        ∃ a₃, g₃ a a₁ a₂ = .ok a₃ ∧ f a a₁ a₂ a₃ = .ok b := by
  simp only [bind_eq_ok]

end Row

theorem bind_eq_error {f : β → Except ε γ} {e : ε} :
    (x >>= f) = .error e ↔ x = .error e ∨ ∃ a, x = .ok a ∧ f a = .error e := by
  cases x with
  | error e => simp [bind, Except.bind]
  | ok a => simp [bind, Except.bind]

theorem ok_of_toBool (h : x.toBool = true) : ∃ a, x = .ok a := by
  cases x with
  | error e => cases h
  | ok a => exact ⟨a, rfl⟩

theorem ok_of_any {p : β → Bool} (h : x.toOption.any p = true) :
    ∃ a, x = .ok a ∧ p a = true := by
  cases x with
  | error e => cases h
  | ok a => exact ⟨a, rfl, h⟩

/-- Every error that a computation can end with is of a kind. -/
def ErrorsIn (P : ε → Prop) (x : Except ε β) : Prop := ∀ e, x = .error e → P e

variable {P : ε → Prop}

theorem ErrorsIn.ok {a : β} : ErrorsIn P (.ok a) := nofun

theorem ErrorsIn.error {e : ε} (h : P e) : ErrorsIn P (.error e : Except ε β) := by
  rintro _ ⟨⟩
  exact h

theorem ErrorsIn.ite {c : Prop} [Decidable c] {y : Except ε β} (hx : ErrorsIn P x)
    (hy : ErrorsIn P y) : ErrorsIn P (if c then x else y) := by
  split
  · exact hx
  · exact hy

theorem ErrorsIn.bind {f : β → Except ε γ} (hx : ErrorsIn P x)
    (hf : ∀ a, x = .ok a → ErrorsIn P (f a)) : ErrorsIn P (x >>= f) := by
  intro e h
  rcases bind_eq_error.mp h with hfirst | ⟨a, ha, hrest⟩
  · exact hx e hfirst
  · exact hf a ha e hrest

theorem foldlM_cons_eq_ok {s s' : σ} {a : α} :
    (a :: l).foldlM step s = .ok s' ↔ ∃ s₁, step s a = .ok s₁ ∧ l.foldlM step s₁ = .ok s' := by
  rw [foldlM_cons, bind_eq_ok]

theorem ErrorsIn.foldlM
    (hstep : ∀ s, ∀ a ∈ l, ErrorsIn P (step s a)) (s : σ) : ErrorsIn P (l.foldlM step s) := by
  induction l generalizing s with
  | nil => exact ErrorsIn.ok
  | cons a l ih =>
    rw [foldlM_cons]
    exact (hstep s a (.head _)).bind fun s₁ _ =>
      ih (fun s b hb => hstep s b (.tail a hb)) s₁

theorem foldlM_keeps (Inv : σ → Prop)
    (hstep : ∀ a ∈ l, ∀ s s', Inv s → step s a = .ok s' → Inv s') {s s' : σ} (hinv : Inv s)
    (h : l.foldlM step s = .ok s') : Inv s' := by
  induction l generalizing s with
  | nil =>
    cases h
    exact hinv
  | cons a l ih =>
    obtain ⟨s₁, hfirst, hrest⟩ := foldlM_cons_eq_ok.mp h
    exact ih (fun b hb => hstep b (.tail a hb)) (hstep a mem_cons_self s s₁ hinv hfirst) hrest

/-- A fold whose steps keep an invariant, or stop with an error of some kind. -/
theorem foldlM_total_or (Inv : σ → Prop) {Stop : ε → Prop} (hstep : ∀ a ∈ l, ∀ s, Inv s →
      (∃ e, step s a = .error e ∧ Stop e) ∨ ∃ s', step s a = .ok s' ∧ Inv s') {s : σ}
    (hinv : Inv s) :
    (∃ e, l.foldlM step s = .error e ∧ Stop e) ∨ ∃ s', l.foldlM step s = .ok s' ∧ Inv s' := by
  induction l generalizing s with
  | nil => exact .inr ⟨s, rfl, hinv⟩
  | cons a l ih =>
    rcases hstep a mem_cons_self s hinv with ⟨e, he, hstop⟩ | ⟨s₁, hs₁, hinv₁⟩
    · exact .inl ⟨e, by rw [foldlM_cons, he]; rfl, hstop⟩
    · rw [foldlM_cons, hs₁]
      exact ih (fun b hb => hstep b (.tail a hb)) hinv₁

theorem foldlM_total (Inv : σ → Prop)
    (hstep : ∀ a ∈ l, ∀ s, Inv s → ∃ s', step s a = .ok s' ∧ Inv s') {s : σ} (hinv : Inv s) :
    ∃ s', l.foldlM step s = .ok s' ∧ Inv s' := by
  rcases @foldlM_total_or _ _ _ l step Inv (fun _ => False)
    (fun a ha s h => .inr (hstep a ha s h)) s hinv with ⟨_, _, hfalse⟩ | h
  · exact hfalse.elim
  · exact h

theorem mapM_agree {f f' : α → Except ε β} (hf : ∀ a b b', f a = .ok b → f' a = .ok b' → b = b') :
    ∀ {bs bs' : List β}, l.mapM f = .ok bs → l.mapM f' = .ok bs' → bs = bs' := by
  induction l with
  | nil =>
    intro bs bs' h h'
    rw [mapM_nil] at h h'
    cases h
    cases h'
    rfl
  | cons a l ih =>
    intro bs bs' h h'
    rw [mapM_cons] at h h'
    obtain ⟨b, hb, h⟩ := bind_eq_ok.mp h
    obtain ⟨b', hb', h'⟩ := bind_eq_ok.mp h'
    obtain ⟨rest, hrest, h⟩ := bind_eq_ok.mp h
    obtain ⟨rest', hrest', h'⟩ := bind_eq_ok.mp h'
    cases h
    cases h'
    rw [hf a b b' hb hb', ih hrest hrest']

theorem mapM_total_or {e : ε} (hf : ∀ a ∈ l, f a = .error e ∨ ∃ b, f a = .ok b) :
    l.mapM f = .error e ∨ ∃ bs, l.mapM f = .ok bs := by
  induction l with
  | nil => exact .inr ⟨[], rfl⟩
  | cons a l ih =>
    rw [mapM_cons]
    rcases hf a mem_cons_self with herror | ⟨b, hb⟩
    · exact .inl (by rw [herror]; rfl)
    · rcases ih fun a' ha' => hf a' (.tail a ha') with hrest | ⟨bs, hrest⟩
      · exact .inl (by rw [hb, hrest]; rfl)
      · exact .inr ⟨b :: bs, by rw [hb, hrest]; rfl⟩

theorem mapM_total (hf : ∀ a ∈ l, ∃ b, f a = .ok b) :
    ∃ bs, l.mapM f = .ok bs := by
  induction l with
  | nil => exact ⟨[], rfl⟩
  | cons a l ih =>
    obtain ⟨b, hb⟩ := hf a (.head _)
    obtain ⟨bs, hbs⟩ := ih fun a' ha' => hf a' (.tail a ha')
    rw [mapM_cons]
    exact ⟨b :: bs, bind₂_eq_ok.mpr ⟨b, hb, bs, hbs, rfl⟩⟩

theorem mapM_eq_map {g : α → β} (hf : ∀ a ∈ l, f a = .ok (g a)) : l.mapM f = .ok (l.map g) := by
  induction l with
  | nil => rfl
  | cons a l ih =>
    rw [mapM_cons, hf a (.head _), ih fun a' ha' => hf a' (.tail a ha')]
    rfl

theorem mem_of_mapM {bs : List β} (h : l.mapM f = .ok bs) {a : α}
    (ha : a ∈ l) {b : β} (hb : f a = .ok b) : b ∈ bs := by
  induction l generalizing bs with
  | nil => cases ha
  | cons first l ih =>
    rw [mapM_cons] at h
    obtain ⟨b₁, hb₁, h⟩ := bind_eq_ok.mp h
    obtain ⟨bs₁, hbs₁, h⟩ := bind_eq_ok.mp h
    cases h
    rcases mem_cons.mp ha with rfl | ha
    · cases hb.symm.trans hb₁
      exact .head _
    · exact mem_cons_of_mem b₁ (ih hbs₁ ha)

theorem mapM_length :
    ∀ {bs : List β}, l.mapM f = .ok bs → bs.length = l.length := by
  induction l with
  | nil =>
    intro bs h
    cases h
    rfl
  | cons a l ih =>
    intro bs h
    rw [mapM_cons] at h
    obtain ⟨b, -, h⟩ := bind_eq_ok.mp h
    obtain ⟨rest, hrest, h⟩ := bind_eq_ok.mp h
    cases h
    rw [length_cons, length_cons, ih hrest]

end Except

section Filter

variable {ε α : Type} {f : α → Except ε Bool} {test : α → Bool} {l : List α}

theorem filterAuxM_eq_filter (hf : ∀ a ∈ l, f a = .ok (test a)) (acc : List α) :
    l.filterAuxM f acc = .ok ((l.filter test).reverse ++ acc) := by
  induction l generalizing acc with
  | nil => rfl
  | cons a l ih =>
    have hrest := ih fun a' ha' => hf a' (.tail a ha')
    rw [List.filterAuxM, hf a (.head _), filter_cons]
    cases test a with
    | false => exact hrest acc
    | true =>
      rw [if_pos rfl, reverse_cons, append_assoc]
      exact hrest (a :: acc)

theorem filterM_eq_filter (hf : ∀ a ∈ l, f a = .ok (test a)) :
    l.filterM f = .ok (l.filter test) := by
  rw [List.filterM, filterAuxM_eq_filter hf, append_nil]
  exact congrArg Except.ok (reverse_reverse _)

theorem filterM_total {P : α → Prop} (hf : ∀ a ∈ l, ∃ v, f a = .ok v ∧ (v = true ↔ P a)) :
    ∃ kept : List α, l.filterM f = .ok kept ∧ kept.Sublist l ∧ ∀ a, a ∈ kept ↔ a ∈ l ∧ P a := by
  classical
  have htest : ∀ a ∈ l, f a = .ok (decide (P a)) := by
    intro a ha
    obtain ⟨v, hv, hiff⟩ := hf a ha
    rw [hv, Bool.eq_iff_iff.mpr (hiff.trans decide_eq_true_iff.symm)]
  exact ⟨_, filterM_eq_filter htest, filter_sublist, fun a => by simp⟩

end Filter

/-! ### Loops -/

/-- What one turn of a loop does: go on with a new state, or leave the loop. -/
inductive Turn (σ ρ : Type*) where
  | continue (state : σ)
  | done (result : ρ)

/-- A loop with fuel.  `outOfFuel` is the error of a loop that is cut short. -/
def loop {σ ρ ε : Type*} (outOfFuel : ε) (turn : σ → Except ε (Turn σ ρ)) :
    Nat → σ → Except ε ρ
  | 0, _ => .error outOfFuel
  | fuel + 1, state =>
    match turn state with
    | .error e => .error e
    | .ok (.done result) => .ok result
    | .ok (.continue state') => loop outOfFuel turn fuel state'

section Loop

variable {σ ρ ε : Type*} {outOfFuel : ε} {turn : σ → Except ε (Turn σ ρ)}

theorem loop_done {fuel : Nat} {state : σ} {result : ρ} (h : turn state = .ok (.done result)) :
    loop outOfFuel turn (fuel + 1) state = .ok result := by
  rw [loop, h]

theorem loop_continue {fuel : Nat} {state state' : σ} (h : turn state = .ok (.continue state')) :
    loop outOfFuel turn (fuel + 1) state = loop outOfFuel turn fuel state' := by
  rw [loop, h]

/-- **Total correctness.**  `Inv n` is the invariant with a bound `n` on the turns
    that are left; each turn stops with an error of some kind, leaves the loop with the
    postcondition or keeps the invariant with a lower bound. -/
theorem loop_total_or (Inv : Nat → σ → Prop) {Post : ρ → Prop} {Stop : ε → Prop}
    (hturn : ∀ n state, Inv n state →
      (∃ e, turn state = .error e ∧ Stop e) ∨
      (∃ result, turn state = .ok (.done result) ∧ Post result) ∨
      (∃ m state', turn state = .ok (.continue state') ∧ m < n ∧ Inv m state'))
    {n fuel : Nat} {state : σ} (hinv : Inv n state) (hfuel : n < fuel) :
    (∃ e, loop outOfFuel turn fuel state = .error e ∧ Stop e) ∨
      ∃ result, loop outOfFuel turn fuel state = .ok result ∧ Post result := by
  induction fuel generalizing n state with
  | zero => omega
  | succ fuel ih =>
    rcases hturn n state hinv with
      ⟨e, herror, hstop⟩ | ⟨result, hdone, hpost⟩ | ⟨m, state', hnext, hlt, hinv'⟩
    · exact .inl ⟨e, by rw [loop, herror], hstop⟩
    · exact .inr ⟨result, loop_done hdone, hpost⟩
    · rw [loop_continue hnext]
      exact ih hinv' (by omega)

theorem loop_total (Inv : Nat → σ → Prop) {Post : ρ → Prop} (hturn : ∀ n state, Inv n state →
      (∃ result, turn state = .ok (.done result) ∧ Post result) ∨
      (∃ m state', turn state = .ok (.continue state') ∧ m < n ∧ Inv m state')) {n fuel : Nat}
    {state : σ} (hinv : Inv n state) (hfuel : n < fuel) :
    ∃ result, loop outOfFuel turn fuel state = .ok result ∧ Post result := by
  rcases @loop_total_or _ _ _ outOfFuel turn Inv Post (fun _ => False)
    (fun n state h => .inr (hturn n state h)) n fuel state hinv hfuel with ⟨_, _, hfalse⟩ | h
  · exact hfalse.elim
  · exact h

/-- **Lockstep.**  Two runs of a loop from related states, which may have different
    fuel, end with related results. -/
theorem loop_lockstep (R : σ → σ → Prop) (Post : ρ → ρ → Prop)
    (hturn : ∀ state₁ state₂, R state₁ state₂ →
      (∃ result₁ result₂, turn state₁ = .ok (.done result₁) ∧ turn state₂ = .ok (.done result₂) ∧
        Post result₁ result₂) ∨
      (∃ next₁ next₂, turn state₁ = .ok (.continue next₁) ∧ turn state₂ = .ok (.continue next₂) ∧
        R next₁ next₂)) {fuel₁ fuel₂ : Nat} {state₁ state₂ : σ} {result₁ result₂ : ρ}
    (hR : R state₁ state₂) (h₁ : loop outOfFuel turn fuel₁ state₁ = .ok result₁)
    (h₂ : loop outOfFuel turn fuel₂ state₂ = .ok result₂) : Post result₁ result₂ := by
  induction fuel₁ generalizing fuel₂ state₁ state₂ with
  | zero => simp [loop] at h₁
  | succ fuel₁ ih =>
    cases fuel₂ with
    | zero => simp [loop] at h₂
    | succ fuel₂ =>
      rcases hturn state₁ state₂ hR with
        ⟨done₁, done₂, hdone₁, hdone₂, hpost⟩ | ⟨next₁, next₂, hnext₁, hnext₂, hR'⟩
      · rw [loop_done hdone₁] at h₁
        rw [loop_done hdone₂] at h₂
        cases h₁
        cases h₂
        exact hpost
      · rw [loop_continue hnext₁] at h₁
        rw [loop_continue hnext₂] at h₂
        exact ih hR' h₁ h₂

end Loop

/-! ### Searches -/

/-- The invariant of a search from `roots` along `succ` that adds a node to its
    worklist `todo` once, when it is first found; `served` are the nodes taken from
    the worklist so far. -/
structure Search {ν : Type*} (succ : ν → ν → Prop) (roots : Set ν) (served todo : List ν) :
    Prop where
  nodup : (served ++ todo).Nodup
  roots_found : ∀ x ∈ roots, x ∈ served ++ todo
  reached : ∀ x ∈ served ++ todo, ∃ root ∈ roots, Relation.ReflTransGen succ root x
  explored : ∀ x ∈ served, ∀ y, succ x y → y ∈ served ++ todo

namespace Search

variable {ν : Type*} {succ : ν → ν → Prop} {roots : Set ν} {served todo todo' : List ν}

theorem start (hnodup : todo.Nodup) (h : ∀ x, x ∈ todo ↔ x ∈ roots) :
    Search succ roots [] todo where
  nodup := hnodup
  roots_found := fun x hx => (h x).mpr hx
  reached := fun x hx => ⟨x, (h x).mp hx, Relation.ReflTransGen.refl⟩
  explored := nofun

/-- Serving a node: its successors that were not found before are added to the rest
    of the worklist, in any order. -/
theorem serve {x : ν} {rest : List ν} (h : Search succ roots served (x :: rest))
    (new : List ν) (hnodup : new.Nodup) (hnew : ∀ y ∈ new, succ x y ∧ y ∉ served ++ x :: rest)
    (hall : ∀ y, succ x y → y ∈ served ++ x :: rest ∨ y ∈ new)
    (htodo : todo'.Perm (rest ++ new)) : Search succ roots (served ++ [x]) todo' := by
  have hperm : (served ++ [x] ++ todo').Perm (served ++ x :: rest ++ new) := by
    simp only [append_assoc, cons_append, nil_append]
    exact (htodo.cons x).append_left served
  have hfound : ∀ y, y ∈ served ++ [x] ++ todo' ↔ y ∈ served ++ x :: rest ∨ y ∈ new := by
    intro y
    rw [hperm.mem_iff, mem_append]
  refine ⟨?_, ?_, ?_, ?_⟩
  · rw [hperm.nodup_iff, nodup_append]
    refine ⟨h.nodup, hnodup, ?_⟩
    rintro y hy z hz rfl
    exact (hnew y hz).2 hy
  · intro y hy
    exact (hfound y).mpr (.inl (h.roots_found y hy))
  · intro y hy
    rcases (hfound y).mp hy with hy | hy
    · exact h.reached y hy
    · obtain ⟨root, hroot, hpath⟩ := h.reached x (by simp)
      exact ⟨root, hroot, hpath.tail (hnew y hy).1⟩
  · intro y hy z hz
    rw [hfound z]
    rcases mem_append.mp hy with hy | hy
    · exact .inl (h.explored y hy z hz)
    · rw [mem_singleton] at hy
      subst hy
      exact hall z hz

/-- **The search is exact.**  With an empty worklist the served nodes are the
    reachable ones. -/
theorem exact (h : Search succ roots served []) (x : ν) :
    x ∈ served ↔ ∃ root ∈ roots, Relation.ReflTransGen succ root x := by
  constructor
  · intro hx
    exact h.reached x (mem_append_left [] hx)
  · rintro ⟨root, hroot, hpath⟩
    induction hpath with
    | refl => simpa using h.roots_found root hroot
    | tail _ hedge ih => simpa using h.explored _ ih _ hedge

theorem length_le [DecidableEq ν] (h : Search succ roots served todo) {nodes : Finset ν}
    (hnodes : ∀ x ∈ served ++ todo, x ∈ nodes) :
    served.length + todo.length ≤ nodes.card := by
  rw [← length_append, ← toFinset_card_of_nodup h.nodup]
  exact Finset.card_le_card fun x hx => hnodes x (mem_toFinset.mp hx)

end Search

end Haneul
