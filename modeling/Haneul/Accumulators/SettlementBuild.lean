import Haneul.Accumulators.Settlement

/-!
# What a built transaction means

A settlement transaction that has at most `2 ^ 16` inputs makes the calls it was built for: its
commands, read against its inputs, are the prologue and one call for every update that is not
zero (`Denotes`).  One that has more inputs does not execute: the input at position `2 ^ 16` is
named as input `0`, which is the accumulator root.
-/

namespace Haneul.Accumulators

open List

variable {b : ProgrammableTransactionBuilder} {calls : List SettlementCall}
  {b b' : ProgrammableTransactionBuilder}

open Codec (leNat leBytes leNat_leBytes)

/-! ### More inputs -/

/-- Where the first computation returns, the second returns the same. -/
def OkLe {α : Type} (x y : Except Failure α) : Prop := ∀ a, x = .ok a → y = .ok a

theorem OkLe.refl {α : Type} {x : Except Failure α} : OkLe x x := fun _ h => h

theorem OkLe.bind {α β : Type} {x y : Except Failure α} {f g : α → Except Failure β}
    (hxy : OkLe x y) (hfg : ∀ a, OkLe (f a) (g a)) : OkLe (x >>= f) (y >>= g) := by
  intro b h
  obtain ⟨a, ha, hb⟩ := bind_eq_ok.mp h
  exact bind_eq_ok.mpr ⟨a, hxy a ha, hfg a b hb⟩

section More

variable {inputs inputs' : List CallArg}

section

variable (h : inputs <+: inputs')
include h

theorem argument_okLe (arg : Argument) :
    OkLe (argument inputs arg) (argument inputs' arg) := by
  obtain ⟨extra, rfl⟩ := h
  intro value hvalue
  unfold argument at hvalue ⊢
  cases arg with
  | input index =>
    dsimp only at hvalue ⊢
    cases hget : inputs[index.toNat]? with
    | none => rw [hget] at hvalue; cases hvalue
    | some found =>
      rw [List.getElem?_append_left (List.getElem?_eq_some_iff.mp hget).1]
      exact hvalue

theorem rootArgument_okLe (arg : Argument) :
    OkLe (rootArgument inputs arg) (rootArgument inputs' arg) :=
  (argument_okLe h arg).bind fun _ => .refl

theorem pureArgument_okLe (arg : Argument) (length : Nat) :
    OkLe (pureArgument inputs arg length) (pureArgument inputs' arg length) :=
  (argument_okLe h arg).bind fun _ => .refl

theorem addressArgument_okLe (arg : Argument) :
    OkLe (addressArgument inputs arg) (addressArgument inputs' arg) :=
  (pureArgument_okLe h arg 32).bind fun _ => .refl

theorem u64Argument_okLe (arg : Argument) :
    OkLe (u64Argument inputs arg) (u64Argument inputs' arg) :=
  (pureArgument_okLe h arg 8).bind fun _ => .refl

theorem u128Argument_okLe (arg : Argument) :
    OkLe (u128Argument inputs arg) (u128Argument inputs' arg) :=
  (pureArgument_okLe h arg 16).bind fun _ => .refl

theorem u256Argument_okLe (arg : Argument) :
    OkLe (u256Argument inputs arg) (u256Argument inputs' arg) :=
  (pureArgument_okLe h arg 32).bind fun _ => .refl

theorem resolve_okLe (call : MoveCall) :
    OkLe (call.resolve inputs) (call.resolve inputs') := by
  unfold MoveCall.resolve
  split
  · exact (rootArgument_okLe h _).bind fun _ => (u64Argument_okLe h _).bind fun _ =>
      (u64Argument_okLe h _).bind fun _ => (u64Argument_okLe h _).bind fun _ =>
      (u64Argument_okLe h _).bind fun _ => (u64Argument_okLe h _).bind fun _ => .refl
  · exact (rootArgument_okLe h _).bind fun _ => (addressArgument_okLe h _).bind fun _ =>
      (u128Argument_okLe h _).bind fun _ => (u128Argument_okLe h _).bind fun _ => .refl
  · exact (rootArgument_okLe h _).bind fun _ => (addressArgument_okLe h _).bind fun _ =>
      (u256Argument_okLe h _).bind fun _ => (u64Argument_okLe h _).bind fun _ =>
      (u64Argument_okLe h _).bind fun _ => .refl
  · exact (rootArgument_okLe h _).bind fun _ => (u64Argument_okLe h _).bind fun _ =>
      (u64Argument_okLe h _).bind fun _ => .refl
  · exact .refl

theorem mapM_resolve_okLe (calls : List MoveCall) :
    OkLe (calls.mapM (·.resolve inputs)) (calls.mapM (·.resolve inputs')) := by
  induction calls with
  | nil => exact .refl
  | cons call calls ih =>
    rw [mapM_cons, mapM_cons]
    exact (resolve_okLe h call).bind fun _ => ih.bind fun _ => .refl

end

end More

/-! ### Adding an input -/

/-- The builder has the accumulator root as its first input, and keeps pure inputs under their
    bytes. -/
structure BuilderInv (b : ProgrammableTransactionBuilder) : Prop where
  keyed : ∀ entry ∈ b.inputs, ∀ bytes, entry.1 = .pure bytes → entry.2 = .pure bytes
  root : ∃ key obj, b.inputs[0]? = some (key, .object obj) ∧ obj.id = accumulatorRootObjectId

/-- The argument names a pure input with these bytes. -/
def Names (b : ProgrammableTransactionBuilder) (arg : Argument) (bytes : List UInt8) : Prop :=
  argument (b.inputs.map Prod.snd) arg = .ok (.pure bytes)

theorem Names.mono {arg : Argument} {bytes : List UInt8}
    (h : Names b arg bytes) (hgrows : b.inputs <+: b'.inputs) : Names b' arg bytes :=
  argument_okLe (hgrows.map Prod.snd) arg _ h

theorem argument_of_get {inputs : List (BuilderArg × CallArg)} {i : Nat} {key : BuilderArg}
    {value : CallArg} (hget : inputs[i]? = some (key, value)) (hlength : inputs.length ≤ 2 ^ 16) :
    argument (inputs.map Prod.snd) (.input (UInt16.ofNat i)) = .ok value := by
  have hi : i < 2 ^ 16 := Nat.lt_of_lt_of_le (List.getElem?_eq_some_iff.mp hget).1 hlength
  have htoNat : (UInt16.ofNat i).toNat = i := UInt16.toNat_ofNat_of_lt hi
  simp [argument, htoNat, hget]

structure Pushed (b : ProgrammableTransactionBuilder) (bytes : List UInt8)
    (result : Argument × ProgrammableTransactionBuilder) : Prop where
  grows : b.inputs <+: result.2.inputs
  commands : result.2.commands = b.commands
  inv : BuilderInv result.2
  names : result.2.inputs.length ≤ 2 ^ 16 → Names result.2 result.1 bytes
  mem : BuilderArg.pure bytes ∈ result.2.inputs.map Prod.fst
  length_le : result.2.inputs.length ≤ b.inputs.length + 1
  /-- The input that does not fit is named as the first one. -/
  crosses : b.inputs.length ≤ 2 ^ 16 → 2 ^ 16 < result.2.inputs.length → result.1 = .input 0

theorem BuilderInv.pure (hinv : BuilderInv b)
    (bytes : List UInt8) : Pushed b bytes (b.pure bytes) := by
  unfold ProgrammableTransactionBuilder.pure insertFull
  cases hfind : b.inputs.findIdx? fun entry => decide (entry.1 = .pure bytes) with
  | some i =>
    obtain ⟨hlt, hkey, -⟩ := List.findIdx?_eq_some_iff_getElem.mp hfind
    have hkey : b.inputs[i].1 = .pure bytes := by simpa using hkey
    have hvalue := hinv.keyed _ (getElem_mem hlt) bytes hkey
    have hentry : b.inputs[i] = (.pure bytes, .pure bytes) := Prod.ext hkey hvalue
    -- the entry is written again as it was
    have hset : b.inputs.set i (.pure bytes, .pure bytes) = b.inputs := by
      rw [← hentry]
      exact set_getElem_self hlt
    dsimp only
    rw [hset]
    refine ⟨prefix_rfl, rfl, hinv, ?_, ?_, Nat.le_succ _,
      fun hle hlt => absurd hlt (Nat.not_lt.mpr hle)⟩
    · intro hlength
      refine argument_of_get (?_ : _ = some (BuilderArg.pure bytes, _)) hlength
      rw [List.getElem?_eq_getElem hlt, hentry]
    · exact mem_map.mpr ⟨_, getElem_mem hlt, hkey⟩
  | none =>
    dsimp only
    refine ⟨prefix_append _ _, rfl, ⟨?_, ?_⟩, ?_, by simp, by simp, ?_⟩
    · refine forall_mem_append.mpr ⟨hinv.keyed, forall_mem_singleton.mpr fun bytes' hkey => ?_⟩
      cases hkey
      rfl
    · obtain ⟨key, obj, hget, hid⟩ := hinv.root
      refine ⟨key, obj, ?_, hid⟩
      rw [List.getElem?_append_left (List.getElem?_eq_some_iff.mp hget).1, hget]
    · intro hlength
      refine argument_of_get (?_ : _ = some (BuilderArg.pure bytes, _)) hlength
      simp
    · intro hle hlt
      rw [length_append, length_singleton] at hlt
      have heq : b.inputs.length = 2 ^ 16 := by omega
      rw [heq]
      rfl

theorem BuilderInv.rootArgument (hinv : BuilderInv b) :
    rootArgument (b.inputs.map Prod.snd) (.input 0) = .ok () := by
  obtain ⟨key, obj, hget, hid⟩ := hinv.root
  have hargument : argument (b.inputs.map Prod.snd) (.input 0) = .ok (.object obj) := by
    simp [argument, hget]
  rw [Accumulators.rootArgument, hargument]
  exact if_pos hid

/-! ### Reading back what was put in -/

section Read

variable {b : ProgrammableTransactionBuilder} {arg : Argument}

theorem Names.pureArgument {bytes : List UInt8} (h : Names b arg bytes) {n : Nat}
    (hn : bytes.length = n) : pureArgument (b.inputs.map Prod.snd) arg n = .ok bytes := by
  rw [Accumulators.pureArgument, h]
  exact if_pos hn

theorem Names.u64Argument {v : UInt64} (h : Names b arg (u64Bytes v)) :
    u64Argument (b.inputs.map Prod.snd) arg = .ok v := by
  have hvalue : UInt64.ofNat (leNat (u64Bytes v)) = v := by
    have hlt : v.toNat < 256 ^ 8 := UInt64.toNat_lt v
    rw [u64Bytes, leNat_leBytes, Nat.mod_eq_of_lt hlt, UInt64.ofNat_toNat]
  rw [Accumulators.u64Argument, h.pureArgument (Codec.leBytes_length 8 _)]
  exact congrArg Except.ok hvalue

theorem Names.u128Argument {v : Nat} (h : Names b arg (u128Bytes v)) (hv : v < 2 ^ 128) :
    u128Argument (b.inputs.map Prod.snd) arg = .ok v := by
  have hvalue : leNat (u128Bytes v) = v := by
    have hlt : v < 256 ^ 16 := hv
    rw [u128Bytes, leNat_leBytes, Nat.mod_eq_of_lt hlt]
  rw [Accumulators.u128Argument, h.pureArgument (Codec.leBytes_length 16 _)]
  exact congrArg Except.ok hvalue

theorem Names.addressArgument {address : HaneulAddress} (h : Names b arg address.toList) :
    addressArgument (b.inputs.map Prod.snd) arg = .ok address := by
  rw [Accumulators.addressArgument, h.pureArgument (by simp)]
  change addressOfBytes address.toList = _
  rw [addressOfBytes, dif_pos (by simp)]
  rfl

end Read

/-! ### The calls of a builder -/

/-- The commands make these calls, as long as the inputs can be named. -/
structure Denotes (b : ProgrammableTransactionBuilder) (calls : List SettlementCall) : Prop where
  inv : BuilderInv b
  resolved : b.inputs.length ≤ 2 ^ 16 →
    b.commands.mapM (·.resolve (b.inputs.map Prod.snd)) = .ok calls

theorem Denotes.grow (h : Denotes b calls) (hgrows : b.inputs <+: b'.inputs) (hinv : BuilderInv b')
    (hcommands : b'.commands = b.commands) : Denotes b' calls := by
  refine ⟨hinv, fun hlength => ?_⟩
  rw [hcommands]
  exact mapM_resolve_okLe (hgrows.map Prod.snd) _ _
    (h.resolved (Nat.le_trans hgrows.length_le hlength))

theorem Denotes.call (h : Denotes b calls) {function : SystemFunction}
    {typeArguments : List TypeTag} {arguments : List Argument} {call : SettlementCall}
    (hcall : b.inputs.length ≤ 2 ^ 16 →
      (MoveCall.mk function typeArguments arguments).resolve (b.inputs.map Prod.snd) = .ok call) :
    Denotes (b.programmableMoveCall function typeArguments arguments) (calls ++ [call]) := by
  refine ⟨⟨h.inv.keyed, h.inv.root⟩, fun hlength => ?_⟩
  change (b.commands ++ [_]).mapM _ = _
  rw [mapM_append]
  refine bind₂_eq_ok.mpr ⟨calls, h.resolved hlength, [call], ?_, rfl⟩
  rw [mapM_cons]
  exact bind_eq_ok.mpr ⟨call, hcall hlength, rfl⟩

theorem Denotes.root (ctx : SettlementContext) (mutability : Authority.SharedObjectMutability) :
    (rootBuilder ctx mutability).1 = .input 0 ∧ Denotes (rootBuilder ctx mutability).2 [] := by
  refine ⟨rfl, ⟨?_, ⟨_, _, rfl, rfl⟩⟩, fun _ => rfl⟩
  intro entry hentry bytes hkey
  rw [mem_singleton.mp hentry] at hkey
  cases hkey

theorem Denotes.prologueCall
    (h : Denotes b calls) {epoch checkpointHeight idx input output : UInt64}
    {r₁ r₂ r₃ r₄ r₅ : Argument × ProgrammableTransactionBuilder} (h₁ : Pushed b (u64Bytes epoch) r₁)
    (h₂ : Pushed r₁.2 (u64Bytes checkpointHeight) r₂) (h₃ : Pushed r₂.2 (u64Bytes idx) r₃)
    (h₄ : Pushed r₃.2 (u64Bytes input) r₄) (h₅ : Pushed r₄.2 (u64Bytes output) r₅) :
    Denotes (r₅.2.programmableMoveCall .settlementPrologue []
        [.input 0, r₁.1, r₂.1, r₃.1, r₄.1, r₅.1])
        (calls ++ [.prologue epoch checkpointHeight idx input output]) ∧
      r₅.2.inputs.length ≤ b.inputs.length + 5 := by
  have g₄ := h₅.grows
  have g₃ := h₄.grows.trans g₄
  have g₂ := h₃.grows.trans g₃
  have g₁ := h₂.grows.trans g₂
  constructor
  · refine (h.grow (h₁.grows.trans g₁) h₅.inv ?_).call fun hlength => ?_
    · rw [h₅.commands, h₄.commands, h₃.commands, h₂.commands, h₁.commands]
    · have n₁ := (h₁.names (Nat.le_trans g₁.length_le hlength)).mono g₁
      have n₂ := (h₂.names (Nat.le_trans g₂.length_le hlength)).mono g₂
      have n₃ := (h₃.names (Nat.le_trans g₃.length_le hlength)).mono g₃
      have n₄ := (h₄.names (Nat.le_trans g₄.length_le hlength)).mono g₄
      have n₅ := h₅.names hlength
      simp only [MoveCall.resolve, h₅.inv.rootArgument, n₁.u64Argument, n₂.u64Argument,
        n₃.u64Argument, n₄.u64Argument, n₅.u64Argument]
      rfl
  · have l₁ := h₁.length_le
    have l₂ := h₂.length_le
    have l₃ := h₃.length_le
    have l₄ := h₄.length_le
    have l₅ := h₅.length_le
    omega

theorem Denotes.prologue (h : Denotes b calls) (epoch checkpointHeight idx input output : UInt64) :
    Denotes (addPrologue b (.input 0) epoch checkpointHeight idx input output)
        (calls ++ [.prologue epoch checkpointHeight idx input output]) ∧
      (addPrologue b (.input 0) epoch checkpointHeight idx input output).inputs.length ≤
        b.inputs.length + 5 :=
  h.prologueCall (h.inv.pure _) ((h.inv.pure _).inv.pure _) (((h.inv.pure _).inv.pure _).inv.pure _)
    ((((h.inv.pure _).inv.pure _).inv.pure _).inv.pure _)
    (((((h.inv.pure _).inv.pure _).inv.pure _).inv.pure _).inv.pure _)

/-! ### The call for an update -/

def Update.sums (update : Update) : Nat × Nat :=
  match update.merge, update.split with
  | .sumU128 merge, .sumU128 split => (merge, split)
  | _, _ => (0, 0)

def settleCalls (address : AccumulatorAddress) (net : Nat × Nat) : List SettlementCall :=
  if net.1 ≠ 0 ∨ net.2 ≠ 0 then [.settleU128 address.ty address.address net.1 net.2] else []

structure BalanceEntry (hashes : Hashes)
    (addresses : Std.ExtTreeMap AccumulatorObjId AccumulatorAddress compare)
    (entry : AccumulatorObjId × Update) (address : AccumulatorAddress) : Prop where
  found : addresses[entry.1]? = some address
  balance : classify address.ty = .balance
  fieldId : hashes.fieldId address = entry.1
  merge : entry.2.merge = .sumU128 entry.2.sums.1
  split : entry.2.split = .sumU128 entry.2.sums.2
  merge_lt : entry.2.sums.1 < 2 ^ 128
  split_lt : entry.2.sums.2 < 2 ^ 128

theorem netOut_lt {merge split : Nat} (hmerge : merge < 2 ^ 128) (hsplit : split < 2 ^ 128) :
    (netOut merge split).1 < 2 ^ 128 ∧ (netOut merge split).2 < 2 ^ 128 := by
  unfold netOut
  split_ifs
  · dsimp only
    omega
  · dsimp only
    omega

/-- A command that cannot be read, whatever inputs are added. -/
def Broken (b : ProgrammableTransactionBuilder) : Prop :=
  ∃ command ∈ b.commands, ∀ inputs, b.inputs.map Prod.snd <+: inputs →
    ∀ call, command.resolve inputs ≠ .ok call

theorem Broken.mono (h : Broken b)
    (hgrows : b.inputs <+: b'.inputs) (hcommands : ∀ c ∈ b.commands, c ∈ b'.commands) :
    Broken b' := by
  obtain ⟨command, hmem, hbroken⟩ := h
  exact ⟨command, hcommands command hmem,
    fun inputs hinputs => hbroken inputs ((hgrows.map Prod.snd).trans hinputs)⟩

theorem BuilderInv.pureArgument_root (hinv : BuilderInv b)
    {inputs : List CallArg} (hinputs : b.inputs.map Prod.snd <+: inputs) (n : Nat)
    (bytes : List UInt8) : pureArgument inputs (.input 0) n ≠ .ok bytes := by
  obtain ⟨key, obj, hget, -⟩ := hinv.root
  have hargument : argument inputs (.input 0) = .ok (.object obj) := by
    refine argument_okLe hinputs _ _ ?_
    simp [argument, hget]
  rw [Accumulators.pureArgument, hargument]
  exact nofun

structure Updated (address : AccumulatorAddress) (net : Nat × Nat)
    (b b' : ProgrammableTransactionBuilder) : Prop where
  grows : b.inputs <+: b'.inputs
  commands : ∀ c ∈ b.commands, c ∈ b'.commands
  length_le : b'.inputs.length ≤ b.inputs.length + 3
  mem : BuilderArg.pure address.address.toList ∈ b'.inputs.map Prod.fst
  denotes : ∀ calls, Denotes b calls → Denotes b' (calls ++ settleCalls address net)
  broken : net.1 ≠ 0 ∨ net.2 ≠ 0 → b.inputs.length ≤ 2 ^ 16 → 2 ^ 16 < b'.inputs.length → Broken b'

variable {address : AccumulatorAddress}

theorem updated_settleCall {net : Nat × Nat} (hnonzero : net.1 ≠ 0 ∨ net.2 ≠ 0)
    (hmerge : net.1 < 2 ^ 128) (hsplit : net.2 < 2 ^ 128)
    {r₁ r₂ r₃ : Argument × ProgrammableTransactionBuilder} (h₁ : Pushed b address.address.toList r₁)
    (h₂ : Pushed r₁.2 (u128Bytes net.1) r₂) (h₃ : Pushed r₂.2 (u128Bytes net.2) r₃) :
    Updated address net b
      (r₃.2.programmableMoveCall .settleU128 [address.ty] [.input 0, r₁.1, r₂.1, r₃.1]) := by
  have g₂ := h₃.grows
  have g₁ := h₂.grows.trans g₂
  have hcommands : r₃.2.commands = b.commands := by
    rw [h₃.commands, h₂.commands, h₁.commands]
  refine ⟨h₁.grows.trans g₁, ?_, ?_, ?_, ?_, ?_⟩
  · intro c hc
    exact mem_append_left _ (hcommands ▸ hc)
  · have l₁ := h₁.length_le
    have l₂ := h₂.length_le
    have l₃ := h₃.length_le
    change r₃.2.inputs.length ≤ _
    omega
  · exact (g₁.map Prod.fst).subset h₁.mem
  · intro calls hcalls
    rw [settleCalls, if_pos hnonzero]
    refine (hcalls.grow (h₁.grows.trans g₁) h₃.inv hcommands).call fun hlength => ?_
    have n₁ := (h₁.names (Nat.le_trans g₁.length_le hlength)).mono g₁
    have n₂ := (h₂.names (Nat.le_trans g₂.length_le hlength)).mono g₂
    have n₃ := h₃.names hlength
    simp only [MoveCall.resolve, h₃.inv.rootArgument, n₁.addressArgument, n₂.u128Argument hmerge,
      n₃.u128Argument hsplit]
    rfl
  · -- one of the three inputs is the one that does not fit
    intro _ hle hlt
    refine ⟨⟨.settleU128, [address.ty], [.input 0, r₁.1, r₂.1, r₃.1]⟩,
      mem_concat_self, fun inputs hinputs call hcall => ?_⟩
    obtain ⟨-, -, owner, howner, merge, hmergeArg, split, hsplitArg, -⟩ := bind₄_eq_ok.mp hcall
    obtain ⟨ownerBytes, hownerBytes, -⟩ := bind_eq_ok.mp howner
    obtain ⟨mergeBytes, hmergeBytes, -⟩ := bind_eq_ok.mp hmergeArg
    obtain ⟨splitBytes, hsplitBytes, -⟩ := bind_eq_ok.mp hsplitArg
    have hroot := h₃.inv.pureArgument_root hinputs
    by_cases h₁le : r₁.2.inputs.length ≤ 2 ^ 16
    · by_cases h₂le : r₂.2.inputs.length ≤ 2 ^ 16
      · rw [h₃.crosses h₂le hlt] at hsplitBytes
        exact hroot _ _ hsplitBytes
      · rw [h₂.crosses h₁le (Nat.not_le.mp h₂le)] at hmergeBytes
        exact hroot _ _ hmergeBytes
    · rw [h₁.crosses hle (Nat.not_le.mp h₁le)] at hownerBytes
      exact hroot _ _ hownerBytes

theorem addUpdate_spec {hashes : Hashes}
    {addresses : Std.ExtTreeMap AccumulatorObjId AccumulatorAddress compare}
    {entry : AccumulatorObjId × Update} (hentry : BalanceEntry hashes addresses entry address)
    (checkpointSeq : UInt64) (hinv : BuilderInv b) :
    ∃ b', addUpdate hashes addresses (.input 0) checkpointSeq b entry = .ok b' ∧
      Updated address (netOut entry.2.sums.1 entry.2.sums.2) b b' := by
  obtain ⟨hmerge, hsplit⟩ := netOut_lt hentry.merge_lt hentry.split_lt
  have hpush := hinv.pure address.address.toList
  by_cases hnonzero : (netOut entry.2.sums.1 entry.2.sums.2).1 ≠ 0 ∨
      (netOut entry.2.sums.1 entry.2.sums.2).2 ≠ 0
  · refine ⟨_, ?_, updated_settleCall hnonzero hmerge hsplit hpush (hpush.inv.pure _)
      ((hpush.inv.pure _).inv.pure _)⟩
    simp only [addUpdate, hentry.found, addMoveCall, hentry.merge, hentry.split,
      MergedValue.ofIntermediate, hentry.balance]
    exact if_pos hnonzero
  · refine ⟨(b.pure address.address.toList).2, ?_, hpush.grows, ?_, ?_, hpush.mem, ?_, ?_⟩
    · simp only [addUpdate, hentry.found, addMoveCall, hentry.merge, hentry.split,
        MergedValue.ofIntermediate, hentry.balance]
      exact if_neg hnonzero
    · intro c hc
      rw [hpush.commands]
      exact hc
    · have := hpush.length_le
      omega
    · intro calls hcalls
      rw [settleCalls, if_neg hnonzero, append_nil]
      exact hcalls.grow hpush.grows hpush.inv hpush.commands
    · exact fun h => absurd h hnonzero

/-! ### Whole transactions -/

section Chunk

variable {hashes : Hashes}
  {addresses : Std.ExtTreeMap AccumulatorObjId AccumulatorAddress compare}
  {updates : List (AccumulatorObjId × Update)}

def updateCalls (addresses : Std.ExtTreeMap AccumulatorObjId AccumulatorAddress compare)
    (entry : AccumulatorObjId × Update) : List SettlementCall :=
  match addresses[entry.1]? with
  | some address => settleCalls address (netOut entry.2.sums.1 entry.2.sums.2)
  | none => []

theorem BalanceEntry.updateCalls {entry : AccumulatorObjId × Update} {address : AccumulatorAddress}
    (h : BalanceEntry hashes addresses entry address) :
    updateCalls addresses entry = settleCalls address (netOut entry.2.sums.1 entry.2.sums.2) := by
  rw [Accumulators.updateCalls, h.found]

variable {b : ProgrammableTransactionBuilder} {calls : List SettlementCall}

section

variable (hupdates : ∀ entry ∈ updates, ∃ address, BalanceEntry hashes addresses entry address)
include hupdates

theorem foldlM_addUpdate (checkpointSeq : UInt64) (hb : Denotes b calls) :
    ∃ b', updates.foldlM (addUpdate hashes addresses (.input 0) checkpointSeq) b = .ok b' ∧
      Denotes b' (calls ++ updates.flatMap (updateCalls addresses)) ∧
      b'.inputs.length ≤ b.inputs.length + 3 * updates.length := by
  induction updates generalizing b calls with
  | nil =>
    refine ⟨b, rfl, ?_, Nat.le_refl _⟩
    rw [flatMap_nil, append_nil]
    exact hb
  | cons entry updates ih =>
    obtain ⟨address, hentry⟩ := hupdates entry (.head _)
    obtain ⟨b₁, hb₁, hupdated⟩ := addUpdate_spec hentry checkpointSeq hb.inv
    obtain ⟨b', hb', hdenotes, hlength⟩ := ih
      (fun e he => hupdates e (.tail entry he)) (hupdated.denotes calls hb)
    refine ⟨b', foldlM_cons_eq_ok.mpr ⟨b₁, hb₁, hb'⟩, ?_, ?_⟩
    · rw [flatMap_cons, hentry.updateCalls, ← append_assoc]
      exact hdenotes
    · have := hupdated.length_le
      rw [length_cons]
      omega

theorem buildOneSettlementTxn_spec (ctx : SettlementContext) (idx : UInt64) :
    ∃ tx input output, buildOneSettlementTxn hashes addresses ctx idx updates = .ok tx ∧
      tx.inputs.length ≤ 6 + 3 * updates.length ∧
      (tx.inputs.length ≤ 2 ^ 16 → tx.commands.mapM (·.resolve tx.inputs) =
        .ok (.prologue ctx.epoch ctx.checkpointHeight idx input output ::
          updates.flatMap (updateCalls addresses))) := by
  obtain ⟨hroot, hstart⟩ := Denotes.root ctx .nonExclusiveWrite
  generalize htotals : updates.foldl (fun acc entry =>
    (acc.1 + entry.2.inputHaneul, acc.2 + entry.2.outputHaneul)) ((0, 0) : UInt64 × UInt64) = totals
  obtain ⟨hprologue, hprologueLength⟩ :=
    hstart.prologue ctx.epoch ctx.checkpointHeight idx totals.1 totals.2
  obtain ⟨b, hb, hdenotes, hlength⟩ := foldlM_addUpdate hupdates ctx.checkpointSeq hprologue
  refine ⟨b.finish, totals.1, totals.2, ?_, ?_, ?_⟩
  · rw [buildOneSettlementTxn, htotals]
    exact bind_eq_ok.mpr ⟨b, hb, rfl⟩
  · have hone : (rootBuilder ctx .nonExclusiveWrite).2.inputs.length = 1 := rfl
    rw [ProgrammableTransactionBuilder.finish, length_map]
    omega
  · intro hle
    rw [ProgrammableTransactionBuilder.finish, length_map] at hle
    exact hdenotes.resolved hle

end

/-- With more inputs than can be named, and no update that is zero, a command is broken. -/
theorem foldlM_addUpdate_broken
    (hupdates : ∀ entry ∈ updates, ∃ address, BalanceEntry hashes addresses entry address ∧
      ((netOut entry.2.sums.1 entry.2.sums.2).1 ≠ 0 ∨ (netOut entry.2.sums.1 entry.2.sums.2).2 ≠ 0))
    (checkpointSeq : UInt64) (hb : Denotes b calls) (hsmall : b.inputs.length ≤ 2 ^ 16 ∨ Broken b) :
    ∃ b', updates.foldlM (addUpdate hashes addresses (.input 0) checkpointSeq) b = .ok b' ∧
      b.inputs <+: b'.inputs ∧ (b'.inputs.length ≤ 2 ^ 16 ∨ Broken b') ∧
      ∀ entry ∈ updates, ∀ address, addresses[entry.1]? = some address →
        BuilderArg.pure address.address.toList ∈ b'.inputs.map Prod.fst := by
  induction updates generalizing b calls with
  | nil => exact ⟨b, rfl, prefix_rfl, hsmall, nofun⟩
  | cons entry updates ih =>
    obtain ⟨address, hentry, hnonzero⟩ := hupdates entry (.head _)
    obtain ⟨b₁, hb₁, hupdated⟩ := addUpdate_spec hentry checkpointSeq hb.inv
    have hsmall₁ : b₁.inputs.length ≤ 2 ^ 16 ∨ Broken b₁ := by
      rcases hsmall with hsmall | hbroken
      · rcases Nat.lt_or_ge (2 ^ 16) b₁.inputs.length with hlt | hle
        · exact .inr (hupdated.broken hnonzero hsmall hlt)
        · exact .inl hle
      · exact .inr (hbroken.mono hupdated.grows hupdated.commands)
    obtain ⟨b', hb', hgrows, hsmall', hmem⟩ := ih
      (fun e he => hupdates e (.tail entry he)) (hupdated.denotes calls hb) hsmall₁
    refine ⟨b', foldlM_cons_eq_ok.mpr ⟨b₁, hb₁, hb'⟩, hupdated.grows.trans hgrows, hsmall', ?_⟩
    intro e he address' haddress'
    rcases mem_cons.mp he with rfl | he
    · rw [hentry.found] at haddress'
      cases haddress'
      exact (hgrows.map Prod.fst).subset hupdated.mem
    · exact hmem e he address' haddress'

theorem execute_broken {tx : ProgrammableTransaction} {command : MoveCall}
    (hmem : command ∈ tx.commands) (hbroken : ∀ call, command.resolve tx.inputs ≠ .ok call)
    (root root' : AccumulatorRoot) : tx.execute hashes root ≠ .ok root' := by
  unfold ProgrammableTransaction.execute
  obtain ⟨before, after, hcommands⟩ := append_of_mem hmem
  rw [hcommands, foldlM_append]
  intro h
  obtain ⟨root₁, -, h⟩ := bind_eq_ok.mp h
  obtain ⟨root₂, h, -⟩ := foldlM_cons_eq_ok.mp h
  obtain ⟨call, hcall, -⟩ := bind_eq_ok.mp h
  exact hbroken call hcall

/-- A settlement transaction for more than `2 ^ 16` accounts does not execute. -/
theorem buildOneSettlementTxn_broken
    (hupdates : ∀ entry ∈ updates, ∃ address, BalanceEntry hashes addresses entry address ∧
      ((netOut entry.2.sums.1 entry.2.sums.2).1 ≠ 0 ∨ (netOut entry.2.sums.1 entry.2.sums.2).2 ≠ 0))
    {accounts : List HaneulAddress} (hnodup : accounts.Nodup) (hmany : 2 ^ 16 < accounts.length)
    (haccounts : ∀ account ∈ accounts, ∃ entry ∈ updates, ∃ address,
      addresses[entry.1]? = some address ∧ address.address = account)
    (ctx : SettlementContext) (idx : UInt64) :
    ∃ tx, buildOneSettlementTxn hashes addresses ctx idx updates = .ok tx ∧
      ∀ root root', tx.execute hashes root ≠ .ok root' := by
  obtain ⟨hroot, hstart⟩ := Denotes.root ctx .nonExclusiveWrite
  generalize htotals : updates.foldl (fun acc entry =>
    (acc.1 + entry.2.inputHaneul, acc.2 + entry.2.outputHaneul)) ((0, 0) : UInt64 × UInt64) = totals
  obtain ⟨hprologue, hprologueLength⟩ :=
    hstart.prologue ctx.epoch ctx.checkpointHeight idx totals.1 totals.2
  have hone : (rootBuilder ctx .nonExclusiveWrite).2.inputs.length = 1 := rfl
  obtain ⟨b, hb, hgrows, hsmall, hmem⟩ := foldlM_addUpdate_broken hupdates ctx.checkpointSeq hprologue
    (.inl (by omega))
  refine ⟨b.finish, ?_, fun root root' => ?_⟩
  · rw [buildOneSettlementTxn, htotals]
    exact bind_eq_ok.mpr ⟨b, hb, rfl⟩
  · -- the addresses alone are too many inputs
    have hlength : accounts.length ≤ b.inputs.length := by
      have hsubset : accounts.map (fun account => BuilderArg.pure account.toList) ⊆
          b.inputs.map Prod.fst := by
        intro arg harg
        obtain ⟨account, haccount, rfl⟩ := mem_map.mp harg
        obtain ⟨entry, hentry, address, hfound, rfl⟩ := haccounts account haccount
        exact hmem entry hentry address hfound
      have hinjective : Function.Injective fun account : HaneulAddress =>
          BuilderArg.pure account.toList := by
        intro account account' h
        exact Vector.toList_inj.mp (BuilderArg.pure.inj h)
      have := ((hnodup.map hinjective).subperm hsubset).length_le
      simpa using this
    rcases hsmall with hsmall | ⟨command, hcommand, hbroken⟩
    · omega
    · exact execute_broken hcommand (hbroken _ prefix_rfl) root root'

end Chunk

end Haneul.Accumulators
