import Haneul.Lib.Loop

/-!
# Reading values off the front of a byte string

A reader takes a value from the front of its input and leaves the rest, or fails.  What ties
a reader to an encoder is `Reads p x bytes`: on `bytes`, whatever follows, the reader `p`
returns `x` and leaves what follows.  Readers compose as their encodings are appended, and two
values that are read from one byte string by one reader are equal; this is how an encoding is
shown to be injective.

The formats are those of BCS: integers of a fixed width in either byte order, and vectors with
their length in front as ULEB128.
-/

namespace Haneul.Codec

variable {ε α β : Type}

/-- A reader: what is left of the input is its state. -/
abbrev Peel (ε : Type) := StateT (List UInt8) (Except ε)

/-- The reader takes exactly `bytes` and returns `x`, whatever follows. -/
def Reads (p : Peel ε α) (x : α) (bytes : List UInt8) : Prop :=
  ∀ rest, p (bytes ++ rest) = .ok (x, rest)

/-! ### Composing readers -/

section Readers

variable {p : Peel ε α} {x y : α} {bytes bytes' : List UInt8}

theorem reads_pure : Reads (pure x : Peel ε α) x [] := fun _ => rfl

theorem Reads.bind {f : α → Peel ε β} {z : β} (hp : Reads p x bytes) (hf : Reads (f x) z bytes') :
    Reads (p >>= f) z (bytes ++ bytes') := by
  intro rest
  change (p (bytes ++ bytes' ++ rest) >>= fun r => f r.1 r.2) = _
  rw [List.append_assoc, hp (bytes' ++ rest)]
  exact hf rest

theorem reads_lift {check : Except ε α} (h : check = .ok x) :
    Reads (StateT.lift check : Peel ε α) x [] := by
  intro rest
  rw [h]
  rfl

theorem Reads.all (h : Reads p x bytes) : p bytes = .ok (x, []) := by
  simpa using h []

theorem Reads.unique (hx : Reads p x bytes) (hy : Reads p y bytes) : x = y := by
  have h := hx.all.symm.trans hy.all
  rw [Except.ok.injEq, Prod.mk.injEq] at h
  exact h.1

def times (p : Peel ε α) : Nat → Peel ε (List α)
  | 0 => pure []
  | n + 1 => do
    let x ← p
    let xs ← times p n
    pure (x :: xs)

theorem reads_times {encode : α → List UInt8} {xs : List α}
    (h : ∀ x ∈ xs, Reads p x (encode x)) : Reads (times p xs.length) xs (xs.flatMap encode) := by
  induction xs with
  | nil => exact reads_pure
  | cons x xs ih =>
    have htail := ih fun y hy => h y (.tail x hy)
    have hrest : Reads (times p xs.length >>= fun ys => pure (x :: ys)) (x :: xs)
        (xs.flatMap encode ++ []) := htail.bind reads_pure
    rw [List.append_nil] at hrest
    exact (h x (.head _)).bind hrest

/-- One byte; `empty` is the failure on an input that is used up. -/
def byte (empty : ε) : Peel ε UInt8
  | [] => .error empty
  | b :: rest => .ok (b, rest)

theorem reads_byte (empty : ε) (b : UInt8) : Reads (byte empty) b [b] := fun _ => rfl

end Readers

/-! ### Integers of a fixed width -/

/-- The low `n` bytes of a number, the lowest first. -/
def leBytes : Nat → Nat → List UInt8
  | 0, _ => []
  | n + 1, v => UInt8.ofNat v :: leBytes n (v / 256)

variable (n v : Nat)

def beBytes : List UInt8 := (leBytes n v).reverse

@[simp] theorem leBytes_length : (leBytes n v).length = n := by
  induction n generalizing v with
  | zero => rfl
  | succ n ih => rw [leBytes, List.length_cons, ih]

@[simp] theorem beBytes_length : (beBytes n v).length = n := by
  rw [beBytes, List.length_reverse, leBytes_length]

/-- The highest byte comes last in one order, first in the other. -/
theorem leBytes_succ_last :
    leBytes (n + 1) v = leBytes n v ++ [UInt8.ofNat (v / 256 ^ n)] := by
  induction n generalizing v with
  | zero => rw [pow_zero, Nat.div_one]; rfl
  | succ n ih =>
    rw [leBytes, ih (v / 256), Nat.div_div_eq_div_mul, ← pow_succ']
    rfl

theorem beBytes_succ :
    beBytes (n + 1) v = UInt8.ofNat (v / 256 ^ n) :: beBytes n v := by
  rw [beBytes, leBytes_succ_last, List.reverse_append]
  rfl

/-- The value of bytes, the lowest first. -/
def leNat : List UInt8 → Nat
  | [] => 0
  | b :: rest => b.toNat + 256 * leNat rest

theorem leNat_lt (bytes : List UInt8) : leNat bytes < 256 ^ bytes.length := by
  induction bytes with
  | nil => exact Nat.one_pos
  | cons b rest ih =>
    have hbyte : b.toNat < 256 := UInt8.toNat_lt b
    rw [leNat, List.length_cons, pow_succ']
    omega

theorem leNat_leBytes : leNat (leBytes n v) = v % 256 ^ n := by
  induction n generalizing v with
  | zero => rw [pow_zero, Nat.mod_one]; rfl
  | succ n ih =>
    have hbyte : (UInt8.ofNat v).toNat = v % 256 := UInt8.toNat_ofNat'
    rw [leBytes, leNat, ih, hbyte, pow_succ', Nat.mod_mul]

theorem leNat_injective {bytes bytes' : List UInt8} (hlength : bytes.length = bytes'.length)
    (h : leNat bytes = leNat bytes') : bytes = bytes' := by
  induction bytes generalizing bytes' with
  | nil => exact (List.length_eq_zero_iff.mp hlength.symm).symm
  | cons b rest ih =>
    cases bytes' with
    | nil => cases hlength
    | cons b' rest' =>
      have hb : b.toNat < 256 := UInt8.toNat_lt b
      have hb' : b'.toNat < 256 := UInt8.toNat_lt b'
      rw [leNat, leNat] at h
      have hfirst : b = b' := UInt8.toNat_inj.mp (by omega)
      have hrest : rest = rest' := ih (Nat.succ.inj hlength) (by omega)
      rw [hfirst, hrest]

/-- `peel_num!`: the lowest byte first, the `i`-th byte weighs `256 ^ i`. -/
def peelLe (empty : ε) : (left i acc : Nat) → Peel ε Nat
  | 0, _, acc => pure acc
  | left + 1, i, acc => do
    let b ← byte empty
    peelLe empty left (i + 1) (acc + b.toNat * 256 ^ i)

/-- `peel_u64_be`: the highest byte first. -/
def peelBe (empty : ε) : (left acc : Nat) → Peel ε Nat
  | 0, acc => pure acc
  | left + 1, acc => do
    let b ← byte empty
    peelBe empty left (acc + b.toNat * 256 ^ left)

theorem reads_peelLe (empty : ε) (left i acc v : Nat) :
    Reads (peelLe empty left i acc) (acc + v % 256 ^ left * 256 ^ i) (leBytes left v) := by
  induction left generalizing i acc v with
  | zero =>
    rw [pow_zero, Nat.mod_one, Nat.zero_mul, Nat.add_zero]
    exact reads_pure
  | succ left ih =>
    have hbyte : (UInt8.ofNat v).toNat = v % 256 := UInt8.toNat_ofNat'
    have hsplit : v % 256 ^ (left + 1) = v % 256 + 256 * (v / 256 % 256 ^ left) := by
      rw [pow_succ', Nat.mod_mul]
    have hvalue : acc + v % 256 ^ (left + 1) * 256 ^ i =
        acc + (UInt8.ofNat v).toNat * 256 ^ i + v / 256 % 256 ^ left * 256 ^ (i + 1) := by
      rw [hsplit, hbyte]
      ring
    rw [hvalue]
    exact (reads_byte empty (UInt8.ofNat v)).bind (ih _ _ _)

theorem reads_peelBe (empty : ε) (left acc v : Nat) :
    Reads (peelBe empty left acc) (acc + v % 256 ^ left) (beBytes left v) := by
  induction left generalizing acc with
  | zero =>
    rw [pow_zero, Nat.mod_one, Nat.add_zero]
    exact reads_pure
  | succ left ih =>
    have hbyte : (UInt8.ofNat (v / 256 ^ left)).toNat = v / 256 ^ left % 256 := UInt8.toNat_ofNat'
    have hvalue : acc + v % 256 ^ (left + 1) =
        acc + (UInt8.ofNat (v / 256 ^ left)).toNat * 256 ^ left + v % 256 ^ left := by
      rw [pow_succ, Nat.mod_mul, hbyte]
      ring
    rw [hvalue, beBytes_succ]
    exact (reads_byte empty _).bind (ih _)

/-! ### Vectors with their length in front -/

/-- ULEB128 in at most `room` bytes, seven bits each, the lowest first; a byte that is not the
    last has its high bit set. -/
def uleb128 : (room : Nat) → Nat → List UInt8
  | 0, _ => []
  | room + 1, v =>
    if v < 128 then [UInt8.ofNat v] else UInt8.ofNat (v % 128 + 128) :: uleb128 room (v / 128)

/-- `peel_vec_length`: the low seven bits of each byte are put in at `shift`, until a byte with
    a clear high bit; `tooLong` is the failure after `room` bytes. -/
def peelUleb (empty tooLong : ε) : (room shift total : Nat) → Peel ε Nat
  | 0, _, _ => StateT.lift (.error tooLong)
  | room + 1, shift, total => do
    let b ← byte empty
    if b.toNat &&& 0x80 = 0 then pure (total ||| (b.toNat &&& 0x7f) <<< shift)
    else peelUleb empty tooLong room (shift + 7) (total ||| (b.toNat &&& 0x7f) <<< shift)

theorem low_bits (b : Nat) : b &&& 0x7f = b % 128 := Nat.and_two_pow_sub_one_eq_mod b 7

theorem high_bit_clear {b : Nat} (h : b < 128) : b &&& 0x80 = 0 := by
  have hbits : ∀ b : Fin 128, b.val &&& 0x80 = 0 := by decide
  exact hbits ⟨b, h⟩

theorem high_bit_set {b : Nat} (h : b < 128) : (b + 128) &&& 0x80 ≠ 0 := by
  have hbits : ∀ b : Fin 128, (b.val + 128) &&& 0x80 ≠ 0 := by decide
  exact hbits ⟨b, h⟩

/-- Putting bits in above those that are there is addition. -/
theorem or_shiftLeft {total shift : Nat} (h : total < 2 ^ shift) (b : Nat) :
    total ||| b <<< shift = total + b * 2 ^ shift := by
  rw [Nat.or_comm, ← Nat.shiftLeft_add_eq_or_of_lt h b, Nat.shiftLeft_eq, Nat.add_comm]

variable (empty tooLong : ε)

theorem reads_peelUleb {room shift total v : Nat} (htotal : total < 2 ^ shift)
    (hv : v < 128 ^ room) (hroom : 0 < room) :
    Reads (peelUleb empty tooLong room shift total) (total + v * 2 ^ shift) (uleb128 room v) := by
  induction room generalizing shift total v with
  | zero => omega
  | succ room ih =>
    unfold uleb128
    split_ifs with hsmall
    · have hbyte : (UInt8.ofNat v).toNat = v := by
        rw [UInt8.toNat_ofNat']
        omega
      intro rest
      change (if (UInt8.ofNat v).toNat &&& 0x80 = 0 then _ else _ : Peel ε Nat) rest = _
      rw [hbyte, if_pos (high_bit_clear hsmall), low_bits, Nat.mod_eq_of_lt hsmall,
        or_shiftLeft htotal]
      rfl
    · have hbyte : (UInt8.ofNat (v % 128 + 128)).toNat = v % 128 + 128 := by
        rw [UInt8.toNat_ofNat']
        omega
      have hroom' : 0 < room := by
        rcases Nat.eq_zero_or_pos room with rfl | h
        · exact absurd (by simpa using hv) hsmall
        · exact h
      have htotal' : total + v % 128 * 2 ^ shift < 2 ^ (shift + 7) := by
        have hle : v % 128 * 2 ^ shift ≤ 127 * 2 ^ shift :=
          Nat.mul_le_mul_right _ (Nat.le_of_lt_succ (Nat.mod_lt v (by norm_num)))
        rw [pow_add]
        omega
      have hrest := ih htotal' (v := v / 128) (Nat.div_lt_of_lt_mul (by rwa [← pow_succ'])) hroom'
      have hvalue : total + v % 128 * 2 ^ shift + v / 128 * 2 ^ (shift + 7) =
          total + v * 2 ^ shift := by
        conv_rhs => rw [← Nat.mod_add_div v 128]
        rw [pow_add]
        ring
      rw [hvalue] at hrest
      intro rest
      change (if (UInt8.ofNat (v % 128 + 128)).toNat &&& 0x80 = 0 then _ else _ : Peel ε Nat)
        (uleb128 room (v / 128) ++ rest) = _
      rw [hbyte, if_neg (high_bit_set (Nat.mod_lt v (by norm_num))), low_bits,
        Nat.add_mod_right, Nat.mod_mod, or_shiftLeft htotal]
      exact hrest rest

/-- The lengths of BCS are `u32`, which takes five bytes. -/
def lengthBytes (n : Nat) : List UInt8 := uleb128 5 n

def peelLength : Peel ε Nat := peelUleb empty tooLong 5 0 0

theorem reads_peelLength {n : Nat} (h : n < 2 ^ 32) :
    Reads (peelLength empty tooLong) n (lengthBytes n) := by
  have hread : Reads (peelUleb empty tooLong 5 0 0) (0 + n * 2 ^ 0) (uleb128 5 n) :=
    reads_peelUleb empty tooLong Nat.zero_lt_one (lt_trans h (by norm_num)) (by norm_num)
  rwa [Nat.zero_add, pow_zero, Nat.mul_one] at hread

theorem lengthBytes_of_lt {n : Nat} (h : n < 128) : lengthBytes n = [UInt8.ofNat n] := if_pos h

/-- A vector: its length, then its elements. -/
def vecBytes (encode : α → List UInt8) (xs : List α) : List UInt8 :=
  lengthBytes xs.length ++ xs.flatMap encode

def peelVec (p : Peel ε α) : Peel ε (List α) := do
  let n ← peelLength empty tooLong
  times p n

theorem reads_peelVec {p : Peel ε α} {encode : α → List UInt8} {xs : List α}
    (hlength : xs.length < 2 ^ 32) (h : ∀ x ∈ xs, Reads p x (encode x)) :
    Reads (peelVec empty tooLong p) xs (vecBytes encode xs) :=
  (reads_peelLength empty tooLong hlength).bind (reads_times h)

end Haneul.Codec
