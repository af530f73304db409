import Linera.Lib.Bytes

/-!
# Binary canonical serialization

The part of BCS that stored values need: little-endian integers, ULEB128 lengths,
byte strings, optional values, lists and pairs. A `Bcs.Codec` pairs a writer with a reader that
takes a value off the front of a byte string, and carries the round trip between the
two; codecs of compound types are built from those of their parts.
-/

namespace Bcs

/-! ## Fixed-width integers -/

/-- A `u32`, in four bytes with the least significant one first. -/
def u32 (n : Nat) : Bytes :=
  [.ofNat n, .ofNat (n / 256), .ofNat (n / 256 ^ 2), .ofNat (n / 256 ^ 3)]

/-- Reads a `u32`. -/
def readU32 : Bytes → Option (Nat × Bytes)
  | b₀ :: b₁ :: b₂ :: b₃ :: rest =>
    some (b₀.toNat + 256 * b₁.toNat + 256 ^ 2 * b₂.toNat + 256 ^ 3 * b₃.toNat, rest)
  | _ => none

@[simp] theorem length_u32 (n : Nat) : (u32 n).length = 4 := rfl

variable {n : Nat}

theorem readU32_u32 (hn : n < 2 ^ 32) (rest : Bytes) :
    readU32 (u32 n ++ rest) = some (n, rest) := by
  simp only [u32, List.cons_append, List.nil_append, readU32, Option.some.injEq, Prod.mk.injEq,
    and_true, UInt8.toNat_ofNat']
  omega

theorem u32_injective {m n : Nat} (hm : m < 2 ^ 32) (hn : n < 2 ^ 32) (h : u32 m = u32 n) :
    m = n := by
  have hread := readU32_u32 hm []
  rw [h, readU32_u32 hn []] at hread
  simpa using hread.symm

/-! ## Lengths -/

/-- The base-128 digits of a length, all but the last marked by the high bit. A length that
needs more than `more + 1` digits is cut off. -/
def ulebDigits : Nat → Nat → Bytes
  | 0, n => [.ofNat n]
  | more + 1, n =>
    if n < 128 then [.ofNat n] else .ofNat (n % 128 + 128) :: ulebDigits more (n / 128)

/-- Reads base-128 digits. A final zero digit is not canonical. -/
def readUlebDigits : Nat → Bytes → Option (Nat × Bytes)
  | _, [] => none
  | 0, b :: rest => if b.toNat < 128 then some (b.toNat, rest) else none
  | more + 1, b :: rest =>
    if b.toNat < 128 then some (b.toNat, rest)
    else match readUlebDigits more rest with
      | some (0, _) => none
      | some (n, rest) => some (b.toNat - 128 + 128 * n, rest)
      | none => none

theorem readUlebDigits_ulebDigits {more n : Nat} (hn : n < 128 ^ (more + 1)) (rest : Bytes) :
    readUlebDigits more (ulebDigits more n ++ rest) = some (n, rest) := by
  induction more generalizing n with
  | zero =>
    have hn : n < 128 := by simpa using hn
    have hmod : n % 256 = n := by omega
    simp [ulebDigits, readUlebDigits, hmod, hn]
  | succ more ih =>
    by_cases hsmall : n < 128
    · have hmod : n % 256 = n := by omega
      simp [ulebDigits, readUlebDigits, hsmall, hmod]
    · have hdigit : (n % 128 + 128) % 256 = n % 128 + 128 := by omega
      have hdiv : n / 128 < 128 ^ (more + 1) := by
        rw [Nat.div_lt_iff_lt_mul (by decide), ← Nat.pow_succ]
        exact hn
      obtain ⟨m, hm⟩ : ∃ m, n / 128 = m + 1 := ⟨n / 128 - 1, by omega⟩
      have ih := ih hdiv
      rw [hm] at ih
      simp only [ulebDigits, hsmall, if_false, List.cons_append, readUlebDigits, UInt8.toNat_ofNat',
        Nat.reducePow, hdigit, hm, ih]
      rw [if_neg (by omega)]
      simp only [Option.some.injEq, Prod.mk.injEq, and_true]
      omega

/-- The largest length of a sequence, `i32::MAX`. -/
def maxSequenceLength : Nat := 2 ^ 31 - 1

/-- A length, as a ULEB128 number. -/
def uleb128 (n : Nat) : Bytes := ulebDigits 4 n

def readLength (bytes : Bytes) : Option (Nat × Bytes) :=
  (readUlebDigits 4 bytes).filter fun r => r.1 ≤ maxSequenceLength

theorem readLength_uleb128 (hn : n ≤ maxSequenceLength) (rest : Bytes) :
    readLength (uleb128 n ++ rest) = some (n, rest) := by
  rw [readLength, uleb128, readUlebDigits_ulebDigits]
  · simp [Option.filter, hn]
  · unfold maxSequenceLength at hn
    omega

/-! ## Codecs -/

/-- A writer, which fails on values beyond the limits of the format, and a reader that undoes
it. -/
structure Codec (α : Type*) where
  write : α → Option Bytes
  read : Bytes → Option (α × Bytes)
  read_write : ∀ {a bytes}, write a = some bytes → ∀ rest, read (bytes ++ rest) = some (a, rest)

namespace Codec

variable {α β : Type*}

/-- A `u32`. -/
def u32 : Codec Nat where
  write n := if n < 2 ^ 32 then some (Bcs.u32 n) else none
  read := readU32
  read_write {n bytes} h rest := by
    split at h
    · next hn =>
      cases h
      exact readU32_u32 hn rest
    · cases h

/-- A byte string: its length and its bytes. -/
def bytes : Codec Bytes where
  write b := if b.length ≤ maxSequenceLength then some (uleb128 b.length ++ b) else none
  read input :=
    match readLength input with
    | some (n, rest) => if n ≤ rest.length then some (rest.take n, rest.drop n) else none
    | none => none
  read_write {b bytes} h rest := by
    split at h
    · next hlen =>
      cases h
      rw [List.append_assoc, readLength_uleb128 hlen]
      simp
    · cases h

variable (c : Codec α)

/-- A pair: one component after the other. -/
def pair (d : Codec β) : Codec (α × β) where
  write p := (c.write p.1).bind fun x => (d.write p.2).map fun y => x ++ y
  read input := (c.read input).bind fun r => (d.read r.2).map fun s => ((r.1, s.1), s.2)
  read_write {p bytes} h rest := by
    obtain ⟨x, hx, h⟩ := Option.bind_eq_some_iff.mp h
    obtain ⟨y, hy, rfl⟩ := Option.map_eq_some_iff.mp h
    rw [List.append_assoc, c.read_write hx]
    simp [d.read_write hy]

/-- An optional value, with a byte that says whether there is one. -/
def option : Codec (Option α) where
  write
    | none => some [0]
    | some a => (c.write a).map fun bytes => 1 :: bytes
  read
    | 0 :: rest => some (none, rest)
    | 1 :: rest => (c.read rest).map fun r => (some r.1, r.2)
    | _ => none
  read_write {o bytes} h rest := by
    cases o with
    | none =>
      cases h
      rfl
    | some a =>
      obtain ⟨x, hx, rfl⟩ := Option.map_eq_some_iff.mp h
      simp [c.read_write hx]

def writeAll (c : Codec α) : List α → Option Bytes
  | [] => some []
  | a :: l => (c.write a).bind fun x => (c.writeAll l).map fun y => x ++ y

/-- Reads a number of elements. -/
def readMany (c : Codec α) : Nat → Bytes → Option (List α × Bytes)
  | 0, input => some ([], input)
  | n + 1, input => (c.read input).bind fun r =>
      (c.readMany n r.2).map fun s => (r.1 :: s.1, s.2)

variable {bytes : Bytes}

theorem readMany_writeAll {l : List α} (h : c.writeAll l = some bytes) (rest : Bytes) :
    c.readMany l.length (bytes ++ rest) = some (l, rest) := by
  induction l generalizing bytes with
  | nil =>
    cases h
    rfl
  | cons a l ih =>
    obtain ⟨x, hx, h⟩ := Option.bind_eq_some_iff.mp h
    obtain ⟨y, hy, rfl⟩ := Option.map_eq_some_iff.mp h
    simp [readMany, List.append_assoc, c.read_write hx, ih hy]

/-- A list: its length and its elements. -/
def list : Codec (List α) where
  write l := if l.length ≤ maxSequenceLength then
    (c.writeAll l).map fun bytes => uleb128 l.length ++ bytes else none
  read input := (readLength input).bind fun r => c.readMany r.1 r.2
  read_write {l bytes} h rest := by
    split at h
    · next hlen =>
      obtain ⟨x, hx, rfl⟩ := Option.map_eq_some_iff.mp h
      rw [List.append_assoc, readLength_uleb128 hlen]
      exact c.readMany_writeAll hx rest
    · cases h

/-- A structure that is serialized as the value it is made from. -/
def map (c : Codec α) (f : α → β) (g : β → α) (hfg : ∀ b, f (g b) = b) : Codec β where
  write b := c.write (g b)
  read input := (c.read input).map fun r => (f r.1, r.2)
  read_write h rest := by
    rw [c.read_write h rest]
    simp [hfg]

/-- A `u64`, with the less significant half first. -/
def u64 : Codec Nat :=
  (pair u32 u32).map (fun p => p.1 + 2 ^ 32 * p.2) (fun n => (n % 2 ^ 32, n / 2 ^ 32))
    fun n => Nat.mod_add_div n (2 ^ 32)

theorem u64_isSome (hn : n < 2 ^ 64) : ∃ bytes, u64.write n = some bytes := by
  have hlow : n % 2 ^ 32 < 2 ^ 32 := Nat.mod_lt _ (by decide)
  have hhigh : n / 2 ^ 32 < 2 ^ 32 := by omega
  exact ⟨_, by simp only [u64, map, pair, u32, hlow, hhigh, if_true]; rfl⟩

theorem lt_of_write_u64 (h : u64.write n = some bytes) : n < 2 ^ 64 := by
  have hlow : n % 2 ^ 32 < 2 ^ 32 := Nat.mod_lt _ (by decide)
  simp only [u64, map, pair, u32, hlow, if_true] at h
  split_ifs at h with hhigh
  · omega
  · simp at h

theorem write_injective {a b : α} (ha : c.write a = some bytes) (hb : c.write b = some bytes) :
    a = b := by
  have hread := c.read_write ha []
  rw [c.read_write hb []] at hread
  exact ((Prod.mk.inj (Option.some.inj hread)).1).symm

/-- `bcs::from_bytes`: nothing may be left over. -/
def fromBytes (input : Bytes) : Option α :=
  match c.read input with
  | some (a, []) => some a
  | _ => none

theorem fromBytes_of_write {a : α} (h : c.write a = some bytes) : c.fromBytes bytes = some a := by
  have := c.read_write h []
  rw [List.append_nil] at this
  rw [fromBytes, this]

end Codec

end Bcs
