import Linera.Lib.Bytes

/-!
# Little-endian numbers

The byte strings of a fixed length that stand for numbers.
-/

def Bytes.littleEndian : Bytes → Nat
  | [] => 0
  | byte :: bytes => byte.toNat + 256 * Bytes.littleEndian bytes

/-- The `n` low bytes of a number, the least significant one first. -/
def Bytes.ofLittleEndian : Nat → Nat → Bytes
  | 0, _ => []
  | n + 1, x => .ofNat x :: Bytes.ofLittleEndian n (x / 256)

@[simp] theorem Bytes.length_ofLittleEndian (n x : Nat) : (ofLittleEndian n x).length = n := by
  induction n generalizing x with
  | zero => rfl
  | succ n ih => rw [ofLittleEndian, List.length_cons, ih]

theorem Bytes.littleEndian_ofLittleEndian (n x : Nat) :
    littleEndian (ofLittleEndian n x) = x % 256 ^ n := by
  induction n generalizing x with
  | zero => simp [ofLittleEndian, littleEndian, Nat.mod_one]
  | succ n ih =>
    rw [ofLittleEndian, littleEndian, ih, UInt8.toNat_ofNat']
    show x % 256 + 256 * (x / 256 % 256 ^ n) = x % 256 ^ (n + 1)
    rw [Nat.pow_succ, Nat.mul_comm _ 256, Nat.mod_mul]

theorem Bytes.ofLittleEndian_injective {n x y : Nat} (hx : x < 256 ^ n) (hy : y < 256 ^ n)
    (h : ofLittleEndian n x = ofLittleEndian n y) : x = y := by
  have hvalue := congrArg littleEndian h
  rwa [littleEndian_ofLittleEndian, littleEndian_ofLittleEndian, Nat.mod_eq_of_lt hx,
    Nat.mod_eq_of_lt hy] at hvalue

/-- With the most significant byte first, the order of the byte strings is that of the numbers. -/
theorem Bytes.reverse_ofLittleEndian_lt_iff {n x y : Nat} (hx : x < 256 ^ n) (hy : y < 256 ^ n) :
    (ofLittleEndian n x).reverse < (ofLittleEndian n y).reverse ↔ x < y := by
  induction n generalizing x y with
  | zero =>
    simp only [pow_zero] at hx hy
    simp [ofLittleEndian]
    omega
  | succ n ih =>
    have hx' : x / 256 < 256 ^ n := Nat.div_lt_of_lt_mul (by rwa [Nat.mul_comm, ← Nat.pow_succ])
    have hy' : y / 256 < 256 ^ n := Nat.div_lt_of_lt_mul (by rwa [Nat.mul_comm, ← Nat.pow_succ])
    rw [ofLittleEndian, ofLittleEndian, List.reverse_cons, List.reverse_cons,
      append_singleton_lt_iff (by simp), ih hx' hy', List.reverse_inj]
    have heq : ofLittleEndian n (x / 256) = ofLittleEndian n (y / 256) ↔ x / 256 = y / 256 :=
      ⟨ofLittleEndian_injective hx' hy', fun h => by rw [h]⟩
    rw [heq, UInt8.lt_iff_toNat_lt, UInt8.toNat_ofNat', UInt8.toNat_ofNat']
    show x / 256 < y / 256 ∨ x / 256 = y / 256 ∧ x % 256 < y % 256 ↔ x < y
    omega
