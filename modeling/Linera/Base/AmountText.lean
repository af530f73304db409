import Linera.Base.DataTypes
import Linera.Lib.Except

/-!
# Amounts as text

How amounts are printed and parsed. An amount is a number of attos; it is written as a
decimal number of tokens, with up to 18 digits after the point. A text is a list of
characters.

* `fromStr_eq_ok_iff` — what the parser accepts, and that the amount is exactly the one that is
  written.
* `amount_text_exact` — an amount is parsed from whatever it was printed as.
-/

namespace Linera.Amount

/-- `DECIMAL_PLACES`. -/
def decimalPlaces : Nat := 18

/-! ## Printing -/

inductive Alignment where
  | left
  | right
  | center
deriving DecidableEq

/-- The options of a format string. -/
structure Formatter where
  signPlus : Bool
  precision : Option Nat
  width : Option Nat
  align : Option Alignment
  fill : Char
deriving DecidableEq

/-- A number with at least the given number of digits. -/
def padded (minDigits n : Nat) : List Char :=
  ((Nat.digits 10 n).reverse.map Nat.digitChar).leftpad minDigits '0'

/-- `trim_end_matches('0')`. -/
def trimEndZeros (text : List Char) : List Char := (text.reverse.dropWhile (· = '0')).reverse

/-- `Display::fmt`. -/
def display (f : Formatter) (amount : Nat) : List Char :=
  let decimals := padded (decimalPlaces + 1) amount
  let integerPart := decimals.take (decimals.length - decimalPlaces)
  let fractionalPart := trimEndZeros (decimals.drop (decimals.length - decimalPlaces))
  -- We never trim non-zero digits so we don't lose any precision.
  let precision := Nat.max (f.precision.getD 0) fractionalPart.length
  let sign := if f.signPlus && amount > 0 then ['+'] else []
  let padWidth := match f.width with
    | none => 0
    | some width => width - precision - (sign.length + integerPart.length + 1)
  let leftPad := match f.align with
    | none | some .right => padWidth
    | some .center => padWidth / 2
    | some .left => 0
  List.replicate leftPad f.fill ++
    (sign ++ (integerPart ++ '.' :: fractionalPart.rightpad precision '0')) ++
    List.replicate (padWidth - leftPad) f.fill

/-! ## Parsing -/

inductive ParseAmountError where
  /-- "cannot parse amount" -/
  | parse
  /-- "cannot represent amount: number too high" -/
  | tooHigh
  /-- "cannot represent amount: too many decimal places after the point" -/
  | tooManyDigits
deriving DecidableEq

/-- `char::is_whitespace`. -/
def isWhitespace (c : Char) : Bool :=
  let n := c.toNat
  (9 ≤ n && n ≤ 13) || n == 0x20 || n == 0x85 || n == 0xA0 || n == 0x1680 ||
    (0x2000 ≤ n && n ≤ 0x200A) || n == 0x2028 || n == 0x2029 || n == 0x202F || n == 0x205F ||
    n == 0x3000

/-- `str::trim`. -/
def trim (text : List Char) : List Char :=
  ((text.dropWhile isWhitespace).reverse.dropWhile isWhitespace).reverse

/-- Removes one leading plus sign. -/
def dropPlus : List Char → List Char
  | '+' :: chars => chars
  | chars => chars

def digit (c : Char) : Nat := c.toNat - '0'.toNat

/-- `to_digit(10)`. -/
def toDigit (c : Char) : Option Nat := if c.isDigit then some (digit c) else none

/-- Uses up one of the decimal places, if we are behind the point. -/
def nextDecimal : Option Nat → Except ParseAmountError (Option Nat)
  | none => .ok none
  | some 0 => .error .tooManyDigits
  | some (d + 1) => .ok (some d)

/-- The body of the loop: the digits so far as a number, and behind the point the number of decimal
places that are left. -/
def parseChar (s : Nat × Option Nat) (c : Char) : Except ParseAmountError (Nat × Option Nat) :=
  if c = '_' then .ok s
  else if c = '.' then
    if s.2.isSome then .error .parse else .ok (s.1, some decimalPlaces)
  else
    match toDigit c with
    | none => .error .parse
    | some digit => do
      let decimals ← nextDecimal s.2
      ensure (s.1 * 10 ≤ Amount.max ∧ s.1 * 10 + digit ≤ Amount.max) .tooHigh
      return (s.1 * 10 + digit, decimals)

/-- `FromStr::from_str`. -/
def fromStr (src : List Char) : Except ParseAmountError Nat := do
  let (result, decimals) ← (dropPlus (trim src)).foldlM parseChar (0, none)
  ensure (result * 10 ^ decimals.getD decimalPlaces ≤ Amount.max) .tooHigh
  return result * 10 ^ decimals.getD decimalPlaces

/-! ## Digits -/

/-- The number that digits stand for, after a number that has been read before. -/
def readFrom (n : Nat) (digits : List Char) : Nat := digits.foldl (fun n c => n * 10 + digit c) n

def number (digits : List Char) : Nat := readFrom 0 digits

theorem readFrom_append (n : Nat) (a b : List Char) :
    readFrom n (a ++ b) = readFrom (readFrom n a) b :=
  List.foldl_append

theorem readFrom_eq (n : Nat) (digits : List Char) :
    readFrom n digits = n * 10 ^ digits.length + number digits := by
  induction digits generalizing n with
  | nil => simp [readFrom, number]
  | cons c digits ih =>
    have hcons : ∀ m, readFrom m (c :: digits) = readFrom (m * 10 + digit c) digits := fun _ => rfl
    rw [number, hcons, hcons, ih, ih (0 * 10 + digit c), List.length_cons, pow_succ]
    ring

theorem number_append (a b : List Char) :
    number (a ++ b) = number a * 10 ^ b.length + number b := by
  rw [number, readFrom_append, readFrom_eq]
  rfl

theorem number_zeros (n : Nat) : number (List.replicate n '0') = 0 := by
  induction n with
  | zero => rfl
  | succ n ih => exact ih

theorem le_readFrom (n : Nat) (digits : List Char) : n ≤ readFrom n digits := by
  rw [readFrom_eq]
  exact (Nat.le_mul_of_pos_right n (by positivity)).trans (Nat.le_add_right _ _)

/-- The text consists of digits. -/
def Digits (text : List Char) : Prop := ∀ c ∈ text, c.isDigit

theorem digits_nil : Digits [] := by
  intro c hc
  cases hc

variable {text : List Char}

theorem digits_cons {c : Char} : Digits (c :: text) ↔ c.isDigit ∧ Digits text :=
  List.forall_mem_cons

/-! ## What is accepted -/

/-- The text that counts: without whitespace around it, one plus sign and underscores. -/
def significant (src : List Char) : List Char := (dropPlus (trim src)).filter (· ≠ '_')

/-- Digits with at most one point among them. -/
structure IsDecimal (text int frac : List Char) : Prop where
  text : text = int ∧ frac = [] ∨ text = int ++ '.' :: frac
  places : frac.length ≤ decimalPlaces
  int : Digits int
  frac : Digits frac

/-- The number that is written. -/
def decimal (int frac : List Char) : ℚ := number int + number frac / 10 ^ frac.length

/-- The attos in a number of tokens. -/
theorem attos_eq {int frac : List Char} (h : frac.length ≤ decimalPlaces) :
    ((number (int ++ frac) * 10 ^ (decimalPlaces - frac.length) : Nat) : ℚ) =
      10 ^ decimalPlaces * decimal int frac := by
  have hpow : (10 : ℚ) ^ decimalPlaces =
      10 ^ (decimalPlaces - frac.length) * 10 ^ frac.length := by
    rw [← pow_add, Nat.sub_add_cancel h]
  rw [number_append, decimal, hpow]
  push_cast
  field_simp

theorem parseChar_underscore (s : Nat × Option Nat) : parseChar s '_' = .ok s := rfl

/-- Underscores are skipped. -/
theorem foldlM_filter (text : List Char) (s : Nat × Option Nat) :
    text.foldlM parseChar s = (text.filter (· ≠ '_')).foldlM parseChar s := by
  induction text generalizing s with
  | nil => rfl
  | cons c text ih =>
    by_cases hc : c = '_'
    · rw [List.foldlM_cons, hc, parseChar_underscore, Except.ok_bind, ih]
      simp
    · rw [List.filter_cons_of_pos (by simpa using hc), List.foldlM_cons, List.foldlM_cons]
      exact bind_congr fun s' => ih s'

/-- What the loop does with a digit. -/
theorem parseChar_digit {c : Char} (hc : c.isDigit) (s : Nat × Option Nat) {s' : Nat × Option Nat} :
    parseChar s c = .ok s' ↔
      ∃ decimals, nextDecimal s.2 = .ok decimals ∧ s.1 * 10 + digit c ≤ Amount.max ∧
        s' = (s.1 * 10 + digit c, decimals) := by
  have hunderscore : c ≠ '_' := by rintro rfl; exact absurd hc (by decide)
  have hpoint : c ≠ '.' := by rintro rfl; exact absurd hc (by decide)
  simp only [parseChar, if_neg hunderscore, if_neg hpoint, toDigit, if_pos hc, Except.bind_eq_ok,
    Except.ensure_eq_ok, Except.pure_eq, Except.ok.injEq]
  constructor
  · rintro ⟨decimals, hdecimals, -, ⟨-, hle⟩, rfl⟩
    exact ⟨decimals, hdecimals, hle, rfl⟩
  · rintro ⟨decimals, hdecimals, hle, rfl⟩
    exact ⟨decimals, hdecimals, (), ⟨by omega, hle⟩, rfl⟩

theorem parseChar_other {c : Char} (hc : ¬c.isDigit) (hunderscore : c ≠ '_') (hpoint : c ≠ '.')
    (s : Nat × Option Nat) : parseChar s c = .error .parse := by
  simp only [parseChar, if_neg hunderscore, if_neg hpoint, toDigit, if_neg hc]

/-- The loop behind the point. -/
theorem foldlM_frac (htext : '_' ∉ text) {n places : Nat} (hn : n ≤ Amount.max)
    {s : Nat × Option Nat} : text.foldlM parseChar (n, some places) = .ok s ↔
      Digits text ∧ text.length ≤ places ∧ readFrom n text ≤ Amount.max ∧
        s = (readFrom n text, some (places - text.length)) := by
  induction text generalizing n places with
  | nil =>
    constructor
    · intro h
      cases h
      exact ⟨digits_nil, Nat.zero_le _, hn, rfl⟩
    · rintro ⟨-, -, -, rfl⟩
      rfl
  | cons c text ih =>
    obtain ⟨hunderscore, htail⟩ := not_or.mp (mt List.mem_cons.mpr htext)
    rw [List.foldlM_cons, Except.bind_eq_ok, digits_cons, List.length_cons]
    have hread : readFrom n (c :: text) = readFrom (n * 10 + digit c) text := rfl
    have hle := le_readFrom (n * 10 + digit c) text
    rw [hread]
    by_cases hdigit : c.isDigit
    · cases places with
      | zero =>
        -- There are no more decimal places.
        refine iff_of_false ?_ fun h => by omega
        rintro ⟨s', hs', -⟩
        obtain ⟨decimals, hdecimals, -⟩ := (parseChar_digit hdigit _).mp hs'
        cases hdecimals
      | succ places =>
        constructor
        · rintro ⟨s', hs', hrest⟩
          obtain ⟨decimals, hdecimals, hmax, rfl⟩ := (parseChar_digit hdigit _).mp hs'
          cases hdecimals
          obtain ⟨hdigits, hlength, hmax, rfl⟩ := (ih htail hmax).mp hrest
          exact ⟨⟨hdigit, hdigits⟩, by omega, hmax, by rw [Nat.add_sub_add_right]⟩
        · rintro ⟨⟨-, hdigits⟩, hlength, hmax, rfl⟩
          have hmax' : n * 10 + digit c ≤ Amount.max := hle.trans hmax
          refine ⟨_, (parseChar_digit hdigit _).mpr ⟨some places, rfl, hmax', rfl⟩, ?_⟩
          exact (ih htail hmax').mpr ⟨hdigits, by omega, hmax, by rw [Nat.add_sub_add_right]⟩
    · refine iff_of_false ?_ fun h => hdigit h.1.1
      rintro ⟨s', hs', -⟩
      by_cases hpoint : c = '.'
      · -- A second point.
        subst hpoint
        cases hs'
      · rw [parseChar_other hdigit (Ne.symm hunderscore) hpoint] at hs'
        cases hs'

/-- The loop before the point. -/
theorem foldlM_int (htext : '_' ∉ text) {n : Nat} (hn : n ≤ Amount.max) {s : Nat × Option Nat} :
    text.foldlM parseChar (n, none) = .ok s ↔
      (Digits text ∧ readFrom n text ≤ Amount.max ∧ s = (readFrom n text, none)) ∨
      ∃ int frac, text = int ++ '.' :: frac ∧ Digits int ∧ Digits frac ∧
        frac.length ≤ decimalPlaces ∧ readFrom n (int ++ frac) ≤ Amount.max ∧
        s = (readFrom n (int ++ frac), some (decimalPlaces - frac.length)) := by
  induction text generalizing n with
  | nil =>
    constructor
    · intro h
      cases h
      exact .inl ⟨digits_nil, hn, rfl⟩
    · rintro (⟨-, -, rfl⟩ | ⟨int, frac, heq, -⟩)
      · rfl
      · simp at heq
  | cons c text ih =>
    obtain ⟨hunderscore, htail⟩ := not_or.mp (mt List.mem_cons.mpr htext)
    rw [List.foldlM_cons, Except.bind_eq_ok]
    by_cases hpoint : c = '.'
    · -- From here on the digits count as decimal places.
      subst hpoint
      have hstep : parseChar (n, none) '.' = .ok (n, some decimalPlaces) := rfl
      rw [hstep]
      constructor
      · rintro ⟨s', hs', hrest⟩
        cases hs'
        obtain ⟨hdigits, hlength, hmax, rfl⟩ := (foldlM_frac htail hn).mp hrest
        exact .inr ⟨[], text, rfl, digits_nil, hdigits, hlength, hmax, rfl⟩
      · rintro (⟨hdigits, -⟩ | ⟨int, frac, heq, hint, hfrac, hlength, hmax, rfl⟩)
        · exact absurd (hdigits '.' List.mem_cons_self) (by decide)
        · cases int with
          | nil =>
            obtain ⟨-, rfl⟩ := List.cons.inj heq
            exact ⟨_, rfl, (foldlM_frac htail hn).mpr ⟨hfrac, hlength, hmax, rfl⟩⟩
          | cons d int =>
            obtain ⟨rfl, -⟩ := List.cons.inj heq
            exact absurd (hint '.' List.mem_cons_self) (by decide)
    · have hread : ∀ rest, readFrom n (c :: rest) = readFrom (n * 10 + digit c) rest :=
        fun _ => rfl
      by_cases hdigit : c.isDigit
      · constructor
        · rintro ⟨s', hs', hrest⟩
          obtain ⟨decimals, hdecimals, hmax, rfl⟩ := (parseChar_digit hdigit _).mp hs'
          cases hdecimals
          rcases (ih htail hmax).mp hrest with ⟨hdigits, hmax, rfl⟩ |
            ⟨int, frac, rfl, hint, hfrac, hlength, hmax, rfl⟩
          · exact .inl ⟨digits_cons.mpr ⟨hdigit, hdigits⟩, hmax, rfl⟩
          · exact .inr ⟨c :: int, frac, rfl, digits_cons.mpr ⟨hdigit, hint⟩, hfrac, hlength, hmax,
              rfl⟩
        · rintro (⟨hdigits, hmax, rfl⟩ | ⟨int, frac, heq, hint, hfrac, hlength, hmax, rfl⟩)
          · rw [hread] at hmax ⊢
            have hmax' := (le_readFrom _ _).trans hmax
            refine ⟨_, (parseChar_digit hdigit _).mpr ⟨none, rfl, hmax', rfl⟩, ?_⟩
            exact (ih htail hmax').mpr (.inl ⟨(digits_cons.mp hdigits).2, hmax, rfl⟩)
          · cases int with
            | nil => exact absurd (List.cons.inj heq).1 hpoint
            | cons d int =>
              obtain ⟨rfl, rfl⟩ := List.cons.inj heq
              rw [List.cons_append, hread] at hmax ⊢
              have hmax' := (le_readFrom _ _).trans hmax
              refine ⟨_, (parseChar_digit hdigit _).mpr ⟨none, rfl, hmax', rfl⟩, ?_⟩
              exact (ih htail hmax').mpr (.inr ⟨int, frac, rfl, (digits_cons.mp hint).2, hfrac,
                hlength, hmax, rfl⟩)
      · constructor
        · rintro ⟨s', hs', -⟩
          rw [parseChar_other hdigit (Ne.symm hunderscore) hpoint] at hs'
          cases hs'
        · rintro (⟨hdigits, -⟩ | ⟨int, frac, heq, hint, -⟩)
          · exact absurd (hdigits c List.mem_cons_self) hdigit
          · cases int with
            | nil => exact absurd (List.cons.inj heq).1 hpoint
            | cons d int =>
              obtain ⟨rfl, -⟩ := List.cons.inj heq
              exact absurd (hint c List.mem_cons_self) hdigit

/-- The parser accepts decimal numbers with at most 18 places whose attos fit, and its result are
these attos. -/
theorem fromStr_eq_ok_iff {src : List Char} {attos : Nat} : fromStr src = .ok attos ↔
      attos ≤ Amount.max ∧ ∃ int frac, IsDecimal (significant src) int frac ∧
        attos = number (int ++ frac) * 10 ^ (decimalPlaces - frac.length) := by
  have hunderscore : '_' ∉ significant src := by simp [significant]
  -- If the attos fit, then so do the digits, which the loop checks one by one.
  have hmax : ∀ n k, n * 10 ^ k ≤ Amount.max → n ≤ Amount.max := fun n k h =>
    (Nat.le_mul_of_pos_right n (by positivity)).trans h
  unfold fromStr
  rw [foldlM_filter]
  simp only [Except.bind_eq_ok, Except.ensure_eq_ok, Except.pure_eq, Except.ok.injEq]
  change (∃ s, (significant src).foldlM parseChar (0, none) = .ok s ∧ _) ↔ _
  constructor
  · rintro ⟨s, hs, -, hle, rfl⟩
    refine ⟨hle, ?_⟩
    rcases (foldlM_int hunderscore (Nat.zero_le _)).mp hs with ⟨hdigits, -, rfl⟩ |
      ⟨int, frac, htext, hint, hfrac, hlength, -, rfl⟩
    · exact ⟨significant src, [], ⟨.inl ⟨rfl, rfl⟩, Nat.zero_le _, hdigits, digits_nil⟩, by
        rw [List.append_nil]; rfl⟩
    · exact ⟨int, frac, ⟨.inr htext, hlength, hint, hfrac⟩, rfl⟩
  · rintro ⟨hle, int, frac, ⟨htext, hlength, hint, hfrac⟩, rfl⟩
    rcases htext with ⟨htext, rfl⟩ | htext
    · rw [List.append_nil] at hle ⊢
      refine ⟨(number int, none), (foldlM_int hunderscore (Nat.zero_le _)).mpr (.inl ?_), (), hle,
        rfl⟩
      rw [htext]
      exact ⟨hint, hmax _ _ hle, rfl⟩
    · refine ⟨(number (int ++ frac), some (decimalPlaces - frac.length)),
        (foldlM_int hunderscore (Nat.zero_le _)).mpr (.inr ?_), (), hle, rfl⟩
      exact ⟨int, frac, htext, hint, hfrac, hlength, hmax _ _ hle, rfl⟩

/-! ## What is printed -/

theorem isDigit_digitChar {d : Nat} (h : d < 10) :
    (Nat.digitChar d).isDigit ∧ digit (Nat.digitChar d) = d := by
  have hall : ∀ d < 10, (Nat.digitChar d).isDigit ∧ digit (Nat.digitChar d) = d := by decide
  exact hall d h

theorem number_digits {l : List Nat} (h : ∀ d ∈ l, d < 10) :
    number (l.reverse.map Nat.digitChar) = Nat.ofDigits 10 l := by
  induction l with
  | nil => rfl
  | cons d l ih =>
    obtain ⟨hd, hl⟩ := List.forall_mem_cons.mp h
    have hlast : number [Nat.digitChar d] = d := by
      rw [number, readFrom, List.foldl_cons, (isDigit_digitChar hd).2]
      simp
    rw [List.reverse_cons, List.map_append, number_append, ih hl, List.map_singleton, hlast,
      Nat.ofDigits_cons, List.length_singleton]
    ring

variable (minDigits n : Nat)

theorem digits_padded : Digits (padded minDigits n) := by
  intro c hc
  rcases List.mem_append.mp hc with hc | hc
  · rw [List.eq_of_mem_replicate hc]
    rfl
  · obtain ⟨d, hd, rfl⟩ := List.mem_map.mp hc
    exact (isDigit_digitChar (Nat.digits_lt_base (by decide) (List.mem_reverse.mp hd))).1

theorem number_padded : number (padded minDigits n) = n := by
  rw [padded, List.leftpad, number_append, number_zeros, Nat.zero_mul, Nat.zero_add,
    number_digits fun d hd => Nat.digits_lt_base (by decide) hd, Nat.ofDigits_digits]

theorem le_length_padded : minDigits ≤ (padded minDigits n).length := by
  rw [padded, List.leftpad, List.length_append, List.length_replicate]
  omega

theorem exists_trimEndZeros (text : List Char) :
    ∃ zeros, text = trimEndZeros text ++ List.replicate zeros '0' := by
  have hzeros : text.reverse.takeWhile (· = '0') =
      List.replicate (text.reverse.takeWhile (· = '0')).length '0' := by
    refine List.eq_replicate_of_mem fun c hc => ?_
    simpa using List.mem_takeWhile_imp hc
  refine ⟨(text.reverse.takeWhile (· = '0')).length, ?_⟩
  rw [← List.reverse_inj, List.reverse_append, List.reverse_replicate, ← hzeros, trimEndZeros,
    List.reverse_reverse, List.takeWhile_append_dropWhile]

/-- The digits after the point, without zeros at the end and then with some of them again. -/
theorem number_rightpad (int : List Char) {frac : List Char} (hfrac : frac.length = decimalPlaces)
    {precision : Nat} (hprecision : precision ≤ decimalPlaces) :
    ∃ frac', (trimEndZeros frac).rightpad (Nat.max precision (trimEndZeros frac).length) '0' =
        frac' ∧
      frac'.length ≤ decimalPlaces ∧
      number (int ++ frac') * 10 ^ (decimalPlaces - frac'.length) = number (int ++ frac) := by
  obtain ⟨zeros, hzeros⟩ := exists_trimEndZeros frac
  generalize trimEndZeros frac = trimmed at *
  subst hzeros
  -- Zeros at the end of the places do not change the number of attos.
  rw [List.length_append, List.length_replicate] at hfrac
  have hmax : Nat.max precision trimmed.length ≤ decimalPlaces :=
    Nat.max_le.mpr ⟨hprecision, by omega⟩
  have hle : trimmed.length ≤ Nat.max precision trimmed.length := Nat.le_max_right _ _
  generalize Nat.max precision trimmed.length = width at *
  have hlength : (trimmed.rightpad width '0').length = width := by
    rw [List.rightpad, List.length_append, List.length_replicate]
    omega
  have hpow : 10 ^ (width - trimmed.length) * 10 ^ (decimalPlaces - width) = 10 ^ zeros := by
    rw [← pow_add]
    congr 1
    omega
  refine ⟨_, rfl, by rw [hlength]; exact hmax, ?_⟩
  rw [hlength, List.rightpad, ← List.append_assoc, ← List.append_assoc, number_append _
    (List.replicate _ _), number_append _ (List.replicate _ _), number_zeros, number_zeros,
    Nat.add_zero, Nat.add_zero, List.length_replicate, List.length_replicate, Nat.mul_assoc, hpow]

theorem digits_rightpad {frac : List Char} (h : Digits frac) (width : Nat) :
    Digits ((trimEndZeros frac).rightpad width '0') := by
  intro c hc
  rcases List.mem_append.mp hc with hc | hc
  · obtain ⟨zeros, hzeros⟩ := exists_trimEndZeros frac
    exact h c (by rw [hzeros]; exact List.mem_append_left _ hc)
  · rw [List.eq_of_mem_replicate hc]
    rfl

/-- What is printed without a width. -/
theorem display_eq (f : Formatter) (hwidth : f.width = none)
    (hprecision : ∀ p ∈ f.precision, p ≤ decimalPlaces) (amount : Nat) :
    ∃ sign int frac, display f amount = sign ++ (int ++ '.' :: frac) ∧
      (sign = [] ∨ sign = ['+']) ∧ int ≠ [] ∧ Digits int ∧ Digits frac ∧
      frac.length ≤ decimalPlaces ∧
      amount = number (int ++ frac) * 10 ^ (decimalPlaces - frac.length) := by
  have hlength := le_length_padded (decimalPlaces + 1) amount
  have hdigits := digits_padded (decimalPlaces + 1) amount
  have hnumber := number_padded (decimalPlaces + 1) amount
  have hprecision : f.precision.getD 0 ≤ decimalPlaces := by
    cases h : f.precision with
    | none => exact Nat.zero_le _
    | some p => exact hprecision p h
  unfold display
  dsimp only
  rw [hwidth]
  generalize padded (decimalPlaces + 1) amount = decimals at *
  have hdrop : (decimals.drop (decimals.length - decimalPlaces)).length = decimalPlaces := by
    rw [List.length_drop]
    omega
  obtain ⟨frac, hfrac, hplaces, hattos⟩ := number_rightpad
    (decimals.take (decimals.length - decimalPlaces)) hdrop hprecision
  have hfracDigits := digits_rightpad
    (fun c hc => hdigits c (List.mem_of_mem_drop hc) :
      Digits (decimals.drop (decimals.length - decimalPlaces)))
    (Nat.max (f.precision.getD 0)
      (trimEndZeros (decimals.drop (decimals.length - decimalPlaces))).length)
  rw [hfrac] at hfracDigits
  rw [List.take_append_drop, hnumber] at hattos
  refine ⟨if f.signPlus && amount > 0 then ['+'] else [],
    decimals.take (decimals.length - decimalPlaces), frac, ?_, ?_, ?_,
    fun c hc => hdigits c (List.mem_of_mem_take hc), hfracDigits, hplaces, hattos.symm⟩
  · rw [hfrac]
    cases f.align with
    | none => simp
    | some align => cases align <;> simp
  · split
    · exact .inr rfl
    · exact .inl rfl
  · intro hnil
    have := congrArg List.length hnil
    rw [List.length_take, List.length_nil] at this
    omega

/-! ## The round trip -/

theorem not_isWhitespace_of_isDigit {c : Char} (h : c.isDigit) : isWhitespace c = false := by
  have hrange : 48 ≤ c.toNat ∧ c.toNat ≤ 57 := by
    simpa [Char.isDigit, UInt32.le_iff_toNat_le] using h
  simp only [isWhitespace]
  simp
  omega

theorem dropWhile_isWhitespace (h : ∀ c ∈ text, isWhitespace c = false) :
    text.dropWhile isWhitespace = text := by
  cases text with
  | nil => rfl
  | cons c text => rw [List.dropWhile_cons_of_neg (by rw [h c List.mem_cons_self]; decide)]

theorem trim_eq_self (h : ∀ c ∈ text, isWhitespace c = false) : trim text = text := by
  rw [trim, dropWhile_isWhitespace h, dropWhile_isWhitespace fun c hc =>
    h c (List.mem_reverse.mp hc), List.reverse_reverse]

/-- Nothing but the sign is removed from what is printed. -/
theorem significant_eq {sign int frac : List Char} (hsign : sign = [] ∨ sign = ['+'])
    (hne : int ≠ []) (hint : Digits int) (hfrac : Digits frac) :
    significant (sign ++ (int ++ '.' :: frac)) = int ++ '.' :: frac := by
  have hchar : ∀ c ∈ int ++ '.' :: frac, c.isDigit ∨ c = '.' := by
    intro c hc
    rcases List.mem_append.mp hc with hc | hc
    · exact .inl (hint c hc)
    · rcases List.mem_cons.mp hc with rfl | hc
      · exact .inr rfl
      · exact .inl (hfrac c hc)
  have hspace : ∀ c ∈ sign ++ (int ++ '.' :: frac), isWhitespace c = false := by
    intro c hc
    rcases List.mem_append.mp hc with hc | hc
    · rcases hsign with rfl | rfl
      · cases hc
      · rw [List.mem_singleton.mp hc]
        decide
    · rcases hchar c hc with hdigit | rfl
      · exact not_isWhitespace_of_isDigit hdigit
      · decide
  have hplus : dropPlus (sign ++ (int ++ '.' :: frac)) = int ++ '.' :: frac := by
    rcases hsign with rfl | rfl
    · obtain ⟨c, int, rfl⟩ := List.exists_cons_of_ne_nil hne
      have hc := (digits_cons.mp hint).1
      rw [List.nil_append, List.cons_append, dropPlus]
      intro chars heq
      obtain ⟨rfl, -⟩ := List.cons.inj heq
      exact absurd hc (by decide)
    · rfl
  rw [significant, trim_eq_self hspace, hplus, List.filter_eq_self]
  intro c hc
  rcases hchar c hc with hdigit | rfl
  · rw [decide_eq_true_iff]
    rintro rfl
    exact absurd hdigit (by decide)
  · decide

/-- **Amounts print and parse exactly.** The parser accepts a text exactly if its significant part is
a decimal number with at most 18 places whose attos fit in a `u128`, and returns these attos. What
is printed for an amount, with or without a plus sign and with any precision of at most 18, is
parsed as that amount. -/
theorem amount_text_exact :
    (∀ src attos, fromStr src = .ok attos ↔
      attos ≤ Amount.max ∧ ∃ int frac, IsDecimal (significant src) int frac ∧
        (attos : ℚ) = 10 ^ decimalPlaces * decimal int frac) ∧
    ∀ f : Formatter, f.width = none → (∀ p ∈ f.precision, p ≤ decimalPlaces) →
      ∀ amount ≤ Amount.max, fromStr (display f amount) = .ok amount := by
  refine ⟨fun src attos => ?_, fun f hwidth hprecision amount hamount => ?_⟩
  · rw [fromStr_eq_ok_iff]
    refine and_congr_right fun _ => exists_congr fun int => exists_congr fun frac =>
      and_congr_right fun hdecimal => ?_
    rw [← attos_eq hdecimal.places, Nat.cast_inj]
  · obtain ⟨sign, int, frac, hdisplay, hsign, hne, hint, hfrac, hplaces, hattos⟩ :=
      display_eq f hwidth hprecision amount
    refine fromStr_eq_ok_iff.mpr ⟨hamount, int, frac, ⟨.inr ?_, hplaces, hint, hfrac⟩, hattos⟩
    rw [hdisplay, significant_eq hsign hne hint hfrac]

end Linera.Amount
