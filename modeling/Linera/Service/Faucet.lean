import Linera.Base.DataTypes
import Linera.Lib.Run

/-!
# The faucet

The faucet gives away its tokens one claim at a time. They unlock linearly between two
points in time: a claim checks that what remains after it is at least the part that is
still locked. The check multiplies a `u128` with a `u64`, in three limbs of 64 bits.

Claims run concurrently. Each reads the clock, waits for the balance, makes the check,
and then waits for a block that opens a chain; other claims may come in between at each
of these points.
-/

namespace Linera.Faucet

structure MutationRoot where
  amount : Nat
  endTimestamp : Nat
  startTimestamp : Nat
  startBalance : Nat
deriving DecidableEq

/-- The settings are within the ranges of their types. -/
structure MutationRoot.Valid (faucet : MutationRoot) : Prop where
  endTimestamp : faucet.endTimestamp ≤ u64Max
  startBalance : faucet.startBalance ≤ Amount.max

/-- `Timestamp::delta_since`. -/
def deltaSince (timestamp other : Nat) : Nat := timestamp - other

/-- Multiplies a `u128` with a `u64` and returns the result as a 192-bit number, with the most
significant limb first. -/
def multiply (a b : Nat) : List Nat :=
  let a1 := a / 2 ^ 64 * b % 2 ^ 128
  let a0 := a % 2 ^ 64 * b % 2 ^ 128
  let a1 := (a1 + a0 / 2 ^ 64) % 2 ^ 128
  [a1 / 2 ^ 64 % 2 ^ 64, a1 % 2 ^ 64, a0 % 2 ^ 64]

inductive ClaimError where
  /-- "The faucet is empty." -/
  | empty
  /-- "Not enough unlocked balance; try again later." -/
  | locked
  /-- The balance could not be read, or the chain not be opened. -/
  | clientError
deriving DecidableEq

/-- The check of `do_claim` for a claim that was made at a time before the end. -/
def check (faucet : MutationRoot) (localTime balance : Nat) : Except ClaimError Unit :=
  let fullDuration := deltaSince faucet.endTimestamp faucet.startTimestamp
  let remainingDuration := deltaSince faucet.endTimestamp localTime
  match Amount.trySub balance faucet.amount with
  | .error _ => .error .empty
  | .ok remainingBalance =>
    if multiply remainingBalance fullDuration < multiply faucet.startBalance remainingDuration then
      .error .locked
    else .ok ()

/-- How far a call of `do_claim` has come. -/
inductive Claim where
  /-- It waits for the balance. -/
  | reading (localTime : Nat)
  /-- It waits for its chain to be opened. The balance is the one that was checked; it is `none` if
  everything is unlocked. -/
  | opening (localTime : Nat) (checked : Option Nat)
  | claimed (localTime : Nat)
  | failed (error : ClaimError)
deriving DecidableEq

/-- The clock, the balance of the faucet's chain, and all claims so far. -/
structure State where
  time : Nat
  balance : Nat
  claims : List Claim
deriving DecidableEq

inductive Event where
  | tick (time : Nat)
  /-- The faucet's chain receives tokens. -/
  | deposit (amount : Nat)
  /-- A new claim is made. -/
  | claim
  /-- A claim gets the balance that it has waited for. -/
  | balance (index : Nat)
  /-- The block for a claim is confirmed. -/
  | openChain (index : Nat)
  /-- What a claim has waited for has failed. -/
  | fail (index : Nat)
deriving DecidableEq

/-- The parts of `do_claim` between its await points. -/
def step (faucet : MutationRoot) (s : State) : Event → Option State
  | .tick time => if s.time ≤ time then some { s with time } else none
  | .deposit amount =>
    if s.balance + amount ≤ Amount.max then some { s with balance := s.balance + amount } else none
  | .claim =>
    let claim : Claim :=
      -- The clock is read before the balance is waited for.
      if faucet.startTimestamp < faucet.endTimestamp ∧ s.time < faucet.endTimestamp then
        .reading s.time
      else .opening s.time none
    some { s with claims := s.claims ++ [claim] }
  | .balance index =>
    match s.claims[index]? with
    | some (.reading localTime) =>
      let claim : Claim := match check faucet localTime s.balance with
        | .ok () => .opening localTime (some s.balance)
        | .error error => .failed error
      some { s with claims := s.claims.set index claim }
    | _ => none
  | .openChain index =>
    match s.claims[index]? with
    | some (.opening localTime _) =>
      -- The balance is the current one, not the one that was checked.
      match Amount.trySub s.balance faucet.amount with
      | .ok balance => some { s with balance, claims := s.claims.set index (.claimed localTime) }
      | .error _ => none
    | _ => none
  | .fail index =>
    match s.claims[index]? with
    | some (.reading _) | some (.opening _ _) =>
      some { s with claims := s.claims.set index (.failed .clientError) }
    | _ => none

/-! ## Products -/

/-- The number that three limbs stand for. -/
def value : List Nat → Nat
  | [hi, mid, lo] => hi * 2 ^ 128 + mid * 2 ^ 64 + lo
  | _ => 0

/-- Nothing is lost in the three limbs. -/
theorem value_multiply {a b : Nat} (ha : a ≤ Amount.max) (hb : b ≤ u64Max) :
    value (multiply a b) = a * b := by
  have ha : a < 2 ^ 128 := by
    have : Amount.max = 2 ^ 128 - 1 := rfl
    omega
  have hb : b ≤ 2 ^ 64 - 1 := hb
  have hsplit : a * b = 2 ^ 64 * (a / 2 ^ 64 * b) + a % 2 ^ 64 * b := by
    conv => lhs; rw [← Nat.div_add_mod a (2 ^ 64)]
    ring
  have hhigh : a / 2 ^ 64 * b ≤ (2 ^ 64 - 1) * (2 ^ 64 - 1) :=
    Nat.mul_le_mul (by omega) hb
  have hlow : a % 2 ^ 64 * b ≤ (2 ^ 64 - 1) * (2 ^ 64 - 1) :=
    Nat.mul_le_mul (by omega) hb
  rw [hsplit]
  simp only [multiply, value]
  -- With the two products as unknowns, what is left is linear.
  generalize a / 2 ^ 64 * b = high at *
  generalize a % 2 ^ 64 * b = low at *
  omega

/-- Arrays of limbs are compared like the numbers. -/
theorem limbs_lt_iff {x₂ x₁ x₀ y₂ y₁ y₀ : Nat} (hx₁ : x₁ < 2 ^ 64) (hx₀ : x₀ < 2 ^ 64)
    (hy₁ : y₁ < 2 ^ 64) (hy₀ : y₀ < 2 ^ 64) :
    [x₂, x₁, x₀] < [y₂, y₁, y₀] ↔ value [x₂, x₁, x₀] < value [y₂, y₁, y₀] := by
  simp only [List.cons_lt_cons_iff, value, List.not_lt_nil, and_false, or_false]
  omega

theorem lt_multiply_iff {a b c d : Nat} (ha : a ≤ Amount.max) (hb : b ≤ u64Max)
    (hc : c ≤ Amount.max) (hd : d ≤ u64Max) : multiply a b < multiply c d ↔ a * b < c * d := by
  rw [← value_multiply ha hb, ← value_multiply hc hd]
  have hpos : 0 < 2 ^ 64 := by decide
  exact limbs_lt_iff (Nat.mod_lt _ hpos) (Nat.mod_lt _ hpos) (Nat.mod_lt _ hpos)
    (Nat.mod_lt _ hpos)

/-! ## The lock -/

variable {faucet : MutationRoot}

/-- With this balance, the part of the tokens that is locked at the given time is still there. -/
def LockedPartRemains (faucet : MutationRoot) (localTime balance : Nat) : Prop :=
  faucet.startBalance * (faucet.endTimestamp - localTime) ≤
    balance * (faucet.endTimestamp - faucet.startTimestamp)

instance decidableLockedPartRemains (faucet : MutationRoot) (localTime balance : Nat) :
    Decidable (LockedPartRemains faucet localTime balance) :=
  inferInstanceAs (Decidable (_ ≤ _))

/-- More balance does no harm. -/
theorem LockedPartRemains.mono {localTime balance balance' : Nat}
    (h : LockedPartRemains faucet localTime balance) (hle : balance ≤ balance') :
    LockedPartRemains faucet localTime balance' :=
  Nat.le_trans h (Nat.mul_le_mul_right _ hle)

/-- What a successful check says about the balance that it has seen. -/
theorem lockedPartRemains_of_check (hvalid : faucet.Valid) {localTime balance : Nat}
    (hbalance : balance ≤ Amount.max) (h : check faucet localTime balance = .ok ()) :
    LockedPartRemains faucet localTime (balance - faucet.amount) := by
  have hend := hvalid.endTimestamp
  unfold check at h
  dsimp only at h
  split at h
  · cases h
  · next remainingBalance hsub =>
    have hsub := Amount.trySub_eq_ok.mp hsub
    have hremaining : remainingBalance = balance - faucet.amount := by omega
    split at h
    · cases h
    · next hnot =>
      -- The source compares limbs; this is the comparison of the products.
      unfold deltaSince at hnot
      rw [lt_multiply_iff (by omega) (by omega) hvalid.startBalance (by omega)] at hnot
      rw [hremaining] at hnot
      exact Nat.le_of_not_lt hnot

/-- Whether the claim has been checked, and its chain not been opened yet. -/
def Claim.isChecked : Claim → Bool
  | .opening _ (some _) => true
  | _ => false

/-- No other claim has been checked already when a chain is opened. -/
def Exclusive (s : State) : Event → Prop
  | .openChain index => ∀ other < s.claims.length, other ≠ index →
      ∀ claim ∈ s.claims[other]?, claim.isChecked = false
  | _ => True

instance decidableExclusive : DecidableRel Exclusive
  | s, .openChain index => inferInstanceAs (Decidable (∀ other < s.claims.length, other ≠ index →
      ∀ claim ∈ s.claims[other]?, claim.isChecked = false))
  | _, .tick _ | _, .deposit _ | _, .claim | _, .balance _ | _, .fail _ => .isTrue trivial

/-- If the event opens the chain of a claim that was made before the end, then the locked part
remains afterwards. -/
def KeepsLocked (faucet : MutationRoot) (s : State) (event : Event) : Prop :=
  ∀ (index localTime : Nat) checked s', event = .openChain index →
    s.claims[index]? = some (.opening localTime checked) → localTime < faucet.endTimestamp →
    step faucet s event = some s' → LockedPartRemains faucet localTime s'.balance

/-- A claim that waits for its chain has made the check, with a balance that has not been lowered
since. -/
structure Invariant (faucet : MutationRoot) (s : State) : Prop where
  balance : s.balance ≤ Amount.max
  checked : ∀ index localTime checked : Nat,
    s.claims[index]? = some (.opening localTime (some checked)) →
    LockedPartRemains faucet localTime (checked - faucet.amount) ∧ checked ≤ s.balance
  unlocked : ∀ index localTime : Nat, s.claims[index]? = some (.opening localTime none) →
    faucet.endTimestamp ≤ localTime

/-- Only the claim at one index changes, and the balance is not lowered. -/
theorem Invariant.set {s s' : State} (h : Invariant faucet s) {index : Nat} {claim : Claim}
    (hclaims : s'.claims = s.claims.set index claim) (hbalance : s'.balance = s.balance)
    (hchecked : ∀ localTime checked, claim = .opening localTime (some checked) →
      LockedPartRemains faucet localTime (checked - faucet.amount) ∧ checked ≤ s.balance)
    (hunlocked : ∀ localTime, claim ≠ .opening localTime none) : Invariant faucet s' where
  balance := hbalance ▸ h.balance
  checked other localTime checked hother := by
    rw [hclaims, List.getElem?_set] at hother
    rw [hbalance]
    split at hother
    · split at hother
      · exact hchecked localTime checked (Option.some.inj hother)
      · cases hother
    · exact h.checked other localTime checked hother
  unlocked other localTime hother := by
    rw [hclaims, List.getElem?_set] at hother
    split at hother
    · split at hother
      · exact absurd (Option.some.inj hother) (hunlocked localTime)
      · cases hother
    · exact h.unlocked other localTime hother

theorem Invariant.step (hvalid : faucet.Valid)
    (hlocks : faucet.startTimestamp < faucet.endTimestamp) (s : State) (event : Event) (s' : State)
    (h : Invariant faucet s) (hexclusive : Exclusive s event)
    (hstep : step faucet s event = some s') : Invariant faucet s' := by
  cases event with
  | tick time =>
    rw [Faucet.step] at hstep
    split at hstep
    · cases hstep
      exact ⟨h.balance, h.checked, h.unlocked⟩
    · cases hstep
  | deposit amount =>
    rw [Faucet.step] at hstep
    split at hstep
    · next hmax =>
      cases hstep
      refine ⟨hmax, fun index localTime checked hindex => ?_, h.unlocked⟩
      obtain ⟨hlocked, hle⟩ := h.checked index localTime checked hindex
      exact ⟨hlocked, Nat.le_add_right_of_le hle⟩
    · cases hstep
  | claim =>
    cases hstep
    refine ⟨h.balance, fun index localTime checked hindex => ?_, fun index localTime hindex => ?_⟩
    · rw [List.getElem?_append] at hindex
      split at hindex
      · exact h.checked index localTime checked hindex
      · -- A new claim has not been checked.
        rw [List.getElem?_singleton] at hindex
        split at hindex
        · split at hindex <;> cases hindex
        · cases hindex
    · rw [List.getElem?_append] at hindex
      split at hindex
      · exact h.unlocked index localTime hindex
      · rw [List.getElem?_singleton] at hindex
        split at hindex
        · split at hindex
          · cases hindex
          · next hnot =>
            cases hindex
            exact Nat.le_of_not_lt fun hlt => hnot ⟨hlocks, hlt⟩
        · cases hindex
  | balance index =>
    rw [Faucet.step] at hstep
    split at hstep
    · next localTime hindex =>
      cases hstep
      refine h.set rfl rfl (fun time checked heq => ?_) fun time heq => ?_
      · split at heq
        · next hcheck =>
          cases heq
          exact ⟨lockedPartRemains_of_check hvalid h.balance hcheck, Nat.le_refl _⟩
        · cases heq
      · split at heq <;> cases heq
    · cases hstep
  | openChain index =>
    rw [Faucet.step] at hstep
    split at hstep
    · next localTime seen hindex =>
      split at hstep
      · next balance hsub =>
        cases hstep
        have hsub := Amount.trySub_eq_ok.mp hsub
        have hbalance := h.balance
        refine ⟨by dsimp only; omega, fun other time checked hother => ?_,
          fun other time hother => ?_⟩
        · -- No other claim has been checked, so none is affected by the smaller balance.
          rw [List.getElem?_set] at hother
          split at hother
          · split at hother <;> cases hother
          · next hne =>
            obtain ⟨hlt, -⟩ := List.getElem?_eq_some_iff.mp hother
            cases hexclusive other hlt (Ne.symm hne) _ hother
        · rw [List.getElem?_set] at hother
          split at hother
          · split at hother <;> cases hother
          · exact h.unlocked other time hother
      · cases hstep
    · cases hstep
  | fail index =>
    rw [Faucet.step] at hstep
    split at hstep
    · cases hstep
      exact h.set rfl rfl (fun _ _ heq => by cases heq) fun _ heq => by cases heq
    · cases hstep
      exact h.set rfl rfl (fun _ _ heq => by cases heq) fun _ heq => by cases heq
    · cases hstep

theorem Invariant.keepsLocked {s : State} (h : Invariant faucet s) (event : Event) :
    KeepsLocked faucet s event := by
  intro index localTime checked s' hevent hindex htime hstep
  subst hevent
  rw [Faucet.step, hindex] at hstep
  dsimp only at hstep
  split at hstep
  · next balance hsub =>
    cases hstep
    have hsub := Amount.trySub_eq_ok.mp hsub
    cases checked with
    | none => exact absurd htime (Nat.not_lt.mpr (h.unlocked index localTime hindex))
    | some checked =>
      -- The balance may have grown since the check, so at least as much remains.
      obtain ⟨hlocked, hle⟩ := h.checked index localTime checked hindex
      exact hlocked.mono (by dsimp only; omega)
  · cases hstep

/-- **The locked part remains.** If no chain is opened while another claim has been checked already,
then after each claim that was made before the end, the faucet still has the part of its tokens
that was locked when the claim was made. -/
theorem locked_part_remains (hvalid : faucet.Valid)
    (hlocks : faucet.startTimestamp < faucet.endTimestamp) {time balance : Nat}
    (hbalance : balance ≤ Amount.max) {events : List Event}
    (hexclusive : Run.Along (step faucet) Exclusive ⟨time, balance, []⟩ events) :
    Run.Along (step faucet) (KeepsLocked faucet) ⟨time, balance, []⟩ events := by
  have hinitial : Invariant faucet ⟨time, balance, []⟩ := by
    refine ⟨hbalance, ?_, ?_⟩
    · intro index localTime checked hindex
      cases hindex
    · intro index localTime hindex
      cases hindex
  exact Run.Along.imp (Invariant.step hvalid hlocks) (fun s event h _ => h.keepsLocked event)
    hinitial hexclusive

/-- A faucet with 100 tokens that unlock in ten microseconds. -/
def tenMicros : MutationRoot := ⟨10, 10, 0, 100⟩

/-- One claim after the other. -/
theorem locked_part_remains_two_claims :
    Run.Along (step tenMicros) (KeepsLocked tenMicros) ⟨0, 100, []⟩
      [.tick 1, .claim, .balance 0, .openChain 0, .tick 2, .claim, .balance 1, .openChain 1] := by
  exact locked_part_remains ⟨by decide, by decide⟩ (by decide) (by decide) (by decide)

/-- After one microsecond, ten tokens are unlocked. Two claims are checked before either of them
opens its chain: both are successful, and twenty tokens are gone. -/
theorem two_claims_break_lock :
    (Run.run (step tenMicros) ⟨0, 100, []⟩
      [.tick 1, .claim, .claim, .balance 0, .balance 1, .openChain 0, .openChain 1]) =
        some ⟨1, 80, [.claimed 1, .claimed 1]⟩ ∧
    ¬LockedPartRemains tenMicros 1 80 := by
  decide

end Linera.Faucet
