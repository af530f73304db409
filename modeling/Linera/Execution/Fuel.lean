import Linera.Execution.Fees

/-!
# Fuel

Before a contract runs, it is told how much fuel it may use. The amount is what the
funding sources can pay for, cut off at what is left for the block.
-/

namespace Linera

namespace Sources

/-- The loop of `Sources::balance`. -/
theorem foldlM_tryAdd (sources : List Nat) {total : Nat} (htotal : total ≤ Amount.max) :
    sources.foldlM Amount.tryAdd total =
      if total + sources.sum ≤ Amount.max then .ok (total + sources.sum) else .error .overflow := by
  induction sources generalizing total with
  | nil => simp [htotal]
  | cons source sources ih =>
    rw [List.foldlM_cons, List.sum_cons, ← Nat.add_assoc]
    by_cases hsource : total + source ≤ Amount.max
    · rw [Amount.tryAdd, if_pos hsource, Except.ok_bind, ih hsource]
    · -- Once the sum has overflowed, the later sources do not matter.
      rw [Amount.tryAdd, if_neg hsource, Except.error_bind, if_neg (by omega)]

/-- A fee is paid exactly if there are enough funds, also if there is no source at all. -/
theorem exists_trySubAssign_iff {sources : List Nat} {fee : Nat} :
    (∃ left, trySubAssign sources fee = .ok left) ↔ fee ≤ sources.sum := by
  constructor
  · rintro ⟨left, hleft⟩
    by_contra hlt
    cases (trySubAssign_of_lt (Nat.lt_of_not_le hlt)).symm.trans hleft
  · intro hle
    cases sources with
    | nil =>
      obtain rfl : fee = 0 := Nat.le_zero.mp hle
      exact ⟨[], rfl⟩
    | cons source sources =>
      obtain ⟨left, hleft, -, -⟩ := trySubAssign_of_le (List.cons_ne_nil source sources) hle
      exact ⟨left, hleft⟩

end Sources

namespace ResourceController

variable {c : ResourceController Sources}

theorem balanceOrMax_eq (s : Sources) : balanceOrMax s = min s.sources.sum Amount.max := by
  have hbalance : BalanceHolder.balance s =
      if 0 + s.sources.sum ≤ Amount.max then .ok (0 + s.sources.sum) else .error .overflow :=
    Sources.foldlM_tryAdd s.sources (Nat.zero_le _)
  rw [Nat.zero_add] at hbalance
  unfold balanceOrMax
  rw [hbalance]
  split
  · next hok =>
    split at hok
    · next hle => rw [← Except.ok.inj hok, min_eq_left hle]
    · cases hok
  · next herror =>
    split at herror
    · cases herror
    · next hlt => rw [min_eq_right (Nat.le_of_not_le hlt)]

theorem exists_updateBalance_iff {fees : Nat} :
    (∃ c', c.updateBalance fees = .ok c') ↔ fees ≤ c.account.sources.sum := by
  by_cases hle : fees ≤ c.account.sources.sum
  · obtain ⟨left, hleft⟩ := Sources.exists_trySubAssign_iff.mpr hle
    refine iff_of_true ⟨{ c with account := ⟨left⟩ }, ?_⟩ hle
    simp only [updateBalance, BalanceHolder.trySubAssign, hleft]
  · refine iff_of_false ?_ hle
    rintro ⟨c', hc'⟩
    cases (updateBalance_of_lt (Nat.lt_of_not_le hle)).symm.trans hc'

/-- What the checks of `track_fuel` amount to. -/
theorem exists_trackFuel_iff {fuel : Nat} : (∃ c', c.trackFuel fuel = .ok c') ↔
      c.tracker.fuel + fuel ≤ u64Max ∧ c.tracker.fuel + fuel ≤ c.policy.maximumFuelPerBlock ∧
      c.policy.fuelUnit * fuel ≤ Amount.max ∧
      c.policy.fuelUnit * fuel ≤ c.account.sources.sum := by
  simp only [trackFuel, Except.bind_eq_ok, Except.ensure_eq_ok]
  constructor
  · rintro ⟨c', total, htotal, -, hblock, fees, hfees, hpaid⟩
    have hadd : c.tracker.fuel + fuel ≤ u64Max ∧ total = c.tracker.fuel + fuel := by
      unfold count at htotal
      split at htotal
      · next n hn =>
        rw [← Except.ok.inj htotal]
        exact checkedAdd_eq_some.mp hn
      · cases htotal
    have hprice : c.policy.fuelUnit * fuel ≤ Amount.max ∧ fees = c.policy.fuelUnit * fuel := by
      have hmul := Except.mapError_eq_ok.mp hfees
      rw [ResourceControlPolicy.fuelPrice, Amount.tryMul] at hmul
      split at hmul
      · next hle => exact ⟨hle, (Except.ok.inj hmul).symm⟩
      · cases hmul
    obtain ⟨hle, rfl⟩ := hadd
    obtain ⟨hmul, rfl⟩ := hprice
    have hfunds := exists_updateBalance_iff.mp ⟨c', hpaid⟩
    exact ⟨hle, hblock, hmul, hfunds⟩
  · rintro ⟨hadd, hblock, hmul, hfunds⟩
    obtain ⟨c', hc'⟩ := (exists_updateBalance_iff
      (c := { c with tracker := { c.tracker with fuel := c.tracker.fuel + fuel } })).mpr hfunds
    refine ⟨c', c.tracker.fuel + fuel, ?_, (), hblock, c.policy.fuelUnit * fuel, ?_, hc'⟩
    · rw [count, checkedAdd, if_pos hadd]
    · rw [ResourceControlPolicy.fuelPrice, Amount.tryMul, if_pos hmul]
      rfl

/-- **The announced fuel is exactly the fuel that can be spent.** -/
theorem trackFuel_succeeds_iff (hmax : c.policy.maximumFuelPerBlock ≤ u64Max)
    (htracker : c.tracker.fuel ≤ c.policy.maximumFuelPerBlock) (fuel : Nat) :
    (∃ c', c.trackFuel fuel = .ok c') ↔ fuel ≤ c.remainingFuel := by
  rw [exists_trackFuel_iff, remainingFuel, ResourceControlPolicy.remainingFuel, balanceOrMax_eq,
    le_min_iff, le_min_iff]
  by_cases hunit : c.policy.fuelUnit = 0
  · -- Fuel that costs nothing is bounded by its type and the limit of the block only.
    rw [if_pos hunit, hunit, Nat.zero_mul]
    have hlt : u64Max ≤ Amount.max := by decide
    omega
  · rw [if_neg hunit, Nat.le_div_iff_mul_le (Nat.pos_of_ne_zero hunit), Nat.mul_comm fuel,
      le_min_iff]
    omega

/-- A unit of fuel costs 2, and two sources with 5 together pay for two units. -/
theorem trackFuel_succeeds_two_units :
    ∃ c', (⟨{ ResourceControlPolicy.default with fuelUnit := 2 }, .default, ⟨[3, 2]⟩⟩ :
      ResourceController Sources).trackFuel 2 = .ok c' :=
  (trackFuel_succeeds_iff (by decide) (by decide) 2).mpr (by decide)

end ResourceController

end Linera
