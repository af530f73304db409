import Linera.Execution.Resources

/-!
# Fees

Fees are taken from the funding sources one after the other. The loop of
`Sources::try_sub_assign` empties a source before it knows whether the next ones
suffice, and it does not put back what it has taken.
-/

namespace Linera

namespace Sources

/-- The first sources are used up, one may be used in part, and the later ones are untouched. -/
def DrainedInOrder (sources left : List Nat) : Prop :=
  ∃ before source after rest, sources = before ++ source :: after ∧ rest ≤ source ∧
    left = before.map (fun _ => 0) ++ rest :: after

theorem DrainedInOrder.cons {sources left : List Nat} (h : DrainedInOrder sources left)
    (source : Nat) : DrainedInOrder (source :: sources) (0 :: left) := by
  obtain ⟨before, s, after, rest, rfl, hrest, rfl⟩ := h
  exact ⟨source :: before, s, after, rest, rfl, hrest, rfl⟩

theorem trySubAssign_of_le {sources : List Nat} {fee : Nat} (hne : sources ≠ [])
    (h : fee ≤ sources.sum) :
    ∃ left, trySubAssign sources fee = .ok left ∧ left.sum + fee = sources.sum ∧
      DrainedInOrder sources left := by
  induction sources generalizing fee with
  | nil => exact absurd rfl hne
  | cons source sources ih =>
    rw [List.sum_cons] at h
    unfold trySubAssign
    by_cases hsource : fee ≤ source
    · -- this source pays the rest of the fee
      refine ⟨(source - fee) :: sources, if_pos hsource, ?_, ?_⟩
      · simp only [List.sum_cons]
        omega
      · exact ⟨[], source, sources, source - fee, rfl, Nat.sub_le _ _, rfl⟩
    · have hne' : sources ≠ [] := by
        intro hnil
        subst hnil
        simp only [List.sum_nil] at h
        omega
      obtain ⟨left, hleft, hsum, hdrained⟩ := @ih (fee - source) hne' (by omega)
      refine ⟨0 :: left, ?_, ?_, hdrained.cons source⟩
      · rw [if_neg hsource, hleft]
      · simp only [List.sum_cons]
        omega

/-- If the funds do not suffice, then they are gone. -/
theorem trySubAssign_of_lt {sources : List Nat} {fee : Nat} (h : sources.sum < fee) :
    trySubAssign sources fee = .error (.underflow, sources.map fun _ => 0) := by
  induction sources generalizing fee with
  | nil => exact if_pos h
  | cons source sources ih =>
    rw [List.sum_cons] at h
    have hsource : ¬fee ≤ source := by omega
    have hrest : sources.sum < fee - source := by omega
    unfold trySubAssign
    rw [if_neg hsource, ih hrest]
    rfl

theorem foldlM_tryAdd_zeros (sources : List Nat) :
    (sources.map fun _ => 0).foldlM Amount.tryAdd 0 = .ok 0 := by
  induction sources with
  | nil => rfl
  | cons source sources ih => exact ih

end Sources

namespace ResourceController

/-- What is expected when a fee is charged. -/
structure AllOrNothing (c : ResourceController Sources) (fee : Nat) : Prop where
  succeeds_iff : (∃ left, Sources.trySubAssign c.account.sources fee = .ok left) ↔
    fee ≤ c.account.sources.sum
  paid : ∀ left, Sources.trySubAssign c.account.sources fee = .ok left →
    left.sum + fee = c.account.sources.sum ∧ Sources.DrainedInOrder c.account.sources left
  unchanged : ∀ error left, Sources.trySubAssign c.account.sources fee = .error (error, left) →
    left = c.account.sources
  reported : ∀ error, c.updateBalance fee = .error error →
    error = .systemError (.insufficientFundingForFees c.account.sources.sum)

variable {c : ResourceController Sources} {fee : Nat}

/-- The balance in the error is the one after the sources have been emptied. -/
theorem updateBalance_of_lt (h : c.account.sources.sum < fee) :
    c.updateBalance fee = .error (.systemError (.insufficientFundingForFees 0)) := by
  simp only [updateBalance, BalanceHolder.trySubAssign, Sources.trySubAssign_of_lt h,
    balanceOrMax, BalanceHolder.balance, Sources.balance, Sources.foldlM_tryAdd_zeros]

theorem exists_updateBalance_of_le (hne : c.account.sources ≠ []) (h : fee ≤ c.account.sources.sum) :
    ∃ c', c.updateBalance fee = .ok c' := by
  obtain ⟨left, hleft, -, -⟩ := Sources.trySubAssign_of_le hne h
  simp only [updateBalance, BalanceHolder.trySubAssign, hleft]
  exact ⟨_, rfl⟩

/-- **Fees are all or nothing if they can be paid.** Otherwise the sources are emptied, and the
error reports a balance of zero, which is right only if they were empty before. -/
theorem allOrNothing_iff (hne : c.account.sources ≠ []) :
    c.AllOrNothing fee ↔ fee ≤ c.account.sources.sum ∨ c.account.sources.sum = 0 := by
  constructor
  · intro h
    by_contra hnot
    obtain ⟨hlt, hpos⟩ := not_or.mp hnot
    have hreported := h.reported _ (updateBalance_of_lt (Nat.lt_of_not_le hlt))
    injection hreported with hreported
    injection hreported with hreported
    exact hpos hreported.symm
  · intro h
    by_cases hle : fee ≤ c.account.sources.sum
    · obtain ⟨left, hleft, hsum, hdrained⟩ := Sources.trySubAssign_of_le hne hle
      obtain ⟨c', hc'⟩ := exists_updateBalance_of_le hne hle
      refine ⟨⟨fun _ => hle, fun _ => ⟨left, hleft⟩⟩, fun left' hleft' => ?_, fun _ _ herror => ?_,
        fun _ herror => ?_⟩
      · cases hleft.symm.trans hleft'
        exact ⟨hsum, hdrained⟩
      · cases hleft.symm.trans herror
      · cases hc'.symm.trans herror
    · have hlt := Nat.lt_of_not_le hle
      have hzero := h.resolve_left hle
      have hfailed := Sources.trySubAssign_of_lt hlt
      have hall : ∀ source ∈ c.account.sources, source = 0 := List.sum_eq_zero_iff.mp hzero
      refine ⟨⟨fun ⟨_, hok⟩ => ?_, fun h => absurd h hle⟩, fun _ hok => ?_, fun _ _ herror => ?_,
        fun _ herror => ?_⟩
      · cases hfailed.symm.trans hok
      · cases hfailed.symm.trans hok
      · cases hfailed.symm.trans herror
        exact (List.map_congr_left fun source hsource => (hall source hsource).symm).trans
          (List.map_id _)
      · cases (updateBalance_of_lt hlt).symm.trans herror
        rw [hzero]

/-- A fee of 10 paid from 3 and 20. -/
theorem allOrNothing_three_and_twenty :
    (⟨.default, .default, ⟨[3, 20]⟩⟩ : ResourceController Sources).AllOrNothing 10 :=
  (allOrNothing_iff (by decide)).mpr (.inl (by decide))

/-- A fee of 10 cannot be paid from a balance of 5. It is lost anyway, and a balance of zero is
reported. -/
theorem balance_lost_on_failure :
    Sources.trySubAssign [5] 10 = .error (.underflow, [0]) ∧
    (⟨.default, .default, ⟨[5]⟩⟩ : ResourceController Sources).updateBalance 10 =
      .error (.systemError (.insufficientFundingForFees 0)) := by
  decide

end ResourceController

end Linera
