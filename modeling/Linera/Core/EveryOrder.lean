import Linera.Core.Certification

/-!
# A quorum is found in every order of the answers

When all the validators answer, `communicateWithQuorum` returns the key that has a quorum
whatever the order of the answers, and stops early only when no answers that are still to
come could make one. This rests on the thresholds: two quorums, or a quorum and the errors of
a validity threshold, weigh more than the committee.
-/

namespace Linera

section

variable {env : ClientEnvironment} {committee : Committee} {K V : Type} [DecidableEq K]
  {groupBy : V → K} {execute execute' : ValidatorName → Except ChainClientError V}

theorem voters_congr {names : List ValidatorName} (h : ∀ name ∈ names, execute' name = execute name)
    (key : K) : voters groupBy execute' key names = voters groupBy execute key names :=
  List.filter_congr fun name hname => by rw [h name hname]

/-- Disjoint parts of a list of validators weigh at most as much as the list. -/
theorem Committee.weightOf_filter_add_le {p q : ValidatorName → Bool}
    (hdisjoint : ∀ name, p name = true → q name = false) (names : List ValidatorName) :
    committee.weightOf (names.filter p) + committee.weightOf (names.filter q) ≤
      committee.weightOf names := by
  induction names with
  | nil => rfl
  | cons name names ih =>
    have := hdisjoint name
    cases hp : p name <;> cases hq : q name <;> simp_all <;> omega

theorem weightOf_voters_add_le {key other : K} (hne : other ≠ key) (names : List ValidatorName) :
    committee.weightOf (voters groupBy execute key names) +
      committee.weightOf (voters groupBy execute other names) ≤ committee.weightOf names := by
  refine Committee.weightOf_filter_add_le (fun name hkey => ?_) names
  cases hresult : execute name with
  | ok value =>
    rw [hresult] at hkey
    obtain rfl : groupBy value = key := by simpa [Except.toOption] using hkey
    simpa [Except.toOption] using hne.symm
  | error error => rfl

theorem weightOf_voters_add_failed_le (key : K) (names : List ValidatorName) :
    committee.weightOf (voters groupBy execute key names) +
      committee.weightOf (failed execute names) ≤ committee.weightOf names := by
  refine Committee.weightOf_filter_add_le (fun name hkey => ?_) names
  cases hresult : execute name with
  | ok value => rfl
  | error error => simp [hresult, Except.toOption] at hkey

/-- When the loop has come to its exit condition, no answers of the others give a quorum. -/
theorem no_quorum_after_exit (hbound : committee.votingRights < 2 ^ 64) {tally : Tally K V}
    {seen rest : List ValidatorName}
    (hle : committee.weightOf (seen ++ rest) ≤ committee.votingRights)
    (hrun : Tally.voteWait env committee groupBy execute ⟨committee.totalVotes, 0, ∅, ∅⟩ seen =
      .ok tally)
    (hexit : (tally.highestKeyScore + tally.remainingVotes) % 2 ^ 64 < committee.quorumThreshold)
    (hagree : ∀ name ∈ seen, execute' name = execute name) (key : K) :
    committee.weightOf (voters groupBy execute' key (seen ++ rest)) < committee.quorumThreshold := by
  have hseen : committee.weightOf seen ≤ committee.votingRights := by
    rw [Committee.weightOf_append] at hle
    omega
  obtain ⟨names, ⟨later, rfl⟩, hcounted, -⟩ :=
    (Tally.Counted.start hbound).voteWait hbound hseen hrun
  rw [hcounted.sum_mod hbound] at hexit
  have hremaining := hcounted.remainingVotes
  have hscore := hcounted.highestKeyScore key
  rw [List.append_assoc] at hle ⊢
  have hlater : committee.weightOf (voters groupBy execute' key (later ++ rest)) ≤
      committee.weightOf (later ++ rest) := Committee.weightOf_filter_le ..
  rw [voters_append, voters_congr fun name hname => hagree name (List.mem_append_left _ hname),
    Committee.weightOf_append]
  rw [Committee.weightOf_append] at hle
  omega

/-- The subtraction from the remaining votes does not underflow. -/
theorem weight_le_remainingVotes (hbound : committee.votingRights < 2 ^ 64) {tally : Tally K V}
    {seen rest : List ValidatorName} {name : ValidatorName}
    (hle : committee.weightOf (seen ++ name :: rest) ≤ committee.votingRights)
    (hrun : Tally.voteWait env committee groupBy execute ⟨committee.totalVotes, 0, ∅, ∅⟩ seen =
      .ok tally) : committee.weight name ≤ tally.remainingVotes := by
  rw [Committee.weightOf_append, Committee.weightOf_cons] at hle
  have hseen : committee.weightOf seen ≤ committee.votingRights := by omega
  obtain ⟨names, hnames, hcounted, -⟩ :=
    (Tally.Counted.start hbound).voteWait hbound hseen hrun
  have hsub : committee.weightOf names ≤ committee.weightOf seen :=
    Committee.weightOf_sublist hnames.sublist
  have hremaining := hcounted.remainingVotes
  omega

/-- An error is only trusted if enough validators have answered with it. -/
theorem trusted_of_communicateWithQuorum (hbound : committee.votingRights < 2 ^ 64)
    {arrivals : Arrivals committee} {error : NodeError}
    (h : communicateWithQuorum env committee groupBy execute arrivals = .error (.trusted error)) :
    committee.validityThreshold ≤
      committee.weightOf (failedWith env execute error arrivals.order) := by
  rw [communicateWithQuorum] at h
  cases hrun : Tally.voteWait env committee groupBy execute ⟨committee.totalVotes, 0, ∅, ∅⟩
    arrivals.order with
  | ok tally =>
    -- Behind the loop, no error is reported as trusted.
    rw [hrun, Except.ok_bind] at h
    simp only at h
    split at h
    · cases h
    · split at h <;> cases h
  | error failure =>
    rw [hrun] at h
    obtain ⟨trusted, rfl, hweight⟩ :=
      (Tally.Counted.start hbound).voteWait_error hbound arrivals.weightOf_le hrun
    cases h
    exact hweight

theorem voters_perm {names names' : List ValidatorName} (h : names.Perm names') (key : K) :
    committee.weightOf (voters groupBy execute key names) =
      committee.weightOf (voters groupBy execute key names') :=
  Committee.weightOf_perm (h.filter _)

theorem groupBy_eq_of_mem_votes {key : K} {names : List ValidatorName} {value : V}
    (h : value ∈ votes groupBy execute key names) : groupBy value = key := by
  obtain ⟨name, -, hvalue⟩ := List.mem_filterMap.mp h
  simpa using (Option.mem_filter_iff.mp hvalue).2

end

/-- If all validators answer, in any order, then a key is returned exactly if a quorum has answered
with it, and there is at most one such key; the values returned have this key. An error is
only trusted if validators of the validity threshold have answered with it. The loop does not
exit while the answers still to come could make a quorum, and no subtraction underflows. -/
theorem quorum_found_in_every_order (env : ClientEnvironment) {committee : Committee}
    (hbound : 2 * committee.votingRights < 2 ^ 64) {K V : Type} [DecidableEq K] (groupBy : V → K)
    (execute : ValidatorName → Except ChainClientError V) (arrivals : Arrivals committee)
    (hall : arrivals.order.Perm committee.contacted) :
    let result := communicateWithQuorum env committee groupBy execute arrivals
    let start : Tally K V := ⟨committee.totalVotes, 0, ∅, ∅⟩
    let weight (key : K) := committee.weightOf (voters groupBy execute key committee.contacted)
    (∀ key, (∃ values, result = .ok (key, values)) ↔ committee.quorumThreshold ≤ weight key) ∧
      (∀ key key', committee.quorumThreshold ≤ weight key →
        committee.quorumThreshold ≤ weight key' → key = key') ∧
      (∀ key values, result = .ok (key, values) → ∀ value ∈ values, groupBy value = key) ∧
      (∀ error, result = .error (.trusted error) → committee.validityThreshold ≤
        committee.weightOf (failedWith env execute error committee.contacted)) ∧
      (∀ seen rest tally, arrivals.order = seen ++ rest →
        Tally.voteWait env committee groupBy execute start seen = .ok tally →
        (tally.highestKeyScore + tally.remainingVotes) % 2 ^ 64 < committee.quorumThreshold →
        ∀ execute', (∀ name ∈ seen, execute' name = execute name) → ∀ key,
          committee.weightOf (voters groupBy execute' key committee.contacted) <
            committee.quorumThreshold) ∧
      ∀ seen name rest tally, arrivals.order = seen ++ name :: rest →
        Tally.voteWait env committee groupBy execute start seen = .ok tally →
          committee.weight name ≤ tally.remainingVotes := by
  intro result start weight
  have hbound' : committee.votingRights < 2 ^ 64 := by omega
  have horder := arrivals.weightOf_le
  have hcontacted : committee.weightOf committee.contacted ≤ committee.votingRights := by
    rwa [Committee.weightOf_perm hall] at horder
  have hquorum := Committee.quorumThreshold_eq hbound
  have hvalidity := Committee.validityThreshold_eq hbound
  have hweight : ∀ key, committee.weightOf (voters groupBy execute key arrivals.order) =
      weight key := fun key => voters_perm hall key
  have hunique : ∀ key other, committee.quorumThreshold ≤ weight key → other ≠ key →
      weight other < committee.quorumThreshold := by
    intro key other hkey hne
    have hsum : weight key + weight other ≤ committee.weightOf committee.contacted :=
      weightOf_voters_add_le hne _
    omega
  refine ⟨fun key => ⟨?_, fun hkey => ?_⟩, ?_, ?_, ?_, ?_, ?_⟩
  · rintro ⟨values, h⟩
    rw [← hweight]
    exact (votes_of_communicateWithQuorum hbound' h).1
  · refine ⟨_, communicateWithQuorum_eq_ok hbound' ?_ (hkey.trans_eq (hweight key).symm) ?_⟩
    · have hsum : committee.weightOf (voters groupBy execute key arrivals.order) +
          committee.weightOf (failed execute arrivals.order) ≤ committee.weightOf arrivals.order :=
        weightOf_voters_add_failed_le _ _
      have hsame := hweight key
      omega
    · intro other hne
      rw [hweight]
      exact hunique key other hkey hne
  · intro key key' hkey hkey'
    by_contra hne
    exact absurd hkey' (not_le.mpr (hunique key key' hkey (Ne.symm hne)))
  · intro key values h value hvalue
    rw [(votes_of_communicateWithQuorum hbound' h).2] at hvalue
    exact groupBy_eq_of_mem_votes hvalue
  · intro error h
    exact (trusted_of_communicateWithQuorum hbound' h).trans_eq
      (Committee.weightOf_perm (hall.filter _))
  · intro seen rest tally hsplit hrun hexit execute' hagree key
    rw [← voters_perm hall, hsplit]
    exact no_quorum_after_exit hbound' (hsplit ▸ horder) hrun hexit hagree key
  · intro seen name rest tally hsplit hrun
    exact weight_le_remainingVotes hbound' (hsplit ▸ horder) hrun

/-- The answers of four validators: three agree on 7, the other has failed. -/
def threeAgree (name : ValidatorName) : Except ChainClientError Nat :=
  if name = ⟨2⟩ then .error .panicked else .ok 7

/-- The answer that fails comes first. -/
theorem quorum_found_in_every_order_failure_first :
    ∃ values, communicateWithQuorum simpleClient fourValidators id threeAgree
      (arriveInOrder [⟨2⟩, ⟨1⟩, ⟨3⟩, ⟨4⟩] (by decide)) = .ok (7, values) :=
  ((quorum_found_in_every_order simpleClient (by decide) id threeAgree
    (arriveInOrder [⟨2⟩, ⟨1⟩, ⟨3⟩, ⟨4⟩] (by decide)) (by decide)).1 7).mpr (by decide)

/-- Two validators with so many votes that twice their number overflows. -/
def overflowing : Committee where
  validators := .ofList [(⟨1⟩, ⟨"", 2 ^ 62⟩), (⟨2⟩, ⟨"", 2 ^ 62⟩)]
  policy := .default

/-- The threshold that `Committee::new` computes is 1 then: each of two keys has a quorum, and the
first one is not returned. -/
theorem two_quorums_after_overflow :
    let execute (name : ValidatorName) : Except ChainClientError Nat := .ok name.value
    let arrivals : Arrivals overflowing := ⟨[⟨1⟩, ⟨2⟩], (by decide)⟩
    arrivals.order.Perm overflowing.contacted ∧
      overflowing.quorumThreshold ≤
        overflowing.weightOf (voters id execute 1 overflowing.contacted) ∧
      overflowing.quorumThreshold ≤
        overflowing.weightOf (voters id execute 2 overflowing.contacted) ∧
      ¬∃ values, communicateWithQuorum simpleClient overflowing id execute arrivals =
        .ok (1, values) := by
  refine ⟨by decide, by decide, by decide, ?_⟩
  rintro ⟨values, h⟩
  cases h

end Linera
