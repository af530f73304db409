import Linera.Core.Updater

/-!
# What a quorum of answers is worth

`communicateWithQuorum` counts the answers as they arrive and may stop early. The
two results about it say what that amounts to: a key it returns has a quorum among
all the answers, with all the values that were answered
(`votes_of_communicateWithQuorum`), and a key that has a quorum is returned when
the others and the errors are too few (`communicateWithQuorum_eq_ok`).
-/

namespace Linera

variable {env : ClientEnvironment} {committee : Committee}

namespace Committee

def weightOf (committee : Committee) (names : List ValidatorName) : Nat :=
  (names.map committee.weight).sum

@[simp] theorem weightOf_nil : committee.weightOf [] = 0 := rfl

@[simp] theorem weightOf_cons (name : ValidatorName) (names : List ValidatorName) :
    committee.weightOf (name :: names) = committee.weight name + committee.weightOf names := by
  simp [weightOf]

@[simp] theorem weightOf_append (names names' : List ValidatorName) :
    committee.weightOf (names ++ names') = committee.weightOf names + committee.weightOf names' := by
  simp [weightOf]

variable {names names' : List ValidatorName}

theorem weightOf_perm (h : names.Perm names') :
    committee.weightOf names = committee.weightOf names' :=
  (h.map committee.weight).sum_eq

theorem weightOf_sublist (h : names.Sublist names') :
    committee.weightOf names ≤ committee.weightOf names' :=
  (h.map committee.weight).sum_le_sum fun _ _ => Nat.zero_le _

theorem weightOf_subperm (h : names.Subperm names') :
    committee.weightOf names ≤ committee.weightOf names' := by
  obtain ⟨middle, hperm, hsub⟩ := h
  rw [← weightOf_perm hperm]
  exact weightOf_sublist hsub

theorem weightOf_filter_le (p : ValidatorName → Bool) (names : List ValidatorName) :
    committee.weightOf (names.filter p) ≤ committee.weightOf names :=
  weightOf_sublist List.filter_sublist

theorem nodup_contacted : committee.contacted.Nodup :=
  (committee.validators.pairwise_keys.imp ne_of_lt).filter _

theorem weight_ne_zero_of_mem_contacted {name : ValidatorName} (h : name ∈ committee.contacted) :
    committee.weight name ≠ 0 := by
  simpa using (List.mem_filter.mp h).2

end Committee

namespace Arrivals

variable (arrivals : Arrivals committee)

theorem nodup_order : arrivals.order.Nodup := by
  obtain ⟨middle, hperm, hsub⟩ := arrivals.subperm
  exact hperm.nodup_iff.mp (hsub.nodup Committee.nodup_contacted)

theorem weightOf_le : committee.weightOf arrivals.order ≤ committee.votingRights := by
  calc committee.weightOf arrivals.order
      ≤ committee.weightOf committee.contacted := Committee.weightOf_subperm arrivals.subperm
    _ ≤ committee.weightOf committee.validators.keys := Committee.weightOf_filter_le ..
    _ = committee.votingRights := committee.sum_weight_keys

end Arrivals

/-! ## Counting -/

section Counting

variable {K V : Type} [DecidableEq K] (groupBy : V → K)
  (execute : ValidatorName → Except ChainClientError V)

/-- The validators among `names` that answer with a value of the given key. -/
def voters (key : K) (names : List ValidatorName) : List ValidatorName :=
  names.filter fun name => (execute name).toOption.any fun value => groupBy value = key

/-- Their values. -/
def votes (key : K) (names : List ValidatorName) : List V :=
  names.filterMap fun name => (execute name).toOption.filter fun value => groupBy value = key

/-- The validators among `names` that answer with an error. -/
def failed (names : List ValidatorName) : List ValidatorName :=
  names.filter fun name => (execute name).toOption.isNone

def ClientEnvironment.countedError (env : ClientEnvironment) :
    Except ChainClientError V → Option NodeError
  | .ok _ => none
  | .error error => some (env.nodeError error)

variable (env) in
/-- The validators among `names` whose answer counts for the error. -/
def failedWith (error : NodeError) (names : List ValidatorName) : List ValidatorName :=
  names.filter fun name => env.countedError (execute name) = some error

variable {groupBy execute}

theorem voters_append (key : K) (names names' : List ValidatorName) :
    voters groupBy execute key (names ++ names') =
      voters groupBy execute key names ++ voters groupBy execute key names' :=
  List.filter_append ..

theorem votes_append (key : K) (names names' : List ValidatorName) :
    votes groupBy execute key (names ++ names') =
      votes groupBy execute key names ++ votes groupBy execute key names' :=
  List.filterMap_append ..

theorem failed_append (names names' : List ValidatorName) :
    failed execute (names ++ names') = failed execute names ++ failed execute names' :=
  List.filter_append ..

theorem failedWith_append (error : NodeError) (names names' : List ValidatorName) :
    failedWith env execute error (names ++ names') =
      failedWith env execute error names ++ failedWith env execute error names' :=
  List.filter_append ..

theorem weightOf_failedWith_le (error : NodeError) (names : List ValidatorName) :
    committee.weightOf (failedWith env execute error names) ≤
      committee.weightOf (failed execute names) := by
  refine Committee.weightOf_sublist (List.monotone_filter_right names fun name hname => ?_)
  cases hresult : execute name with
  | ok value => simp [ClientEnvironment.countedError, hresult] at hname
  | error error => rfl

variable {name : ValidatorName} {value : V}

theorem voters_singleton (h : execute name = .ok value) (key : K) :
    voters groupBy execute key [name] = if groupBy value = key then [name] else [] := by
  simp [voters, h, Except.toOption, List.filter_cons]

theorem votes_singleton (h : execute name = .ok value) (key : K) :
    votes groupBy execute key [name] = if groupBy value = key then [value] else [] := by
  by_cases hkey : groupBy value = key <;>
    simp [votes, h, Except.toOption, Option.filter, hkey]

variable {error : ChainClientError}

theorem voters_singleton_of_error (h : execute name = .error error) (key : K) :
    voters groupBy execute key [name] = [] := by
  simp [voters, h, Except.toOption]

theorem votes_singleton_of_error (h : execute name = .error error) (key : K) :
    votes groupBy execute key [name] = [] := by
  simp [votes, h, Except.toOption]

theorem failed_singleton_of_error (h : execute name = .error error) :
    failed execute [name] = [name] := by
  simp [failed, h, Except.toOption]

variable (env committee groupBy execute) in
/-- What the variables of the loop say after the answers of `names`. -/
structure Tally.Counted (tally : Tally K V) (names : List ValidatorName) : Prop where
  remainingVotes : tally.remainingVotes + committee.weightOf names = committee.votingRights
  valueScores : ∀ key, (tally.valueScores.lookup key).getD (0, []) =
    (committee.weightOf (voters groupBy execute key names), votes groupBy execute key names)
  highestKeyScore : ∀ key,
    committee.weightOf (voters groupBy execute key names) ≤ tally.highestKeyScore
  highestKeyScore_le : tally.highestKeyScore ≤ committee.weightOf names
  errorScores : ∀ error, (tally.errorScores.lookup error).getD 0 =
    committee.weightOf (failedWith env execute error names)

namespace Tally.Counted

variable {tally : Tally K V} {names : List ValidatorName}

theorem start (hbound : committee.votingRights < 2 ^ 64) :
    Counted env committee groupBy execute ⟨committee.totalVotes, 0, ∅, ∅⟩ [] where
  remainingVotes := Committee.totalVotes_eq hbound
  valueScores := fun _ => rfl
  highestKeyScore := fun _ => le_rfl
  highestKeyScore_le := le_rfl
  errorScores := fun _ => rfl

section

variable (h : Counted env committee groupBy execute tally names)

include h

/-- What is left after one more answer. -/
theorem remainingVotes_sub (hbound : committee.votingRights < 2 ^ 64)
    (hle : committee.weightOf (names ++ [name]) ≤ committee.votingRights) :
    (tally.remainingVotes + (2 ^ 64 - committee.weight name)) % 2 ^ 64 +
      committee.weightOf (names ++ [name]) = committee.votingRights := by
  have hremaining := h.remainingVotes
  rw [Committee.weightOf_append, Committee.weightOf_cons, Committee.weightOf_nil] at hle ⊢
  have hwrap : tally.remainingVotes + (2 ^ 64 - committee.weight name) =
      tally.remainingVotes - committee.weight name + 2 ^ 64 := by omega
  rw [hwrap, Nat.add_mod_right, Nat.mod_eq_of_lt (by omega)]
  omega

theorem countValue (hbound : committee.votingRights < 2 ^ 64)
    (hle : committee.weightOf (names ++ [name]) ≤ committee.votingRights)
    (hvalue : execute name = .ok value) :
    Counted env committee groupBy execute
      (Tally.countValue committee groupBy { tally with
        remainingVotes := (tally.remainingVotes + (2 ^ 64 - committee.weight name)) % 2 ^ 64 }
        name value) (names ++ [name]) := by
  have hremaining := h.remainingVotes_sub hbound hle
  have hscore : ((tally.valueScores.lookup (groupBy value)).getD (0, [])).1 +
      committee.weight name =
        committee.weightOf (voters groupBy execute (groupBy value) (names ++ [name])) := by
    rw [h.valueScores, voters_append, voters_singleton hvalue, if_pos rfl]
    simp
  have hscore_le : committee.weightOf (voters groupBy execute (groupBy value) (names ++ [name])) ≤
      committee.weightOf (names ++ [name]) := Committee.weightOf_filter_le ..
  have hmod : (((tally.valueScores.lookup (groupBy value)).getD (0, [])).1 +
      committee.weight name) % 2 ^ 64 =
        committee.weightOf (voters groupBy execute (groupBy value) (names ++ [name])) := by
    rw [hscore, Nat.mod_eq_of_lt (by omega)]
  constructor
  · exact hremaining
  · intro key
    by_cases hkey : key = groupBy value
    · subst hkey
      simp only [Tally.countValue, AList.lookup_insert, Option.getD_some, hmod]
      rw [h.valueScores, votes_append, votes_singleton hvalue, if_pos rfl]
    · simp only [Tally.countValue, AList.lookup_insert_ne hkey, h.valueScores]
      rw [voters_append, votes_append, voters_singleton hvalue, votes_singleton hvalue,
        if_neg (Ne.symm hkey), if_neg (Ne.symm hkey), List.append_nil, List.append_nil]
  · intro key
    simp only [Tally.countValue, hmod]
    by_cases hkey : key = groupBy value
    · subst hkey
      exact le_max_right _ _
    · rw [voters_append, voters_singleton hvalue, if_neg (Ne.symm hkey), List.append_nil]
      exact (h.highestKeyScore key).trans (le_max_left _ _)
  · simp only [Tally.countValue, hmod]
    refine max_le (h.highestKeyScore_le.trans ?_) hscore_le
    simp
  · intro error
    rw [failedWith_append]
    simp [Tally.countValue, h.errorScores, failedWith, ClientEnvironment.countedError, hvalue]

/-- The score of an error after one more answer with it. -/
theorem errorScore_eq (hbound : committee.votingRights < 2 ^ 64)
    (hle : committee.weightOf (names ++ [name]) ≤ committee.votingRights)
    (herror : execute name = .error error) :
    ((tally.errorScores.lookup (env.nodeError error)).getD 0 + committee.weight name) % 2 ^ 64 =
      committee.weightOf (failedWith env execute (env.nodeError error) (names ++ [name])) := by
  have hone : failedWith env execute (env.nodeError error) [name] = [name] := by
    simp [failedWith, ClientEnvironment.countedError, herror]
  have hle' : committee.weightOf (failedWith env execute (env.nodeError error) (names ++ [name])) ≤
      committee.weightOf (names ++ [name]) := Committee.weightOf_filter_le ..
  rw [failedWith_append, hone, Committee.weightOf_append, Committee.weightOf_cons,
    Committee.weightOf_nil, Nat.add_zero] at hle' ⊢
  rw [h.errorScores, Nat.mod_eq_of_lt (by omega)]

variable {rest : List ValidatorName} {tally' : Tally K V}

theorem countError (hbound : committee.votingRights < 2 ^ 64)
    (hle : committee.weightOf (names ++ [name]) ≤ committee.votingRights)
    (herror : execute name = .error error)
    (hcount : Tally.countError committee { tally with
        remainingVotes := (tally.remainingVotes + (2 ^ 64 - committee.weight name)) % 2 ^ 64 }
        name (env.nodeError error) = .ok tally') :
    Counted env committee groupBy execute tally' (names ++ [name]) := by
  have hremaining := h.remainingVotes_sub hbound hle
  simp only [Tally.countError] at hcount
  split at hcount
  · cases hcount
  · cases hcount
    have hsame : ∀ key, voters groupBy execute key (names ++ [name]) =
        voters groupBy execute key names := fun key => by
      rw [voters_append, voters_singleton_of_error herror, List.append_nil]
    constructor
    · exact hremaining
    · intro key
      rw [hsame, votes_append, votes_singleton_of_error herror, List.append_nil]
      exact h.valueScores key
    · intro key
      rw [hsame]
      exact h.highestKeyScore key
    · refine h.highestKeyScore_le.trans ?_
      simp
    · intro other
      by_cases hother : other = env.nodeError error
      · subst hother
        simp only [AList.lookup_insert, Option.getD_some]
        exact h.errorScore_eq hbound hle herror
      · rw [failedWith_append]
        simp [AList.lookup_insert_ne hother, h.errorScores, failedWith,
          ClientEnvironment.countedError, herror, Ne.symm hother]

/-- One answer. -/
theorem count (hbound : committee.votingRights < 2 ^ 64)
    (hle : committee.weightOf (names ++ [name]) ≤ committee.votingRights)
    (hcount : tally.count env committee groupBy name (execute name) = .ok tally') :
    Counted env committee groupBy execute tally' (names ++ [name]) := by
  cases hresult : execute name with
  | ok value =>
    rw [hresult] at hcount
    cases hcount
    exact h.countValue hbound hle hresult
  | error error =>
    rw [hresult] at hcount
    exact h.countError hbound hle hresult hcount

end

variable (env) in
/-- As long as the errors weigh less than the validity threshold, an answer is counted. -/
theorem count_isOk (name : ValidatorName) (h : Counted env committee groupBy execute tally names)
    (hfailed : committee.weightOf (failed execute (names ++ [name])) < committee.validityThreshold) :
    ∃ tally', tally.count env committee groupBy name (execute name) = .ok tally' := by
  cases hresult : execute name with
  | ok value => exact ⟨_, rfl⟩
  | error error =>
    have hscore := h.errorScores (env.nodeError error)
    have hfew : committee.weightOf (failedWith env execute (env.nodeError error) names) ≤
        committee.weightOf (failed execute names) := weightOf_failedWith_le _ _
    rw [failed_append, failed_singleton_of_error hresult] at hfailed
    simp only [Committee.weightOf_append, Committee.weightOf_cons, Committee.weightOf_nil] at hfailed
    have hmod := Nat.mod_le ((tally.errorScores.lookup (env.nodeError error)).getD 0 +
      committee.weight name) (2 ^ 64)
    simp only [Tally.count, Tally.countError]
    rw [if_neg (by omega)]
    exact ⟨_, rfl⟩

/-- The sum in the loop's exit condition does not overflow. -/
theorem sum_mod (h : Counted env committee groupBy execute tally names)
    (hbound : committee.votingRights < 2 ^ 64) :
    (tally.highestKeyScore + tally.remainingVotes) % 2 ^ 64 =
      tally.highestKeyScore + tally.remainingVotes := by
  have h1 := h.remainingVotes
  have h2 := h.highestKeyScore_le
  exact Nat.mod_eq_of_lt (by omega)

/-- The loop counts all the answers, unless no key can get a quorum. -/
theorem voteWait (h : Counted env committee groupBy execute tally names)
    (hbound : committee.votingRights < 2 ^ 64)
    (hle : committee.weightOf (names ++ rest) ≤ committee.votingRights)
    (hrun : tally.voteWait env committee groupBy execute rest = .ok tally') :
    ∃ names', names' <+: names ++ rest ∧ Counted env committee groupBy execute tally' names' ∧
      (names' = names ++ rest ∨ tally'.highestKeyScore < committee.quorumThreshold) := by
  -- The answers that are already counted grow at the end.
  induction rest generalizing tally names with
  | nil =>
    cases hrun
    rw [List.append_nil]
    exact ⟨names, List.prefix_rfl, h, .inl rfl⟩
  | cons name rest ih =>
    rw [List.append_cons] at hle ⊢
    obtain ⟨next, hcount, hrun⟩ := Except.bind_eq_ok.mp hrun
    have hnext := h.count hbound
      ((Committee.weightOf_sublist (List.sublist_append_left ..)).trans hle) hcount
    split at hrun
    · next hbreak =>
      cases hrun
      rw [hnext.sum_mod hbound] at hbreak
      exact ⟨_, List.prefix_append _ _, hnext, .inr (by omega)⟩
    · exact ih hnext hle hrun

/-- The loop only fails with an error that enough validators have answered with. -/
theorem voteWait_error {error : CommunicationError}
    (h : Counted env committee groupBy execute tally names)
    (hbound : committee.votingRights < 2 ^ 64)
    (hle : committee.weightOf (names ++ rest) ≤ committee.votingRights)
    (hrun : tally.voteWait env committee groupBy execute rest = .error error) :
    ∃ trusted, error = .trusted trusted ∧ committee.validityThreshold ≤
      committee.weightOf (failedWith env execute trusted (names ++ rest)) := by
  induction rest generalizing tally names with
  | nil => cases hrun
  | cons name rest ih =>
    rw [List.append_cons] at hle ⊢
    have hle' := (Committee.weightOf_sublist (List.sublist_append_left ..)).trans hle
    rw [Tally.voteWait] at hrun
    cases hcount : tally.count env committee groupBy name (execute name) with
    | ok next =>
      rw [hcount, Except.ok_bind] at hrun
      split at hrun
      · cases hrun
      · exact ih (h.count hbound hle' hcount) hle hrun
    | error failure =>
      rw [hcount] at hrun
      obtain rfl := Except.error.inj hrun
      cases hresult : execute name with
      | ok value =>
        rw [hresult] at hcount
        cases hcount
      | error answer =>
        rw [hresult] at hcount
        simp only [Tally.count, Tally.countError] at hcount
        split at hcount
        · next htrusted =>
          rw [h.errorScore_eq hbound hle' hresult] at htrusted
          refine ⟨_, (Except.error.inj hcount).symm, htrusted.trans ?_⟩
          rw [failedWith_append _ _ rest, Committee.weightOf_append]
          exact Nat.le_add_right _ _
        · cases hcount

variable (env) in
/-- If a key has a quorum among all the answers and the errors are few, then the loop counts all
of them. -/
theorem voteWait_isOk {key : K} (h : Counted env committee groupBy execute tally names)
    (hbound : committee.votingRights < 2 ^ 64)
    (hle : committee.weightOf (names ++ rest) ≤ committee.votingRights)
    (hfailed : committee.weightOf (failed execute (names ++ rest)) < committee.validityThreshold)
    (hquorum : committee.quorumThreshold ≤
      committee.weightOf (voters groupBy execute key (names ++ rest))) :
    ∃ tally', tally.voteWait env committee groupBy execute rest = .ok tally' ∧
      Counted env committee groupBy execute tally' (names ++ rest) := by
  induction rest generalizing tally names with
  | nil =>
    rw [List.append_nil]
    exact ⟨tally, rfl, h⟩
  | cons name rest ih =>
    rw [List.append_cons] at hle hfailed hquorum ⊢
    have hle' := (Committee.weightOf_sublist (List.sublist_append_left ..)).trans hle
    obtain ⟨next, hcount⟩ := h.count_isOk env name (by
      rw [failed_append, Committee.weightOf_append] at hfailed
      omega)
    have hnext := h.count hbound hle' hcount
    obtain ⟨tally', hrun, hcounted⟩ := ih hnext hle hfailed hquorum
    refine ⟨tally', ?_, hcounted⟩
    rw [Tally.voteWait, hcount]
    -- The key has the votes counted so far, and all the others are among the remaining ones.
    have hcontinue : committee.quorumThreshold ≤ next.highestKeyScore + next.remainingVotes := by
      have hremaining := hnext.remainingVotes
      have hscore := hnext.highestKeyScore key
      have hrest : committee.weightOf (voters groupBy execute key rest) ≤ committee.weightOf rest :=
        Committee.weightOf_filter_le ..
      rw [voters_append, Committee.weightOf_append] at hquorum
      rw [Committee.weightOf_append _ rest] at hle
      omega
    simp only [Except.ok_bind]
    rw [hnext.sum_mod hbound, if_neg (by omega)]
    exact hrun

/-- The entries of the map are the keys that were voted for. -/
theorem mem_entries (h : Counted env committee groupBy execute tally names) {key : K} {score : Nat}
    {values : List V} (hmem : ⟨key, score, values⟩ ∈ tally.valueScores.entries) :
    score = committee.weightOf (voters groupBy execute key names) ∧
      values = votes groupBy execute key names := by
  have hlookup : tally.valueScores.lookup key = some (score, values) :=
    AList.mem_lookup_iff.mpr hmem
  have := h.valueScores key
  rw [hlookup, Option.getD_some] at this
  exact Prod.ext_iff.mp this

theorem exists_mem_entries (h : Counted env committee groupBy execute tally names) {key : K}
    (hpos : 0 < committee.weightOf (voters groupBy execute key names)) :
    ⟨key, committee.weightOf (voters groupBy execute key names),
      votes groupBy execute key names⟩ ∈ tally.valueScores.entries := by
  have hvalue := h.valueScores key
  cases hlookup : tally.valueScores.lookup key with
  | none =>
    rw [hlookup, Option.getD_none, Prod.ext_iff] at hvalue
    omega
  | some entry =>
    rw [hlookup, Option.getD_some] at hvalue
    rw [← hvalue]
    exact AList.mem_lookup_iff.mp hlookup

end Tally.Counted

variable {arrivals : Arrivals committee} {key : K}

/-- A key that is returned has a quorum among all the answers, and comes with all of its values. -/
theorem votes_of_communicateWithQuorum (hbound : committee.votingRights < 2 ^ 64) {values : List V}
    (h : communicateWithQuorum env committee groupBy execute arrivals = .ok (key, values)) :
    committee.quorumThreshold ≤ committee.weightOf (voters groupBy execute key arrivals.order) ∧
      values = votes groupBy execute key arrivals.order := by
  obtain ⟨tally, hrun, h⟩ := Except.bind_eq_ok.mp h
  obtain ⟨names, -, hcounted, hall⟩ :=
    (Tally.Counted.start hbound).voteWait hbound arrivals.weightOf_le hrun
  simp only at h
  split at h
  · next entry hfind =>
    obtain ⟨key', score, values'⟩ := entry
    obtain ⟨rfl, rfl⟩ := Prod.ext_iff.mp (Except.ok.inj h)
    have hmem := (env.perm_iter _).mem_iff.mp (List.mem_of_find?_eq_some hfind)
    have hscore : committee.quorumThreshold ≤ score := by simpa using List.find?_some hfind
    obtain ⟨rfl, rfl⟩ := hcounted.mem_entries hmem
    have hhighest := hcounted.highestKeyScore key'
    obtain rfl := hall.resolve_right (by omega)
    exact ⟨hscore, rfl⟩
  · split at h <;> cases h

/-- A key with a quorum is returned, if the errors weigh less than the validity threshold and no
other key has a quorum. -/
theorem communicateWithQuorum_eq_ok (hbound : committee.votingRights < 2 ^ 64)
    (hfailed : committee.weightOf (failed execute arrivals.order) < committee.validityThreshold)
    (hquorum : committee.quorumThreshold ≤
      committee.weightOf (voters groupBy execute key arrivals.order))
    (hothers : ∀ other, other ≠ key →
      committee.weightOf (voters groupBy execute other arrivals.order) <
        committee.quorumThreshold) : communicateWithQuorum env committee groupBy execute arrivals =
      .ok (key, votes groupBy execute key arrivals.order) := by
  obtain ⟨tally, hrun, hcounted⟩ := (Tally.Counted.start hbound).voteWait_isOk env hbound
    arrivals.weightOf_le hfailed hquorum
  rw [List.nil_append] at hcounted
  have hpos := committee.quorumThreshold_pos
  have hentry := (env.perm_iter _).mem_iff.mpr
    (hcounted.exists_mem_entries (hpos.trans_le hquorum))
  rw [communicateWithQuorum, hrun, Except.ok_bind]
  simp only
  split
  · next entry hfind =>
    obtain ⟨key', score, values⟩ := entry
    have hmem := (env.perm_iter _).mem_iff.mp (List.mem_of_find?_eq_some hfind)
    have hscore : committee.quorumThreshold ≤ score := by simpa using List.find?_some hfind
    obtain ⟨rfl, rfl⟩ := hcounted.mem_entries hmem
    obtain rfl : key' = key := by
      by_contra hne
      exact absurd hscore (not_le.mpr (hothers key' hne))
    rfl
  · next hnone =>
    have hlow := List.find?_eq_none.mp hnone _ hentry
    simp only [ge_iff_le, decide_eq_true_eq] at hlow
    exact absurd hquorum hlow

end Counting

end Linera
