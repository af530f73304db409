import Linera.Chain.Locking

/-!
# Aggregating signatures into a certificate

A `SignatureAggregator` takes signatures one by one and hands out the certificate when
their weight reaches the quorum. It then sets its weight back to zero; what the other
validators weigh together is less than a quorum, so it never hands out another one. The
invariant is `Aggregated`: what the fields say about the calls so far.
-/

namespace Linera

variable {T : Type}

/-- Adds a signature at its place in a certificate whose signatures are sorted: where the binary
search ends, behind the smaller validators. -/
def GenericCertificate.addSignature (certificate : GenericCertificate T)
    (signature : ValidatorName × Signature) : GenericCertificate T :=
  let index := (certificate.signatures.takeWhile fun s => s.1 < signature.1).length
  { certificate with signatures := certificate.signatures.insertIdx index signature }

structure SignatureAggregator (T : Type) where
  committee : Committee
  weight : Nat
  usedValidators : List ValidatorName
  /-- The `partial` certificate. -/
  certificate : GenericCertificate T

namespace SignatureAggregator

def new (value : T) (round : Round) (committee : Committee) : SignatureAggregator T :=
  ⟨committee, 0, [], .new value round []⟩

variable [CertificateValue T] (prims : Primitives)

def voteValue (a : SignatureAggregator T) : VoteValue :=
  ⟨a.certificate.hash prims, a.certificate.round, CertificateValue.kind T⟩

/-- Tries to append a signature to the certificate, and returns the certificate if a quorum was
reached. A call that fails still leaves an unknown validator among the used ones. -/
def append (a : SignatureAggregator T) (validator : ValidatorName) (signature : Signature) :
    SignatureAggregator T × Except ChainError (Option (GenericCertificate T)) :=
  if !prims.checkVote signature (a.voteValue prims) validator then (a, .error .cryptoError)
  else if validator ∈ a.usedValidators then (a, .error .certificateValidatorReuse)
  else
    let a := { a with usedValidators := validator :: a.usedValidators }
    let votingRights := a.committee.weight validator
    if votingRights = 0 then (a, .error .invalidSigner)
    else
      let a := { a with
        weight := (a.weight + votingRights) % 2 ^ 64
        certificate := a.certificate.addSignature (validator, signature) }
      if a.weight ≥ a.committee.quorumThreshold then
        -- Prevent from creating the certificate twice.
        ({ a with weight := 0 }, .ok (some a.certificate))
      else (a, .ok none)

def appendAll (a : SignatureAggregator T) (calls : List (ValidatorName × Signature)) :
    SignatureAggregator T :=
  calls.foldl (fun a call => (a.append prims call.1 call.2).1) a

/-- The certificate that the `i`-th of several calls returns. -/
def returned (a : SignatureAggregator T) (calls : List (ValidatorName × Signature)) (i : Nat) :
    Option (GenericCertificate T) := do
  let call ← calls[i]?
  let certificate ← ((a.appendAll prims (calls.take i)).append prims call.1 call.2).2.toOption
  certificate

def signers (vote : VoteValue) (calls : List (ValidatorName × Signature)) : Finset ValidatorName :=
  ((calls.filter fun call => prims.checkVote call.2 vote call.1).map Prod.fst).toFinset

/-- What they weigh. Only members of the committee weigh anything. -/
def signedWeight (committee : Committee) (vote : VoteValue)
    (calls : List (ValidatorName × Signature)) : Nat :=
  ∑ validator ∈ signers prims vote calls, committee.weight validator

/-- A call that fails changes neither the weight nor the signatures. -/
theorem append_of_error {a : SignatureAggregator T} {validator : ValidatorName}
    {signature : Signature} {error : ChainError}
    (h : (a.append prims validator signature).2 = .error error) :
    (a.append prims validator signature).1.weight = a.weight ∧
      (a.append prims validator signature).1.certificate = a.certificate := by
  unfold append at h ⊢
  simp only at h ⊢
  split_ifs at h ⊢ <;> exact ⟨rfl, rfl⟩

/-! ## The invariant -/

variable {prims} {committee : Committee} {vote : VoteValue}
  {calls : List (ValidatorName × Signature)} {validator : ValidatorName} {signature : Signature}

theorem signers_concat : signers prims vote (calls ++ [(validator, signature)]) =
      if prims.checkVote signature vote validator then insert validator (signers prims vote calls)
      else signers prims vote calls := by
  ext other
  by_cases hvalid : prims.checkVote signature vote validator = true
  · simp [signers, hvalid]
  · simp [signers, hvalid]

theorem signedWeight_le : signedWeight prims committee vote calls ≤ committee.votingRights :=
  committee.sum_weight_le _

/-- More calls weigh at least as much. -/
theorem signedWeight_take_mono {i j : Nat} (h : i ≤ j) :
    signedWeight prims committee vote (calls.take i) ≤
      signedWeight prims committee vote (calls.take j) := by
  refine Finset.sum_le_sum_of_subset ?_
  intro name hname
  simp only [signers, List.mem_toFinset, List.mem_map, List.mem_filter] at hname ⊢
  obtain ⟨call, ⟨hcall, hvalid⟩, rfl⟩ := hname
  exact ⟨call, ⟨(List.take_sublist_take_left h).mem hcall, hvalid⟩, rfl⟩

omit [CertificateValue T] in
/-- The signatures in the order of the validators, with a new one at its place. -/
theorem pairwise_addSignature {certificate : GenericCertificate T}
    (hsorted : certificate.signatures.Pairwise (·.1 < ·.1))
    (hnew : ∀ s ∈ certificate.signatures, s.1 ≠ validator) :
    (certificate.addSignature (validator, signature)).signatures.Pairwise (·.1 < ·.1) ∧
      (certificate.addSignature (validator, signature)).signatures.Perm
        ((validator, signature) :: certificate.signatures) := by
  obtain ⟨value, round, signatures⟩ := certificate
  simp only [GenericCertificate.addSignature] at hsorted hnew ⊢
  refine ⟨?_, List.perm_insertIdx _ _ ((List.takeWhile_sublist _).length_le)⟩
  induction signatures with
  | nil => simp
  | cons first signatures ih =>
    obtain ⟨hfirst, hrest⟩ := List.pairwise_cons.mp hsorted
    obtain ⟨hne, hnew⟩ := List.forall_mem_cons.mp hnew
    by_cases hlt : first.1 < validator
    · -- the search goes on behind the first signature
      rw [List.takeWhile_cons_of_pos (by simpa using hlt), List.length_cons, List.insertIdx_succ_cons,
        List.pairwise_cons]
      refine ⟨fun s hs => ?_, ih hrest hnew⟩
      rcases List.mem_cons.mp ((List.perm_insertIdx _ _ ((List.takeWhile_sublist _).length_le)).mem_iff.mp hs)
        with rfl | hs
      · exact hlt
      · exact hfirst s hs
    · rw [List.takeWhile_cons_of_neg (by simpa using hlt), List.length_nil, List.insertIdx_zero]
      have hgt : validator < first.1 := lt_of_le_of_ne (not_lt.mp hlt) (Ne.symm hne)
      refine List.pairwise_cons.mpr ⟨fun s hs => ?_, hsorted⟩
      rcases List.mem_cons.mp hs with rfl | hs
      · exact hgt
      · exact hgt.trans (hfirst s hs)

/-- What the aggregator says about the calls. Once a quorum was reached, the weight is at most what
has come after it. -/
structure Aggregated (prims : Primitives) (value : T) (round : Round) (committee : Committee)
    (calls : List (ValidatorName × Signature)) (vote : VoteValue) (a : SignatureAggregator T) :
    Prop where
  committee_eq : a.committee = committee
  value_eq : a.certificate.value = value
  round_eq : a.certificate.round = round
  vote_eq : a.voteValue prims = vote
  used : ∀ name, name ∈ a.usedValidators ↔ name ∈ signers prims vote calls
  sorted : a.certificate.signatures.Pairwise (·.1 < ·.1)
  valid : ∀ s ∈ a.certificate.signatures, prims.checkVote s.2 vote s.1
  names : ∀ name, name ∈ a.certificate.signatures.map Prod.fst ↔
    name ∈ signers prims vote calls ∧ committee.weight name ≠ 0
  before : signedWeight prims committee vote calls < committee.quorumThreshold →
    a.weight = signedWeight prims committee vote calls
  after : committee.quorumThreshold ≤ signedWeight prims committee vote calls →
    a.weight + committee.quorumThreshold ≤ signedWeight prims committee vote calls

namespace Aggregated

variable {value : T} {round : Round} {a : SignatureAggregator T}

theorem start : Aggregated prims value round committee []
    ⟨CertificateValue.hash prims value, round, CertificateValue.kind T⟩
      (new value round committee) where
  committee_eq := rfl
  value_eq := rfl
  round_eq := rfl
  vote_eq := rfl
  used := by simp [new, signers]
  sorted := List.Pairwise.nil
  valid := by simp [new, GenericCertificate.new]
  names := by simp [new, GenericCertificate.new, signers]
  before _ := rfl
  after h := absurd h (Nat.not_le.mpr committee.quorumThreshold_pos)

variable (h : Aggregated prims value round committee calls vote a)

include h

theorem nodup : (a.certificate.signatures.map Prod.fst).Nodup :=
  List.pairwise_map.mpr (h.sorted.imp ne_of_lt)

/-- The signatures of the certificate weigh as much as the calls. -/
theorem sum_weight : (a.certificate.signatures.map fun s => committee.weight s.1).sum =
      signedWeight prims committee vote calls := by
  have hnames : (a.certificate.signatures.map Prod.fst).toFinset =
      (signers prims vote calls).filter (committee.weight · ≠ 0) := by
    ext name
    rw [List.mem_toFinset, h.names, Finset.mem_filter]
  calc (a.certificate.signatures.map fun s => committee.weight s.1).sum
      = ((a.certificate.signatures.map Prod.fst).map committee.weight).sum := by
        rw [List.map_map]
        rfl
    _ = ∑ name ∈ (a.certificate.signatures.map Prod.fst).toFinset, committee.weight name :=
        (List.sum_toFinset _ h.nodup).symm
    _ = signedWeight prims committee vote calls := by
        rw [hnames, signedWeight, Finset.sum_filter_ne_zero]

/-- The certificate is valid if a quorum has signed. -/
theorem check (hbound : 2 * committee.votingRights < 2 ^ 64)
    (hquorum : committee.quorumThreshold ≤ signedWeight prims committee vote calls) :
    a.certificate.check prims committee = .ok () := by
  have hle : signedWeight prims committee vote calls ≤ committee.votingRights := signedWeight_le
  refine checkSignatures_eq_ok.mpr ⟨h.nodup, ?_, ?_, ?_⟩
  · intro s hs
    exact Nat.pos_of_ne_zero ((h.names s.1).mp (List.mem_map_of_mem hs)).2
  · rw [h.sum_weight, Nat.mod_eq_of_lt (by omega)]
    exact hquorum
  · intro s hs
    have hvalid := h.valid s hs
    rwa [← h.vote_eq] at hvalid

/-- A call whose signature is not counted: nothing changes but the used validators. -/
theorem unchanged (hnew : ∀ name, name ∈ signers prims vote (calls ++ [(validator, signature)]) →
      name ∈ signers prims vote calls ∨ committee.weight name = 0)
    {used : List ValidatorName}
    (hused : ∀ name, name ∈ used ↔
      name ∈ signers prims vote (calls ++ [(validator, signature)])) :
    Aggregated prims value round committee (calls ++ [(validator, signature)]) vote
        { a with usedValidators := used } ∧
      signedWeight prims committee vote (calls ++ [(validator, signature)]) =
        signedWeight prims committee vote calls := by
  have hsubset : signers prims vote calls ⊆ signers prims vote (calls ++ [(validator, signature)]) := by
    rw [signers_concat]
    split_ifs
    · exact Finset.subset_insert _ _
    · exact Finset.Subset.refl _
  have hweight : signedWeight prims committee vote (calls ++ [(validator, signature)]) =
      signedWeight prims committee vote calls := by
    refine (Finset.sum_subset hsubset fun name hname hnot => ?_).symm
    exact (hnew name hname).resolve_left hnot
  refine ⟨⟨h.committee_eq, h.value_eq, h.round_eq, h.vote_eq, hused, h.sorted, h.valid, ?_, ?_, ?_⟩,
    hweight⟩
  · intro name
    rw [h.names]
    refine and_congr_left fun hne => ⟨fun hname => hsubset hname, fun hname => ?_⟩
    exact (hnew name hname).resolve_right hne
  · rw [hweight]
    exact h.before
  · rw [hweight]
    exact h.after

theorem counted (hvalid : prims.checkVote signature vote validator = true)
    (hfresh : validator ∉ signers prims vote calls) (hne : committee.weight validator ≠ 0)
    {weight : Nat}
    (hbefore : signedWeight prims committee vote (calls ++ [(validator, signature)]) <
      committee.quorumThreshold →
        weight = signedWeight prims committee vote (calls ++ [(validator, signature)]))
    (hafter : committee.quorumThreshold ≤
      signedWeight prims committee vote (calls ++ [(validator, signature)]) →
        weight + committee.quorumThreshold ≤
          signedWeight prims committee vote (calls ++ [(validator, signature)])) :
    Aggregated prims value round committee (calls ++ [(validator, signature)]) vote
      { a with
        usedValidators := validator :: a.usedValidators
        weight := weight
        certificate := a.certificate.addSignature (validator, signature) } := by
  have hnot : ∀ s ∈ a.certificate.signatures, s.1 ≠ validator := by
    rintro s hs rfl
    exact hfresh ((h.names s.1).mp (List.mem_map_of_mem hs)).1
  obtain ⟨hsorted, hperm⟩ := @pairwise_addSignature _ _ signature _ h.sorted hnot
  refine ⟨h.committee_eq, h.value_eq, h.round_eq, h.vote_eq, ?_, hsorted, ?_, ?_, hbefore, hafter⟩
  · intro name
    rw [signers_concat, if_pos hvalid, Finset.mem_insert, List.mem_cons, h.used]
  · intro s hs
    rcases List.mem_cons.mp (hperm.mem_iff.mp hs) with rfl | hs
    · exact hvalid
    · exact h.valid s hs
  · intro name
    rw [(hperm.map Prod.fst).mem_iff, List.map_cons, List.mem_cons, h.names, signers_concat,
      if_pos hvalid, Finset.mem_insert, or_and_right]
    refine or_congr_left ⟨?_, And.left⟩
    rintro rfl
    exact ⟨rfl, hne⟩

/-- One more call: it returns the certificate exactly when it brings the weight up to the
quorum. -/
theorem append (hbound : 2 * committee.votingRights < 2 ^ 64) (validator : ValidatorName)
    (signature : Signature) :
    Aggregated prims value round committee (calls ++ [(validator, signature)]) vote
        (a.append prims validator signature).1 ∧
      ∀ certificate, (a.append prims validator signature).2 = .ok (some certificate) ↔
        certificate = (a.append prims validator signature).1.certificate ∧
          signedWeight prims committee vote calls < committee.quorumThreshold ∧
          committee.quorumThreshold ≤
            signedWeight prims committee vote (calls ++ [(validator, signature)]) := by
  obtain rfl := h.committee_eq
  have hsigners := @signers_concat prims vote calls validator signature
  have hle : signedWeight prims a.committee vote (calls ++ [(validator, signature)]) ≤
    a.committee.votingRights := signedWeight_le
  have hquorum := Committee.quorumThreshold_eq hbound
  simp only [SignatureAggregator.append, h.vote_eq]
  split_ifs with hinvalid hused hzero hreached
  · rw [Bool.not_eq_true'] at hinvalid
    rw [if_neg (by simp [hinvalid])] at hsigners
    obtain ⟨hnext, hsame⟩ := h.unchanged (fun name hname => .inl (hsigners ▸ hname))
      (fun name => (h.used name).trans (by rw [hsigners]))
    refine ⟨hnext, fun certificate => ⟨nofun, fun hreturned => ?_⟩⟩
    omega
  · have hmem := (h.used validator).mp hused
    have hsame : signers prims vote (calls ++ [(validator, signature)]) = signers prims vote calls := by
      rw [hsigners, Finset.insert_eq_self.mpr hmem, ite_self]
    obtain ⟨hnext, hsame⟩ := h.unchanged (fun name hname => .inl (hsame ▸ hname))
      (fun name => (h.used name).trans (by rw [hsame]))
    refine ⟨hnext, fun certificate => ⟨nofun, fun hreturned => ?_⟩⟩
    omega
  · rw [if_pos (by simpa using hinvalid)] at hsigners
    have hnew : ∀ name, name ∈ signers prims vote (calls ++ [(validator, signature)]) →
        name ∈ signers prims vote calls ∨ a.committee.weight name = 0 := by
      intro name hname
      rw [hsigners, Finset.mem_insert] at hname
      rcases hname with rfl | hname
      · exact .inr hzero
      · exact .inl hname
    have hused' : ∀ name, name ∈ validator :: a.usedValidators ↔
        name ∈ signers prims vote (calls ++ [(validator, signature)]) := by
      intro name
      rw [hsigners, Finset.mem_insert, List.mem_cons, h.used]
    obtain ⟨hnext, hsame⟩ := h.unchanged hnew hused'
    refine ⟨hnext, fun certificate => ⟨nofun, fun hreturned => ?_⟩⟩
    omega
  all_goals
    have hvalid : prims.checkVote signature vote validator = true := by simpa using hinvalid
    have hfresh := mt (h.used validator).mpr hused
    have hsum : signedWeight prims a.committee vote (calls ++ [(validator, signature)]) =
        signedWeight prims a.committee vote calls + a.committee.weight validator := by
      rw [signedWeight, hsigners, if_pos hvalid, Finset.sum_insert hfresh, Nat.add_comm, signedWeight]
    have hbefore := h.before
    have hafter := h.after
  · -- The others weigh too little for a second quorum, so this is the first one.
    have hweight : (a.weight + a.committee.weight validator) % 2 ^ 64 =
        a.weight + a.committee.weight validator := Nat.mod_eq_of_lt (by omega)
    refine ⟨h.counted hvalid hfresh hzero (by omega) (by omega), fun certificate => ?_⟩
    rw [Except.ok.injEq, Option.some.injEq, eq_comm]
    refine (and_iff_left ?_).symm
    omega
  · have hweight : (a.weight + a.committee.weight validator) % 2 ^ 64 =
        a.weight + a.committee.weight validator := Nat.mod_eq_of_lt (by omega)
    refine ⟨h.counted hvalid hfresh hzero (by omega) (by omega), fun certificate =>
      ⟨nofun, fun hreturned => ?_⟩⟩
    omega

end Aggregated

variable (prims) in
/-- The invariant after any calls. -/
theorem aggregated_appendAll (hbound : 2 * committee.votingRights < 2 ^ 64) (value : T)
    (round : Round) (calls : List (ValidatorName × Signature)) :
    Aggregated prims value round committee calls
      ⟨CertificateValue.hash prims value, round, CertificateValue.kind T⟩
      ((new value round committee).appendAll prims calls) := by
  induction calls using List.reverseRecOn with
  | nil => exact .start
  | append_singleton calls call ih =>
    rw [appendAll, List.foldl_append]
    exact (ih.append hbound call.1 call.2).1

theorem returned_eq_some_iff (hbound : 2 * committee.votingRights < 2 ^ 64) {value : T}
    {round : Round} {i : Nat} {certificate : GenericCertificate T} (hi : i < calls.length)
    (hvote : vote = ⟨CertificateValue.hash prims value, round, CertificateValue.kind T⟩) :
    (new value round committee).returned prims calls i = some certificate ↔
      certificate = ((new value round committee).appendAll prims (calls.take (i + 1))).certificate ∧
        signedWeight prims committee vote (calls.take i) < committee.quorumThreshold ∧
        committee.quorumThreshold ≤ signedWeight prims committee vote (calls.take (i + 1)) := by
  subst hvote
  have hcall := ((aggregated_appendAll prims hbound value round (calls.take i)).append hbound
    calls[i].1 calls[i].2).2 certificate
  rw [List.take_add_one, List.getElem?_eq_getElem hi, appendAll, List.foldl_append]
  refine Iff.trans ?_ hcall
  simp only [returned, List.getElem?_eq_getElem hi, Option.bind_eq_bind, Option.bind_some]
  cases (((new value round committee).appendAll prims (calls.take i)).append prims calls[i].1
    calls[i].2).2 with
  | error error => simp [Except.toOption]
  | ok result => simp [Except.toOption]

/-- The certificate is returned at most once, by the first call after which the distinct validators
with valid signatures weigh a quorum. It is valid and its signatures are sorted, and calls that fail
change neither the weight nor the signatures. -/
theorem aggregates_once {committee : Committee} (hbound : 2 * committee.votingRights < 2 ^ 64)
    (prims : Primitives) (value : T) (round : Round) (calls : List (ValidatorName × Signature)) :
    let a := new value round committee
    let weight (n : Nat) := signedWeight prims committee
      ⟨CertificateValue.hash prims value, round, CertificateValue.kind T⟩ (calls.take n)
    (∀ i j, (a.returned prims calls i).isSome → (a.returned prims calls j).isSome → i = j) ∧
      (∀ i < calls.length, (a.returned prims calls i).isSome ↔
        committee.quorumThreshold ≤ weight (i + 1) ∧
          ∀ j < i, ¬committee.quorumThreshold ≤ weight (j + 1)) ∧
      (∀ i certificate, a.returned prims calls i = some certificate →
        certificate.value = value ∧ certificate.round = round ∧
          certificate.check prims committee = .ok () ∧
          certificate.signatures.Pairwise fun s s' => s.1 < s'.1) ∧
      ∀ i validator signature error,
        ((a.appendAll prims (calls.take i)).append prims validator signature).2 = .error error →
          ((a.appendAll prims (calls.take i)).append prims validator signature).1.weight =
              (a.appendAll prims (calls.take i)).weight ∧
            ((a.appendAll prims (calls.take i)).append prims validator signature).1.certificate =
              (a.appendAll prims (calls.take i)).certificate := by
  intro a weight
  have hlt : ∀ {i}, (a.returned prims calls i).isSome → i < calls.length := by
    intro i hi
    by_contra hge
    rw [returned, List.getElem?_eq_none (not_lt.mp hge)] at hi
    cases hi
  have hfirst : ∀ i < calls.length, (a.returned prims calls i).isSome ↔
      weight i < committee.quorumThreshold ∧ committee.quorumThreshold ≤ weight (i + 1) := by
    intro i hi
    rw [Option.isSome_iff_exists]
    constructor
    · rintro ⟨certificate, hcertificate⟩
      exact ((returned_eq_some_iff hbound hi rfl).mp hcertificate).2
    · intro hweight
      exact ⟨_, (returned_eq_some_iff hbound hi rfl).mpr ⟨rfl, hweight⟩⟩
  have hmono : ∀ {m n}, m ≤ n → weight m ≤ weight n := fun h => signedWeight_take_mono h
  have hordered : ∀ i j, (a.returned prims calls i).isSome → (a.returned prims calls j).isSome →
      ¬i < j := by
    intro i j hi hj hij
    have h₁ := ((hfirst i (hlt hi)).mp hi).2
    have h₂ := ((hfirst j (hlt hj)).mp hj).1
    have h₃ : weight (i + 1) ≤ weight j := hmono hij
    omega
  refine ⟨?_, ?_, ?_, ?_⟩
  · intro i j hi hj
    exact Nat.le_antisymm (not_lt.mp (hordered j i hj hi)) (not_lt.mp (hordered i j hi hj))
  · intro i hi
    rw [hfirst i hi, and_comm]
    refine and_congr_right fun _ => ⟨fun hbelow j hj hle => ?_, fun hbelow => ?_⟩
    · have hmore : weight (j + 1) ≤ weight i := hmono hj
      omega
    · cases i with
      | zero => exact committee.quorumThreshold_pos
      | succ i => exact not_le.mp (hbelow i (Nat.lt_succ_self i))
  · intro i certificate hcertificate
    have hi := hlt (Option.isSome_iff_exists.mpr ⟨_, hcertificate⟩)
    obtain ⟨rfl, -, hquorum⟩ := (returned_eq_some_iff hbound hi rfl).mp hcertificate
    have hinv := aggregated_appendAll prims hbound value round (calls.take (i + 1))
    exact ⟨hinv.value_eq, hinv.round_eq, hinv.check hbound hquorum, hinv.sorted⟩
  · intro i validator signature error h
    exact append_of_error prims h

def twoValidators : Committee where
  validators := .ofList [(⟨1⟩, ⟨"", 1⟩), (⟨2⟩, ⟨"", 1⟩)]
  policy := .default

/-- A wrong signature, a signature that is repeated, and the one that makes the quorum. -/
def fourCalls : List (ValidatorName × Signature) := [(⟨1⟩, ⟨5⟩), (⟨2⟩, ⟨2⟩), (⟨2⟩, ⟨2⟩), (⟨1⟩, ⟨1⟩)]

theorem aggregates_once_fourth :
    let a := new (⟨⟨⟨0⟩⟩, 0, 0⟩ : Timeout) .fast twoValidators
    (a.returned Validator.simplePrimitives fourCalls 3).isSome ∧
      ∀ i, (a.returned Validator.simplePrimitives fourCalls i).isSome → i = 3 := by
  obtain ⟨honce, hfirst, -⟩ := @aggregates_once _ _ twoValidators (by decide)
    Validator.simplePrimitives (⟨⟨⟨0⟩⟩, 0, 0⟩ : Timeout) .fast fourCalls
  have hfourth := (hfirst 3 (by decide)).mpr ⟨by decide, by decide⟩
  exact ⟨hfourth, fun i hi => honce i 3 hi hfourth⟩

end SignatureAggregator

end Linera
