import Linera.Core.Quorum
import Linera.Chain.Locking

/-!
# The certificates a client assembles

The votes that `communicateChainAction` collects are grouped by hash and round,
but a validator also signs the kind of certificate that its vote is for, and
states a chain ID that it does not sign. One vote with the right hash and round
but of another kind spoils the certificate: `LiteCertificate::try_from_votes`
takes the kind and the chain ID of the first vote for all of them, and drops
those of the others.

`certificate_valid_iff` says which answers lead to a valid certificate.
-/

namespace Linera

variable {env : ClientEnvironment} {committee : Committee} {action : CommunicateAction}

/-- A signature is for one vote only. -/
def Primitives.Binding (prims : Primitives) : Prop :=
  ∀ signature voteValue voteValue' publicKey, prims.checkVote signature voteValue publicKey →
    prims.checkVote signature voteValue' publicKey → voteValue = voteValue'

/-! ## The votes -/

/-- A vote that a validator is taken to have answered with is signed by that validator. -/
theorem signed_of_sendChainUpdate {name : ValidatorName}
    {response : Except ChainClientError ChainManagerInfo} {vote : LiteVote}
    (h : sendChainUpdate env action name response = .ok vote) :
    vote.validator = name ∧ env.primitives.checkVote vote.signature
      ⟨vote.value.valueHash, vote.round, vote.value.kind⟩ vote.validator := by
  obtain ⟨manager, -, h⟩ := Except.bind_eq_ok.mp h
  cases hvote : action.vote manager with
  | none =>
    rw [hvote] at h
    cases h
  | some other =>
    rw [hvote] at h
    simp only at h
    split at h
    · next hname =>
      obtain ⟨_, hcheck, h⟩ := Except.bind_eq_ok.mp h
      cases h
      exact ⟨hname, Except.ensure_eq_ok.mp (Except.mapError_eq_ok.mp hcheck)⟩
    · cases h

section Votes

variable {response : ValidatorName → Except ChainClientError ChainManagerInfo}
  {key : CryptoHash × Round} {names : List ValidatorName}

variable (env action response) in
def answer (name : ValidatorName) : Except ChainClientError LiteVote :=
  sendChainUpdate env action name (response name)

theorem map_validator_votes :
    (votes LiteVote.key (answer env action response) key names).map (·.validator) =
      voters LiteVote.key (answer env action response) key names := by
  induction names with
  | nil => rfl
  | cons name names ih =>
    rw [← List.singleton_append, votes_append, voters_append, List.map_append, ih]
    congr 1
    cases hvote : answer env action response name with
    | error error => rw [votes_singleton_of_error hvote, voters_singleton_of_error hvote]; rfl
    | ok vote =>
      rw [votes_singleton hvote, voters_singleton hvote]
      split
      · simp [(signed_of_sendChainUpdate hvote).1]
      · rfl

theorem of_mem_votes {vote : LiteVote}
    (h : vote ∈ votes LiteVote.key (answer env action response) key names) :
    vote.key = key ∧ env.primitives.checkVote vote.signature
      ⟨vote.value.valueHash, vote.round, vote.value.kind⟩ vote.validator := by
  obtain ⟨name, -, h⟩ := List.mem_filterMap.mp h
  obtain ⟨hvote, hkey⟩ := Option.filter_eq_some_iff.mp h
  exact ⟨by simpa using hkey, (signed_of_sendChainUpdate (Except.toOption_eq_some.mp hvote)).2⟩

end Votes

/-! ## The certificate -/

variable {T : Type} [CertificateValue T] {value : T}

variable {certificate : GenericCertificate T}

/-- Votes for one hash and round make a certificate if the first one is for the submitted value. -/
theorem certify_eq_ok {votes : List LiteVote} {key : CryptoHash × Round}
    (hvotes : ∀ vote ∈ votes, vote.key = key) :
    certify env action value key votes = .ok certificate ↔
      key = (CertificateValue.hash env.primitives value, action.round) ∧
        ∃ first rest, votes = first :: rest ∧ first.value = .new env.primitives value ∧
          certificate = .new value action.round
            ((votes.map fun vote => (vote.validator, vote.signature)).insertionSort
              fun a b => a.1 ≤ b.1) := by
  unfold certify
  rw [Except.bind_eq_ok]
  simp only [Except.ensure_eq_ok, exists_const]
  refine and_congr_right fun hkey => ?_
  cases votes with
  | nil => simp [LiteCertificate.tryFromVotes]
  | cons first rest =>
    have hfirst := hvotes first List.mem_cons_self
    have hsame : rest.all fun other =>
        other.value.valueHash = first.value.valueHash ∧ other.round = first.round := by
      refine List.all_eq_true.mpr fun other hother => ?_
      have hother := (hvotes other (List.mem_cons_of_mem _ hother)).trans hfirst.symm
      simpa [LiteVote.key, Prod.ext_iff] using hother
    have hround : first.round = action.round := (Prod.ext_iff.mp (hfirst.trans hkey)).2
    rw [LiteCertificate.tryFromVotes, if_pos hsame]
    simp only [LiteCertificate.new]
    constructor
    · intro h
      split at h
      · cases h
      · next full hfull =>
        cases h
        obtain ⟨hvalue, rfl⟩ := LiteCertificate.withValue_eq_some.mp hfull
        exact ⟨first, rest, rfl, hvalue, by rw [hround]⟩
    · rintro ⟨first', rest', heq, hvalue, rfl⟩
      obtain ⟨rfl, rfl⟩ := List.cons.inj heq
      rw [LiteCertificate.withValue_eq_some.mpr ⟨hvalue, rfl⟩, hround]
      rfl

/-- The check does not depend on the order of the signatures. -/
theorem check_new_iff {signatures signatures' : List (ValidatorName × Signature)} {round : Round}
    (h : signatures'.Perm signatures) :
    (GenericCertificate.new value round signatures').check env.primitives committee = .ok () ↔
      checkSignatures env.primitives (CertificateValue.hash env.primitives value)
        (CertificateValue.kind T) round signatures committee = .ok () := by
  have hperm : (GenericCertificate.new value round signatures').signatures.Perm signatures :=
    (List.perm_insertionSort _ _).trans h
  have hsum := (hperm.map fun s => committee.weight s.1).sum_eq
  unfold GenericCertificate.check
  rw [checkSignatures_eq_ok, checkSignatures_eq_ok, (hperm.map Prod.fst).nodup_iff, hsum]
  simp only [hperm.mem_iff]
  rfl

/-! ## The result -/

section Action

variable (response : ValidatorName → Except ChainClientError ChainManagerInfo)
  (arrivals : Arrivals committee)

variable (env action value) in
/-- The votes that arrive with the hash of the submitted value and the round of the action. -/
def submittedVotes : List LiteVote :=
  votes LiteVote.key (answer env action response)
    (CertificateValue.hash env.primitives value, action.round) arrivals.order

variable (env action value) in
/-- The validators that are not faulty are a quorum and answer with their vote for the value, and
the client waits for their answers: until all have arrived, or for the grace period after some key
has a quorum. -/
structure HonestQuorum (faulty : Finset ValidatorName) : Prop where
  makeNode : ∀ state ∈ committee.validators.values, env.makeNode state.networkAddress = .ok ()
  faulty_lt : ∑ name ∈ faulty, committee.weight name < committee.validityThreshold
  quorum_le : committee.quorumThreshold ≤
    committee.weightOf (committee.contacted.filter fun name => name ∉ faulty)
  vote : ∀ name ∈ committee.contacted, name ∉ faulty →
    ∃ vote ∈ (answer env action response name).toOption,
      vote.value = .new env.primitives value ∧ vote.round = action.round
  waits : committee.contacted ⊆ arrivals.order ∨
    ∃ key, committee.quorumThreshold ≤
      committee.weightOf (voters LiteVote.key (answer env action response) key arrivals.order)

variable {response arrivals} {faulty : Finset ValidatorName}

namespace HonestQuorum

variable (h : HonestQuorum env action value response arrivals faulty)
include h

/-- Validators that are all faulty weigh less than the validity threshold. -/
theorem weightOf_lt {p : ValidatorName → Bool}
    (hp : ∀ name ∈ arrivals.order, p name → name ∈ faulty) :
    committee.weightOf (arrivals.order.filter p) < committee.validityThreshold := by
  refine lt_of_le_of_lt ?_ h.faulty_lt
  have hnodup : (arrivals.order.filter p).Nodup := arrivals.nodup_order.filter _
  rw [Committee.weightOf, ← List.sum_toFinset _ hnodup]
  refine Finset.sum_le_sum_of_subset fun name hname => ?_
  obtain ⟨hmem, hname⟩ := List.mem_filter.mp (List.mem_toFinset.mp hname)
  exact hp name hmem hname

theorem answer_eq {name : ValidatorName} (hmem : name ∈ arrivals.order) (hhonest : name ∉ faulty) :
    ∃ vote, answer env action response name = .ok vote ∧
      vote.key = (CertificateValue.hash env.primitives value, action.round) := by
  obtain ⟨vote, hvote, hvalue, hround⟩ := h.vote name (arrivals.subperm.subset hmem) hhonest
  refine ⟨vote, Except.toOption_eq_some.mp hvote, ?_⟩
  rw [LiteVote.key, hvalue, hround]
  rfl

theorem failed_lt : committee.weightOf (failed (answer env action response) arrivals.order) <
    committee.validityThreshold := by
  refine h.weightOf_lt fun name hmem hfailed => ?_
  by_contra hhonest
  obtain ⟨vote, hvote, -⟩ := h.answer_eq hmem hhonest
  simp [hvote, Except.toOption] at hfailed

theorem others_lt {key : CryptoHash × Round}
    (hkey : key ≠ (CertificateValue.hash env.primitives value, action.round)) :
    committee.weightOf (voters LiteVote.key (answer env action response) key arrivals.order) <
      committee.validityThreshold := by
  refine h.weightOf_lt fun name hmem hvoter => ?_
  by_contra hhonest
  obtain ⟨vote, hvote, hvoteKey⟩ := h.answer_eq hmem hhonest
  simp [hvote, Except.toOption, hvoteKey, hkey.symm] at hvoter

/-- The votes for the submitted value are a quorum. -/
theorem quorum_le_voters (hthreshold : committee.validityThreshold ≤ committee.quorumThreshold) :
    committee.quorumThreshold ≤ committee.weightOf (voters LiteVote.key (answer env action response)
      (CertificateValue.hash env.primitives value, action.round) arrivals.order) := by
  obtain hall | ⟨key, hkey⟩ := h.waits
  · refine h.quorum_le.trans (Committee.weightOf_subperm ?_)
    refine (List.subperm_of_subset (Committee.nodup_contacted.filter _) fun name hname => ?_)
    obtain ⟨hmem, hhonest⟩ := List.mem_filter.mp hname
    obtain ⟨vote, hvote, hvoteKey⟩ := h.answer_eq (hall hmem) (by simpa using hhonest)
    refine List.mem_filter.mpr ⟨hall hmem, ?_⟩
    simp [hvote, Except.toOption, hvoteKey]
  · -- The grace period has ended, and only the submitted value can have a quorum.
    by_cases heq : key = (CertificateValue.hash env.primitives value, action.round)
    · rwa [← heq]
    · exact absurd (h.others_lt heq) (not_lt.mpr (hthreshold.trans hkey))

end HonestQuorum

theorem validityThreshold_le (hbound : 2 * committee.votingRights < 2 ^ 64) :
    committee.validityThreshold ≤ committee.quorumThreshold := by
  rw [Committee.validityThreshold_eq hbound, Committee.quorumThreshold_eq hbound]
  omega

/-- A certificate that is returned is made of all the votes with the submitted hash and round. -/
theorem of_communicateChainAction (hbound : committee.votingRights < 2 ^ 64)
    (h : communicateChainAction env committee action value response arrivals = .ok certificate) :
    committee.quorumThreshold ≤ committee.weightOf (voters LiteVote.key (answer env action response)
        (CertificateValue.hash env.primitives value, action.round) arrivals.order) ∧
      certify env action value (CertificateValue.hash env.primitives value, action.round)
        (submittedVotes env action value response arrivals) = .ok certificate := by
  obtain ⟨_, -, h⟩ := Except.bind_eq_ok.mp h
  obtain ⟨_, -, h⟩ := Except.bind_eq_ok.mp h
  obtain ⟨⟨key, values⟩, hquorum, hcertify⟩ := Except.bind_eq_ok.mp h
  obtain ⟨hweight, rfl⟩ := votes_of_communicateWithQuorum hbound (Except.mapError_eq_ok.mp hquorum)
  obtain ⟨rfl, -⟩ := (certify_eq_ok fun vote hvote => (of_mem_votes hvote).1).mp hcertify
  exact ⟨hweight, hcertify⟩

/-- The votes of a quorum make a valid certificate if and only if all of them are for the kind
of the submitted value. -/
theorem check_certify_iff (hbinding : env.primitives.Binding)
    (hbound : committee.votingRights < 2 ^ 64) (hquorum : committee.quorumThreshold ≤
      committee.weightOf (voters LiteVote.key (answer env action response)
        (CertificateValue.hash env.primitives value, action.round) arrivals.order))
    (h : certify env action value (CertificateValue.hash env.primitives value, action.round)
        (submittedVotes env action value response arrivals) = .ok certificate) :
    certificate.check env.primitives committee = .ok () ↔
      ∀ vote ∈ submittedVotes env action value response arrivals,
        vote.value.kind = CertificateValue.kind T := by
  obtain ⟨-, -, -, -, -, rfl⟩ := (certify_eq_ok fun vote hvote => (of_mem_votes hvote).1).mp h
  have hnames : (submittedVotes env action value response arrivals).map (·.validator) =
      voters LiteVote.key (answer env action response)
        (CertificateValue.hash env.primitives value, action.round) arrivals.order :=
    map_validator_votes
  have hweights : ((submittedVotes env action value response arrivals).map fun vote =>
      committee.weight vote.validator).sum =
        committee.weightOf (voters LiteVote.key (answer env action response)
          (CertificateValue.hash env.primitives value, action.round) arrivals.order) := by
    rw [Committee.weightOf, ← hnames, List.map_map]
    rfl
  have hnodup : ((submittedVotes env action value response arrivals).map (·.validator)).Nodup := by
    rw [hnames]
    exact arrivals.nodup_order.filter _
  have hpos : ∀ vote ∈ submittedVotes env action value response arrivals,
      0 < committee.weight vote.validator := by
    intro vote hvote
    have hvoter := List.mem_map_of_mem (f := (·.validator)) hvote
    rw [hnames] at hvoter
    exact Nat.pos_of_ne_zero (Committee.weight_ne_zero_of_mem_contacted
      (arrivals.subperm.subset (List.mem_of_mem_filter hvoter)))
  have hle : committee.weightOf (voters LiteVote.key (answer env action response)
      (CertificateValue.hash env.primitives value, action.round) arrivals.order) < 2 ^ 64 :=
    ((Committee.weightOf_filter_le _ _).trans arrivals.weightOf_le).trans_lt hbound
  rw [check_new_iff (List.perm_insertionSort _ _), checkSignatures_eq_ok]
  simp only [List.map_map, List.forall_mem_map, Function.comp_def]
  rw [← submittedVotes, hweights, Nat.mod_eq_of_lt hle]
  refine (and_iff_right hnodup).trans ((and_iff_right hpos).trans ((and_iff_right hquorum).trans ?_))
  -- The signature of a vote is for the kind it states, and for no other.
  refine forall₂_congr fun vote hvote => ?_
  obtain ⟨hkey, hsigned⟩ := of_mem_votes hvote
  have hhash : vote.value.valueHash = CertificateValue.hash env.primitives value :=
    congrArg Prod.fst hkey
  have hround : vote.round = action.round := congrArg Prod.snd hkey
  constructor
  · intro hchecked
    exact congrArg VoteValue.kind (hbinding _ _ _ _ hsigned hchecked)
  · intro hkind
    rw [← hkind, ← hhash, ← hround]
    exact hsigned

/-- When the honest validators are a quorum, the client makes a certificate of all the votes with
the submitted hash and round. -/
theorem communicateChainAction_eq (hbound : 2 * committee.votingRights < 2 ^ 64)
    (h : HonestQuorum env action value response arrivals faulty) :
    communicateChainAction env committee action value response arrivals =
      certify env action value (CertificateValue.hash env.primitives value, action.round)
        (submittedVotes env action value response arrivals) := by
  have hthreshold := validityThreshold_le hbound
  have hquorum := h.quorum_le_voters hthreshold
  have hcollect : communicateWithQuorum env committee LiteVote.key (answer env action response)
      arrivals = .ok ((CertificateValue.hash env.primitives value, action.round),
        submittedVotes env action value response arrivals) :=
    communicateWithQuorum_eq_ok (by omega) h.failed_lt hquorum
      fun other hother => (h.others_lt hother).trans_le hthreshold
  have hnodes : (committee.validators.values.forM fun state =>
      (env.makeNode state.networkAddress).mapError ChainClientError.remoteNodeError) = .ok () := by
    refine Except.forM_eq_ok fun state hmem => ?_
    rw [h.makeNode state hmem]
    rfl
  have hsome : committee.validators.entries ≠ [] := by
    -- Without validators there are no votes, and no quorum.
    intro hnil
    have hpos := committee.quorumThreshold_pos.trans_le hquorum
    have hzero : committee.votingRights = 0 := by
      rw [Committee.votingRights, BTreeMap.sumBy, hnil]
      rfl
    have hle : committee.weightOf (voters LiteVote.key (answer env action response)
        (CertificateValue.hash env.primitives value, action.round) arrivals.order) ≤
          committee.votingRights :=
      (Committee.weightOf_filter_le _ _).trans arrivals.weightOf_le
    omega
  unfold communicateChainAction
  rw [hnodes, Except.ok_bind, Except.ensure_of hsome, Except.ok_bind]
  change (communicateWithQuorum env committee LiteVote.key (answer env action response)
    arrivals).mapError ChainClientError.communicationError >>= _ = _
  rw [hcollect]
  rfl

/-- Which answers lead to a valid certificate. A certificate that is returned is for the submitted
value, and passes the check if and only if all the votes with the submitted hash and round are for
the submitted kind. If the honest validators are a quorum, then a certificate is returned if and
only if the first of these votes is for the submitted kind and chain. -/
theorem certificate_valid_iff (hbinding : env.primitives.Binding)
    (hbound : 2 * committee.votingRights < 2 ^ 64) :
    (∀ certificate,
      communicateChainAction env committee action value response arrivals = .ok certificate →
        certificate.value = value ∧
          (certificate.check env.primitives committee = .ok () ↔
            ∀ vote ∈ submittedVotes env action value response arrivals,
              vote.value.kind = CertificateValue.kind T)) ∧
      ∀ faulty, HonestQuorum env action value response arrivals faulty →
        ((∃ certificate,
            communicateChainAction env committee action value response arrivals =
              .ok certificate) ↔
          ∀ vote ∈ (submittedVotes env action value response arrivals).head?,
            vote.value.chainId = CertificateValue.chainId value ∧
              vote.value.kind = CertificateValue.kind T) := by
  have hkeys : ∀ vote ∈ submittedVotes env action value response arrivals,
      vote.key = (CertificateValue.hash env.primitives value, action.round) :=
    fun vote hvote => (of_mem_votes hvote).1
  constructor
  · intro certificate h
    obtain ⟨hquorum, hcertify⟩ := of_communicateChainAction (by omega) h
    refine ⟨?_, check_certify_iff hbinding (by omega) hquorum hcertify⟩
    obtain ⟨-, -, -, -, -, rfl⟩ := (certify_eq_ok hkeys).mp hcertify
    rfl
  · intro faulty hhonest
    have hquorum := hhonest.quorum_le_voters (validityThreshold_le hbound)
    rw [communicateChainAction_eq hbound hhonest]
    simp only [certify_eq_ok hkeys, true_and]
    cases hvotes : submittedVotes env action value response arrivals with
    | nil =>
      -- A quorum has voted for the value, so there is a first vote.
      rw [← map_validator_votes, ← submittedVotes, hvotes, List.map_nil,
        Committee.weightOf_nil] at hquorum
      exact absurd hquorum (not_le.mpr committee.quorumThreshold_pos)
    | cons first rest =>
      have hhash : first.value.valueHash = CertificateValue.hash env.primitives value :=
        congrArg Prod.fst (hkeys first (hvotes ▸ List.mem_cons_self))
      have hfirst : first.value = .new env.primitives value ↔
          first.value.chainId = CertificateValue.chainId value ∧
            first.value.kind = CertificateValue.kind T := by
        rw [LiteValue.new, LiteValue.mk.injEq]
        exact and_iff_right hhash
      simp only [List.head?_cons, Option.mem_some_iff, forall_eq', ← hfirst]
      constructor
      · rintro ⟨_, _, _, heq, hvalue, -⟩
        rwa [(List.cons.inj heq).1]
      · intro hvalue
        exact ⟨_, first, rest, rfl, hvalue, rfl⟩

end Action

/-! ## Four validators -/

-- Four validators with one vote each. Validator 4 is faulty: it answers the request to confirm a
-- block with its vote to validate that block.

def voteNumber (voteValue : VoteValue) (publicKey : PublicKey) : Nat :=
  let round := match voteValue.round with
    | .fast => Nat.pair 0 0
    | .multiLeader r => Nat.pair 1 r
    | .singleLeader r => Nat.pair 2 r
    | .validator r => Nat.pair 3 r
  let kind := match voteValue.kind with
    | .timeout => 0
    | .validated => 1
    | .confirmed => 2
  Nat.pair publicKey.value (Nat.pair voteValue.hash.value (Nat.pair round kind))

theorem voteNumber_injective {voteValue voteValue' : VoteValue} {publicKey : PublicKey}
    (h : voteNumber voteValue publicKey = voteNumber voteValue' publicKey) :
    voteValue = voteValue' := by
  obtain ⟨⟨hash⟩, round, kind⟩ := voteValue
  obtain ⟨⟨hash'⟩, round', kind'⟩ := voteValue'
  simp only [voteNumber, Nat.pair_eq_pair, true_and] at h
  obtain ⟨rfl, hround, hkind⟩ := h
  obtain rfl : kind = kind' := by
    cases kind <;> cases kind' <;> simp_all
  obtain rfl : round = round' := by
    cases round <;> cases round' <;> simp_all
  rfl

/-- Library functions whose signatures number the votes. -/
def numberedVotes : Primitives where
  __ := Validator.simplePrimitives
  signVote voteValue keyPair := ⟨voteNumber voteValue keyPair.publicKey⟩
  checkVote signature voteValue publicKey := signature.value = voteNumber voteValue publicKey

theorem binding_numberedVotes : numberedVotes.Binding := by
  intro signature voteValue voteValue' publicKey h h'
  simp only [numberedVotes, decide_eq_true_eq] at h h'
  exact voteNumber_injective (h.symm.trans h')

def simpleClient : ClientEnvironment where
  primitives := numberedVotes
  makeNode _ := .ok ()
  display _ := ""
  iter entries := entries
  perm_iter _ := .refl _

def fourValidators : Committee where
  validators := .ofList [(⟨1⟩, ⟨"", 1⟩), (⟨2⟩, ⟨"", 1⟩), (⟨3⟩, ⟨"", 1⟩), (⟨4⟩, ⟨"", 1⟩)]
  policy := .default

def confirmEmpty : CommunicateAction := .finalizeBlock ⟨⟨Validator.emptyBlock 0⟩, .multiLeader 0, []⟩

/-- The answer of a validator that votes for the empty block. -/
def voteForEmpty (kind : CertificateKind) (name : ValidatorName) :
    Except ChainClientError ChainManagerInfo :=
  .ok ⟨some ⟨⟨⟨0⟩, ⟨⟨0⟩⟩, kind⟩, .multiLeader 0, name,
    ⟨voteNumber ⟨⟨0⟩, .multiLeader 0, kind⟩ name⟩⟩, none⟩

/-- Validator 4 votes to validate the block, the others to confirm it. -/
def oneWrongKind (name : ValidatorName) : Except ChainClientError ChainManagerInfo :=
  voteForEmpty (if name = ⟨4⟩ then .validated else .confirmed) name

def arriveInOrder (order : List ValidatorName)
    (h : order.Perm fourValidators.contacted) : Arrivals fourValidators := ⟨order, h.subperm⟩

/-- If all four vote to confirm the block, then the client gets a valid certificate. -/
theorem certificate_valid_four_honest :
    ∃ certificate,
      communicateChainAction simpleClient fourValidators confirmEmpty
          (ConfirmedBlock.mk (Validator.emptyBlock 0)) (voteForEmpty .confirmed)
          (arriveInOrder [⟨1⟩, ⟨2⟩, ⟨3⟩, ⟨4⟩] (by decide)) = .ok certificate ∧
        certificate.check numberedVotes fourValidators = .ok () := by
  have hvalid := @certificate_valid_iff simpleClient fourValidators confirmEmpty ConfirmedBlock _
    (ConfirmedBlock.mk (Validator.emptyBlock 0)) (voteForEmpty .confirmed)
    (arriveInOrder [⟨1⟩, ⟨2⟩, ⟨3⟩, ⟨4⟩] (by decide)) binding_numberedVotes (by decide)
  have hhonest : HonestQuorum simpleClient confirmEmpty
      (ConfirmedBlock.mk (Validator.emptyBlock 0)) (voteForEmpty .confirmed)
      (arriveInOrder [⟨1⟩, ⟨2⟩, ⟨3⟩, ⟨4⟩] (by decide)) ∅ :=
    ⟨by decide, by decide, by decide, by decide, .inl (by decide)⟩
  obtain ⟨certificate, h⟩ := (hvalid.2 ∅ hhonest).mpr (by decide)
  exact ⟨certificate, h, (hvalid.1 certificate h).2.mpr (by decide)⟩

/-- The vote of validator 4 has the hash and the round of the others, which are a quorum. If it
arrives first, the client gets no certificate, and if it arrives later, the certificate is not
valid. -/
theorem certificate_spoiled_by_one_vote :
    HonestQuorum simpleClient confirmEmpty (ConfirmedBlock.mk (Validator.emptyBlock 0))
      oneWrongKind (arriveInOrder [⟨4⟩, ⟨1⟩, ⟨2⟩, ⟨3⟩] (by decide)) {⟨4⟩} ∧
    (communicateChainAction simpleClient fourValidators confirmEmpty
        (ConfirmedBlock.mk (Validator.emptyBlock 0)) oneWrongKind
        (arriveInOrder [⟨4⟩, ⟨1⟩, ⟨2⟩, ⟨3⟩] (by decide)) =
      .error (.protocolError "A quorum voted for an unexpected value")) ∧
    ∃ certificate ∈ (communicateChainAction simpleClient fourValidators confirmEmpty
        (ConfirmedBlock.mk (Validator.emptyBlock 0)) oneWrongKind
        (arriveInOrder [⟨1⟩, ⟨4⟩, ⟨2⟩, ⟨3⟩] (by decide))).toOption,
      certificate.check numberedVotes fourValidators = .error .cryptoError := by
  refine ⟨⟨by decide, by decide, by decide, by decide, .inl (by decide)⟩, ?_⟩
  decide

end Linera
