import Linera.Chain.Inbox
import Linera.Execution.TransactionTracker

/-!
# Proposals, votes and certificates

The proposals that carry a block, and the votes and certificates that decide on
it. `checkSignatures` is the certificate check: distinct validators of the
committee, together a quorum, whose signatures are valid. `checkSignatures_eq_ok`
reads off what an accepted certificate says about its signers.

Hashing, signatures and the sampling of round leaders are library code. They
enter as one `Primitives`, and no result below assumes anything about them that
its statement does not name.
-/

namespace Linera

inductive CertificateKind where
  | timeout
  | validated
  | confirmed
deriving DecidableEq

structure ValidatedBlock where
  executedBlock : ExecutedBlock
deriving DecidableEq

structure ConfirmedBlock where
  executedBlock : ExecutedBlock
deriving DecidableEq

/-- The statement that a round has timed out. -/
structure Timeout where
  chainId : ChainId
  height : Nat
  epoch : Nat
deriving DecidableEq

/-- What a validator signs: the hash of the value, the round, and the kind of certificate
that the vote is for. -/
structure VoteValue where
  hash : CryptoHash
  round : Round
  kind : CertificateKind
deriving DecidableEq

/-- The data a block proposer signs. -/
structure ProposalContent where
  block : Block
  round : Round
  /-- If this is a retry from an earlier round, the execution outcome. -/
  outcome : Option BlockExecutionOutcome
deriving DecidableEq

/-- A key pair. The source derives the public key from the secret one. -/
structure KeyPair where
  publicKey : PublicKey
  secret : Nat
deriving DecidableEq

/-- Why weights do not make a probability distribution. -/
inductive WeightedError where
  | noItem
  | invalidWeight
  | allWeightsZero
  | tooMany
deriving DecidableEq

/-- What the program takes from libraries. -/
structure Primitives extends Hashing where
  /-- `CryptoHash::new` of an executed block. The wrappers `ValidatedBlock` and
  `ConfirmedBlock` are transparent: they have the hash of the block inside. -/
  hashExecutedBlock : ExecutedBlock → CryptoHash
  /-- `CryptoHash::new` of a timeout. -/
  hashTimeout : Timeout → CryptoHash
  /-- `Signature::new` of a vote. -/
  signVote : VoteValue → KeyPair → Signature
  /-- `Signature::check` of a vote. -/
  checkVote : Signature → VoteValue → PublicKey → Bool
  /-- `Signature::check` of a proposal. -/
  checkProposal : Signature → ProposalContent → PublicKey → Bool
  /-- The errors of `WeightedAliasIndex::new`. -/
  checkWeights : List Nat → Except WeightedError Unit
  /-- A sample of the distribution with these weights, for a seed of the generator. -/
  sampleIndex : List Nat → Nat → Nat

class CertificateValue (T : Type) where
  kind : CertificateKind
  chainId : T → ChainId
  epoch : T → Nat
  height : T → Nat
  /-- The hash that `Hashed::new` computes. -/
  hash : Primitives → T → CryptoHash

instance : CertificateValue Timeout where
  kind := .timeout
  chainId t := t.chainId
  epoch t := t.epoch
  height t := t.height
  hash prims t := prims.hashTimeout t

instance : CertificateValue ValidatedBlock where
  kind := .validated
  chainId v := v.executedBlock.block.chainId
  epoch v := v.executedBlock.block.epoch
  height v := v.executedBlock.block.height
  hash prims v := prims.hashExecutedBlock v.executedBlock

instance : CertificateValue ConfirmedBlock where
  kind := .confirmed
  chainId v := v.executedBlock.block.chainId
  epoch v := v.executedBlock.block.epoch
  height v := v.executedBlock.block.height
  hash prims v := prims.hashExecutedBlock v.executedBlock

/-- A vote on a statement from a validator. -/
structure Vote (T : Type) where
  value : T
  round : Round
  validator : ValidatorName
  signature : Signature
deriving DecidableEq

/-- The hash and chain ID of a certified value. -/
structure LiteValue where
  valueHash : CryptoHash
  chainId : ChainId
  kind : CertificateKind
deriving DecidableEq

/-- A vote on a statement from a validator, represented as a `LiteValue`. -/
structure LiteVote where
  value : LiteValue
  round : Round
  validator : ValidatorName
  signature : Signature
deriving DecidableEq

/-- A certificate for `value`. -/
structure GenericCertificate (T : Type) where
  value : T
  round : Round
  signatures : List (ValidatorName × Signature)
deriving DecidableEq

abbrev ValidatedBlockCertificate := GenericCertificate ValidatedBlock
abbrev ConfirmedBlockCertificate := GenericCertificate ConfirmedBlock
abbrev TimeoutCertificate := GenericCertificate Timeout

/-- A certified statement from the committee, without the value. -/
structure LiteCertificate where
  value : LiteValue
  round : Round
  signatures : List (ValidatorName × Signature)
deriving DecidableEq

/-- A block proposal, with the validated block certificate of an earlier round if it has
one. -/
structure BlockProposal where
  content : ProposalContent
  owner : Owner
  signature : Signature
  blobs : List Blob
  validatedBlockCertificate : Option LiteCertificate
deriving DecidableEq

/-- The part of a block in whose execution an error occurred. -/
inductive ChainExecutionContext where
  | incomingBundle (transactionIndex : Nat)
  | operation (transactionIndex : Nat)
  | block
deriving DecidableEq

inductive ChainError where
  | cryptoError
  | arithmeticError (error : ArithmeticError)
  /-- `ViewError::TryLockError`: an entry of a collection is requested twice. -/
  | tryLockError
  | executionError (error : ExecutionError) (context : ChainExecutionContext)
  | inactiveChain (chainId : ChainId)
  | missingCrossChainUpdate (chainId : ChainId) (origin : Origin) (height : Nat)
  | unexpectedMessage (chainId : ChainId) (origin : Origin) (bundle previousBundle : MessageBundle)
  | incorrectMessageOrder (chainId : ChainId) (origin : Origin) (bundle : MessageBundle)
      (nextHeight nextIndex : Nat)
  | cannotRejectMessage (chainId : ChainId) (origin : Origin) (postedMessage : PostedMessage)
  | cannotSkipMessage (chainId : ChainId) (origin : Origin) (bundle : MessageBundle)
  | incorrectBundleTimestamp (chainId : ChainId) (bundleTimestamp blockTimestamp : Nat)
  | invalidSigner
  | unexpectedBlockHeight (expectedBlockHeight foundBlockHeight : Nat)
  | unexpectedPreviousBlockHash
  | invalidBlockHeight
  | invalidBlockTimestamp
  | insufficientRound (round : Round)
  | insufficientRoundStrict (round : Round)
  | wrongRound (round : Round)
  | hasLockedBlock (height : Nat) (round : Round)
  | missingEarlierBlocks (currentBlockHeight : Nat)
  | certificateValidatorReuse
  | certificateRequiresQuorum
  | internalError (message : String)
  /-- The internal error for a bundle in a certified block that the inbox does not take. -/
  | certifiedBundleError (error : InboxError)
  | blockProposalTooLarge
  | ownerWeightError (error : WeightedError)
  | closedChain
  | authorizedApplications (applications : List ApplicationId)
  | missingMandatoryApplications (applications : List ApplicationId)
  | grantUseOnBroadcast
  | missingOracleResponseList
  | blobsNotFound (blobIds : List BlobId)
  /-- An `expect` or an `assert!` of the source that does not hold. -/
  | panicked
deriving DecidableEq

variable (prims : Primitives) {T : Type} [CertificateValue T]

/-- Uses the signing key to create a signed vote. -/
def Vote.new (value : T) (round : Round) (keyPair : KeyPair) : Vote T where
  value := value
  round := round
  validator := keyPair.publicKey
  signature :=
    prims.signVote ⟨CertificateValue.hash prims value, round, CertificateValue.kind T⟩ keyPair

def LiteValue.new (value : T) : LiteValue :=
  ⟨CertificateValue.hash prims value, CertificateValue.chainId value, CertificateValue.kind T⟩

/-- Verifies the signature in the vote. -/
def LiteVote.check (vote : LiteVote) : Except ChainError Unit :=
  ensure (prims.checkVote vote.signature ⟨vote.value.valueHash, vote.round, vote.value.kind⟩
    vote.validator) .cryptoError

/-- The loop of `check_signatures`: the weight of the signers, each of which appears once and
has voting rights. -/
def signersWeight (committee : Committee) :
    List ValidatorName → Nat → List (ValidatorName × Signature) → Except ChainError Nat
  | _, weight, [] => .ok weight
  | usedValidators, weight, (validator, _) :: signatures => do
    ensure (validator ∉ usedValidators) .certificateValidatorReuse
    let votingRights := committee.weight validator
    ensure (votingRights > 0) .invalidSigner
    signersWeight committee (validator :: usedValidators) ((weight + votingRights) % 2 ^ 64)
      signatures

def checkSignatures (valueHash : CryptoHash) (certificateKind : CertificateKind) (round : Round)
    (signatures : List (ValidatorName × Signature)) (committee : Committee) :
    Except ChainError Unit := do
  -- Check the quorum.
  let weight ← signersWeight committee [] 0 signatures
  ensure (weight ≥ committee.quorumThreshold) .certificateRequiresQuorum
  -- All that is left is checking signatures!
  let hashAndRound : VoteValue := ⟨valueHash, round, certificateKind⟩
  ensure (signatures.all fun (validator, signature) =>
    prims.checkVote signature hashAndRound validator) .cryptoError

theorem signersWeight_eq_ok {committee : Committee} {signatures : List (ValidatorName × Signature)}
    {usedValidators : List ValidatorName} {weight total : Nat} :
    signersWeight committee usedValidators (weight % 2 ^ 64) signatures = .ok total ↔
      (∀ s ∈ signatures, s.1 ∉ usedValidators) ∧ (signatures.map Prod.fst).Nodup ∧
        (∀ s ∈ signatures, 0 < committee.weight s.1) ∧
        total = (weight + (signatures.map fun s => committee.weight s.1).sum) % 2 ^ 64 := by
  induction signatures generalizing usedValidators weight with
  | nil => simp [signersWeight, eq_comm]
  | cons s rest ih =>
    obtain ⟨validator, signature⟩ := s
    simp only [signersWeight, Except.bind_eq_ok, Except.ensure_eq_ok, exists_const,
      Nat.mod_add_mod, ih, List.forall_mem_cons, List.map_cons, List.nodup_cons, List.sum_cons,
      gt_iff_lt, ← add_assoc]
    constructor
    · rintro ⟨hunused, hpos, hfresh, hnodup, hweights, htotal⟩
      refine ⟨⟨hunused, fun s hs => List.not_mem_of_not_mem_cons (hfresh s hs)⟩, ⟨?_, hnodup⟩,
        ⟨hpos, hweights⟩, htotal⟩
      intro hmem
      obtain ⟨s, hs, heq⟩ := List.mem_map.mp hmem
      exact List.ne_of_not_mem_cons (hfresh s hs) heq
    · rintro ⟨⟨hunused, hfresh⟩, ⟨hnew, hnodup⟩, ⟨hpos, hweights⟩, htotal⟩
      refine ⟨hunused, hpos, fun s hs => ?_, hnodup, hweights, htotal⟩
      refine List.not_mem_cons_of_ne_of_not_mem ?_ (hfresh s hs)
      rintro rfl
      exact hnew (List.mem_map_of_mem hs)

/-- Who has signed a certificate that passes the check: distinct validators, together a quorum,
each of which has signed the value, the round and the kind of the certificate. -/
theorem checkSignatures_eq_ok {prims : Primitives} {valueHash : CryptoHash}
    {certificateKind : CertificateKind} {round : Round}
    {signatures : List (ValidatorName × Signature)} {committee : Committee} :
    checkSignatures prims valueHash certificateKind round signatures committee = .ok () ↔
      (signatures.map Prod.fst).Nodup ∧ (∀ s ∈ signatures, 0 < committee.weight s.1) ∧
        committee.quorumThreshold ≤
          (signatures.map fun s => committee.weight s.1).sum % 2 ^ 64 ∧
        ∀ s ∈ signatures, prims.checkVote s.2 ⟨valueHash, round, certificateKind⟩ s.1 := by
  have hweight := @signersWeight_eq_ok committee signatures [] 0
  simp only [Nat.zero_mod, zero_add] at hweight
  simp only [checkSignatures, Except.bind_eq_ok, hweight, Except.ensure_eq_ok,
    List.all_eq_true]
  constructor
  · rintro ⟨total, ⟨-, hnodup, hpos, rfl⟩, -, hquorum, hsigned⟩
    exact ⟨hnodup, hpos, hquorum, hsigned⟩
  · rintro ⟨hnodup, hpos, hquorum, hsigned⟩
    exact ⟨_, ⟨by simp, hnodup, hpos, rfl⟩, (), hquorum, hsigned⟩

namespace GenericCertificate

/-- `GenericCertificate::new`: the signatures are sorted by validator. -/
def new (value : T) (round : Round) (signatures : List (ValidatorName × Signature)) :
    GenericCertificate T :=
  ⟨value, round, signatures.insertionSort fun a b => a.1 ≤ b.1⟩

def hash (certificate : GenericCertificate T) : CryptoHash :=
  CertificateValue.hash prims certificate.value

def check (certificate : GenericCertificate T) (committee : Committee) : Except ChainError Unit :=
  checkSignatures prims (certificate.hash prims) (CertificateValue.kind T) certificate.round
    certificate.signatures committee

def liteCertificate (certificate : GenericCertificate T) : LiteCertificate :=
  ⟨.new prims certificate.value, certificate.round, certificate.signatures⟩

end GenericCertificate

namespace LiteCertificate

/-- `LiteCertificate::new`: the signatures are sorted by validator. -/
def new (value : LiteValue) (round : Round) (signatures : List (ValidatorName × Signature)) :
    LiteCertificate :=
  ⟨value, round, signatures.insertionSort fun a b => a.1 ≤ b.1⟩

/-- Creates a certificate from a list of votes, without checking the signatures. Returns `none`
if the votes are empty or don't have matching values and rounds. -/
def tryFromVotes : List LiteVote → Option LiteCertificate
  | [] => none
  | vote :: votes =>
    if votes.all fun other =>
        other.value.valueHash = vote.value.valueHash ∧ other.round = vote.round then
      some (.new vote.value vote.round
        ((vote :: votes).map fun vote => (vote.validator, vote.signature)))
    else none

/-- Returns the certificate with the specified value, if it matches. -/
def withValue (certificate : LiteCertificate) (value : T) : Option (GenericCertificate T) :=
  if certificate.value.chainId ≠ CertificateValue.chainId value ∨
      CertificateValue.kind T ≠ certificate.value.kind ∨
      certificate.value.valueHash ≠ CertificateValue.hash prims value then none
  else some (.new value certificate.round certificate.signatures)

variable {prims}

/-- A certificate only takes the value it was made for. -/
theorem withValue_eq_some {certificate : LiteCertificate} {value : T}
    {full : GenericCertificate T} : certificate.withValue prims value = some full ↔
      certificate.value = .new prims value ∧
        full = .new value certificate.round certificate.signatures := by
  obtain ⟨⟨hash, chainId, kind⟩, round, signatures⟩ := certificate
  simp only [withValue, LiteValue.new, LiteValue.mk.injEq]
  split
  · next h =>
    simp only [reduceCtorEq, false_iff]
    rintro ⟨⟨rfl, rfl, rfl⟩, -⟩
    simp at h
  · next h =>
    push Not at h
    simp [h.1, ← h.2.1, h.2.2, @eq_comm _ full]

end LiteCertificate

end Linera
