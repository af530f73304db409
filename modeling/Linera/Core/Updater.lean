import Linera.Chain.Manager
import Mathlib.Data.List.AList

/-!
# Collecting the votes of a quorum

How a client turns the validators' answers into a certificate. `sendChainUpdate`
asks one validator and checks the vote it gets back. `communicateWithQuorum` asks
all of them, groups the answers by a key, and stops when one key has a quorum or
none can get one any more. `communicateChainAction` makes a certificate of the
votes of that key.

What the network does is a parameter: the answer of each validator, and the order
in which the answers arrive before the client stops waiting. The grace period
after a quorum only bounds how many more answers are taken, so it is part of that
order. A `HashMap` is a list of entries that is read in some order of its own.
-/

namespace Linera

/-- An error that a validator node may answer with. Clients count the votes for each error. -/
inductive NodeError where
  | chainError (error : String)
  | workerError (error : String)
  | inactiveChain (chainId : ChainId)
  | missingCrossChainUpdate (chainId : ChainId) (origin : Origin) (height : Nat)
  | blobsNotFound (blobIds : List BlobId)
  | missingCertificateValue
  | missingVoteInValidatorResponse
  | invalidChainInfoResponse
  | grpcError (error : String)
  | clientIoError (error : String)
  | cannotResolveValidatorAddress (address : String)
  | responseHandlingError (error : String)
deriving DecidableEq

/-- An error result for requests to a stake-weighted quorum. -/
inductive CommunicationError where
  /-- The validators returned different values: the threshold, and for each value its weight and
  the number of its votes. -/
  | noConsensus (quorumThreshold : Nat) (scores : List (Nat × Nat))
  /-- A single error that was returned by enough validators to be trusted. -/
  | trusted (error : NodeError)
  /-- No error reached the validity threshold: a sample of them. -/
  | sample (errors : List (NodeError × Nat))
deriving DecidableEq

inductive ChainClientError where
  | localNodeError (error : String)
  | remoteNodeError (error : NodeError)
  | chainError (error : ChainError)
  | communicationError (error : CommunicationError)
  | internalError (message : String)
  | protocolError (message : String)
  /-- The division by the number of validators when there are none. -/
  | panicked
deriving DecidableEq

/-- What a client asks the validators to do. -/
inductive CommunicateAction where
  | submitBlock (proposal : BlockProposal)
  | finalizeBlock (certificate : ValidatedBlockCertificate)
  | requestTimeout (chainId : ChainId) (height : Nat) (round : Round)

def CommunicateAction.round : CommunicateAction → Round
  | .submitBlock proposal => proposal.content.round
  | .finalizeBlock certificate => certificate.round
  | .requestTimeout _ _ round => round

/-- The votes in the chain information that a validator returns. -/
structure ChainManagerInfo where
  /-- Latest vote we cast (either to validate or to confirm a block). -/
  pending : Option LiteVote
  /-- Latest timeout vote we cast. -/
  timeoutVote : Option LiteVote

/-- What a client takes from the system it runs on. -/
structure ClientEnvironment where
  primitives : Primitives
  /-- `make_node`, whether a validator's address can be resolved. -/
  makeNode : String → Except NodeError Unit
  /-- `ChainClientError::to_string`. -/
  display : ChainClientError → String
  /-- The order in which a `HashMap` with these entries is read. -/
  iter : ∀ {α : Type}, List α → List α
  perm_iter : ∀ {α : Type} (entries : List α), (iter entries).Perm entries

variable (env : ClientEnvironment) (committee : Committee)

/-! ## One validator -/

def CommunicateAction.vote : CommunicateAction → ChainManagerInfo → Option LiteVote
  | .submitBlock _, manager => manager.pending
  | .finalizeBlock _, manager => manager.pending
  | .requestTimeout .., manager => manager.timeoutVote

/-- Sends an action to the validator with the given name, whose answer to all the requests it
takes is `response`, and returns its vote. -/
def sendChainUpdate (action : CommunicateAction) (name : ValidatorName)
    (response : Except ChainClientError ChainManagerInfo) : Except ChainClientError LiteVote := do
  let manager ← response
  match action.vote manager with
  | some vote =>
    if vote.validator = name then
      (vote.check env.primitives).mapError .chainError
      return vote
    else throw (.remoteNodeError .missingVoteInValidatorResponse)
  | none => throw (.remoteNodeError .missingVoteInValidatorResponse)

/-! ## A quorum -/

/-- The validators that are asked: those with voting rights. -/
def Committee.contacted : List ValidatorName :=
  committee.validators.keys.filter fun name => committee.weight name ≠ 0

/-- The order in which the validators answer, up to the moment when the client no longer
waits. -/
structure Arrivals where
  order : List ValidatorName
  subperm : order.Subperm committee.contacted

variable {K V : Type} [DecidableEq K]

/-- The variables of the loop in `communicate_with_quorum`. -/
structure Tally (K V : Type) [DecidableEq K] where
  remainingVotes : Nat
  highestKeyScore : Nat
  valueScores : AList fun _ : K => Nat × List V
  errorScores : AList fun _ : NodeError => Nat

def ClientEnvironment.nodeError : ChainClientError → NodeError
  | .remoteNodeError error => error
  | error => .responseHandlingError (env.display error)

namespace Tally

def countValue (groupBy : V → K) (tally : Tally K V) (name : ValidatorName) (value : V) :
    Tally K V :=
  let key := groupBy value
  let entry := (tally.valueScores.lookup key).getD (0, [])
  let score := (entry.1 + committee.weight name) % 2 ^ 64
  { tally with
    valueScores := tally.valueScores.insert key (score, entry.2 ++ [value])
    highestKeyScore := max tally.highestKeyScore score }

def countError (tally : Tally K V) (name : ValidatorName) (error : NodeError) :
    Except CommunicationError (Tally K V) :=
  let score := ((tally.errorScores.lookup error).getD 0 + committee.weight name) % 2 ^ 64
  -- At least one honest node returned this error: no quorum can be reached.
  if score ≥ committee.validityThreshold then .error (.trusted error)
  else .ok { tally with errorScores := tally.errorScores.insert error score }

def count (groupBy : V → K) (tally : Tally K V) (name : ValidatorName)
    (result : Except ChainClientError V) : Except CommunicationError (Tally K V) :=
  let tally := { tally with
    remainingVotes := (tally.remainingVotes + (2 ^ 64 - committee.weight name)) % 2 ^ 64 }
  match result with
  | .ok value => .ok (tally.countValue committee groupBy name value)
  | .error error => tally.countError committee name (env.nodeError error)

/-- The loop over the answers, in the order of their arrival. -/
def voteWait (groupBy : V → K) (execute : ValidatorName → Except ChainClientError V) :
    Tally K V → List ValidatorName → Except CommunicationError (Tally K V)
  | tally, [] => .ok tally
  | tally, name :: order => do
    let tally ← tally.count env committee groupBy name (execute name)
    -- If it becomes clear that no key can reach a quorum, break early.
    if (tally.highestKeyScore + tally.remainingVotes) % 2 ^ 64 < committee.quorumThreshold then
      .ok tally
    else voteWait groupBy execute tally order

end Tally

/-- Executes an action for all validators and returns a key for which a quorum has answered, with
the values that were answered. -/
def communicateWithQuorum (groupBy : V → K) (execute : ValidatorName → Except ChainClientError V)
    (arrivals : Arrivals committee) : Except CommunicationError (K × List V) := do
  let tally ← Tally.voteWait env committee groupBy execute ⟨committee.totalVotes, 0, ∅, ∅⟩
    arrivals.order
  let valueScores := env.iter tally.valueScores.entries
  -- If a key has a quorum, return it with its values.
  match valueScores.find? fun entry => entry.2.1 ≥ committee.quorumThreshold with
  | some entry => return (entry.1, entry.2.2)
  | none =>
    if tally.errorScores.entries.isEmpty then
      throw (.noConsensus committee.quorumThreshold
        (valueScores.map fun entry => (entry.2.1, entry.2.2.length)))
    else
      -- No specific error is available to report reliably.
      let sample := (env.iter tally.errorScores.entries).map fun entry => (entry.1, entry.2)
      throw (.sample ((sample.insertionSort fun a b => b.2 ≤ a.2).take 4))

/-! ## A certificate -/

variable {T : Type} [CertificateValue T]

def LiteVote.key (vote : LiteVote) : CryptoHash × Round := (vote.value.valueHash, vote.round)

/-- Makes a certificate for the submitted value of the votes of a quorum. -/
def certify (action : CommunicateAction) (value : T) (key : CryptoHash × Round)
    (votes : List LiteVote) : Except ChainClientError (GenericCertificate T) := do
  ensure (key = (CertificateValue.hash env.primitives value, action.round))
    (.protocolError "Unexpected response from validators")
  match LiteCertificate.tryFromVotes votes with
  | none => throw (.internalError "Vote values or rounds don't match; this is a bug")
  | some certificate =>
    match certificate.withValue env.primitives value with
    | none => throw (.protocolError "A quorum voted for an unexpected value")
    | some certificate => return certificate

/-- Sends an action to all validators, verifies that their votes are for the provided value, and
returns a certificate. -/
def communicateChainAction (action : CommunicateAction) (value : T)
    (response : ValidatorName → Except ChainClientError ChainManagerInfo)
    (arrivals : Arrivals committee) : Except ChainClientError (GenericCertificate T) := do
  committee.validators.values.forM fun state =>
    (env.makeNode state.networkAddress).mapError .remoteNodeError
  ensure (committee.validators.entries ≠ []) .panicked
  let quorum ← (communicateWithQuorum env committee LiteVote.key
    (fun name => sendChainUpdate env action name (response name)) arrivals).mapError
      .communicationError
  certify env action value quorum.1 quorum.2

end Linera
