import Linera.Execution.Message
import Linera.Lib.Except

/-!
# Tracking a transaction

The errors of block execution, and `TransactionTracker`: the outcomes and oracle
responses that a transaction has produced so far, and the index of the next
message that it will send.

The tracker here also keeps a record of everything in the transaction that concerns
someone's authority or funds, with the funds before and after (`trace`). The source has
no such record and no function of the model reads it.
-/

namespace Linera

inductive SystemExecutionError where
  | arithmeticError (error : ArithmeticError)
  | invalidNewChainAdminId (chainId : ChainId)
  | invalidCommittees
  | invalidEpoch (chainId : ChainId) (epoch : Nat)
  | incorrectTransferAmount
  | unauthenticatedTransferOwner
  | insufficientFunding (balance : Nat)
  | insufficientFundingForFees (balance : Nat)
  | incorrectClaimAmount
  | unauthenticatedClaimOwner
  | adminOperationOnNonAdminChain
  | invalidCommitteeCreation
  | invalidCommitteeRemoval
  | invalidAdminSubscription (chainId : ChainId) (channel : SystemChannel)
  | selfSubscription (chainId : ChainId) (channel : SystemChannel)
  | alreadySubscribedToChannel (chainId : ChainId) (channel : SystemChannel)
  | invalidUnsubscription (chainId : ChainId) (channel : SystemChannel)
  | unknownApplicationId (id : UserApplicationId)
  | inactiveChain
  | blobsNotFound (blobIds : List BlobId)
  | oracleResponseMismatch
  | missingOracleResponse
  /-- An `expect` or an `assert!` of the source that does not hold. -/
  | panicked
deriving DecidableEq

inductive ExecutionError where
  | arithmeticError (error : ArithmeticError)
  | systemError (error : SystemExecutionError)
  | userError (message : Bytes)
  | reentrantCall (id : UserApplicationId)
  | crossApplicationCallInFinalize (callerId calleeId : UserApplicationId)
  | applicationBytecodeNotFound (description : UserApplicationDescription)
  | excessiveRead
  | excessiveWrite
  | maximumFuelExceeded
  | executedBlockTooLarge
  | ownerIsNone
  | unauthorizedApplication (id : UserApplicationId)
  | unexpectedOracleResponse
  | oracleResponseMismatch
  | assertBefore (timestamp localTime : Nat)
  | eventKeyTooLong
  | streamNameTooLong
  | unstableOracle
  | blobsNotFound (blobIds : List BlobId)
  /-- An `expect` or an `assert!` of the source that does not hold. -/
  | panicked
  /-- Nested calls that are too deep for the stack of the machine. -/
  | stackOverflow
deriving DecidableEq

/-- `ExecutionError::from`. -/
def ExecutionError.ofSystem : SystemExecutionError → ExecutionError
  | .blobsNotFound blobIds => .blobsNotFound blobIds
  | error => .systemError error

/-- The funds of a chain, and who owns it. -/
structure Funds where
  balance : Nat
  balances : BTreeMap AccountOwner Nat
  ownership : ChainOwnership
deriving DecidableEq

/-- An application that is being executed, the signer it acts for, and the application that has
called it, if the call is authenticated. -/
structure Frame where
  id : UserApplicationId
  signer : Option Owner
  callerId : Option UserApplicationId
deriving DecidableEq

/-- Where a contract makes a request: the applications that are being executed, the current one
first, and whether the execution is finalizing. -/
structure Caller where
  stack : List Frame
  isFinalizing : Bool
deriving DecidableEq

/-- What happens on a chain while it executes a block, as far as it concerns someone's authority
or funds. -/
inductive Action where
  /-- The chain is initialized by this block, if it has not been yet. -/
  | startBlock
  | operation (signer : Option Owner) (operation : SystemOperation)
  | message (isBouncing : Bool) (message : SystemMessage)
  /-- A rejected message returns to its sender. -/
  | bounce (message : SystemMessage)
  /-- Fees and grants are charged to the chain and to this account. -/
  | fees (payer : Option Owner)
  /-- A contract is called by another one. -/
  | call (caller : Caller)
  | readSigner (caller : Caller) (signer : Option Owner)
  | transfer (caller : Caller) (source : Option AccountOwner) (destination : Account) (amount : Nat)
  | claim (caller : Caller) (source destination : Account) (amount : Nat)
  | openChain (caller : Caller) (ownership : ChainOwnership)
      (applicationPermissions : ApplicationPermissions) (balance : Nat)
deriving DecidableEq

/-- An action, with the funds before and after it. -/
structure TraceEntry where
  action : Action
  before : Funds
  after : Funds
deriving DecidableEq

/-- Tracks oracle responses and execution outcomes of an ongoing transaction execution, as well
as replayed oracle responses. -/
structure TransactionTracker where
  replayingOracleResponses : Option (List OracleResponse)
  oracleResponses : List OracleResponse
  outcomes : List ExecutionOutcome
  nextMessageIndex : Nat
  trace : List TraceEntry
deriving DecidableEq

namespace TransactionTracker

def new (nextMessageIndex : Nat) (oracleResponses : Option (List OracleResponse)) :
    TransactionTracker :=
  ⟨oracleResponses, [], [], nextMessageIndex, []⟩

variable (t : TransactionTracker)

/-- The identifier of the next message that the transaction sends. -/
def nextMessageId (chainId : ChainId) (height : Nat) : MessageId :=
  ⟨chainId, height, t.nextMessageIndex⟩

def record (action : Action) (before after : Funds) : TransactionTracker :=
  { t with trace := t.trace ++ [⟨action, before, after⟩] }

def addOutcome (outcome : ExecutionOutcome) : Except ArithmeticError TransactionTracker := do
  ensure (outcome.messageCount ≤ u32Max) .overflow
  match checkedAdd u32Max t.nextMessageIndex outcome.messageCount with
  | some nextMessageIndex =>
    return { t with nextMessageIndex, outcomes := t.outcomes ++ [outcome] }
  | none => throw .overflow

def addSystemOutcome (outcome : RawExecutionOutcome SystemMessage Nat) :
    Except ArithmeticError TransactionTracker :=
  t.addOutcome (.system outcome)

def addUserOutcome (applicationId : ApplicationId) (outcome : RawExecutionOutcome Bytes Nat) :
    Except ArithmeticError TransactionTracker :=
  t.addOutcome (.user applicationId outcome)

def addOracleResponse (response : OracleResponse) : TransactionTracker :=
  { t with oracleResponses := t.oracleResponses ++ [response] }

def nextReplayedOracleResponse :
    Except SystemExecutionError (Option OracleResponse × TransactionTracker) :=
  match t.replayingOracleResponses with
  | none => .ok (none, t)  -- Not in replay mode.
  | some [] => .error .missingOracleResponse
  | some (response :: responses) =>
    .ok (some response, { t with replayingOracleResponses := some responses })

/-- Adds the oracle response to the record. If replaying, it also checks that it matches the next
replayed one and returns `true`. -/
def replayOracleResponse (response : OracleResponse) :
    Except SystemExecutionError (Bool × TransactionTracker) := do
  let (recorded, t) ← t.nextReplayedOracleResponse
  match recorded with
  | some recordedResponse =>
    ensure (recordedResponse = response) .oracleResponseMismatch
    return (true, t.addOracleResponse response)
  | none => return (false, t.addOracleResponse response)

/-- The outcomes, the oracle responses and the index of the next message, once the transaction is
over. -/
def destructure : Except ExecutionError (List ExecutionOutcome × List OracleResponse × Nat) := do
  match t.replayingOracleResponses with
  | some (_ :: _) => throw .unexpectedOracleResponse
  | _ => return (t.outcomes, t.oracleResponses, t.nextMessageIndex)

theorem addOutcome_eq_ok {t t' : TransactionTracker} {outcome : ExecutionOutcome} :
    t.addOutcome outcome = .ok t' ↔
      t.nextMessageIndex + outcome.messageCount ≤ u32Max ∧
        t' = { t with
          nextMessageIndex := t.nextMessageIndex + outcome.messageCount
          outcomes := t.outcomes ++ [outcome] } := by
  unfold addOutcome checkedAdd
  by_cases h : t.nextMessageIndex + outcome.messageCount ≤ u32Max
  · have hcount : outcome.messageCount ≤ u32Max := by omega
    simp [h, hcount, @eq_comm _ t']
  · simp only [h, if_false, Except.throw_eq, false_and, iff_false]
    intro hok
    obtain ⟨_, -, hok⟩ := Except.bind_eq_ok.mp hok
    cases hok

end TransactionTracker

end Linera
