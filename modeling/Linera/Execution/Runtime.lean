import Linera.Execution.Resources
import Linera.Views.Batch

/-!
# The contract runtime

User contracts and the runtime that they call into. A contract is arbitrary code:
at each entry point it is a `Program`, which makes requests to the runtime one
after another and goes on with the response, until it is done or fails.

`handle` answers a request; a call into another contract runs that contract's
code, which may make requests in turn. The depth of nested calls is bounded by
the stack of the machine: `runCode` takes that bound as an argument. A contract
cannot catch an error of the runtime, so every error ends the execution.

The source's two calls per storage query (one to start it and one to wait for the
response) are one request here.
-/

namespace Linera

structure FinalizeContext where
  chainId : ChainId
  authenticatedSigner : Option Owner
  height : Nat
deriving DecidableEq

inductive UserAction where
  | instantiate (context : OperationContext) (argument : Bytes)
  | operation (context : OperationContext) (operation : Bytes)
  | message (context : MessageContext) (message : Bytes)
deriving DecidableEq

namespace UserAction

def signer : UserAction → Option Owner
  | .instantiate context _ | .operation context _ => context.authenticatedSigner
  | .message context _ => context.authenticatedSigner

def height : UserAction → Nat
  | .instantiate context _ | .operation context _ => context.height
  | .message context _ => context.height

end UserAction

structure SendMessageRequest where
  destination : Destination
  authenticated : Bool
  isTracked : Bool
  grant : Resources
  message : Bytes
deriving DecidableEq

/-- `RawOutgoingMessage::from`. -/
def SendMessageRequest.toRaw (request : SendMessageRequest) : RawOutgoingMessage Bytes Resources :=
  ⟨request.destination, request.authenticated, request.grant,
    if request.isTracked then .tracked else .simple, request.message⟩

inductive ContractRequest where
  | chainId
  | blockHeight
  | applicationId
  | applicationCreatorChainId
  | applicationParameters
  | readSystemTimestamp
  | readChainBalance
  | readOwnerBalance (owner : AccountOwner)
  | readOwnerBalances
  | readBalanceOwners
  | chainOwnership
  | containsKey (key : Bytes)
  | containsKeys (keys : List Bytes)
  | readMultiValuesBytes (keys : List Bytes)
  | readValueBytes (key : Bytes)
  | findKeysByPrefix (keyPrefix : Bytes)
  | findKeyValuesByPrefix (keyPrefix : Bytes)
  | queryService (applicationId : ApplicationId) (query : Bytes)
  | performHttpRequest (request : Bytes)
  | assertBefore (timestamp : Nat)
  | readDataBlob (hash : CryptoHash)
  | assertDataBlobExists (hash : CryptoHash)
  | authenticatedSigner
  | messageId
  | messageIsBouncing
  | authenticatedCallerId
  | remainingFuel
  | consumeFuel (fuel : Nat)
  | sendMessage (request : SendMessageRequest)
  | subscribe (chain : ChainId) (channel : ChannelName)
  | unsubscribe (chain : ChainId) (channel : ChannelName)
  | transfer (source : Option AccountOwner) (destination : Account) (amount : Nat)
  | claim (source destination : Account) (amount : Nat)
  | tryCallApplication (authenticated : Bool) (calleeId : UserApplicationId) (argument : Bytes)
  | emit (name : StreamName) (key value : Bytes)
  | openChain (ownership : ChainOwnership) (applicationPermissions : ApplicationPermissions)
      (balance : Nat)
  | closeChain
  | createApplication (bytecodeId : BytecodeId) (parameters argument : Bytes)
      (requiredApplicationIds : List UserApplicationId)
  | writeBatch (batch : Views.Batch)

inductive ContractResponse where
  | unit
  | chainId (id : ChainId)
  | number (n : Nat)
  | applicationId (id : UserApplicationId)
  | bytes (bytes : Bytes)
  | ownerBalances (balances : List (AccountOwner × Nat))
  | balanceOwners (owners : List AccountOwner)
  | ownership (ownership : ChainOwnership)
  | bool (b : Bool)
  | bools (bs : List Bool)
  | value (value : Option Bytes)
  | values (values : List (Option Bytes))
  | keys (keys : List Bytes)
  | keyValues (keyValues : List (Bytes × Bytes))
  | signer (signer : Option Owner)
  | messageId (id : Option MessageId)
  | isBouncing (isBouncing : Option Bool)
  | callerId (id : Option UserApplicationId)
  | newChain (messageId : MessageId) (chainId : ChainId)

/-- The rest of a contract's execution. It ends with the memory of the instance and a response,
or with an error of the contract. -/
inductive Program where
  | done (memory response : Bytes)
  | fail (message : Bytes)
  | request (request : ContractRequest) (next : ContractResponse → Program)

/-- The entry points of a contract. -/
inductive Entry where
  | instantiate (context : OperationContext) (argument : Bytes)
  | executeOperation (context : OperationContext) (operation : Bytes)
  | executeMessage (context : MessageContext) (message : Bytes)
  | finalize (context : FinalizeContext)

def UserAction.entry : UserAction → Entry
  | .instantiate context argument => .instantiate context argument
  | .operation context bytes => .executeOperation context bytes
  | .message context bytes => .executeMessage context bytes

/-- A contract: the memory of a new instance, and what an instance does at an entry point. -/
structure ContractCode where
  memory : Bytes
  run : Bytes → Entry → Program

/-- The execution state of a chain: the system application and the users' storage. -/
structure ExecutionStateView where
  system : SystemExecutionStateView
  users : BTreeMap UserApplicationId Views.KeyValueMap
deriving DecidableEq

/-- What the execution on a chain has access to, besides the state of that chain. -/
structure ExecutionRuntimeContext where
  chainId : ChainId
  blobs : BlobId → Option Bytes
  getUserContract : UserApplicationDescription → Except ExecutionError ContractCode
  /-- The response of a service to a query from a contract. -/
  queryService : ExecutionStateView → ApplicationId → Bytes → Except ExecutionError Bytes
  performHttpRequest : Bytes → Except ExecutionError Bytes
  /-- Whether the `unstable-oracles` feature is enabled. -/
  unstableOracles : Bool
  /-- The depth of nested calls that the stack of the machine allows. -/
  maxCallDepth : Nat

structure ApplicationStatus where
  callerId : Option UserApplicationId
  id : UserApplicationId
  parameters : Bytes
  /-- The authenticated signer for the execution thread, if any. -/
  signer : Option Owner
  outcome : RawExecutionOutcome Bytes Resources
deriving DecidableEq

structure LoadedApplication where
  code : ContractCode
  memory : Bytes
  parameters : Bytes

structure ExecutingMessage where
  id : MessageId
  isBouncing : Bool
deriving DecidableEq

/-- Runtime data tracked during the execution of a transaction, with the execution state that the
runtime sends its requests to. -/
structure SyncRuntime where
  state : ExecutionStateView
  chainId : ChainId
  height : Nat
  localTime : Nat
  authenticatedSigner : Option Owner
  executingMessage : Option ExecutingMessage
  isFinalizing : Bool
  applicationsToFinalize : List UserApplicationId
  loadedApplications : BTreeMap UserApplicationId LoadedApplication
  /-- The applications that are being executed; the current one comes first. -/
  callStack : List ApplicationStatus
  activeApplications : BTreeSet UserApplicationId
  transactionTracker : TransactionTracker
  refundGrantTo : Option Account
  resourceController : ResourceController AmountAccount

/-- The code of an application at an entry point. -/
abbrev RunCode :=
  UserApplicationId → Entry → SyncRuntime → Except ExecutionError (SyncRuntime × Bytes)

namespace SyncRuntime

/-- The runtime for an action, before anything is loaded. -/
def new (state : ExecutionStateView) (chainId : ChainId) (localTime : Nat)
    (refundGrantTo : Option Account) (resourceController : ResourceController AmountAccount)
    (action : UserAction) (t : TransactionTracker) : SyncRuntime where
  state := state
  chainId := chainId
  height := action.height
  localTime := localTime
  authenticatedSigner := action.signer
  executingMessage := match action with
    | .message context _ => some ⟨context.messageId, context.isBouncing⟩
    | _ => none
  isFinalizing := false
  applicationsToFinalize := []
  loadedApplications := .empty
  callStack := []
  activeApplications := .empty
  transactionTracker := t
  refundGrantTo := refundGrantTo
  resourceController := resourceController

variable (r : SyncRuntime)

def currentApplication : Except ExecutionError ApplicationStatus :=
  match r.callStack with
  | status :: _ => .ok status
  | [] => .error .panicked

/-- Where the code that is running makes its requests. -/
def caller : Caller :=
  ⟨r.callStack.map fun status => ⟨status.id, status.signer, status.callerId⟩, r.isFinalizing⟩

/-- Records an action of a contract, for which the chain had the given funds before. -/
def record (r : SyncRuntime) (action : Action) (before : Funds) : SyncRuntime :=
  { r with transactionTracker := r.transactionTracker.record action before r.state.system.funds }

/-- Changes the outcome of the current application. -/
def updateOutcome (f : RawExecutionOutcome Bytes Resources → RawExecutionOutcome Bytes Resources) :
    Except ExecutionError SyncRuntime :=
  match r.callStack with
  | status :: rest =>
    .ok { r with callStack := { status with outcome := f status.outcome } :: rest }
  | [] => .error .panicked

def pushApplication (status : ApplicationStatus) : SyncRuntime :=
  { r with
    activeApplications := r.activeApplications.insert status.id ()
    callStack := status :: r.callStack }

def popApplication : Except ExecutionError (SyncRuntime × ApplicationStatus) := do
  match r.callStack with
  | [] => throw .panicked
  | status :: rest =>
    ensure (r.activeApplications.containsKey status.id) .panicked
    return ({ r with
      activeApplications := r.activeApplications.remove status.id
      callStack := rest }, status)

def addOutcome (r : SyncRuntime) (outcome : ExecutionOutcome) :
    Except ExecutionError SyncRuntime := do
  let t ← (r.transactionTracker.addOutcome outcome).mapError .arithmeticError
  return { r with transactionTracker := t }

/-- Charges for the grants of an outcome's messages. -/
def trackGrants (c : ResourceController AmountAccount) :
    List (RawOutgoingMessage Bytes Nat) → Except ExecutionError (ResourceController AmountAccount)
  | [] => .ok c
  | message :: messages => do
    let c ← c.trackGrant message.grant
    trackGrants c messages

/-- `RawExecutionOutcome::into_priced`. -/
def intoPriced (policy : ResourceControlPolicy) (outcome : RawExecutionOutcome Bytes Resources) :
    Except ArithmeticError (RawExecutionOutcome Bytes Nat) := do
  let messages ← outcome.messages.mapM fun message => do
    let grant ← policy.totalPrice message.grant
    return ⟨message.destination, message.authenticated, grant, message.kind, message.message⟩
  return ⟨outcome.authenticatedSigner, outcome.refundGrantTo, messages, outcome.events,
    outcome.subscribe, outcome.unsubscribe⟩

/-- Handles a newly produced outcome: calculates the fees, charges for the grants and attaches the
authenticated signer and the destination of grant refunds. -/
def handleOutcome (rawOutcome : RawExecutionOutcome Bytes Resources) (signer : Option Owner)
    (applicationId : UserApplicationId) : Except ExecutionError SyncRuntime := do
  let rawOutcome := (rawOutcome.withRefundGrantTo r.refundGrantTo).withAuthenticatedSigner signer
  let outcome ← (intoPriced r.resourceController.policy rawOutcome).mapError .arithmeticError
  let resourceController ← trackGrants r.resourceController outcome.messages
  { r with resourceController }.addOutcome (.user applicationId outcome)

variable (context : ExecutionRuntimeContext) (hashing : Hashing)

def loadContract (state : ExecutionStateView) (id : UserApplicationId) :
    Except ExecutionError (ContractCode × UserApplicationDescription) := do
  let description ← (state.system.registry.describeApplication id).mapError .ofSystem
  let code ← context.getUserContract description
  return (code, description)

/-- Keeps a new instance of an application, to be finalized at the end of the action. -/
def addInstance (id : UserApplicationId) (code : ContractCode)
    (description : UserApplicationDescription) : SyncRuntime :=
  { r with
    loadedApplications :=
      r.loadedApplications.insert id ⟨code, code.memory, description.parameters⟩
    applicationsToFinalize := r.applicationsToFinalize ++ [id] }

def loadContractInstance (id : UserApplicationId) :
    Except ExecutionError (SyncRuntime × LoadedApplication) :=
  match r.loadedApplications.get id with
  | some application => .ok (r, application)
  | none => do
    let (code, description) ← loadContract context r.state id
    return (r.addInstance id code description, ⟨code, code.memory, description.parameters⟩)

/-- Configures the runtime for executing a call to a different contract. -/
def prepareForCall (authenticated : Bool) (calleeId : UserApplicationId) :
    Except ExecutionError (SyncRuntime × OperationContext) := do
  ensure (!r.activeApplications.containsKey calleeId) (.reentrantCall calleeId)
  let caller ← r.currentApplication
  ensure (!r.isFinalizing) (.crossApplicationCallInFinalize caller.id calleeId)
  -- Load the application.
  let (r, application) ← r.loadContractInstance context calleeId
  let authenticatedSigner := if authenticated then caller.signer else none
  let authenticatedCallerId := if authenticated then some caller.id else none
  let calleeContext : OperationContext :=
    ⟨r.chainId, authenticatedSigner, authenticatedCallerId, r.height, none⟩
  -- Allow further nested calls to be authenticated if this one is.
  let r := r.pushApplication
    ⟨authenticatedCallerId, calleeId, application.parameters, authenticatedSigner, .default⟩
  return (r.record (.call r.caller) r.state.system.funds, calleeContext)

/-- Cleans up the runtime after the execution of a call to a different contract. -/
def finishCall : Except ExecutionError SyncRuntime := do
  let (r, status) ← r.popApplication
  r.handleOutcome status.outcome status.signer status.id

variable (run : RunCode)

/-- Executes an entry point of a contract that is not called by another one. -/
def execute (applicationId : UserApplicationId) (signer : Option Owner) (entry : Entry) :
    Except ExecutionError SyncRuntime := do
  let (r, application) ← r.loadContractInstance context applicationId
  let r := r.pushApplication ⟨none, applicationId, application.parameters, signer, .default⟩
  let (r, _) ← run applicationId entry r
  let (r, status) ← r.popApplication
  ensure (status.callerId = none ∧ status.id = applicationId ∧
    status.parameters = application.parameters ∧ status.signer = signer) .panicked
  ensure (r.callStack = []) .panicked
  r.handleOutcome status.outcome signer applicationId

def finalizeAll (r : SyncRuntime) (finalizeContext : FinalizeContext) :
    List UserApplicationId → Except ExecutionError SyncRuntime
  | [] => .ok r
  | application :: applications => do
    let r ← r.execute context run application finalizeContext.authenticatedSigner
      (.finalize finalizeContext)
    finalizeAll { r with loadedApplications := r.loadedApplications.remove application }
      finalizeContext applications

/-- Notifies all loaded applications that execution is finalizing. -/
def finalize (finalizeContext : FinalizeContext) : Except ExecutionError SyncRuntime :=
  let applications := r.applicationsToFinalize.reverse
  finalizeAll context run { r with applicationsToFinalize := [], isFinalizing := true }
    finalizeContext applications

/-- Executes a user action, then finalizes the applications that it has loaded. -/
def runAction (applicationId : UserApplicationId) (chainId : ChainId) (action : UserAction) :
    Except ExecutionError SyncRuntime := do
  ensure (r.authenticatedSigner = action.signer ∧ r.chainId = chainId ∧ r.height = action.height)
    .panicked
  let r ← r.execute context run applicationId action.signer action.entry
  r.finalize context run ⟨chainId, action.signer, action.height⟩

/-! ## Requests -/

/-- The storage of the current application. -/
def userStorage : Except ExecutionError Views.KeyValueMap := do
  let status ← r.currentApplication
  return (r.state.users.get status.id).getD .empty

/-- Answers a query to the storage of the current application, at the cost of one read operation
and of the bytes read. -/
def readStorage (query : Views.KeyValueMap → ContractResponse × Option Nat) :
    Except ExecutionError (SyncRuntime × ContractResponse) := do
  let storage ← r.userStorage
  let resourceController ← r.resourceController.trackReadOperations 1
  let (response, size) := query storage
  match size with
  | none => return ({ r with resourceController }, response)
  | some size =>
    let resourceController ← resourceController.trackBytesRead size
    return ({ r with resourceController }, response)

/-- Charges for the bytes of several values, one after the other. -/
def trackValues (c : ResourceController AmountAccount) :
    List (Option Bytes) → Except ExecutionError (ResourceController AmountAccount)
  | [] => .ok c
  | none :: values => trackValues c values
  | some value :: values => do
    let c ← c.trackBytesRead value.length
    trackValues c values

def readMultiValuesBytes (keys : List Bytes) :
    Except ExecutionError (SyncRuntime × ContractResponse) := do
  let storage ← r.userStorage
  let resourceController ← r.resourceController.trackReadOperations 1
  let values := keys.map storage.get
  let resourceController ← trackValues resourceController values
  return ({ r with resourceController }, .values values)

def entriesByPrefix (storage : Views.KeyValueMap) (keyPrefix : Bytes) : List (Bytes × Bytes) :=
  (Views.contentsUnder keyPrefix storage).entries

/-- Asks an oracle, or takes its recorded response if there is one. -/
def oracle (recorded : OracleResponse → Option Bytes) (ask : Except ExecutionError Bytes)
    (record : Bytes → OracleResponse) : Except ExecutionError (SyncRuntime × ContractResponse) := do
  ensure context.unstableOracles .unstableOracle
  let (replayed, t) ← r.transactionTracker.nextReplayedOracleResponse.mapError .ofSystem
  let response ← match replayed with
    | some response =>
      match recorded response with
      | some bytes => pure bytes
      | none => throw .oracleResponseMismatch
    | none => ask
  return ({ r with transactionTracker := t.addOracleResponse (record response) }, .bytes response)

def queryService (r : SyncRuntime) (applicationId : ApplicationId) (query : Bytes) :
    Except ExecutionError (SyncRuntime × ContractResponse) :=
  r.oracle context
    (fun
      | .service bytes => some bytes
      | _ => none)
    (context.queryService r.state applicationId query) .service

def performHttpRequest (r : SyncRuntime) (request : Bytes) :
    Except ExecutionError (SyncRuntime × ContractResponse) :=
  r.oracle context
    (fun
      | .http bytes => some bytes
      | _ => none)
    (context.performHttpRequest request) .http

def assertBefore (r : SyncRuntime) (timestamp : Nat) :
    Except ExecutionError (SyncRuntime × ContractResponse) := do
  let (replaying, t) ← (r.transactionTracker.replayOracleResponse .assert).mapError .ofSystem
  -- If there are no recorded oracle responses, we check the local time.
  ensure (replaying ∨ r.localTime < timestamp) (.assertBefore timestamp r.localTime)
  return ({ r with transactionTracker := t }, .unit)

/-- Records the use of a blob by the current transaction. -/
def useBlob (blobId : BlobId) : Except ExecutionError SyncRuntime :=
  match r.state.system.markBlobUsed blobId with
  | (system, false) => .ok { r with state := { r.state with system } }
  | (system, true) => do
    let (_, t) ← (r.transactionTracker.replayOracleResponse (.blob blobId)).mapError .ofSystem
    return { r with state := { r.state with system }, transactionTracker := t }

def readDataBlob (hash : CryptoHash) : Except ExecutionError (SyncRuntime × ContractResponse) := do
  let blobId : BlobId := ⟨.data, hash⟩
  let content ← (SystemExecutionStateView.readBlobContent context.blobs blobId).mapError .ofSystem
  let r ← r.useBlob blobId
  return (r, .bytes content)

def assertDataBlobExists (hash : CryptoHash) :
    Except ExecutionError (SyncRuntime × ContractResponse) := do
  let blobId : BlobId := ⟨.data, hash⟩
  (SystemExecutionStateView.assertBlobExists context.blobs blobId).mapError .ofSystem
  let r ← r.useBlob blobId
  return (r, .unit)

def transfer (r : SyncRuntime) (source : Option AccountOwner) (destination : Account)
    (amount : Nat) : Except ExecutionError (SyncRuntime × ContractResponse) := do
  let current ← r.currentApplication
  let (system, message) ← (r.state.system.transfer current.signer (some current.id) source
    (.account destination) amount).mapError .ofSystem
  let before := r.state.system.funds
  let r := { r with state := { r.state with system } }
  let r ← r.addOutcome (.system (RawExecutionOutcome.default.withMessages message.toList))
  return (r.record (.transfer r.caller source destination amount) before, .unit)

def claim (r : SyncRuntime) (source destination : Account) (amount : Nat) :
    Except ExecutionError (SyncRuntime × ContractResponse) := do
  let current ← r.currentApplication
  match source.owner with
  | none => throw .ownerIsNone
  | some owner =>
    let message ← (SystemExecutionStateView.claim current.signer (some current.id) owner
      source.chainId (.account destination) amount).mapError .ofSystem
    let r ← r.addOutcome (.system
      ((RawExecutionOutcome.default.withAuthenticatedSigner current.signer).withMessages [message]))
    return (r.record (.claim r.caller source destination amount) r.state.system.funds, .unit)

/-- Runs another contract on behalf of the current one. -/
def tryCallApplication (authenticated : Bool) (calleeId : UserApplicationId) (argument : Bytes) :
    Except ExecutionError (SyncRuntime × ContractResponse) := do
  let (r, calleeContext) ← r.prepareForCall context authenticated calleeId
  let (r, value) ← run calleeId (.executeOperation calleeContext argument) r
  let r ← r.finishCall
  return (r, .bytes value)

def maxEventKeyLen : Nat := 64

def maxStreamNameLen : Nat := 64

def emit (name : StreamName) (key value : Bytes) :
    Except ExecutionError (SyncRuntime × ContractResponse) := do
  ensure (key.length ≤ maxEventKeyLen) .eventKeyTooLong
  ensure (name.bytes.length ≤ maxStreamNameLen) .streamNameTooLong
  let r ← r.updateOutcome fun outcome =>
    { outcome with events := outcome.events ++ [(name, key, value)] }
  return (r, .unit)

def openChainConfig (system : SystemExecutionStateView) (ownership : ChainOwnership)
    (applicationPermissions : ApplicationPermissions) (balance : Nat) :
    Except ExecutionError OpenChainConfig :=
  match system.adminId, system.epoch with
  | some adminId, some epoch =>
    .ok ⟨ownership, adminId, epoch, system.committees, balance, applicationPermissions⟩
  | _, _ => .error (.systemError .inactiveChain)

def openChain (r : SyncRuntime) (ownership : ChainOwnership)
    (applicationPermissions : ApplicationPermissions) (balance : Nat) :
    Except ExecutionError (SyncRuntime × ContractResponse) := do
  let messageId := r.transactionTracker.nextMessageId r.chainId r.height
  let config ← openChainConfig r.state.system ownership applicationPermissions balance
  let (system, messages) ← (r.state.system.openChain hashing config messageId).mapError .ofSystem
  let before := r.state.system.funds
  let r := { r with state := { r.state with system } }
  let r ← r.addOutcome (.system (RawExecutionOutcome.default.withMessages messages))
  let r := r.record (.openChain r.caller ownership applicationPermissions balance) before
  return (r, .newChain messageId (hashing.chainId (.child messageId)))

/-- Closes the chain. The messages that `close_chain` returns are not sent. -/
def closeChain (r : SyncRuntime) : Except ExecutionError (SyncRuntime × ContractResponse) := do
  let current ← r.currentApplication
  ensure (r.state.system.applicationPermissions.canCloseChain current.id)
    (.unauthorizedApplication current.id)
  let (system, _) := r.state.system.closeChain context.chainId
  return ({ r with state := { r.state with system } }, .unit)

/-- Records the oracle responses for blobs that are used for the first time. -/
def replayBlobs (t : TransactionTracker) :
    List BlobId → Except SystemExecutionError TransactionTracker
  | [] => .ok t
  | blobId :: blobIds => do
    let (_, t) ← t.replayOracleResponse (.blob blobId)
    replayBlobs t blobIds

def authenticatedCallerId : Except ExecutionError (Option UserApplicationId) :=
  if r.callStack.length ≤ 1 then .ok none
  else do
    let current ← r.currentApplication
    return current.callerId

def createApplication (r : SyncRuntime) (bytecodeId : BytecodeId) (parameters argument : Bytes)
    (requiredApplicationIds : List UserApplicationId) :
    Except ExecutionError (SyncRuntime × ContractResponse) := do
  let callerId ← r.authenticatedCallerId
  let operationContext : OperationContext :=
    ⟨r.chainId, r.authenticatedSigner, callerId, r.height, none⟩
  let messageId := r.transactionTracker.nextMessageId r.chainId r.height
  let (system, result) ← (r.state.system.createApplication context.blobs messageId bytecodeId
    parameters requiredApplicationIds).mapError .ofSystem
  let t ← (replayBlobs r.transactionTracker result.blobsToRegister).mapError .ofSystem
  let r := { r with state := { r.state with system }, transactionTracker := t }
  let r ← r.addOutcome (.system (RawExecutionOutcome.default.withMessages [result.message]))
  let r ← r.runAction context run result.appId r.chainId (.instantiate operationContext argument)
  return (r, .applicationId result.appId)

def writeBatch (batch : Views.Batch) : Except ExecutionError (SyncRuntime × ContractResponse) := do
  let current ← r.currentApplication
  ensure (batch.operations.length ≤ u32Max) (.arithmeticError .overflow)
  let c ← r.resourceController.trackWriteOperations batch.operations.length
  let size := (batch.operations.map fun
    | .put key value => key.length + value.length
    | .delete key => key.length
    | .deletePrefix keyPrefix => keyPrefix.length).sum
  let c ← c.trackBytesWritten size
  let storage := batch.apply ((r.state.users.get current.id).getD .empty)
  let state := { r.state with users := r.state.users.insert current.id storage }
  return ({ r with resourceController := c, state }, .unit)

/-- Answers a request of a contract. -/
def handle : ContractRequest → Except ExecutionError (SyncRuntime × ContractResponse)
  | .chainId => return (r, .chainId r.chainId)
  | .blockHeight => return (r, .number r.height)
  | .applicationId => do
    let current ← r.currentApplication
    return (r, .applicationId current.id)
  | .applicationCreatorChainId => do
    let current ← r.currentApplication
    return (r, .chainId current.id.creation.chainId)
  | .applicationParameters => do
    let current ← r.currentApplication
    return (r, .bytes current.parameters)
  | .readSystemTimestamp => return (r, .number r.state.system.timestamp)
  | .readChainBalance => return (r, .number r.state.system.balance)
  | .readOwnerBalance owner =>
    return (r, .number ((r.state.system.balances.get owner).getD 0))
  | .readOwnerBalances => return (r, .ownerBalances r.state.system.balances.entries)
  | .readBalanceOwners => return (r, .balanceOwners r.state.system.balances.keys)
  | .chainOwnership => return (r, .ownership r.state.system.ownership)
  | .containsKey key => r.readStorage fun storage => (.bool (storage.containsKey key), none)
  | .containsKeys keys =>
    r.readStorage fun storage => (.bools (keys.map storage.containsKey), none)
  | .readMultiValuesBytes keys => r.readMultiValuesBytes keys
  | .readValueBytes key =>
    r.readStorage fun storage => (.value (storage.get key), (storage.get key).map List.length)
  | .findKeysByPrefix keyPrefix =>
    r.readStorage fun storage =>
      let keys := (entriesByPrefix storage keyPrefix).map Prod.fst
      (.keys keys, some (keys.map List.length).sum)
  | .findKeyValuesByPrefix keyPrefix =>
    r.readStorage fun storage =>
      let keyValues := entriesByPrefix storage keyPrefix
      (.keyValues keyValues, some (keyValues.map fun (k, v) => k.length + v.length).sum)
  | .queryService applicationId query => r.queryService context applicationId query
  | .performHttpRequest request => r.performHttpRequest context request
  | .assertBefore timestamp => r.assertBefore timestamp
  | .readDataBlob hash => r.readDataBlob context hash
  | .assertDataBlobExists hash => r.assertDataBlobExists context hash
  | .authenticatedSigner =>
    return (r.record (.readSigner r.caller r.authenticatedSigner) r.state.system.funds,
      .signer r.authenticatedSigner)
  | .messageId => return (r, .messageId (r.executingMessage.map ExecutingMessage.id))
  | .messageIsBouncing =>
    return (r, .isBouncing (r.executingMessage.map ExecutingMessage.isBouncing))
  | .authenticatedCallerId => do
    let callerId ← r.authenticatedCallerId
    return (r, .callerId callerId)
  | .remainingFuel => return (r, .number r.resourceController.remainingFuel)
  | .consumeFuel fuel => do
    let resourceController ← r.resourceController.trackFuel fuel
    return ({ r with resourceController }, .unit)
  | .sendMessage request => do
    let r ← r.updateOutcome fun outcome => outcome.withMessages [request.toRaw]
    return (r, .unit)
  | .subscribe chain channel => do
    let r ← r.updateOutcome fun outcome =>
      { outcome with subscribe := outcome.subscribe ++ [(channel, chain)] }
    return (r, .unit)
  | .unsubscribe chain channel => do
    let r ← r.updateOutcome fun outcome =>
      { outcome with unsubscribe := outcome.unsubscribe ++ [(channel, chain)] }
    return (r, .unit)
  | .transfer source destination amount => r.transfer source destination amount
  | .claim source destination amount => r.claim source destination amount
  | .tryCallApplication authenticated calleeId argument =>
    r.tryCallApplication context run authenticated calleeId argument
  | .emit name key value => r.emit name key value
  | .openChain ownership applicationPermissions balance =>
    r.openChain hashing ownership applicationPermissions balance
  | .closeChain => r.closeChain context
  | .createApplication bytecodeId parameters argument requiredApplicationIds =>
    r.createApplication context run bytecodeId parameters argument requiredApplicationIds
  | .writeBatch batch => r.writeBatch batch

/-- Runs a program to its end. Returns the memory of the instance and the response. -/
def interpret (r : SyncRuntime) :
    Program → Except ExecutionError (SyncRuntime × Bytes × Bytes)
  | .done memory response => .ok (r, memory, response)
  | .fail message => .error (.userError message)
  | .request request next => do
    let (r, response) ← r.handle context hashing run request
    interpret r (next response)

/-- Runs the code of a loaded application, with at most the given depth of nested calls. -/
def runCode : Nat → RunCode
  | 0, _, _, _ => .error .stackOverflow
  | depth + 1, applicationId, entry, r =>
    match r.loadedApplications.get applicationId with
    | none => .error .panicked
    | some application => do
      let program := application.code.run application.memory entry
      let (r, memory, response) ← r.interpret context hashing (runCode depth) program
      return ({ r with
        loadedApplications :=
          r.loadedApplications.insert applicationId { application with memory } }, response)

end SyncRuntime

end Linera
