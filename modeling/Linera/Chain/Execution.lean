import Linera.Chain.ChainState

/-!
# Executing a block

`execute_block`: each incoming bundle of a block is a transaction, and then each
operation. What the transactions send is collected in one list of messages per
transaction.

The state that goes from one transaction to the next also has a record of what was
done with the funds of the chain (`TraceEntry`). The source has no such record and no
function of the model reads it.
-/

namespace Linera

/-- The BCS-serialized size of an empty `ExecutedBlock`. -/
def emptyExecutedBlockSize : Nat := 91

/-- A transaction in a block: incoming messages or an operation. -/
inductive Transaction where
  | receiveMessages (bundle : IncomingBundle)
  | executeOperation (operation : Operation)
deriving DecidableEq

namespace Block

/-- Whether the block contains only rejected incoming messages, which makes it admissible even on
closed chains. -/
def hasOnlyRejectedMessages (b : Block) : Bool :=
  b.operations.isEmpty && b.incomingBundles.all fun bundle => bundle.action == .reject

def incomingMessages (b : Block) : List PostedMessage :=
  b.incomingBundles.flatMap fun incomingBundle => incomingBundle.bundle.messages

def transactions (b : Block) : List Transaction :=
  b.incomingBundles.map .receiveMessages ++ b.operations.map .executeOperation

end Block

def IncomingBundle.messagesAndIds (b : IncomingBundle) : List (MessageId × PostedMessage) :=
  let chainAndHeight : ChainAndHeight := ⟨b.origin.sender, b.bundle.height⟩
  b.bundle.messages.map fun message => (chainAndHeight.toMessageId message.index, message)

namespace Transaction

def executionContext (index : Nat) : Transaction → ChainExecutionContext
  | .receiveMessages _ => .incomingBundle index
  | .executeOperation _ => .operation index

/-- Whether the outgoing messages of the transaction are paid for. -/
def paysForMessages : Transaction → Bool
  | .executeOperation _ => true
  | .receiveMessages bundle => bundle.action == .accept

end Transaction

/-- The state of a block's execution between two transactions. -/
structure BlockProgress where
  chain : ChainStateView
  controller : ResourceController (Option Owner)
  replayingOracleResponses : Option (List (List OracleResponse))
  nextMessageIndex : Nat
  oracleResponses : List (List OracleResponse)
  messages : List (List OutgoingMessage)
  events : List (List EventRecord)
  trace : List TraceEntry

/-- The result of a block's execution: the state of the chain, the outcome, and what
was done with the funds of the chain. -/
structure BlockExecution where
  chain : ChainStateView
  outcome : BlockExecutionOutcome
  trace : List TraceEntry
deriving DecidableEq

/-- `with_execution_context`. -/
def withExecutionContext {α : Type} (x : Except ExecutionError α)
    (executionContext : ChainExecutionContext) : Except ChainError α :=
  x.mapError fun error => .executionError error executionContext

namespace ChainStateView

variable (context : ChainContext)

def funds (c : ChainStateView) : Funds := c.executionState.system.funds

/-- Runs accounting functions with the funding sources of the chain. -/
def pay (c : ChainStateView) (controller : ResourceController (Option Owner))
    (f : ResourceController Sources → Except ExecutionError (ResourceController Sources)) :
    Except ExecutionError (ChainStateView × ResourceController (Option Owner)) := do
  let (controller, system) ← controller.withState c.executionState.system f
  return (c.setSystem system, controller)

/-- Executes a message as part of an incoming bundle in a block. -/
def executeMessageInBlock (c : ChainStateView) (block : Block) (localTime txnIndex : Nat)
    (incomingBundle : IncomingBundle) (messageId : MessageId) (postedMessage : PostedMessage)
    (t : TransactionTracker) (controller : ResourceController (Option Owner)) :
    Except ChainError
      (ChainStateView × TransactionTracker × ResourceController (Option Owner)) := do
  let messageContext : MessageContext := {
    chainId := block.chainId
    isBouncing := postedMessage.isBouncing
    height := block.height
    certificateHash := incomingBundle.bundle.certificateHash
    messageId
    authenticatedSigner := postedMessage.authenticatedSigner
    refundGrantTo := postedMessage.refundGrantTo }
  let grant := postedMessage.grant
  match incomingBundle.action with
  | .accept =>
    -- Once a chain is closed, accepting incoming messages is not allowed.
    ensure (!c.isClosed) .closedChain
    let (executionState, grantLeft, t, controller) ← withExecutionContext
      (c.executionState.executeMessage context.toExecutionRuntimeContext
        context.primitives.toHashing messageContext localTime postedMessage.message
        (if grant > 0 then some grant else none) t controller) (.incomingBundle txnIndex)
    let c := { c with executionState }
    match postedMessage.refundGrantTo with
    | some refundGrantTo =>
      if grantLeft.getD grant > 0 then
        let t ← withExecutionContext (ExecutionStateView.sendRefund
          context.toExecutionRuntimeContext messageContext (grantLeft.getD grant) refundGrantTo t)
          (.incomingBundle txnIndex)
        return (c, t, controller)
      else return (c, t, controller)
    | none => return (c, t, controller)
  | .reject =>
    -- If rejecting a message fails, the entire block proposal should be scrapped.
    ensure (!postedMessage.isProtected || c.isClosed)
      (.cannotRejectMessage block.chainId incomingBundle.origin postedMessage)
    if postedMessage.isTracked then
      let t ← withExecutionContext (c.executionState.bounceMessage
        context.toExecutionRuntimeContext messageContext grant postedMessage.message t) .block
      return (c, t, controller)
    else if grant > 0 then
      -- Nothing to do except maybe refund the grant.
      match postedMessage.refundGrantTo with
      | none =>
        throw (.internalError "Messages with grants should have a non-empty `refund_grant_to`")
      | some refundGrantTo =>
        let t ← withExecutionContext (ExecutionStateView.sendRefund
          context.toExecutionRuntimeContext messageContext grant refundGrantTo t) .block
        return (c, t, controller)
    else return (c, t, controller)

def executeMessages (c : ChainStateView) (block : Block) (localTime txnIndex : Nat)
    (incomingBundle : IncomingBundle) (t : TransactionTracker)
    (controller : ResourceController (Option Owner)) :
    List (MessageId × PostedMessage) →
      Except ChainError (ChainStateView × TransactionTracker × ResourceController (Option Owner))
  | [] => .ok (c, t, controller)
  | (messageId, postedMessage) :: messages => do
    let (c, t, controller) ← c.executeMessageInBlock context block localTime txnIndex
      incomingBundle messageId postedMessage t controller
    c.executeMessages block localTime txnIndex incomingBundle t controller messages

/-- Executes the messages or the operation of a transaction. -/
def executeTransactionBody (c : ChainStateView) (block : Block) (localTime txnIndex : Nat)
    (t : TransactionTracker) (controller : ResourceController (Option Owner)) :
    Transaction →
      Except ChainError (ChainStateView × TransactionTracker × ResourceController (Option Owner))
  | .receiveMessages incomingBundle => do
    let controller ← withExecutionContext
      (controller.trackExecutedBlockSize (context.bundleSize incomingBundle))
      (.incomingBundle txnIndex)
    c.executeMessages context block localTime txnIndex incomingBundle t controller
      incomingBundle.messagesAndIds
  | .executeOperation operation => do
    let controller ← withExecutionContext
      (controller.trackExecutedBlockSize (context.operationSize operation)) (.operation txnIndex)
    let operationContext : OperationContext :=
      ⟨context.chainId, block.authenticatedSigner, none, block.height, some txnIndex⟩
    let (executionState, t, controller) ← withExecutionContext
      (c.executionState.executeOperation context.toExecutionRuntimeContext
        context.primitives.toHashing operationContext localTime operation t controller)
      (.operation txnIndex)
    let before := executionState.system.funds
    let (c, controller) ← withExecutionContext
      ({ c with executionState }.pay controller fun controller =>
        controller.trackOperation operation) (.operation txnIndex)
    return (c, t.record (.fees controller.account) before c.funds, controller)

/-- Charges for outgoing messages. -/
def trackMessages (c : ChainStateView) (controller : ResourceController (Option Owner)) :
    List OutgoingMessage →
      Except ExecutionError (ChainStateView × ResourceController (Option Owner))
  | [] => .ok (c, controller)
  | message :: messages => do
    let (c, controller) ← c.pay controller fun controller =>
      controller.trackMessage message.message
    c.trackMessages controller messages

end ChainStateView

namespace BlockProgress

variable (context : ChainContext)

/-- The oracle responses to replay in the next transaction, and the ones for the transactions
after it. -/
def nextResponses (p : BlockProgress) :
    Except ChainError (Option (List OracleResponse) × Option (List (List OracleResponse))) :=
  match p.replayingOracleResponses with
  | none => .ok (none, none)
  | some [] => .error .missingOracleResponseList
  | some (responses :: rest) => .ok (some responses, some rest)

/-- Executes a transaction, and collects what it has produced. -/
def executeTransaction (p : BlockProgress) (block : Block) (localTime txnIndex : Nat)
    (transaction : Transaction) : Except ChainError BlockProgress := do
  let executionContext := transaction.executionContext txnIndex
  let (responses, replayingOracleResponses) ← p.nextResponses
  let t := TransactionTracker.new p.nextMessageIndex responses
  let (chain, t, controller) ← p.chain.executeTransactionBody context block localTime txnIndex t
    p.controller transaction
  let t ← withExecutionContext
    (chain.executionState.updateExecutionOutcomesWithAppRegistrations t) executionContext
  let (txnOutcomes, txnOracleResponses, nextMessageIndex) ←
    withExecutionContext t.destructure executionContext
  let (chain, txnMessages, txnEvents) ← chain.processExecutionOutcomes block.height txnOutcomes
  let before := chain.funds
  let (chain, controller) ← if transaction.paysForMessages
    then withExecutionContext (chain.trackMessages controller txnMessages) executionContext
    else pure (chain, controller)
  let controller ← withExecutionContext (do
    let controller ← controller.trackExecutedBlockSize
      (context.resultsSize txnOracleResponses txnMessages txnEvents)
    let controller ←
      controller.trackExecutedBlockSizeSequenceExtension p.oracleResponses.length 1
    let controller ← controller.trackExecutedBlockSizeSequenceExtension p.messages.length 1
    controller.trackExecutedBlockSizeSequenceExtension p.events.length 1) executionContext
  return {
    chain, controller, replayingOracleResponses, nextMessageIndex
    oracleResponses := p.oracleResponses ++ [txnOracleResponses]
    messages := p.messages ++ [txnMessages]
    events := p.events ++ [txnEvents]
    trace := p.trace ++ t.trace ++ [⟨.fees controller.account, before, chain.funds⟩] }

def executeTransactions (block : Block) (localTime : Nat) :
    Nat → List Transaction → BlockProgress → Except ChainError BlockProgress
  | _, [], p => .ok p
  | txnIndex, transaction :: transactions, p => do
    let p ← p.executeTransaction context block localTime txnIndex transaction
    executeTransactions block localTime (txnIndex + 1) transactions p

end BlockProgress

namespace ChainStateView

variable (context : ChainContext)

/-- The first incoming message of any child chain must be `OpenChain`. A root chain must already
be initialized. -/
def initializeFirstBlock (c : ChainStateView) (block : Block) (localTime : Nat) :
    Except ChainError ChainStateView :=
  if block.height = 0 ∧ c.executionState.system.description.all ChainDescription.isChild then
    match block.startsWithOpenChainMessage with
    | none => .error (.inactiveChain context.chainId)
    | some (inBundle, postedMessage, config) =>
      if c.isActive then .ok c
      else
        let messageId : MessageId :=
          ⟨inBundle.origin.sender, inBundle.bundle.height, postedMessage.index⟩
        c.executeInitMessage context messageId config block.timestamp localTime
  else .ok c

/-- The resource controller of a block, with the size of what every block has. -/
def startController (policy : ResourceControlPolicy) (block : Block) :
    Except ExecutionError (ResourceController (Option Owner)) := do
  let controller : ResourceController (Option Owner) :=
    ⟨policy, .default, block.authenticatedSigner⟩
  let controller ← controller.trackExecutedBlockSize emptyExecutedBlockSize
  let controller ←
    controller.trackExecutedBlockSizeSequenceExtension 0 block.incomingBundles.length
  controller.trackExecutedBlockSizeSequenceExtension 0 block.operations.length

def applicationsIn (block : Block) : List GenericApplicationId :=
  block.operations.map Operation.applicationId ++
    block.incomingMessages.map fun pending => pending.message.applicationId

def checkPermissions (permissions : ApplicationPermissions) (block : Block) :
    Except ChainError Unit := do
  ensure (block.operations.all fun operation =>
    permissions.canExecuteOperations operation.applicationId)
    (.authorizedApplications (permissions.executeOperations.getD []))
  let missing := permissions.mandatoryApplications.filter fun applicationId =>
    .user applicationId ∉ applicationsIn block
  ensure (missing = []) (.missingMandatoryApplications missing)

/-- What is checked before the transactions of a block, and the state they start from. -/
def startBlock (c : ChainStateView) (block : Block) (localTime : Nat)
    (replayingOracleResponses : Option (List (List OracleResponse))) :
    Except ChainError BlockProgress := do
  ensure (block.chainId = context.chainId) .panicked
  let before := c.funds
  let c ← c.initializeFirstBlock context block localTime
  let system := c.executionState.system
  ensure (system.timestamp ≤ block.timestamp) .invalidBlockTimestamp
  let c := c.setSystem { system with timestamp := block.timestamp }
  match system.currentCommittee with
  | none => throw (.inactiveChain context.chainId)
  | some (_, committee) =>
    let controller ← withExecutionContext (startController committee.policy block) .block
    ensure (c.isClosed → block.incomingBundles ≠ [] ∧ block.hasOnlyRejectedMessages) .closedChain
    checkPermissions system.applicationPermissions block
    return ⟨c, controller, replayingOracleResponses, 0, [], [], [],
      [⟨.startBlock, before, c.funds⟩]⟩

/-- What follows the transactions of a block. -/
def finishBlock (p : BlockProgress) (block : Block) (localTime : Nat) :
    Except ChainError BlockExecution := do
  -- Charge for the block fee, except if the chain is closed. Closed chains should always be able
  -- to reject incoming messages.
  let (c, _) ← withExecutionContext
    (if p.chain.isClosed then pure (p.chain, p.controller)
      else p.chain.pay p.controller fun controller => controller.trackBlock) .block
  let stateHash := context.cryptoHash c.executionState
  let nextHeight ← (BlockHeight.tryAddOne block.height).mapError .arithmeticError
  let c ← c.resetManager context nextHeight localTime
  ensure (p.messages.length = block.incomingBundles.length + block.operations.length) .panicked
  return ⟨c, ⟨p.messages, stateHash, p.oracleResponses, p.events⟩,
    p.trace ++ [⟨.fees p.controller.account, p.chain.funds, c.funds⟩]⟩

/-- Executes a block: first the incoming messages, then the main operation. -/
def executeBlock (c : ChainStateView) (block : Block) (localTime : Nat)
    (replayingOracleResponses : Option (List (List OracleResponse))) :
    Except ChainError BlockExecution := do
  let p ← c.startBlock context block localTime replayingOracleResponses
  let p ← p.executeTransactions context block localTime 0 block.transactions
  finishBlock context p block localTime

end ChainStateView

end Linera
