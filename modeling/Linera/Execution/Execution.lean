import Linera.Execution.Runtime

/-!
# Executing operations and messages

How `ExecutionStateView` executes one operation or one message of a block: system
operations and messages change the state directly, user ones run a contract. At
the end of a transaction, messages that register applications are put in front of
the messages of the contracts.
-/

namespace Linera

/-- Whether the outcome is the one of a user application. -/
def ExecutionOutcome.isUser : ExecutionOutcome → Bool
  | .system _ => false
  | .user _ _ => true

/-- Adds the application of a user outcome to the ones to register, for each destination of its
messages. -/
def ExecutionOutcome.addDestinations
    (toRegister : BTreeMap Destination (BTreeSet UserApplicationId)) :
    ExecutionOutcome → BTreeMap Destination (BTreeSet UserApplicationId)
  | .system _ => toRegister
  | .user applicationId outcome => outcome.messages.foldl (fun toRegister message =>
      let applications := (toRegister.get message.destination).getD .empty
      toRegister.insert message.destination (applications.insert applicationId ())) toRegister

/-- The applications whose messages are sent to each destination. -/
def applicationsToRegisterPerDestination (outcomes : List ExecutionOutcome) :
    BTreeMap Destination (BTreeSet UserApplicationId) :=
  outcomes.foldl ExecutionOutcome.addDestinations .empty

namespace ExecutionStateView

variable (context : ExecutionRuntimeContext) (hashing : Hashing)

variable (s : ExecutionStateView)

/-- Runs a contract. Returns what is left of the grant. -/
def runUserAction (applicationId : UserApplicationId) (chainId : ChainId) (localTime : Nat)
    (action : UserAction) (refundGrantTo : Option Account) (grant : Option Nat)
    (t : TransactionTracker) (c : ResourceController (Option Owner)) :
    Except ExecutionError (ExecutionStateView × Option Nat × TransactionTracker ×
      ResourceController (Option Owner)) := do
  let initialBalance ← (s.system.sources c.account grant).balance.mapError .arithmeticError
  let (code, description) ← SyncRuntime.loadContract context s applicationId
  let controller : ResourceController AmountAccount := ⟨c.policy, c.tracker, ⟨initialBalance⟩⟩
  let r := SyncRuntime.new s chainId localTime refundGrantTo controller action t
  let r := r.addInstance applicationId code description
  let run := SyncRuntime.runCode context hashing context.maxCallDepth
  let r ← r.runAction context run applicationId chainId action
  let (c, system, grant) ← c.withStateAndGrant r.state.system grant fun c =>
    c.mergeBalance initialBalance r.resourceController.account.amount
  let t := r.transactionTracker.record (.fees c.account) r.state.system.funds system.funds
  return ({ r.state with system }, grant, t, { c with tracker := r.resourceController.tracker })

/-- The message that registers applications at a destination. -/
def registrationMessage (destination : Destination) (applications : BTreeSet UserApplicationId) :
    Except ExecutionError (RawOutgoingMessage SystemMessage Nat) := do
  let applications ← (s.system.registry.describeApplicationsWithDependencies
    applications.keys .empty).mapError .ofSystem
  return SystemExecutionStateView.plainMessage destination .simple
    (.registerApplications applications)

/-- Schedules application registration messages when needed: they are inserted before the first
user outcome. The index of the next message stays as it is. -/
def updateExecutionOutcomesWithAppRegistrations (t : TransactionTracker) :
    Except ExecutionError TransactionTracker :=
  let toRegister := applicationsToRegisterPerDestination t.outcomes
  if toRegister.isEmpty then .ok t
  else do
    let messages ← toRegister.entries.mapM fun (destination, applications) =>
      s.registrationMessage destination applications
    let systemOutcome : ExecutionOutcome :=
      .system (RawExecutionOutcome.default.withMessages messages)
    let index := t.outcomes.findIdx ExecutionOutcome.isUser
    return { t with outcomes := t.outcomes.insertIdx index systemOutcome }

def executeOperation (s : ExecutionStateView) (operationContext : OperationContext)
    (localTime : Nat) (operation : Operation) (t : TransactionTracker)
    (c : ResourceController (Option Owner)) :
    Except ExecutionError (ExecutionStateView × TransactionTracker ×
      ResourceController (Option Owner)) := do
  ensure (operationContext.chainId = context.chainId) .panicked
  match operation with
  | .system op =>
    let (system, t, newApplication) ←
      (s.system.executeOperation hashing context.blobs operationContext op t).mapError .ofSystem
    let t := t.record (.operation operationContext.authenticatedSigner op) s.system.funds
      system.funds
    let s := { s with system }
    match newApplication with
    | some (applicationId, argument) =>
      let (s, _, t, c) ← s.runUserAction context hashing applicationId operationContext.chainId
        localTime (.instantiate operationContext argument) operationContext.refundGrantTo none t c
      return (s, t, c)
    | none => return (s, t, c)
  | .user applicationId bytes =>
    let (s, _, t, c) ← s.runUserAction context hashing applicationId operationContext.chainId
      localTime (.operation operationContext bytes) operationContext.refundGrantTo none t c
    return (s, t, c)

/-- Executes a message. Returns what is left of the grant. -/
def executeMessage (s : ExecutionStateView) (messageContext : MessageContext) (localTime : Nat)
    (message : Message) (grant : Option Nat) (t : TransactionTracker)
    (c : ResourceController (Option Owner)) :
    Except ExecutionError (ExecutionStateView × Option Nat × TransactionTracker ×
      ResourceController (Option Owner)) := do
  ensure (messageContext.chainId = context.chainId) .panicked
  match message with
  | .system message =>
    let (system, t, outcome) ←
      (s.system.executeMessage context.blobs messageContext message t).mapError .ofSystem
    let t ← (t.addSystemOutcome outcome).mapError .arithmeticError
    let t := t.record (.message messageContext.isBouncing message) s.system.funds system.funds
    return ({ s with system }, grant, t, c)
  | .user applicationId bytes =>
    s.runUserAction context hashing applicationId messageContext.chainId localTime
      (.message messageContext bytes) messageContext.refundGrantTo grant t c

/-- Sends a message back to its origin. -/
def bounceMessage (messageContext : MessageContext) (grant : Nat) (message : Message)
    (t : TransactionTracker) : Except ExecutionError TransactionTracker := do
  ensure (messageContext.chainId = context.chainId) .panicked
  let destination := Destination.recipient messageContext.messageId.chainId
  match message with
  | .system message =>
    let t ← (t.addSystemOutcome ⟨messageContext.authenticatedSigner, messageContext.refundGrantTo,
      [⟨destination, true, grant, .bouncing, message⟩], [], [], []⟩).mapError .arithmeticError
    return t.record (.bounce message) s.system.funds s.system.funds
  | .user applicationId bytes =>
    (t.addUserOutcome applicationId ⟨messageContext.authenticatedSigner,
      messageContext.refundGrantTo, [⟨destination, true, grant, .bouncing, bytes⟩],
      [], [], []⟩).mapError .arithmeticError

/-- Sends back what is left of a grant. -/
def sendRefund (messageContext : MessageContext) (amount : Nat) (account : Account)
    (t : TransactionTracker) : Except ExecutionError TransactionTracker := do
  ensure (messageContext.chainId = context.chainId) .panicked
  let message := SystemExecutionStateView.plainMessage (.recipient account.chainId) .tracked
    (.credit account.owner amount (messageContext.authenticatedSigner.map .user))
  (t.addSystemOutcome (RawExecutionOutcome.default.withMessages [message])).mapError
    .arithmeticError

end ExecutionStateView

end Linera
