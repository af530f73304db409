import Linera.Execution.Applications

/-!
# The system application

The state that every chain has for itself (`SystemExecutionStateView`), the
operations on it that a block may contain, and the messages that other chains may
send to it.
-/

namespace Linera

structure OperationContext where
  chainId : ChainId
  authenticatedSigner : Option Owner
  /-- `none` if this is the transaction entrypoint or the caller doesn't want this particular
  call to be authenticated. -/
  authenticatedCallerId : Option UserApplicationId
  height : Nat
  index : Option Nat
deriving DecidableEq

structure MessageContext where
  chainId : ChainId
  /-- Whether the message was rejected by the original receiver and is now bouncing back. -/
  isBouncing : Bool
  authenticatedSigner : Option Owner
  refundGrantTo : Option Account
  height : Nat
  certificateHash : CryptoHash
  messageId : MessageId
deriving DecidableEq

/-- Where to send a refund for the unused part of each grant after execution. -/
def OperationContext.refundGrantTo (c : OperationContext) : Option Account :=
  some ⟨c.chainId, c.authenticatedSigner.map .user⟩

structure SystemExecutionStateView where
  /-- How the chain was created. May be unknown for inactive chains. -/
  description : Option ChainDescription
  /-- The number identifying the current configuration. -/
  epoch : Option Nat
  adminId : Option ChainId
  /-- The channels that we have subscribed to. -/
  subscriptions : BTreeSet ChannelSubscription
  /-- The committees that we trust, indexed by epoch number. -/
  committees : BTreeMap Nat Committee
  ownership : ChainOwnership
  /-- Balance of the chain. (Available to any user able to create blocks in the chain.) -/
  balance : Nat
  balances : BTreeMap AccountOwner Nat
  /-- The timestamp of the most recent block. -/
  timestamp : Nat
  registry : ApplicationRegistryView
  closed : Bool
  applicationPermissions : ApplicationPermissions
  /-- Blobs that have been used or published on this chain. -/
  usedBlobs : BTreeSet BlobId
deriving DecidableEq

/-- What `SystemExecutionStateView::create_application` returns. -/
structure CreateApplicationResult where
  appId : UserApplicationId
  message : RawOutgoingMessage SystemMessage Nat
  blobsToRegister : List BlobId
deriving DecidableEq

namespace SystemExecutionStateView

/-- The state of a chain that has not been initialized. -/
def default : SystemExecutionStateView where
  description := none
  epoch := none
  adminId := none
  subscriptions := .empty
  committees := .empty
  ownership := .default
  balance := 0
  balances := .empty
  timestamp := 0
  registry := ⟨.empty⟩
  closed := false
  applicationPermissions := .default
  usedBlobs := .empty

variable (s : SystemExecutionStateView)

def currentCommittee : Option (Nat × Committee) := do
  let epoch ← s.epoch
  let committee ← s.committees.get epoch
  return (epoch, committee)

def isActive (s : SystemExecutionStateView) : Bool :=
  s.description.isSome && s.ownership.isActive && s.currentCommittee.isSome && s.adminId.isSome

/-- The funds of the chain, and who owns it. -/
def funds : Funds := ⟨s.balance, s.balances, s.ownership⟩

/-- A message without grant and without authenticated signer. -/
def plainMessage (destination : Destination) (kind : MessageKind) (message : SystemMessage) :
    RawOutgoingMessage SystemMessage Nat :=
  ⟨destination, false, 0, kind, message⟩

def debit (account : Option AccountOwner) (amount : Nat) :
    Except SystemExecutionError SystemExecutionStateView :=
  match account with
  | some owner =>
    match s.balances.get owner with
    | none => .error (.insufficientFunding 0)
    | some balance =>
      match Amount.trySub balance amount with
      | .error _ => .error (.insufficientFunding balance)
      | .ok 0 => .ok { s with balances := s.balances.remove owner }
      | .ok balance => .ok { s with balances := s.balances.insert owner balance }
  | none =>
    match Amount.trySub s.balance amount with
    | .error _ => .error (.insufficientFunding s.balance)
    | .ok balance => .ok { s with balance }

/-- Whether a transfer from `source` is authenticated. -/
def checkTransfer (authenticatedSigner : Option Owner)
    (authenticatedApplicationId : Option UserApplicationId) (source : Option AccountOwner) :
    Except SystemExecutionError Unit :=
  match source, authenticatedSigner, authenticatedApplicationId with
  | some (.user owner), some signer, _ => ensure (signer = owner) .unauthenticatedTransferOwner
  | some (.application accountApplication), _, some authorizedApplication =>
    ensure (accountApplication = authorizedApplication) .unauthenticatedTransferOwner
  | none, some signer, _ =>
    ensure (s.ownership.verifyOwner signer).isSome .unauthenticatedTransferOwner
  | _, _, _ => .error .unauthenticatedTransferOwner

/-- The message that credits a recipient, unless the tokens are burnt. -/
def creditMessage (source : Option AccountOwner) (amount : Nat) :
    Recipient → Option (RawOutgoingMessage SystemMessage Nat)
  | .account account =>
    some (plainMessage (.recipient account.chainId) .tracked (.credit account.owner amount source))
  | .burn => none

def transfer (authenticatedSigner : Option Owner)
    (authenticatedApplicationId : Option UserApplicationId) (source : Option AccountOwner)
    (recipient : Recipient) (amount : Nat) :
    Except SystemExecutionError
      (SystemExecutionStateView × Option (RawOutgoingMessage SystemMessage Nat)) := do
  s.checkTransfer authenticatedSigner authenticatedApplicationId source
  ensure (amount > 0) .incorrectTransferAmount
  let s ← s.debit source amount
  return (s, creditMessage source amount recipient)

def claim (authenticatedSigner : Option Owner)
    (authenticatedApplicationId : Option UserApplicationId) (source : AccountOwner)
    (targetId : ChainId) (recipient : Recipient) (amount : Nat) :
    Except SystemExecutionError (RawOutgoingMessage SystemMessage Nat) := do
  match source with
  | .user owner => ensure (authenticatedSigner = some owner) .unauthenticatedClaimOwner
  | .application owner =>
    ensure (authenticatedApplicationId = some owner) .unauthenticatedClaimOwner
  ensure (amount > 0) .incorrectClaimAmount
  return ⟨.recipient targetId, true, 0, .simple, .withdraw source amount recipient⟩

def adminSubscription (adminId : ChainId) : ChannelSubscription :=
  ⟨adminId, SystemChannel.name .admin⟩

variable (hashing : Hashing)

/-- Returns the messages to open a new chain, and subtracts the new chain's balance from this
chain's. -/
def openChain (s : SystemExecutionStateView) (config : OpenChainConfig)
    (nextMessageId : MessageId) :
    Except SystemExecutionError
      (SystemExecutionStateView × List (RawOutgoingMessage SystemMessage Nat)) := do
  let childId := hashing.chainId (.child nextMessageId)
  ensure (s.adminId = some config.adminId) (.invalidNewChainAdminId childId)
  ensure (s.committees = config.committees) .invalidCommittees
  ensure (s.epoch = some config.epoch) (.invalidEpoch childId config.epoch)
  let s ← s.debit none config.balance
  let openChainMessage := plainMessage (.recipient childId) .protected (.openChain config)
  let subscribeMessage := plainMessage (.recipient config.adminId) .protected
    (.subscribe childId (adminSubscription config.adminId))
  return (s, [openChainMessage, subscribeMessage])

/-- Unsubscribes from all channels, and closes the chain. -/
def closeChain (id : ChainId) :
    SystemExecutionStateView × List (RawOutgoingMessage SystemMessage Nat) :=
  let messages := s.subscriptions.keys.map fun subscription =>
    plainMessage (.recipient subscription.chainId) .protected (.unsubscribe id subscription)
  ({ s with subscriptions := .empty, closed := true }, messages)

/-- Records a blob that is used in this block. Returns whether this is the first use on this
chain. -/
def markBlobUsed (blobId : BlobId) : SystemExecutionStateView × Bool :=
  if s.usedBlobs.containsKey blobId then (s, false)
  else ({ s with usedBlobs := s.usedBlobs.insert blobId () }, true)

/-- Records a blob that is used in this block. If this is the first use on this chain, creates an
oracle response for it. -/
def blobUsed (t : TransactionTracker) (blobId : BlobId) :
    Except SystemExecutionError (SystemExecutionStateView × TransactionTracker) :=
  match s.markBlobUsed blobId with
  | (s, false) => .ok (s, t)
  | (s, true) => do
    let (_, t) ← t.replayOracleResponse (.blob blobId)
    return (s, t)

def blobPublished (blobId : BlobId) : SystemExecutionStateView :=
  { s with usedBlobs := s.usedBlobs.insert blobId () }

def recordBytecodeBlobs (s : SystemExecutionStateView) (t : TransactionTracker) :
    List BlobId → Except SystemExecutionError (SystemExecutionStateView × TransactionTracker)
  | [] => .ok (s, t)
  | blobId :: blobIds => do
    let (s, t) ← s.blobUsed t blobId
    s.recordBytecodeBlobs t blobIds

variable (blobs : BlobId → Option Bytes)

def readBlobContent (blobId : BlobId) : Except SystemExecutionError Bytes :=
  match blobs blobId with
  | some bytes => .ok bytes
  | none => .error (.blobsNotFound [blobId])

def assertBlobExists (blobId : BlobId) : Except SystemExecutionError Unit :=
  ensure (blobs blobId).isSome (.blobsNotFound [blobId])

def checkBytecodeBlobs (bytecodeId : BytecodeId) :
    Except SystemExecutionError (BlobId × BlobId) := do
  let contractBlobId : BlobId := ⟨.contractBytecode, bytecodeId.contractBlobHash⟩
  let serviceBlobId : BlobId := ⟨.serviceBytecode, bytecodeId.serviceBlobHash⟩
  let missingBlobs := [contractBlobId, serviceBlobId].filter fun blobId => (blobs blobId).isNone
  ensure (missingBlobs = []) (.blobsNotFound missingBlobs)
  return (contractBlobId, serviceBlobId)

def checkAndRecordBytecodeBlobs (t : TransactionTracker) (bytecodeId : BytecodeId) :
    Except SystemExecutionError (SystemExecutionStateView × TransactionTracker) := do
  let (contractBlobId, serviceBlobId) ← checkBytecodeBlobs blobs bytecodeId
  s.recordBytecodeBlobs t [contractBlobId, serviceBlobId]

/-- The bytecode blobs of the given applications that the chain has not used yet. -/
def unusedBytecodeBlobs (s : SystemExecutionStateView) :
    List UserApplicationId → Except SystemExecutionError (List BlobId)
  | [] => .ok []
  | application :: applications => do
    let (contractBlobId, serviceBlobId) ← checkBytecodeBlobs blobs application.bytecodeId
    let unused := [contractBlobId, serviceBlobId].filter fun blobId =>
      !s.usedBlobs.containsKey blobId
    let rest ← s.unusedBytecodeBlobs applications
    return unused ++ rest

def createApplication (nextMessageId : MessageId) (bytecodeId : BytecodeId) (parameters : Bytes)
    (requiredApplicationIds : List UserApplicationId) :
    Except SystemExecutionError (SystemExecutionStateView × CreateApplicationResult) := do
  let id : UserApplicationId := ⟨bytecodeId, nextMessageId⟩
  let blobsToRegister ← s.unusedBytecodeBlobs blobs (requiredApplicationIds ++ [id])
  let registry ← s.registry.registerNewApplication id parameters requiredApplicationIds
  -- Send a message to ourself to increment the message ID.
  let message :=
    plainMessage (.recipient nextMessageId.chainId) .protected .applicationCreated
  return ({ s with registry }, ⟨id, message, blobsToRegister⟩)

def nextEpoch : Except SystemExecutionError Nat :=
  match s.epoch with
  | none => .error .panicked  -- The chain is active.
  | some epoch => (Epoch.tryAddOne epoch).mapError .arithmeticError

/-- The ownership that a `ChangeOwnership` operation installs. -/
def newOwnership (superOwners : List PublicKey) (owners : List (PublicKey × Nat))
    (multiLeaderRounds : Nat) (timeoutConfig : TimeoutConfig) : ChainOwnership where
  superOwners := .ofList (superOwners.map fun publicKey => (hashing.owner publicKey, publicKey))
  owners := .ofList (owners.map fun (publicKey, weight) =>
    (hashing.owner publicKey, (publicKey, weight)))
  multiLeaderRounds := multiLeaderRounds
  timeoutConfig := timeoutConfig

/-- What an operation of the admin chain does, and the message it broadcasts. -/
def executeAdminOperation : AdminOperation →
      Except SystemExecutionError (SystemExecutionStateView × RawOutgoingMessage SystemMessage Nat)
  | .createCommittee epoch committee => do
    let next ← s.nextEpoch
    ensure (epoch = next) .invalidCommitteeCreation
    return ({ s with committees := s.committees.insert epoch committee, epoch := some epoch },
      plainMessage (.subscribers (SystemChannel.name .admin)) .protected
        (.createCommittee epoch committee))
  | .removeCommittee epoch => do
    ensure (s.committees.containsKey epoch) .invalidCommitteeRemoval
    return ({ s with committees := s.committees.remove epoch },
      plainMessage (.subscribers (SystemChannel.name .admin)) .protected (.removeCommittee epoch))

/-- What an operation does to the state, the messages it sends, and the application it creates. -/
def operationEffect (context : OperationContext) (t : TransactionTracker) : SystemOperation →
      Except SystemExecutionError (SystemExecutionStateView × TransactionTracker ×
        List (RawOutgoingMessage SystemMessage Nat) × Option (UserApplicationId × Bytes))
  | .openChain config => do
    let nextMessageId := t.nextMessageId context.chainId context.height
    let (s, messages) ← s.openChain hashing config nextMessageId
    return (s, t, messages, none)
  | .changeOwnership superOwners owners multiLeaderRounds timeoutConfig =>
    let ownership := newOwnership hashing superOwners owners multiLeaderRounds timeoutConfig
    return ({ s with ownership }, t, [], none)
  | .changeApplicationPermissions applicationPermissions =>
    return ({ s with applicationPermissions }, t, [], none)
  | .closeChain =>
    let (s, messages) := s.closeChain context.chainId
    return (s, t, messages, none)
  | .transfer owner recipient amount => do
    let (s, message) ←
      s.transfer context.authenticatedSigner none (owner.map .user) recipient amount
    return (s, t, message.toList, none)
  | .claim owner targetId recipient amount => do
    let message ← claim context.authenticatedSigner none (.user owner) targetId recipient amount
    return (s, t, [message], none)
  | .admin adminOperation => do
    ensure (s.adminId = some context.chainId) .adminOperationOnNonAdminChain
    let (s, message) ← s.executeAdminOperation adminOperation
    return (s, t, [message], none)
  | .subscribe chainId channel => do
    ensure (context.chainId ≠ chainId) (.selfSubscription context.chainId channel)
    ensure (channel = .admin → s.adminId = some chainId)
      (.invalidAdminSubscription context.chainId channel)
    let subscription : ChannelSubscription := ⟨chainId, channel.name⟩
    ensure (!s.subscriptions.containsKey subscription)
      (.alreadySubscribedToChannel context.chainId channel)
    return ({ s with subscriptions := s.subscriptions.insert subscription () }, t,
      [plainMessage (.recipient chainId) .protected (.subscribe context.chainId subscription)],
      none)
  | .unsubscribe chainId channel => do
    let subscription : ChannelSubscription := ⟨chainId, channel.name⟩
    ensure (s.subscriptions.containsKey subscription)
      (.invalidUnsubscription context.chainId channel)
    return ({ s with subscriptions := s.subscriptions.remove subscription }, t,
      [plainMessage (.recipient chainId) .protected (.unsubscribe context.chainId subscription)],
      none)
  | .publishBytecode bytecodeId =>
    let s := s.blobPublished ⟨.contractBytecode, bytecodeId.contractBlobHash⟩
    return (s.blobPublished ⟨.serviceBytecode, bytecodeId.serviceBlobHash⟩, t, [], none)
  | .createApplication bytecodeId parameters instantiationArgument requiredApplicationIds => do
    let nextMessageId := t.nextMessageId context.chainId context.height
    let (s, result) ←
      s.createApplication blobs nextMessageId bytecodeId parameters requiredApplicationIds
    let (s, t) ← s.recordBytecodeBlobs t result.blobsToRegister
    return (s, t, [result.message], some (result.appId, instantiationArgument))
  | .requestApplication chainId applicationId =>
    return (s, t,
      [plainMessage (.recipient chainId) .simple (.requestApplication applicationId)], none)
  | .publishDataBlob blobHash => return (s.blobPublished ⟨.data, blobHash⟩, t, [], none)
  | .readBlob blobId => do
    let _ ← readBlobContent blobs blobId
    let (s, t) ← s.blobUsed t blobId
    return (s, t, [], none)

/-- Executes the sender's side of an operation. Returns the application to instantiate, if one
was created. -/
def executeOperation (context : OperationContext) (operation : SystemOperation)
    (t : TransactionTracker) :
    Except SystemExecutionError
      (SystemExecutionStateView × TransactionTracker × Option (UserApplicationId × Bytes)) := do
  let (s, t, messages, newApplication) ← s.operationEffect hashing blobs context t operation
  let outcome : RawExecutionOutcome SystemMessage Nat :=
    ⟨context.authenticatedSigner, context.refundGrantTo, messages, [], [], []⟩
  let t ← (t.addSystemOutcome outcome).mapError .arithmeticError
  return (s, t, newApplication)

/-- Registers applications that another chain has described. -/
def registerApplications (s : SystemExecutionStateView) (t : TransactionTracker) :
    List UserApplicationDescription →
      Except SystemExecutionError (SystemExecutionStateView × TransactionTracker)
  | [] => .ok (s, t)
  | application :: applications => do
    let (s, t) ← s.checkAndRecordBytecodeBlobs blobs t application.bytecodeId
    let registry ← s.registry.registerApplication application
    registerApplications { s with registry } t applications

/-- What a message does to the state, and the messages it sends in turn. -/
def messageEffect (context : MessageContext) (t : TransactionTracker) : SystemMessage →
      Except SystemExecutionError (SystemExecutionStateView × TransactionTracker ×
        List (RawOutgoingMessage SystemMessage Nat))
  | .credit target amount source =>
    let receiver := if context.isBouncing then source else target
    match receiver with
    | none => return ({ s with balance := Amount.saturatingAdd s.balance amount }, t, [])
    | some owner =>
      let balance := Amount.saturatingAdd ((s.balances.get owner).getD 0) amount
      return ({ s with balances := s.balances.insert owner balance }, t, [])
  | .withdraw owner amount recipient => do
    let s ← s.debit (some owner) amount
    return (s, t, (creditMessage (some owner) amount recipient).toList)
  | .createCommittee epoch committee => do
    let chainNextEpoch ← s.nextEpoch
    ensure (epoch ≤ chainNextEpoch) .invalidCommitteeCreation
    if epoch = chainNextEpoch then
      return ({ s with committees := s.committees.insert epoch committee, epoch := some epoch },
        t, [])
    else return (s, t, [])
  | .removeCommittee epoch =>
    return ({ s with committees := s.committees.remove epoch }, t, [])
  | .registerApplications applications => do
    let (s, t) ← s.registerApplications blobs t applications
    return (s, t, [])
  | .requestApplication applicationId => do
    let applications ← s.registry.describeApplicationsWithDependencies [applicationId] .empty
    return (s, t, [plainMessage (.recipient context.messageId.chainId) .simple
      (.registerApplications applications)])
  -- These messages are executed immediately when cross-chain requests are received.
  | .subscribe _ _ | .unsubscribe _ _ | .openChain _ => return (s, t, [])
  -- This message is only a placeholder: its ID is part of the application ID.
  | .applicationCreated => return (s, t, [])

/-- Executes a cross-chain message that represents the recipient's side of an operation. -/
def executeMessage (context : MessageContext) (message : SystemMessage) (t : TransactionTracker) :
    Except SystemExecutionError (SystemExecutionStateView × TransactionTracker ×
      RawExecutionOutcome SystemMessage Nat) := do
  let (s, t, messages) ← s.messageEffect blobs context t message
  return (s, t, ⟨none, none, messages, [], [], []⟩)

/-- Initializes the system application state on a newly opened chain. -/
def initializeChain (messageId : MessageId) (timestamp : Nat) (config : OpenChainConfig) :
    Except SystemExecutionError SystemExecutionStateView := do
  -- Guaranteed under BFT assumptions.
  ensure s.description.isNone .panicked
  ensure (!s.ownership.isActive) .panicked
  ensure s.committees.isEmpty .panicked
  return { s with
    description := some (.child messageId)
    epoch := some config.epoch
    committees := config.committees
    adminId := some config.adminId
    subscriptions := s.subscriptions.insert (adminSubscription config.adminId) ()
    ownership := config.ownership
    timestamp
    balance := config.balance
    applicationPermissions := config.applicationPermissions }

end SystemExecutionStateView

end Linera
