import Linera.Execution.Message

/-!
# Blocks and bundles

The data of `linera-chain`: blocks and the bundles they receive, and the outcome
of their execution.
-/

namespace Linera

/-- A channel name together with its application ID. -/
structure ChannelFullName where
  applicationId : GenericApplicationId
  name : ChannelName
deriving DecidableEq

/-- The origin of a message coming from a particular chain. -/
inductive Medium where
  | direct
  | channel (name : ChannelFullName)
deriving DecidableEq

/-- The origin of a message, relative to a particular application. -/
structure Origin where
  sender : ChainId
  medium : Medium
deriving DecidableEq

/-- The target of a message, relative to a particular application. -/
structure Target where
  recipient : ChainId
  medium : Medium
deriving DecidableEq

instance : LinearOrder ChannelFullName :=
  LinearOrder.lift' (β := GenericApplicationId ×ₗ ChannelName)
    (fun n => toLex (n.applicationId, n.name)) fun ⟨_, _⟩ ⟨_, _⟩ h => by simpa using h

instance : LinearOrder Medium :=
  LinearOrder.lift' (β := Unit ⊕ₗ ChannelFullName)
    (fun
      | .direct => toLex (.inl ())
      | .channel name => toLex (.inr name))
    fun a b h => by cases a <;> cases b <;> simp_all

instance : LinearOrder Origin :=
  LinearOrder.lift' (β := ChainId ×ₗ Medium) (fun o => toLex (o.sender, o.medium))
    fun ⟨_, _⟩ ⟨_, _⟩ h => by simpa using h

instance : LinearOrder Target :=
  LinearOrder.lift' (β := ChainId ×ₗ Medium) (fun t => toLex (t.recipient, t.medium))
    fun ⟨_, _⟩ ⟨_, _⟩ h => by simpa using h

/-- Whether an incoming message is accepted or rejected. -/
inductive MessageAction where
  | accept
  | reject
deriving DecidableEq

/-- A message together with kind, authentication and grant information. -/
structure PostedMessage where
  authenticatedSigner : Option Owner
  grant : Nat
  refundGrantTo : Option Account
  kind : MessageKind
  index : Nat
  message : Message
deriving DecidableEq

/-- A set of messages from a single transaction, for a single destination. -/
structure MessageBundle where
  height : Nat
  timestamp : Nat
  certificateHash : CryptoHash
  transactionIndex : Nat
  messages : List PostedMessage
deriving DecidableEq

/-- A bundle of cross-chain messages, with its origin and what to do with it. -/
structure IncomingBundle where
  origin : Origin
  bundle : MessageBundle
  action : MessageAction
deriving DecidableEq

/-- A block containing operations to apply on a given chain, and incoming bundles. -/
structure Block where
  chainId : ChainId
  epoch : Nat
  incomingBundles : List IncomingBundle
  operations : List Operation
  height : Nat
  timestamp : Nat
  authenticatedSigner : Option Owner
  previousBlockHash : Option CryptoHash
deriving DecidableEq

/-- A posted message together with its destination. -/
structure OutgoingMessage where
  destination : Destination
  authenticatedSigner : Option Owner
  grant : Nat
  refundGrantTo : Option Account
  kind : MessageKind
  message : Message
deriving DecidableEq

structure EventRecord where
  streamId : StreamId
  key : Bytes
  value : Bytes
deriving DecidableEq

/-- The messages and the state hash resulting from a block's execution. -/
structure BlockExecutionOutcome where
  messages : List (List OutgoingMessage)
  stateHash : CryptoHash
  oracleResponses : List (List OracleResponse)
  events : List (List EventRecord)
deriving DecidableEq

/-- A block, together with the outcome from its execution. -/
structure ExecutedBlock where
  block : Block
  outcome : BlockExecutionOutcome
deriving DecidableEq

namespace PostedMessage

def isSkippable (m : PostedMessage) : Bool :=
  match m.kind with
  | .protected | .tracked => false
  | .simple | .bouncing => m.grant == 0

def isProtected (m : PostedMessage) : Bool := m.kind == .protected

def isTracked (m : PostedMessage) : Bool := m.kind == .tracked

def isBouncing (m : PostedMessage) : Bool := m.kind == .bouncing

end PostedMessage

namespace OutgoingMessage

/-- Whether this message is sent through the given medium to the given recipient. -/
def hasDestination (m : OutgoingMessage) (medium : Medium) (recipient : ChainId) : Bool :=
  match m.destination, medium with
  | .recipient _, .channel _ | .subscribers _, .direct => false
  | .recipient id, .direct => id == recipient
  | .subscribers destName, .channel ⟨applicationId, name⟩ =>
    applicationId == m.message.applicationId && name == destName

/-- The posted message, i.e. the outgoing message without the destination. -/
def intoPosted (m : OutgoingMessage) (index : Nat) : PostedMessage :=
  ⟨m.authenticatedSigner, m.grant, m.refundGrantTo, m.kind, index, m.message⟩

end OutgoingMessage

namespace ExecutedBlock

/-- The bundles of transactions, of which the first has the given index and the given index of its
first message. Both kinds of indices are 32-bit counters. -/
def bundlesFrom (b : ExecutedBlock) (medium : Medium) (recipient : ChainId)
    (certificateHash : CryptoHash) :
    (transactionIndex index : Nat) → List (List OutgoingMessage) → List (Nat × MessageBundle)
  | _, _, [] => []
  | transactionIndex, index, txnMessages :: rest =>
    let messages := ((txnMessages.zipIdx index).filter fun (message, _) =>
      message.hasDestination medium recipient).map fun (message, idx) =>
        message.intoPosted (idx % 2 ^ 32)
    let bundles := b.bundlesFrom medium recipient certificateHash (transactionIndex + 1)
      (index + txnMessages.length) rest
    if messages = [] then bundles
    else (b.block.epoch, ⟨b.block.height, b.block.timestamp, certificateHash,
      transactionIndex % 2 ^ 32, messages⟩) :: bundles

/-- The bundles of messages sent via the given medium to the given recipient, with the epoch of the
block. Messages originating from different transactions of the original block are kept in separate
bundles. -/
def messageBundlesFor (b : ExecutedBlock) (medium : Medium) (recipient : ChainId)
    (certificateHash : CryptoHash) : List (Nat × MessageBundle) :=
  b.bundlesFrom medium recipient certificateHash 0 0 b.outcome.messages

end ExecutedBlock

namespace MessageBundle

def isSkippable (b : MessageBundle) : Bool := b.messages.all PostedMessage.isSkippable

/-- Whether this bundle must be added to the inbox. -/
def goesToInbox (b : MessageBundle) : Bool := b.messages.any fun m => m.message.goesToInbox

end MessageBundle

namespace Block

/-- If the first message of the block is an accepted `OpenChain`, returns it. -/
def startsWithOpenChainMessage (b : Block) :
    Option (IncomingBundle × PostedMessage × OpenChainConfig) := do
  let inBundle ← b.incomingBundles.head?
  guard (inBundle.action = .accept)
  let postedMessage ← inBundle.bundle.messages.head?
  let config ← postedMessage.message.matchesOpenChain
  return (inBundle, postedMessage, config)

end Block

end Linera
