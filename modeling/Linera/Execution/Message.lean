import Linera.Execution.Committee

/-!
# Operations and messages

What a block may contain and what its execution may send: system and user
operations, system and user messages, and the outcomes that group the messages
sent by one application.
-/

namespace Linera

/-- The identifier of a channel, relative to a particular application. -/
structure ChannelSubscription where
  chainId : ChainId
  name : ChannelName
deriving DecidableEq

instance : LinearOrder ChannelSubscription :=
  LinearOrder.lift' (β := ChainId ×ₗ ChannelName) (fun s => toLex (s.chainId, s.name))
    fun ⟨_, _⟩ ⟨_, _⟩ h => by simpa using h

inductive SystemChannel where
  | admin
deriving DecidableEq

/-- `SystemChannel::name`: the BCS form of the variant. -/
def SystemChannel.name : SystemChannel → ChannelName
  | .admin => ⟨[0]⟩

inductive Recipient where
  | burn
  | account (account : Account)
deriving DecidableEq

structure OpenChainConfig where
  ownership : ChainOwnership
  adminId : ChainId
  epoch : Nat
  committees : BTreeMap Nat Committee
  balance : Nat
  applicationPermissions : ApplicationPermissions
deriving DecidableEq

/-- Operations that are only allowed on the admin chain. -/
inductive AdminOperation where
  | createCommittee (epoch : Nat) (committee : Committee)
  | removeCommittee (epoch : Nat)
deriving DecidableEq

inductive SystemOperation where
  | transfer (owner : Option Owner) (recipient : Recipient) (amount : Nat)
  | claim (owner : Owner) (targetId : ChainId) (recipient : Recipient) (amount : Nat)
  | openChain (config : OpenChainConfig)
  | closeChain
  | changeOwnership (superOwners : List PublicKey) (owners : List (PublicKey × Nat))
      (multiLeaderRounds : Nat) (timeoutConfig : TimeoutConfig)
  | changeApplicationPermissions (permissions : ApplicationPermissions)
  | subscribe (chainId : ChainId) (channel : SystemChannel)
  | unsubscribe (chainId : ChainId) (channel : SystemChannel)
  | publishBytecode (bytecodeId : BytecodeId)
  | publishDataBlob (blobHash : CryptoHash)
  | readBlob (blobId : BlobId)
  | createApplication (bytecodeId : BytecodeId) (parameters : Bytes)
      (instantiationArgument : Bytes) (requiredApplicationIds : List UserApplicationId)
  | requestApplication (chainId : ChainId) (applicationId : UserApplicationId)
  | admin (operation : AdminOperation)
deriving DecidableEq

/-- A system message meant to be executed on a remote chain. -/
inductive SystemMessage where
  | credit (target : Option AccountOwner) (amount : Nat) (source : Option AccountOwner)
  | withdraw (owner : AccountOwner) (amount : Nat) (recipient : Recipient)
  | openChain (config : OpenChainConfig)
  | createCommittee (epoch : Nat) (committee : Committee)
  | removeCommittee (epoch : Nat)
  | subscribe (id : ChainId) (subscription : ChannelSubscription)
  | unsubscribe (id : ChainId) (subscription : ChannelSubscription)
  | applicationCreated
  | registerApplications (applications : List UserApplicationDescription)
  | requestApplication (applicationId : UserApplicationId)
deriving DecidableEq

/-- An operation to be executed in a block. -/
inductive Operation where
  | system (operation : SystemOperation)
  | user (applicationId : UserApplicationId) (bytes : Bytes)
deriving DecidableEq

/-- A message to be sent and possibly executed in the receiver's block. -/
inductive Message where
  | system (message : SystemMessage)
  | user (applicationId : UserApplicationId) (bytes : Bytes)
deriving DecidableEq

def Operation.applicationId : Operation → GenericApplicationId
  | .system _ => .system
  | .user applicationId _ => .user applicationId

namespace Message

def applicationId : Message → GenericApplicationId
  | .system _ => .system
  | .user applicationId _ => .user applicationId

/-- Whether this message must be added to the inbox. -/
def goesToInbox : Message → Bool
  | .system (.subscribe _ _) | .system (.unsubscribe _ _) => false
  | _ => true

def matchesOpenChain : Message → Option OpenChainConfig
  | .system (.openChain config) => some config
  | _ => none

end Message

/-- The kind of outgoing message being sent. -/
inductive MessageKind where
  | simple
  | «protected»
  | tracked
  | bouncing
deriving DecidableEq

/-- A message together with routing information; the grant is in resources or priced. -/
structure RawOutgoingMessage (μ γ : Type) where
  destination : Destination
  authenticated : Bool
  grant : γ
  kind : MessageKind
  message : μ
deriving DecidableEq

/-- Externally visible results of an execution, in the context of the application that
created them. -/
structure RawExecutionOutcome (μ γ : Type) where
  authenticatedSigner : Option Owner
  refundGrantTo : Option Account
  messages : List (RawOutgoingMessage μ γ)
  events : List (StreamName × Bytes × Bytes)
  subscribe : List (ChannelName × ChainId)
  unsubscribe : List (ChannelName × ChainId)
deriving DecidableEq

namespace RawExecutionOutcome

variable {μ γ : Type} (outcome : RawExecutionOutcome μ γ)

/-- `RawExecutionOutcome::default`. -/
def default : RawExecutionOutcome μ γ :=
  ⟨none, none, [], [], [], []⟩

def withMessages (messages : List (RawOutgoingMessage μ γ)) : RawExecutionOutcome μ γ :=
  { outcome with messages := outcome.messages ++ messages }

def withAuthenticatedSigner (authenticatedSigner : Option Owner) : RawExecutionOutcome μ γ :=
  { outcome with authenticatedSigner }

def withRefundGrantTo (refundGrantTo : Option Account) : RawExecutionOutcome μ γ :=
  { outcome with refundGrantTo }

end RawExecutionOutcome

/-- Externally visible results of an execution, tagged by their application. -/
inductive ExecutionOutcome where
  | system (outcome : RawExecutionOutcome SystemMessage Nat)
  | user (applicationId : UserApplicationId) (outcome : RawExecutionOutcome Bytes Nat)
deriving DecidableEq

def ExecutionOutcome.messageCount : ExecutionOutcome → Nat
  | .system outcome => outcome.messages.length
  | .user _ outcome => outcome.messages.length

end Linera
