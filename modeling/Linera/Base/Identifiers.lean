import Linera.Lib.Bytes

/-!
# Identifiers

The identifiers of `linera-base`: hashes, keys, owners, chains, messages,
bytecodes, applications, blobs, channels and streams.

A hash, a public key and a signature are opaque to the program; each is a number
here. Wherever the source orders an identifier (as the key of a `BTreeMap`), the
order is the lexicographic one of its fields, as `#[derive(Ord)]` gives it.
-/

namespace Linera

/-- A SHA3-256 digest. -/
structure CryptoHash where
  value : Nat
deriving DecidableEq

/-- A signature public key; validators are named by theirs. -/
structure PublicKey where
  value : Nat
deriving DecidableEq

abbrev ValidatorName := PublicKey

structure Signature where
  value : Nat
deriving DecidableEq

/-- The owner of a chain: the hash of a public key. -/
structure Owner where
  hash : CryptoHash
deriving DecidableEq

structure ChainId where
  hash : CryptoHash
deriving DecidableEq

/-- `BlockHeight::MAX`. -/
def BlockHeight.max : Nat := 2 ^ 64 - 1

/-- The index of a message within a chain. -/
structure MessageId where
  chainId : ChainId
  height : Nat
  index : Nat
deriving DecidableEq

inductive ChainDescription where
  | root (index : Nat)
  | child (id : MessageId)
deriving DecidableEq

def ChainDescription.isChild : ChainDescription → Bool
  | .root _ => false
  | .child _ => true

inductive BlobType where
  | data
  | contractBytecode
  | serviceBytecode
deriving DecidableEq

def BlobType.index : BlobType → Nat
  | .data => 0
  | .contractBytecode => 1
  | .serviceBytecode => 2

structure BlobId where
  blobType : BlobType
  hash : CryptoHash
deriving DecidableEq

/-- A blob of binary data, addressed by the hash of its content. -/
structure Blob where
  id : BlobId
  bytes : Bytes
deriving DecidableEq

structure BytecodeId where
  contractBlobHash : CryptoHash
  serviceBlobHash : CryptoHash
deriving DecidableEq

/-- A user application: its bytecode, and the message that created it. -/
structure ApplicationId where
  bytecodeId : BytecodeId
  creation : MessageId
deriving DecidableEq

abbrev UserApplicationId := ApplicationId

inductive GenericApplicationId where
  | system
  | user (id : ApplicationId)
deriving DecidableEq

/-- The holder of a balance on a chain. -/
inductive AccountOwner where
  | user (owner : Owner)
  | application (id : ApplicationId)
deriving DecidableEq

/-- A system account: a chain, or one owner's share on it. -/
structure Account where
  chainId : ChainId
  owner : Option AccountOwner
deriving DecidableEq

structure ChannelName where
  bytes : Bytes
deriving DecidableEq

structure StreamName where
  bytes : Bytes
deriving DecidableEq

structure StreamId where
  applicationId : GenericApplicationId
  streamName : StreamName
deriving DecidableEq

/-- The destination of a message, relative to a particular application. -/
inductive Destination where
  | recipient (chainId : ChainId)
  | subscribers (name : ChannelName)
deriving DecidableEq

/-- The hash functions behind identifiers that are derived from other data. -/
structure Hashing where
  /-- `Owner::from`. -/
  owner : PublicKey → Owner
  /-- `ChainId::from`. -/
  chainId : ChainDescription → ChainId

/-! ## Orders -/

instance : LinearOrder CryptoHash :=
  LinearOrder.lift' CryptoHash.value fun ⟨_⟩ ⟨_⟩ h => by simpa using h

instance : LinearOrder PublicKey :=
  LinearOrder.lift' PublicKey.value fun ⟨_⟩ ⟨_⟩ h => by simpa using h

instance : LinearOrder Owner :=
  LinearOrder.lift' Owner.hash fun ⟨_⟩ ⟨_⟩ h => by simpa using h

instance : LinearOrder ChainId :=
  LinearOrder.lift' ChainId.hash fun ⟨_⟩ ⟨_⟩ h => by simpa using h

instance : LinearOrder MessageId :=
  LinearOrder.lift' (β := ChainId ×ₗ Nat ×ₗ Nat)
    (fun m => toLex (m.chainId, toLex (m.height, m.index)))
    fun ⟨_, _, _⟩ ⟨_, _, _⟩ h => by simpa using h

instance : LinearOrder BlobId :=
  LinearOrder.lift' (β := Nat ×ₗ CryptoHash) (fun b => toLex (b.blobType.index, b.hash))
    fun ⟨t, _⟩ ⟨t', _⟩ h => by cases t <;> cases t' <;> simp_all [BlobType.index]

instance : LinearOrder BytecodeId :=
  LinearOrder.lift' (β := CryptoHash ×ₗ CryptoHash)
    (fun b => toLex (b.contractBlobHash, b.serviceBlobHash))
    fun ⟨_, _⟩ ⟨_, _⟩ h => by simpa using h

instance : LinearOrder ApplicationId :=
  LinearOrder.lift' (β := BytecodeId ×ₗ MessageId) (fun a => toLex (a.bytecodeId, a.creation))
    fun ⟨_, _⟩ ⟨_, _⟩ h => by simpa using h

instance : LinearOrder GenericApplicationId :=
  LinearOrder.lift' (β := Unit ⊕ₗ ApplicationId)
    (fun
      | .system => toLex (.inl ())
      | .user id => toLex (.inr id))
    fun a b h => by cases a <;> cases b <;> simp_all

instance : LinearOrder AccountOwner :=
  LinearOrder.lift' (β := Owner ⊕ₗ ApplicationId)
    (fun
      | .user owner => toLex (.inl owner)
      | .application id => toLex (.inr id))
    fun a b h => by cases a <;> cases b <;> simp_all

instance : LinearOrder ChannelName :=
  LinearOrder.lift' ChannelName.bytes fun ⟨_⟩ ⟨_⟩ h => by simpa using h

instance : LinearOrder Destination :=
  LinearOrder.lift' (β := ChainId ⊕ₗ ChannelName)
    (fun
      | .recipient chainId => toLex (.inl chainId)
      | .subscribers name => toLex (.inr name))
    fun a b h => by cases a <;> cases b <;> simp_all

end Linera
