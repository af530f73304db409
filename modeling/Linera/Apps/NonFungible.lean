import Linera.Apps.Fungible

/-!
# Non-fungible tokens

The `non-fungible` application keeps NFTs in a map on each chain, next to two
indexes: the token ids of each owner, and the token id of each user-chosen number
(`id`, the NFT's number on another chain). A transfer to another chain removes the
NFT here and sends it away in a tracked message.

`Effect` says what an execution can do to a chain. Everything else follows from it:
every minted NFT is in exactly one place (`minted_exists_once`), and the indexes
agree with the NFTs (`indexes_agree`). The index by number does so only as long as
no NFT arrives at a chain that has one with the same number.
-/

namespace Linera.NonFungible

/-- An account, as the `fungible` application has it. -/
abbrev Account := Fungible.Account

structure TokenId where
  id : Bytes
deriving DecidableEq

instance instLinearOrderTokenId : LinearOrder TokenId :=
  LinearOrder.lift' TokenId.id fun ⟨_⟩ ⟨_⟩ h => by simpa using h

inductive NftStatus where
  | sold
  | onSale
deriving DecidableEq

inductive NftType where
  | twitter
  | generic
deriving DecidableEq

structure Nft where
  tokenId : TokenId
  owner : AccountOwner
  name : String
  minter : AccountOwner
  blobHash : CryptoHash
  token : String
  price : String
  /-- The NFT's number on another chain. -/
  id : Nat
  chainMinter : String
  chainOwner : String
  description : String
  status : NftStatus
  nftType : NftType
deriving DecidableEq

structure NonFungibleTokenState where
  nfts : BTreeMap TokenId Nft
  ownedTokenIds : BTreeMap AccountOwner (BTreeSet TokenId)
  /-- Map from the numbers on other chains. -/
  blobTokenIds : BTreeMap Nat TokenId
  /-- Counter of NFTs minted in this chain, used for hash uniqueness. -/
  numMintedNfts : Nat

/-- What makes an execution fail. -/
inductive NonFungibleError where
  /-- "The requested transfer is not correctly authenticated." -/
  | notAuthenticated
  /-- "NFT {token_id} not found" -/
  | nftNotFound
  /-- "NFT set should be there!" -/
  | noOwnedTokenIds
  | blobNotFound
  | swapFailed
deriving DecidableEq

inductive Operation where
  | mint (minter : AccountOwner) (name : String) (blobHash : CryptoHash) (token price : String)
      (id : Nat) (chainMinter chainOwner description : String) (nftType : NftType)
  /-- Transfers a token from a (locally owned) account to a (possibly remote) account. -/
  | transfer (sourceOwner : AccountOwner) (tokenId : TokenId) (targetAccount : Account)
      (chainOwner buyFromToken toToken amount : String)
  /-- Same as `transfer` but the source account may be remote. -/
  | claim (sourceAccount : Account) (tokenId : TokenId) (targetAccount : Account)
  | listNftForSale (tokenId : TokenId) (chainOwner : String)

inductive Message where
  /-- Transfers to the given `target` account, unless the message is bouncing, in which case
  we transfer back to the `source`. -/
  | transfer (nft : Nft) (targetAccount : Account)
  /-- Claims from the given account and starts a transfer to the target account. -/
  | claim (sourceAccount : Account) (tokenId : TokenId) (targetAccount : Account)

structure Payload where
  message : Message
  authenticatedSigner : Option Owner

abbrev Outgoing := Network.Outgoing ChainId Payload

/-- The hash function and the encodings that a token id is made with. -/
structure Encodings where
  sha3 : Bytes → Bytes
  chainId : ChainId → Bytes
  applicationId : ApplicationId → Bytes
  accountOwner : AccountOwner → Bytes
  blobHash : CryptoHash → Bytes
  /-- The bytes of a string, without their number. -/
  utf8 : String → Bytes
  string : String → Bytes
  u64 : Nat → Bytes
  nftType : NftType → Bytes

/-- What an execution is told of its surroundings. -/
structure Runtime where
  chainId : ChainId
  applicationId : ApplicationId
  authenticatedSigner : Option Owner
  authenticatedCallerId : Option ApplicationId
  dataBlobExists : CryptoHash → Bool
  /-- Whether the universal solver's `Swap` succeeds: with the token given, the token wanted, the
  amount and the destination address. -/
  swap : String → String → String → String → Bool

/-! ## Contract -/

def Nft.createTokenId (enc : Encodings) (chainId : ChainId) (applicationId : ApplicationId)
    (name : String) (minter : AccountOwner) (blobHash : CryptoHash) (numMintedNfts : Nat)
    (token price : String) (id : Nat) (chainMinter chainOwner : String) (nftType : NftType) :
    TokenId :=
  ⟨enc.sha3 (enc.chainId chainId ++ enc.applicationId applicationId ++ enc.utf8 name ++
    enc.u64 name.utf8ByteSize ++ enc.accountOwner minter ++ enc.blobHash blobHash ++
    enc.u64 numMintedNfts ++ enc.string token ++ enc.u64 id ++ enc.string price ++
    enc.string chainOwner ++ enc.string chainMinter ++ enc.nftType nftType)⟩

/-- Verifies that a transfer is authenticated for this local account. -/
def checkAccountAuthentication (runtime : Runtime) :
    AccountOwner → Except NonFungibleError Unit
  | .user address => ensure (runtime.authenticatedSigner = some address) .notAuthenticated
  | .application id => ensure (runtime.authenticatedCallerId = some id) .notAuthenticated

namespace NonFungibleTokenState

def empty : NonFungibleTokenState := ⟨.empty, .empty, .empty, 0⟩

def getNft (s : NonFungibleTokenState) (tokenId : TokenId) : Except NonFungibleError Nft :=
  match s.nfts.get tokenId with
  | some nft => .ok nft
  | none => .error .nftNotFound

def addNft (s : NonFungibleTokenState) (nft : Nft) : NonFungibleTokenState :=
  { s with
    nfts := s.nfts.insert nft.tokenId nft
    ownedTokenIds := s.ownedTokenIds.insert nft.owner
      (((s.ownedTokenIds.get nft.owner).getD .empty).insert nft.tokenId ())
    blobTokenIds := s.blobTokenIds.insert nft.id nft.tokenId }

def listNftForSale (s : NonFungibleTokenState) (nft : Nft) (chainOwner : String) :
    NonFungibleTokenState :=
  let nft := { nft with status := .onSale, chainOwner := chainOwner }
  { s with nfts := s.nfts.insert nft.tokenId nft }

def removeNft (s : NonFungibleTokenState) (nft : Nft) :
    Except NonFungibleError NonFungibleTokenState :=
  match s.ownedTokenIds.get nft.owner with
  | none => .error .noOwnedTokenIds
  | some owned => .ok
    { s with
      nfts := s.nfts.remove nft.tokenId
      ownedTokenIds := s.ownedTokenIds.insert nft.owner (owned.remove nft.tokenId)
      blobTokenIds := s.blobTokenIds.remove nft.id }

end NonFungibleTokenState

/-- Transfers the specified NFT to another account. Authentication needs to have happened
already. -/
def transfer (runtime : Runtime) (s : NonFungibleTokenState) (nft : Nft)
    (targetAccount : Account) :
    Except NonFungibleError (NonFungibleTokenState × List Outgoing) := do
  let s ← s.removeNft nft
  let nft := { nft with status := .sold }
  if targetAccount.chainId = runtime.chainId then
    return (s.addNft { nft with owner := targetAccount.owner }, [])
  else
    return (s, [⟨targetAccount.chainId, true, ⟨.transfer nft targetAccount, none⟩⟩])

def mint (enc : Encodings) (runtime : Runtime) (s : NonFungibleTokenState) (owner : AccountOwner)
    (name : String) (blobHash : CryptoHash) (token price : String) (id : Nat)
    (chainMinter chainOwner description : String) (nftType : NftType) :
    Except NonFungibleError NonFungibleTokenState := do
  ensure (runtime.dataBlobExists blobHash) .blobNotFound
  let tokenId := Nft.createTokenId enc runtime.chainId runtime.applicationId name owner blobHash
    s.numMintedNfts token price id chainOwner chainMinter nftType
  let s := s.addNft
    { tokenId, owner, name, minter := owner, blobHash, token, price, id, chainOwner, chainMinter,
      description, status := .onSale, nftType }
  return { s with numMintedNfts := (s.numMintedNfts + 1) % 2 ^ 64 }

def remoteClaim (runtime : Runtime) (sourceAccount : Account) (tokenId : TokenId)
    (targetAccount : Account) : Outgoing :=
  ⟨sourceAccount.chainId, false,
    ⟨.claim sourceAccount tokenId targetAccount, runtime.authenticatedSigner⟩⟩

def executeOperation (enc : Encodings) (runtime : Runtime) (s : NonFungibleTokenState) :
    Operation → Except NonFungibleError (NonFungibleTokenState × List Outgoing)
  | .mint minter name blobHash token price id chainMinter chainOwner description nftType => do
    -- `mint` takes the last two in the other order: the NFT has them exchanged.
    let s ← mint enc runtime s minter name blobHash token price id chainOwner chainMinter
      description nftType
    return (s, [])
  | .transfer _ tokenId targetAccount chainOwner buyFromToken toToken amount => do
    let nft ← s.getNft tokenId
    ensure (runtime.swap buyFromToken toToken amount chainOwner) .swapFailed
    transfer runtime s { nft with chainOwner := chainOwner } targetAccount
  | .claim sourceAccount tokenId targetAccount =>
    if sourceAccount.chainId = runtime.chainId then do
      let nft ← s.getNft tokenId
      transfer runtime s nft targetAccount
    else .ok (s, [remoteClaim runtime sourceAccount tokenId targetAccount])
  | .listNftForSale tokenId chainOwner => do
    let nft ← s.getNft tokenId
    return (s.listNftForSale nft chainOwner, [])

def executeMessage (runtime : Runtime) (s : NonFungibleTokenState) (isBouncing : Bool) :
    Message → Except NonFungibleError (NonFungibleTokenState × List Outgoing)
  | .transfer nft targetAccount =>
    .ok (s.addNft (if isBouncing then nft else { nft with owner := targetAccount.owner }), [])
  | .claim sourceAccount tokenId targetAccount => do
    checkAccountAuthentication runtime sourceAccount.owner
    let nft ← s.getNft tokenId
    checkAccountAuthentication runtime nft.owner
    transfer runtime s nft targetAccount

/-- An operation, who has asked for it, and what the rest of the system answers. -/
structure Call where
  authenticatedSigner : Option Owner
  authenticatedCallerId : Option ApplicationId
  dataBlobExists : CryptoHash → Bool
  swap : String → String → String → String → Bool
  operation : Operation

abbrev NetworkState := Network.State ChainId NonFungibleTokenState Payload

section Program

variable (enc : Encodings) (applicationId : ApplicationId)

def Call.runtime (call : Call) (chainId : ChainId) : Runtime :=
  ⟨chainId, applicationId, call.authenticatedSigner, call.authenticatedCallerId,
    call.dataBlobExists, call.swap⟩

/-- The application on all chains. A message's execution asks nothing of the rest of the
system. -/
def program :
    Network.Program ChainId NonFungibleTokenState Payload Call NonFungibleError where
  empty := .empty
  operation chainId s call :=
    executeOperation enc (call.runtime applicationId chainId) s call.operation
  message chainId s bouncing payload := executeMessage
    ⟨chainId, applicationId, payload.authenticatedSigner, none, fun _ => false,
      fun _ _ _ _ => false⟩ s bouncing payload.message

def mintedId (chainId : ChainId) (s : NonFungibleTokenState) : Operation → Option TokenId
  | .mint minter name blobHash token price id chainMinter chainOwner _ nftType =>
    some (Nft.createTokenId enc chainId applicationId name minter blobHash s.numMintedNfts token
      price id chainMinter chainOwner nftType)
  | _ => none

def mintedNumber : Operation → Option Nat
  | .mint _ _ _ _ _ id _ _ _ _ => some id
  | _ => none

def Message.nft : Message → Option Nft
  | .transfer nft _ => some nft
  | .claim _ _ _ => none

/-- All chains, and the token ids that have been minted so far. -/
structure History where
  network : NetworkState
  minted : List TokenId

def History.empty : History := ⟨⟨.empty, []⟩, []⟩

def History.chain (h : History) (c : ChainId) : NonFungibleTokenState :=
  (h.network.chains.get c).getD .empty

abbrev Event := Network.Event ChainId Call

def History.mints (h : History) : Event → Option TokenId
  | .operation c call => mintedId enc applicationId c (h.chain c) call.operation
  | .deliver _ => none
  | .bounce _ => none

/-- Where an NFT arrives, with which number: it is minted there, or comes in a message. -/
def History.arrival (h : History) : Event → Option (ChainId × Nat)
  | .operation c call => (mintedNumber call.operation).map fun id => (c, id)
  | .deliver index => h.network.inFlight[index]?.bind fun m =>
      m.payload.message.nft.map fun nft => (m.target, nft.id)
  | .bounce index => h.network.inFlight[index]?.bind fun m =>
      m.payload.message.nft.map fun nft => (m.sender, nft.id)

def step (h : History) (event : Event) : Option History :=
  (Network.step (program enc applicationId) h.network event).map fun network =>
    ⟨network, (h.mints enc applicationId event).toList ++ h.minted⟩

/-- A mint comes with a token id that no mint before it had. -/
def Distinct (h : History) (event : Event) : Prop :=
  ∀ t ∈ h.mints enc applicationId event, t ∉ h.minted

instance decidableDistinct : DecidableRel (Distinct enc applicationId) := fun h event =>
  inferInstanceAs (Decidable (∀ t ∈ h.mints enc applicationId event, t ∉ h.minted))

/-- An NFT does not arrive at a chain that has one with the same number. -/
def NumberFree (h : History) (event : Event) : Prop :=
  ∀ a ∈ h.arrival event, ∀ nft ∈ (h.chain a.1).nfts.values, nft.id ≠ a.2

instance decidableNumberFree : DecidableRel NumberFree := fun h event =>
  inferInstanceAs (Decidable (∀ a ∈ h.arrival event, ∀ nft ∈ (h.chain a.1).nfts.values,
    nft.id ≠ a.2))

end Program

/-! ## Effects -/

/-- What the indexes know of an NFT is the same, its owner apart. -/
structure SameToken (nft nft' : Nft) : Prop where
  tokenId : nft'.tokenId = nft.tokenId
  id : nft'.id = nft.id

/-- An NFT that this chain has. -/
def Has (s : NonFungibleTokenState) (nft : Nft) : Prop := s.nfts.get nft.tokenId = some nft

/-- What an execution can do. The NFT in the second place comes from outside: it is minted, or
arrives in a message. -/
inductive Effect (s : NonFungibleTokenState) :
    Option Nft → NonFungibleTokenState × List Outgoing → Prop where
  | claim (runtime : Runtime) (sourceAccount : Account) (tokenId : TokenId)
      (targetAccount : Account) :
      Effect s none (s, [remoteClaim runtime sourceAccount tokenId targetAccount])
  | arrive (nft : Nft) (numMintedNfts : Nat) :
      Effect s (some nft) ({ s.addNft nft with numMintedNfts := numMintedNfts }, [])
  | list {nft : Nft} (hhas : Has s nft) (chainOwner : String) :
      Effect s none (s.listNftForSale nft chainOwner, [])
  /-- An NFT moves to another owner on this chain. -/
  | move {nft nft' : Nft} {s' : NonFungibleTokenState} (hhas : Has s nft)
      (hremove : s.removeNft nft = .ok s') (hsame : SameToken nft nft') :
      Effect s none (s'.addNft nft', [])
  /-- An NFT leaves for another chain. -/
  | leave {nft nft' : Nft} {s' : NonFungibleTokenState} (hhas : Has s nft)
      (hremove : s.removeNft nft = .ok s') (hsame : SameToken nft nft')
      (targetAccount : Account) :
      Effect s none (s', [⟨targetAccount.chainId, true, ⟨.transfer nft' targetAccount, none⟩⟩])

variable {enc : Encodings} {applicationId : ApplicationId} {runtime : Runtime}
  {s s' : NonFungibleTokenState} {nft nft' : Nft}

/-- The key of an NFT is its token id. -/
def Keyed (s : NonFungibleTokenState) : Prop := ∀ t nft, s.nfts.get t = some nft → nft.tokenId = t

theorem getNft_eq_ok {tokenId : TokenId} : s.getNft tokenId = .ok nft ↔ s.nfts.get tokenId = some nft := by
  unfold NonFungibleTokenState.getNft
  split <;> simp_all

theorem removeNft_eq_ok :
    s.removeNft nft = .ok s' ↔ ∃ owned, s.ownedTokenIds.get nft.owner = some owned ∧ s' =
      { s with
        nfts := s.nfts.remove nft.tokenId
        ownedTokenIds := s.ownedTokenIds.insert nft.owner (owned.remove nft.tokenId)
        blobTokenIds := s.blobTokenIds.remove nft.id } := by
  unfold NonFungibleTokenState.removeNft
  split <;> simp_all [eq_comm]

theorem Keyed.insert (hkeyed : Keyed s) (nft : Nft) {s' : NonFungibleTokenState}
    (hs' : s'.nfts = s.nfts.insert nft.tokenId nft) : Keyed s' := by
  intro t nft' hget
  rw [hs', BTreeMap.get_insert] at hget
  split at hget
  · next ht => cases hget; exact ht.symm
  · exact hkeyed t nft' hget

theorem Keyed.remove (hkeyed : Keyed s) (h : s.removeNft nft = .ok s') : Keyed s' := by
  obtain ⟨owned, -, rfl⟩ := removeNft_eq_ok.mp h
  intro t nft' hget
  simp only [BTreeMap.get_remove] at hget
  split at hget
  · cases hget
  · exact hkeyed t nft' hget

variable {r : NonFungibleTokenState × List Outgoing} {arriving : Option Nft} {t : TokenId}

theorem Effect.keyed (heffect : Effect s arriving r) (hkeyed : Keyed s) : Keyed r.1 := by
  cases heffect with
  | claim => exact hkeyed
  | arrive nft => exact hkeyed.insert nft rfl
  | list hhas chainOwner => exact hkeyed.insert _ rfl
  | move hhas hremove hsame => exact (hkeyed.remove hremove).insert _ rfl
  | leave hhas hremove => exact hkeyed.remove hremove

/-- An NFT that is found is one that the chain has. -/
theorem has_of_getNft (hkeyed : Keyed s) {tokenId : TokenId} (h : s.getNft tokenId = .ok nft) :
    Has s nft := by
  have hget := getNft_eq_ok.mp h
  unfold Has
  rw [hkeyed tokenId nft hget]
  exact hget

/-- The NFT's chain owner may have been replaced before. -/
theorem transfer_effect (hhas : Has s nft) (chainOwner : String) (targetAccount : Account) :
    (transfer runtime s { nft with chainOwner := chainOwner } targetAccount).Ensures
      (Effect s none) := by
  intro r hr
  obtain ⟨s', hremove, hr⟩ := Except.bind_eq_ok.mp hr
  split at hr
  · cases hr
    exact .move hhas hremove ⟨rfl, rfl⟩
  · cases hr
    refine .leave hhas hremove ?_ targetAccount
    exact ⟨rfl, rfl⟩

/-- An operation has an effect, for which it may have minted an NFT. -/
theorem executeOperation_effect (hkeyed : Keyed s) (operation : Operation) :
    (executeOperation enc runtime s operation).Ensures fun r => ∃ nft,
      nft.map Nft.tokenId = mintedId enc runtime.applicationId runtime.chainId s operation ∧
      nft.map Nft.id = mintedNumber operation ∧ Effect s nft r := by
  cases operation with
  | mint minter name blobHash token price id chainMinter chainOwner description nftType =>
    intro r hr
    obtain ⟨s', hmint, hr⟩ := Except.bind_eq_ok.mp hr
    obtain ⟨-, -, hmint⟩ := Except.bind_eq_ok.mp hmint
    cases hmint
    cases hr
    exact ⟨some _, rfl, rfl, .arrive _ _⟩
  | transfer sourceOwner tokenId targetAccount chainOwner buyFromToken toToken amount =>
    intro r hr
    obtain ⟨nft, hnft, hr⟩ := Except.bind_eq_ok.mp hr
    obtain ⟨-, -, hr⟩ := Except.bind_eq_ok.mp hr
    exact ⟨none, rfl, rfl, transfer_effect (has_of_getNft hkeyed hnft) _ _ r hr⟩
  | claim sourceAccount tokenId targetAccount =>
    intro r hr
    simp only [executeOperation] at hr
    split at hr
    · obtain ⟨nft, hnft, hr⟩ := Except.bind_eq_ok.mp hr
      exact ⟨none, rfl, rfl, transfer_effect (has_of_getNft hkeyed hnft) _ _ r hr⟩
    · cases hr
      exact ⟨none, rfl, rfl, .claim _ _ _ _⟩
  | listNftForSale tokenId chainOwner =>
    intro r hr
    obtain ⟨nft, hnft, hr⟩ := Except.bind_eq_ok.mp hr
    cases hr
    exact ⟨none, rfl, rfl, .list (has_of_getNft hkeyed hnft) chainOwner⟩

/-- A message has an effect: the NFT that it carries arrives, maybe with another owner. -/
theorem executeMessage_effect (hkeyed : Keyed s) (isBouncing : Bool) (message : Message) :
    (executeMessage runtime s isBouncing message).Ensures fun r => ∃ nft,
      nft.map Nft.tokenId = message.nft.map Nft.tokenId ∧ nft.map Nft.id = message.nft.map Nft.id ∧
      Effect s nft r := by
  cases message with
  | transfer nft targetAccount =>
    refine .ok ⟨some _, ?_, ?_, .arrive _ _⟩
    · cases isBouncing <;> rfl
    · cases isBouncing <;> rfl
  | claim sourceAccount tokenId targetAccount =>
    refine .bind_any fun _ => ?_
    intro r hr
    obtain ⟨nft, hnft, hr⟩ := Except.bind_eq_ok.mp hr
    obtain ⟨-, -, hr⟩ := Except.bind_eq_ok.mp hr
    exact ⟨none, rfl, rfl, transfer_effect (has_of_getNft hkeyed hnft) _ _ r hr⟩

/-! ## Every NFT is in one place -/

section Places

variable (t : TokenId)

/-- Whether the NFT is on a chain, as a number. -/
def held (s : NonFungibleTokenState) : Nat := if (s.nfts.get t).isSome then 1 else 0

/-- Whether a message carries the NFT, as a number. -/
def carried (payload : Payload) : Nat :=
  match payload.message with
  | .transfer nft _ => if nft.tokenId = t then 1 else 0
  | .claim _ _ _ => 0

variable {t}

theorem held_eq_zero_iff : held t s = 0 ↔ s.nfts.get t = none := by
  simp [held]

theorem held_of_has (h : Has s nft) : held nft.tokenId s = 1 := by
  simp [held, show s.nfts.get nft.tokenId = some nft from h]

theorem held_addNft (t : TokenId) (s : NonFungibleTokenState) (nft : Nft) :
    held t (s.addNft nft) = if t = nft.tokenId then 1 else held t s := by
  simp only [held, NonFungibleTokenState.addNft, BTreeMap.get_insert]
  split <;> simp

theorem held_removeNft (t : TokenId) (h : s.removeNft nft = .ok s') :
    held t s' = if t = nft.tokenId then 0 else held t s := by
  obtain ⟨owned, -, rfl⟩ := removeNft_eq_ok.mp h
  simp only [held, BTreeMap.get_remove]
  split <;> simp

/-- An execution keeps the NFTs of its chain and those it sends away, and adds the one that comes
from outside. -/
theorem Effect.held (heffect : Effect s arriving r)
    (hfresh : arriving.map Nft.tokenId = some t → NonFungible.held t s = 0) :
    NonFungible.held t r.1 + Network.messageWeight (carried t) r.2 =
      NonFungible.held t s + if arriving.map Nft.tokenId = some t then 1 else 0 := by
  cases heffect with
  | claim runtime sourceAccount tokenId targetAccount =>
    simp [remoteClaim, carried]
  | arrive nft numMintedNfts =>
    have hadd := held_addNft t s nft
    simp only [Option.map_some, Option.some.injEq] at hfresh ⊢
    change NonFungible.held t (s.addNft nft) + 0 = _
    by_cases ht : nft.tokenId = t
    · rw [hadd, if_pos ht.symm, if_pos ht, hfresh ht]
    · rw [hadd, if_neg fun h => ht h.symm, if_neg ht]
  | list hhas chainOwner =>
    rename_i nft
    have hone := held_of_has hhas
    have hlist : NonFungible.held t (s.listNftForSale nft chainOwner) =
        if t = nft.tokenId then 1 else NonFungible.held t s := by
      simp only [NonFungible.held, NonFungibleTokenState.listNftForSale, BTreeMap.get_insert]
      split <;> simp
    simp only [hlist, Network.messageWeight_nil, Option.map_none, reduceCtorEq, if_false]
    split
    · next ht => rw [ht, hone]
    · rfl
  | move hhas hremove hsame =>
    have hone := held_of_has hhas
    simp only [held_addNft, held_removeNft t hremove, hsame.tokenId, Network.messageWeight_nil,
      Option.map_none, reduceCtorEq, if_false]
    split
    · next ht => rw [ht, hone]
    · rfl
  | leave hhas hremove hsame targetAccount =>
    have hone := held_of_has hhas
    simp only [held_removeNft t hremove, carried, hsame.tokenId, Network.messageWeight_singleton,
      Option.map_none, reduceCtorEq, if_false]
    split
    · next ht => rw [ht, hone, if_pos rfl]
    · next ht => rw [if_neg fun h => ht h.symm]

end Places

/-! ## Runs -/

variable {h h' : History} {event : Event}

/-- What a step does: an effect on one chain, where the NFT from outside has been minted, or is
taken from a message in flight. -/
structure StepEffect (enc : Encodings) (applicationId : ApplicationId) (h : History)
    (event : Event) (h' : History) (c : ChainId) (arriving : Option Nft)
    (r : NonFungibleTokenState × List Outgoing) : Prop where
  effect : Effect (h.chain c) arriving r
  arrival : h.arrival event = arriving.map fun nft => (c, nft.id)
  source :
    (arriving.map Nft.tokenId = h.mints enc applicationId event ∧
      h' = ⟨h.network.update c r h.network.inFlight,
        (arriving.map Nft.tokenId).toList ++ h.minted⟩) ∨
    ∃ index m, h.network.inFlight[index]? = some m ∧
      arriving.map Nft.tokenId = m.payload.message.nft.map Nft.tokenId ∧
      h' = ⟨h.network.update c r (h.network.inFlight.eraseIdx index), h.minted⟩

theorem map_pair_eq {number : Option Nat} (h : arriving.map Nft.id = number) (c : ChainId) :
    number.map (fun id => (c, id)) = arriving.map fun nft => (c, nft.id) := by
  rw [← h, Option.map_map]
  rfl

theorem step_effect (hkeyed : ∀ c, Keyed (h.chain c))
    (hstep : step enc applicationId h event = some h') :
    ∃ c arriving r, StepEffect enc applicationId h event h' c arriving r := by
  obtain ⟨network, hnetwork, rfl⟩ := Option.map_eq_some_iff.mp hstep
  rcases Network.step_cases hnetwork with
    ⟨c, call, r, rfl, hr, rfl⟩ | ⟨index, m, r, bouncing, hm, rfl, hr, rfl⟩
  · obtain ⟨arriving, htoken, hid, heffect⟩ := executeOperation_effect (hkeyed c) _ r hr
    refine ⟨c, arriving, r, heffect, map_pair_eq hid c, .inl ⟨htoken, ?_⟩⟩
    rw [htoken]
    rfl
  · obtain ⟨arriving, htoken, hid, heffect⟩ := executeMessage_effect (hkeyed _) _ _ r hr
    refine ⟨_, arriving, r, heffect, ?_, .inr ⟨index, m, hm, htoken, ?_⟩⟩
    · have hpair := map_pair_eq hid (if bouncing then m.sender else m.target)
      rw [Option.map_map] at hpair
      rw [← hpair]
      cases bouncing <;> simp [History.arrival, hm, Function.comp_def]
    · cases bouncing <;> rfl

/-- The keys are right, and every NFT that has been minted is in one place. -/
structure Sound (h : History) : Prop where
  keyed : ∀ c, Keyed (h.chain c)
  once : ∀ t, h.network.weight (held t) (carried t) = if t ∈ h.minted then 1 else 0

theorem chain_update (h : History) (c c' : ChainId) (r : NonFungibleTokenState × List Outgoing)
    (rest : List (Network.InFlight ChainId Payload)) (minted : List TokenId) :
    History.chain ⟨h.network.update c r rest, minted⟩ c' =
      if c' = c then r.1 else h.chain c' := by
  unfold History.chain Network.State.update
  rw [BTreeMap.get_insert]
  split <;> rfl

/-- A property of chains that the effect of a step keeps holds of all chains after it. -/
theorem StepEffect.forall_chain {P : NonFungibleTokenState → Prop} {c : ChainId}
    (hstep : StepEffect enc applicationId h event h' c arriving r) (hP : ∀ c, P (h.chain c))
    (hr : P r.1) (c' : ChainId) : P (h'.chain c') := by
  have hchain : h'.chain c' = if c' = c then r.1 else h.chain c' := by
    rcases hstep.source with ⟨-, rfl⟩ | ⟨index, m, -, -, rfl⟩
    · exact chain_update h c c' r _ _
    · exact chain_update h c c' r _ _
  rw [hchain]
  split
  · exact hr
  · exact hP c'

theorem carried_eq (t : TokenId) (payload : Payload) :
    carried t payload = if payload.message.nft.map Nft.tokenId = some t then 1 else 0 := by
  obtain ⟨message, signer⟩ := payload
  cases message with
  | transfer nft targetAccount => simp [carried, Message.nft]
  | claim sourceAccount tokenId targetAccount => rfl

/-- What arrives is not on the chain yet. -/
theorem Sound.arriving_fresh (hsound : Sound h) (hdistinct : Distinct enc applicationId h event)
    {c : ChainId} (hstep : StepEffect enc applicationId h event h' c arriving r)
    (harrive : arriving.map Nft.tokenId = some t) : held t (h.chain c) = 0 := by
  have hempty : held t (program enc applicationId).empty = 0 := rfl
  have hchain : h.network.chain (program enc applicationId) c = h.chain c := rfl
  have honce := hsound.once t
  rcases hstep.source with ⟨hmints, -⟩ | ⟨index, m, hm, htoken, -⟩
  · -- It is minted, and there is none with its id anywhere.
    have hle := Network.weight_chain_le (v := carried t) hempty h.network c
    have hnew : t ∉ h.minted := hdistinct t (by rw [← hmints, harrive]; rfl)
    rw [if_neg hnew] at honce
    rw [← hchain]
    omega
  · -- It is in flight, and nowhere else.
    have hle := Network.weight_chain_add_le (v := carried t) hempty h.network c hm
    rw [carried_eq, ← htoken, if_pos harrive] at hle
    have hone : h.network.weight (held t) (carried t) ≤ 1 := by
      rw [honce]
      split <;> omega
    rw [← hchain]
    omega

theorem Sound.step (hsound : Sound h) (hdistinct : Distinct enc applicationId h event)
    (hstep : NonFungible.step enc applicationId h event = some h') : Sound h' := by
  obtain ⟨c, arriving, r, heffect⟩ := step_effect hsound.keyed hstep
  refine ⟨heffect.forall_chain hsound.keyed (heffect.effect.keyed (hsound.keyed c)), fun t => ?_⟩
  have hempty : held t (program enc applicationId).empty = 0 := rfl
  have hchain : h.network.chain (program enc applicationId) c = h.chain c := rfl
  have honce := hsound.once t
  have hheld := heffect.effect.held (t := t) (hsound.arriving_fresh hdistinct heffect)
  rcases heffect.source with ⟨hmints, rfl⟩ | ⟨index, m, hm, htoken, rfl⟩
  · have hupdate := Network.weight_update (v := carried t) hempty h.network c r h.network.inFlight
    rw [hchain] at hupdate
    have hminted : (if t ∈ (arriving.map Nft.tokenId).toList ++ h.minted then 1 else 0) =
        (if t ∈ h.minted then 1 else 0) + if arriving.map Nft.tokenId = some t then 1 else 0 := by
      by_cases harrive : arriving.map Nft.tokenId = some t
      · have hnew : t ∉ h.minted := hdistinct t (by rw [← hmints, harrive]; rfl)
        simp [harrive, hnew]
      · have hmem : t ∉ (arriving.map Nft.tokenId).toList :=
          fun hmem => harrive (Option.mem_toList.mp hmem)
        simp only [List.mem_append, hmem, false_or, if_neg harrive, Nat.add_zero]
    change Network.State.weight (held t) (carried t) (h.network.update c r h.network.inFlight) =
      if t ∈ (arriving.map Nft.tokenId).toList ++ h.minted then 1 else 0
    omega
  · have hupdate := Network.weight_update (v := carried t) hempty h.network c r
      (h.network.inFlight.eraseIdx index)
    have herase := Network.messageWeight_eraseIdx (v := carried t) hm
    rw [carried_eq, ← htoken] at herase
    rw [hchain] at hupdate
    change Network.State.weight (held t) (carried t)
      (h.network.update c r (h.network.inFlight.eraseIdx index)) = if t ∈ h.minted then 1 else 0
    omega

theorem sound_empty : Sound History.empty where
  keyed _ _ _ hget := by cases hget
  once _ := rfl

/-- **Every NFT is in exactly one place.** Whatever is executed on whichever chains, in any order,
the chains that have an NFT and the messages in flight that carry it are together one, if it has
been minted. -/
theorem minted_exists_once {events : List Event}
    (hdistinct : Run.Along (step enc applicationId) (Distinct enc applicationId) .empty events)
    (hrun : Run.run (step enc applicationId) .empty events = some h) {t : TokenId}
    (ht : t ∈ h.minted) :
    (h.network.chains.sumBy fun _ s => if (s.nfts.get t).isSome then 1 else 0) +
      Network.messageWeight (carried t) (h.network.inFlight.map Network.InFlight.toOutgoing) =
        1 := by
  have hsound : Sound h := Run.invariant_along
    (fun _ _ _ hsound hdistinct hstep => hsound.step hdistinct hstep) sound_empty hdistinct hrun
  exact (hsound.once t).trans (if_pos ht)

/-! ## The indexes -/

def NonFungibleTokenState.owned (s : NonFungibleTokenState) (owner : AccountOwner) : List TokenId :=
  ((s.ownedTokenIds.get owner).getD .empty).keys

theorem owned_addNft {owner : AccountOwner} : t ∈ (s.addNft nft).owned owner ↔
      (owner = nft.owner ∧ t = nft.tokenId) ∨ t ∈ s.owned owner := by
  simp only [NonFungibleTokenState.owned, NonFungibleTokenState.addNft, BTreeMap.get_insert]
  split
  · next howner => simp [howner, BTreeSet.mem_keys_insert]
  · next howner => simp [howner]

theorem owned_removeNft (h : s.removeNft nft = .ok s') {owner : AccountOwner} :
    t ∈ s'.owned owner ↔ t ∈ s.owned owner ∧ ¬(owner = nft.owner ∧ t = nft.tokenId) := by
  obtain ⟨owned, howned, rfl⟩ := removeNft_eq_ok.mp h
  simp only [NonFungibleTokenState.owned, BTreeMap.get_insert]
  split
  · next howner => simp [howner, howned, BTreeSet.mem_keys_remove, and_comm]
  · next howner => simp [howner]

/-- The token ids of an owner are those of the NFTs that they own. -/
def OwnersIndexed (s : NonFungibleTokenState) : Prop :=
  ∀ owner t, t ∈ s.owned owner ↔ ∃ nft, s.nfts.get t = some nft ∧ nft.owner = owner

/-- The token id of a number is that of the NFT with this number. -/
def NumbersIndexed (s : NonFungibleTokenState) : Prop :=
  ∀ t nft, s.nfts.get t = some nft → s.blobTokenIds.get nft.id = some t

theorem OwnersIndexed.add (howners : OwnersIndexed s) (hnew : s.nfts.get nft.tokenId = none) :
    OwnersIndexed (s.addNft nft) := by
  intro owner t
  rw [owned_addNft, howners]
  simp only [NonFungibleTokenState.addNft, BTreeMap.get_insert]
  split
  · next ht => simp [ht, hnew, eq_comm]
  · next ht => simp [ht]

theorem OwnersIndexed.remove (howners : OwnersIndexed s) (hhas : Has s nft)
    (hremove : s.removeNft nft = .ok s') : OwnersIndexed s' := by
  intro owner t
  rw [owned_removeNft hremove, howners]
  obtain ⟨owned, -, rfl⟩ := removeNft_eq_ok.mp hremove
  simp only [BTreeMap.get_remove]
  split
  · next ht =>
    subst ht
    simp only [reduceCtorEq, false_and, exists_false, iff_false, not_and, not_not, and_true]
    rintro ⟨nft', hnft', rfl⟩
    rw [show s.nfts.get nft.tokenId = some nft from hhas] at hnft'
    cases hnft'
    rfl
  · next ht => simp [ht]

theorem OwnersIndexed.list (howners : OwnersIndexed s) (hhas : Has s nft) (chainOwner : String) :
    OwnersIndexed (s.listNftForSale nft chainOwner) := by
  intro owner t
  change t ∈ s.owned owner ↔ _
  rw [howners]
  simp only [NonFungibleTokenState.listNftForSale, BTreeMap.get_insert]
  split
  · next ht => simp [ht, show s.nfts.get nft.tokenId = some nft from hhas]
  · rfl

theorem get_tokenId_of_removeNft (hremove : s.removeNft nft = .ok s') :
    s'.nfts.get nft.tokenId = none := by
  obtain ⟨owned, -, rfl⟩ := removeNft_eq_ok.mp hremove
  simp [BTreeMap.get_remove]

theorem Effect.owners (heffect : Effect s arriving r)
    (hnew : ∀ nft, arriving = some nft → s.nfts.get nft.tokenId = none)
    (howners : OwnersIndexed s) : OwnersIndexed r.1 := by
  cases heffect with
  | claim => exact howners
  | arrive nft => exact howners.add (hnew nft rfl)
  | list hhas chainOwner => exact howners.list hhas chainOwner
  | move hhas hremove hsame =>
    refine (howners.remove hhas hremove).add ?_
    rw [hsame.tokenId]
    exact get_tokenId_of_removeNft hremove
  | leave hhas hremove => exact howners.remove hhas hremove

section

variable (hnumbers : NumbersIndexed s)

include hnumbers

theorem NumbersIndexed.add (hfree : ∀ t nft', s.nfts.get t = some nft' → nft'.id ≠ nft.id) :
    NumbersIndexed (s.addNft nft) := by
  intro t nft' hget
  simp only [NonFungibleTokenState.addNft, BTreeMap.get_insert] at hget ⊢
  split at hget
  · next ht =>
    cases hget
    rw [if_pos rfl, ht]
  · rw [if_neg (hfree t nft' hget)]
    exact hnumbers t nft' hget

/-- Two NFTs on a chain have different numbers if the index is right. -/
theorem NumbersIndexed.injective {t t' : TokenId} (ht : s.nfts.get t = some nft)
    (ht' : s.nfts.get t' = some nft') (hid : nft'.id = nft.id) : t' = t := by
  have hindex := hnumbers t' nft' ht'
  rw [hid, hnumbers t nft ht] at hindex
  exact (Option.some.inj hindex).symm

theorem NumbersIndexed.free_of_remove (hhas : Has s nft) (hremove : s.removeNft nft = .ok s')
    (hget : s'.nfts.get t = some nft') : s.nfts.get t = some nft' ∧ nft'.id ≠ nft.id := by
  obtain ⟨owned, -, rfl⟩ := removeNft_eq_ok.mp hremove
  simp only [BTreeMap.get_remove] at hget
  split at hget
  · cases hget
  · next ht => exact ⟨hget, fun hid => ht (hnumbers.injective hhas hget hid)⟩

theorem NumbersIndexed.remove (hhas : Has s nft) (hremove : s.removeNft nft = .ok s') :
    NumbersIndexed s' := by
  intro t nft' hget
  obtain ⟨hold, hid⟩ := hnumbers.free_of_remove hhas hremove hget
  obtain ⟨owned, -, rfl⟩ := removeNft_eq_ok.mp hremove
  simp only [BTreeMap.get_remove]
  rw [if_neg hid]
  exact hnumbers t nft' hold

theorem NumbersIndexed.list (hhas : Has s nft) (chainOwner : String) :
    NumbersIndexed (s.listNftForSale nft chainOwner) := by
  intro t nft' hget
  simp only [NonFungibleTokenState.listNftForSale, BTreeMap.get_insert] at hget ⊢
  split at hget
  · next ht =>
    cases hget
    rw [ht]
    exact hnumbers nft.tokenId nft hhas
  · exact hnumbers t nft' hget

end

theorem Effect.numbers (heffect : Effect s arriving r)
    (hfree : ∀ nft, arriving = some nft → ∀ t nft', s.nfts.get t = some nft' → nft'.id ≠ nft.id)
    (hnumbers : NumbersIndexed s) : NumbersIndexed r.1 := by
  cases heffect with
  | claim => exact hnumbers
  | arrive nft => exact hnumbers.add (hfree nft rfl)
  | list hhas chainOwner => exact hnumbers.list hhas chainOwner
  | move hhas hremove hsame =>
    refine (hnumbers.remove hhas hremove).add fun t nft' hget => ?_
    rw [hsame.id]
    exact (hnumbers.free_of_remove hhas hremove hget).2
  | leave hhas hremove => exact hnumbers.remove hhas hremove

/-- Sound, with the index by owner. -/
def OwnersSound (h : History) : Prop := Sound h ∧ ∀ c, OwnersIndexed (h.chain c)

theorem OwnersSound.step (hsound : OwnersSound h) (hdistinct : Distinct enc applicationId h event)
    (hstep : NonFungible.step enc applicationId h event = some h') : OwnersSound h' := by
  obtain ⟨hsound, howners⟩ := hsound
  obtain ⟨c, arriving, r, heffect⟩ := step_effect hsound.keyed hstep
  refine ⟨hsound.step hdistinct hstep, heffect.forall_chain howners ?_⟩
  refine heffect.effect.owners (fun nft harrive => ?_) (howners c)
  exact held_eq_zero_iff.mp (hsound.arriving_fresh hdistinct heffect (by rw [harrive]; rfl))

theorem numbers_step (hkeyed : ∀ c, Keyed (h.chain c)) (hfree : NumberFree h event)
    (hstep : step enc applicationId h event = some h')
    (hnumbers : ∀ c, NumbersIndexed (h.chain c)) (c' : ChainId) : NumbersIndexed (h'.chain c') := by
  obtain ⟨c, arriving, r, heffect⟩ := step_effect hkeyed hstep
  refine heffect.forall_chain hnumbers ?_ c'
  refine heffect.effect.numbers (fun nft harrive t nft' hget => ?_) (hnumbers c)
  refine hfree (c, nft.id) ?_ nft' ((BTreeMap.mem_values_iff _ _).mpr ⟨t, hget⟩)
  rw [heffect.arrival, harrive]
  rfl

theorem ownersSound_empty : OwnersSound History.empty := by
  refine ⟨sound_empty, fun c owner t => ?_⟩
  simp [History.chain, History.empty, NonFungibleTokenState.owned, NonFungibleTokenState.empty,
    BTreeMap.mem_keys_iff]

/-- **The indexes agree with the NFTs.** The index by owner always does. The index by number does
if no NFT ever arrives at a chain that has one with the same number. -/
theorem indexes_agree {events : List Event}
    (hdistinct : Run.Along (step enc applicationId) (Distinct enc applicationId) .empty events)
    (hrun : Run.run (step enc applicationId) .empty events = some h) (c : ChainId) :
    (∀ owner t, t ∈ (h.chain c).owned owner ↔
      ∃ nft, (h.chain c).nfts.get t = some nft ∧ nft.owner = owner) ∧
    (Run.Along (step enc applicationId) NumberFree .empty events →
      ∀ t nft, (h.chain c).nfts.get t = some nft →
        (h.chain c).blobTokenIds.get nft.id = some t) := by
  constructor
  · have hsound : OwnersSound h := Run.invariant_along
      (fun _ _ _ hsound hdistinct hstep => hsound.step hdistinct hstep) ownersSound_empty hdistinct
      hrun
    exact hsound.2 c
  · intro hfree
    have hinv : Sound h ∧ ∀ c, NumbersIndexed (h.chain c) := by
      refine Run.invariant_along (P := fun h => Sound h ∧ ∀ c, NumbersIndexed (h.chain c)) ?_
        ⟨sound_empty, fun c t nft hget => ?_⟩ (hdistinct.and hfree) hrun
      · rintro h event h' ⟨hsound, hnumbers⟩ ⟨hdistinct, hfree⟩ hstep
        exact ⟨hsound.step hdistinct hstep, numbers_step hsound.keyed hfree hstep hnumbers⟩
      · cases hget
    exact hinv.2 c

section Example

/-- Token ids that only depend on how many NFTs have been minted. -/
def countingEncodings : Encodings where
  sha3 bytes := bytes
  chainId _ := []
  applicationId _ := []
  accountOwner _ := []
  blobHash _ := []
  utf8 _ := []
  string _ := []
  u64 n := [UInt8.ofNat n]
  nftType _ := []

def mintNumber (id : Nat) : Event :=
  .operation ⟨⟨0⟩⟩ ⟨none, none, fun _ => true, fun _ _ _ _ => true,
    .mint (.user ⟨⟨7⟩⟩) "nft" ⟨1⟩ "ETH" "1" id "minter" "owner" "" .generic⟩

def exampleApplication : ApplicationId := ⟨⟨⟨1⟩, ⟨2⟩⟩, ⟨⟨⟨0⟩⟩, 0, 0⟩⟩

/-- An NFT is on its way to another chain. -/
theorem minted_exists_once_in_flight :
    let there : Account := ⟨⟨⟨1⟩⟩, .user ⟨⟨8⟩⟩⟩
    let t : TokenId := ⟨[3, 0, 5]⟩
    let events := [mintNumber 5, .operation ⟨⟨0⟩⟩ ⟨none, none, fun _ => true, fun _ _ _ _ => true,
      .transfer (.user ⟨⟨7⟩⟩) t there "owner" "ETH" "SOL" "1"⟩]
    ∃ h, Run.run (step countingEncodings exampleApplication) .empty events = some h ∧
      t ∈ h.minted ∧ h.network.inFlight.length = 1 ∧
      (h.network.chains.sumBy fun _ s => if (s.nfts.get t).isSome then 1 else 0) +
        Network.messageWeight (carried t) (h.network.inFlight.map Network.InFlight.toOutgoing) =
          1 := by
  intro there t events
  have hdistinct : Run.Along (step countingEncodings exampleApplication)
      (Distinct countingEncodings exampleApplication) .empty events := by
    decide
  have hminted : t ∈ [t] := List.mem_singleton_self t
  refine ⟨_, rfl, hminted, rfl, ?_⟩
  exact minted_exists_once hdistinct rfl hminted

/-- Two NFTs with the same number on a chain: the index knows only the second one. -/
theorem number_index_overwritten :
    let events := [mintNumber 5, mintNumber 5]
    ∃ h, Run.run (step countingEncodings exampleApplication) .empty events = some h ∧
      Run.Along (step countingEncodings exampleApplication)
        (Distinct countingEncodings exampleApplication) .empty events ∧
      ∃ nft, (h.chain ⟨⟨0⟩⟩).nfts.get ⟨[3, 0, 5]⟩ = some nft ∧
        (h.chain ⟨⟨0⟩⟩).blobTokenIds.get nft.id = some ⟨[3, 1, 5]⟩ := by
  refine ⟨_, rfl, by decide, _, rfl, rfl⟩

/-- Two NFTs with different numbers. -/
theorem indexes_agree_two_numbers :
    let events := [mintNumber 5, mintNumber 6]
    ∃ h, Run.run (step countingEncodings exampleApplication) .empty events = some h ∧
      Run.Along (step countingEncodings exampleApplication) NumberFree .empty events ∧
      (h.chain ⟨⟨0⟩⟩).nfts.keys.length = 2 ∧
      (∀ owner t, t ∈ (h.chain ⟨⟨0⟩⟩).owned owner ↔
        ∃ nft, (h.chain ⟨⟨0⟩⟩).nfts.get t = some nft ∧ nft.owner = owner) ∧
      ∀ t nft, (h.chain ⟨⟨0⟩⟩).nfts.get t = some nft →
        (h.chain ⟨⟨0⟩⟩).blobTokenIds.get nft.id = some t := by
  intro events
  have hfree : Run.Along (step countingEncodings exampleApplication) NumberFree .empty events := by
    decide
  have hdistinct : Run.Along (step countingEncodings exampleApplication)
      (Distinct countingEncodings exampleApplication) .empty events := by
    decide
  obtain ⟨howners, hnumbers⟩ := indexes_agree hdistinct rfl ⟨⟨0⟩⟩
  exact ⟨_, rfl, hfree, rfl, howners, hnumbers hfree⟩

end Example

end Linera.NonFungible
