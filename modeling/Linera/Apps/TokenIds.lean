import Linera.Apps.NonFungible
import Linera.Lib.SelfDelimiting

/-!
# Token ids of NFTs

The token id of an NFT is the hash of its metadata, one piece after the other. All of
them can be told apart from what follows, but one: the name comes before its length.
A byte string can therefore be read as two different lists of arguments, if their names
have different lengths: the end of one name takes the place of the length, the minter and
the blob hash of the other.
-/

namespace Linera.NonFungible

def hashBytes (hash : CryptoHash) : Bytes := Bytes.ofLittleEndian 32 hash.value

def utf8Bytes (s : String) : Bytes := s.toByteArray.data.toList

/-- An application id: the hashes of its bytecode, and the message that has created it. -/
def applicationIdBytes (id : ApplicationId) : Bytes :=
  hashBytes id.bytecodeId.contractBlobHash ++ (hashBytes id.bytecodeId.serviceBlobHash ++
    (hashBytes id.creation.chainId.hash ++ (Bytes.ofLittleEndian 8 id.creation.height ++
      Bytes.ofLittleEndian 4 id.creation.index)))

def accountOwnerBytes : AccountOwner → Bytes
  | .user owner => 0 :: hashBytes owner.hash
  | .application id => 1 :: applicationIdBytes id

def nftTypeBytes : NftType → Bytes
  | .twitter => [0]
  | .generic => [1]

def bcsEncodings (sha3 : Bytes → Bytes) : Encodings where
  sha3 := sha3
  chainId chainId := hashBytes chainId.hash
  applicationId := applicationIdBytes
  accountOwner := accountOwnerBytes
  blobHash := hashBytes
  utf8 := utf8Bytes
  string s := Bcs.uleb128 (utf8Bytes s).length ++ utf8Bytes s
  u64 := Bytes.ofLittleEndian 8
  nftType := nftTypeBytes

/-- The arguments of `create_token_id`. -/
structure TokenIdArguments where
  chainId : ChainId
  applicationId : ApplicationId
  name : String
  minter : AccountOwner
  blobHash : CryptoHash
  numMintedNfts : Nat
  token : String
  price : String
  id : Nat
  chainMinter : String
  chainOwner : String
  nftType : NftType
deriving DecidableEq

namespace TokenIdArguments

def tokenId (enc : Encodings) (a : TokenIdArguments) : TokenId :=
  Nft.createTokenId enc a.chainId a.applicationId a.name a.minter a.blobHash a.numMintedNfts
    a.token a.price a.id a.chainMinter a.chainOwner a.nftType

/-- What is hashed after the name. -/
def afterName (a : TokenIdArguments) : Bytes :=
  let string s := Bcs.uleb128 (utf8Bytes s).length ++ utf8Bytes s
  Bytes.ofLittleEndian 8 a.name.utf8ByteSize ++ (accountOwnerBytes a.minter ++
    (hashBytes a.blobHash ++ (Bytes.ofLittleEndian 8 a.numMintedNfts ++ (string a.token ++
      (Bytes.ofLittleEndian 8 a.id ++ (string a.price ++ (string a.chainOwner ++
        (string a.chainMinter ++ nftTypeBytes a.nftType))))))))

def hashed (a : TokenIdArguments) : Bytes :=
  hashBytes a.chainId.hash ++ (applicationIdBytes a.applicationId ++
    (utf8Bytes a.name ++ a.afterName))

/-- The name of `b` continues the one of `a` with bytes that come after it, and what is left of
those comes after the name of `b`. -/
def Absorbs (a b : TokenIdArguments) : Prop :=
  a.chainId = b.chainId ∧ a.applicationId = b.applicationId ∧ ∃ bytes ≠ [],
    utf8Bytes b.name = utf8Bytes a.name ++ bytes ∧ a.afterName = bytes ++ b.afterName

theorem tokenId_eq (sha3 : Bytes → Bytes) (a : TokenIdArguments) :
    a.tokenId (bcsEncodings sha3) = ⟨sha3 a.hashed⟩ := by
  simp only [tokenId, Nft.createTokenId, bcsEncodings, hashed, afterName, List.append_assoc]

end TokenIdArguments

/-! ## Ranges -/

/-- A hash has 32 bytes. -/
def ValidHash (hash : CryptoHash) : Prop := hash.value < 256 ^ 32

def ValidApplicationId (id : ApplicationId) : Prop :=
  ValidHash id.bytecodeId.contractBlobHash ∧ ValidHash id.bytecodeId.serviceBlobHash ∧
    ValidHash id.creation.chainId.hash ∧ id.creation.height < 256 ^ 8 ∧ id.creation.index < 256 ^ 4

def ValidAccountOwner : AccountOwner → Prop
  | .user owner => ValidHash owner.hash
  | .application id => ValidApplicationId id

/-- BCS refuses longer strings. -/
def ValidString (s : String) : Prop := (utf8Bytes s).length ≤ Bcs.maxSequenceLength

instance decidableValidString : DecidablePred ValidString := fun s =>
  inferInstanceAs (Decidable ((utf8Bytes s).length ≤ Bcs.maxSequenceLength))

/-- The arguments are within the ranges of their types, and the strings can be serialized. -/
structure TokenIdArguments.Valid (a : TokenIdArguments) : Prop where
  chainId : ValidHash a.chainId.hash
  applicationId : ValidApplicationId a.applicationId
  name : a.name.utf8ByteSize < 256 ^ 8
  minter : ValidAccountOwner a.minter
  blobHash : ValidHash a.blobHash
  numMintedNfts : a.numMintedNfts < 256 ^ 8
  token : ValidString a.token
  price : ValidString a.price
  id : a.id < 256 ^ 8
  chainMinter : ValidString a.chainMinter
  chainOwner : ValidString a.chainOwner

/-! ## Taking a preimage apart -/

theorem CryptoHash.value_injective : Function.Injective CryptoHash.value := by
  rintro ⟨_⟩ ⟨_⟩ rfl
  rfl

theorem hashBytes_selfDelimiting : SelfDelimiting ValidHash hashBytes :=
  (SelfDelimiting.ofLittleEndian 32).comp (fun _ h => h) CryptoHash.value_injective

theorem utf8Bytes_injective : Function.Injective utf8Bytes := by
  intro s t h
  exact String.toByteArray_inj.mp (ByteArray.ext (Array.toList_inj.mp h))

theorem string_selfDelimiting :
    SelfDelimiting ValidString fun s => Bcs.uleb128 (utf8Bytes s).length ++ utf8Bytes s :=
  SelfDelimiting.bcsBytes.comp (fun _ h => h) utf8Bytes_injective

theorem applicationIdBytes_selfDelimiting :
    SelfDelimiting ValidApplicationId applicationIdBytes := by
  refine (hashBytes_selfDelimiting.append (hashBytes_selfDelimiting.append
    (hashBytes_selfDelimiting.append ((SelfDelimiting.ofLittleEndian 8).append
      (SelfDelimiting.ofLittleEndian 4))))).comp
    (h := fun id : ApplicationId => (id.bytecodeId.contractBlobHash,
      id.bytecodeId.serviceBlobHash, id.creation.chainId.hash, id.creation.height,
      id.creation.index)) (fun _ h => h) ?_
  rintro ⟨⟨_, _⟩, ⟨⟨_⟩, _, _⟩⟩ ⟨⟨_, _⟩, ⟨⟨_⟩, _, _⟩⟩ h
  cases h
  rfl

theorem accountOwnerBytes_selfDelimiting : SelfDelimiting ValidAccountOwner accountOwnerBytes := by
  refine ⟨fun {a b x y} ha hb heq => ?_⟩
  cases a with
  | user owner =>
    cases b with
    | user owner' =>
      obtain ⟨hash⟩ := owner
      obtain ⟨hash'⟩ := owner'
      obtain ⟨rfl, hxy⟩ := hashBytes_selfDelimiting.append_inj ha hb (List.cons.inj heq).2
      exact ⟨rfl, hxy⟩
    | application id => cases (List.cons.inj heq).1
  | application id =>
    cases b with
    | user owner => cases (List.cons.inj heq).1
    | application id' =>
      obtain ⟨rfl, hxy⟩ := applicationIdBytes_selfDelimiting.append_inj ha hb (List.cons.inj heq).2
      exact ⟨rfl, hxy⟩

theorem nftTypeBytes_injective : Function.Injective nftTypeBytes := by
  intro a b h
  cases a <;> cases b <;> first | rfl | cases h

namespace TokenIdArguments

variable {a b : TokenIdArguments}

/-- All that is hashed after the name can be taken apart. -/
theorem eq_of_afterName_eq (ha : a.Valid) (hb : b.Valid) (hchainId : a.chainId = b.chainId)
    (happlicationId : a.applicationId = b.applicationId)
    (hname : utf8Bytes a.name = utf8Bytes b.name) (h : a.afterName = b.afterName) : a = b := by
  -- The pieces are taken off from the left, one by one.
  obtain ⟨-, h⟩ := (SelfDelimiting.ofLittleEndian 8).append_inj ha.name hb.name h
  obtain ⟨hminter, h⟩ := accountOwnerBytes_selfDelimiting.append_inj ha.minter hb.minter h
  obtain ⟨hblobHash, h⟩ := hashBytes_selfDelimiting.append_inj ha.blobHash hb.blobHash h
  obtain ⟨hnum, h⟩ :=
    (SelfDelimiting.ofLittleEndian 8).append_inj ha.numMintedNfts hb.numMintedNfts h
  obtain ⟨htoken, h⟩ := string_selfDelimiting.append_inj ha.token hb.token h
  obtain ⟨hid, h⟩ := (SelfDelimiting.ofLittleEndian 8).append_inj ha.id hb.id h
  obtain ⟨hprice, h⟩ := string_selfDelimiting.append_inj ha.price hb.price h
  obtain ⟨hchainOwner, h⟩ := string_selfDelimiting.append_inj ha.chainOwner hb.chainOwner h
  obtain ⟨hchainMinter, h⟩ := string_selfDelimiting.append_inj ha.chainMinter hb.chainMinter h
  have hname := utf8Bytes_injective hname
  have htype := nftTypeBytes_injective h
  cases a
  cases b
  simp_all

/-- The same bytes are hashed only if the names end at different places. -/
theorem hashed_eq_iff (ha : a.Valid) (hb : b.Valid) (hne : a ≠ b) :
    a.hashed = b.hashed ↔ a.Absorbs b ∨ b.Absorbs a := by
  constructor
  · intro h
    obtain ⟨hchainId, h⟩ := hashBytes_selfDelimiting.append_inj ha.chainId hb.chainId h
    obtain ⟨happlicationId, h⟩ :=
      applicationIdBytes_selfDelimiting.append_inj ha.applicationId hb.applicationId h
    replace hchainId : a.chainId = b.chainId := congrArg ChainId.mk hchainId
    -- The name does not say where it ends.
    obtain ⟨bytes, hname, hafter⟩ | ⟨bytes, hname, hafter⟩ := List.append_eq_append_iff.mp h
    · refine .inl ⟨hchainId, happlicationId, bytes, ?_, hname, hafter⟩
      rintro rfl
      exact hne (eq_of_afterName_eq ha hb hchainId happlicationId (by simpa using hname.symm)
        hafter)
    · refine .inr ⟨hchainId.symm, happlicationId.symm, bytes, ?_, hname, hafter⟩
      rintro rfl
      exact hne (eq_of_afterName_eq ha hb hchainId happlicationId (by simpa using hname)
        hafter.symm)
  · have habsorbs : ∀ {a b : TokenIdArguments}, a.Absorbs b → a.hashed = b.hashed := by
      rintro a b ⟨hchainId, happlicationId, bytes, -, hname, hafter⟩
      rw [hashed, hashed, hchainId, happlicationId, hname, hafter, List.append_assoc]
    rintro (h | h)
    · exact habsorbs h
    · exact (habsorbs h).symm

end TokenIdArguments

/-- **Collisions of token ids.** If the hash function has none, different arguments have different
token ids exactly if none of the two names takes in what follows the other one: in particular if the
names have the same length, or different numbers of bytes are hashed. -/
theorem token_ids_distinct_iff {sha3 : Bytes → Bytes} (hsha3 : Function.Injective sha3)
    {a b : TokenIdArguments} (ha : a.Valid) (hb : b.Valid) (hne : a ≠ b) :
    (a.tokenId (bcsEncodings sha3) ≠ b.tokenId (bcsEncodings sha3) ↔
        ¬(a.Absorbs b ∨ b.Absorbs a)) ∧
      (a.name.utf8ByteSize = b.name.utf8ByteSize ∨ a.hashed.length ≠ b.hashed.length →
        a.tokenId (bcsEncodings sha3) ≠ b.tokenId (bcsEncodings sha3)) := by
  have hiff : a.tokenId (bcsEncodings sha3) = b.tokenId (bcsEncodings sha3) ↔
      a.Absorbs b ∨ b.Absorbs a := by
    rw [← TokenIdArguments.hashed_eq_iff ha hb hne, TokenIdArguments.tokenId_eq,
      TokenIdArguments.tokenId_eq, TokenId.mk.injEq, hsha3.eq_iff]
  refine ⟨not_congr hiff, fun h hid => ?_⟩
  obtain hlength | hlength := h
  · have hsame : (utf8Bytes a.name).length = (utf8Bytes b.name).length := hlength
    obtain ⟨-, -, bytes, hbytes, hname, -⟩ | ⟨-, -, bytes, hbytes, hname, -⟩ := hiff.mp hid
    all_goals
      rw [hname, List.length_append] at hsame
      exact hbytes (List.length_eq_zero_iff.mp (by omega))
  · exact hlength (congrArg List.length
      ((TokenIdArguments.hashed_eq_iff ha hb hne).mpr (hiff.mp hid)))

/-- The arguments with a name, a minter, a blob hash, a number of NFTs and a token; the others are
fixed. -/
def exampleArguments (name : String) (minter blobHash numMintedNfts : Nat) (token : String) :
    TokenIdArguments :=
  ⟨⟨⟨0⟩⟩, exampleApplication, name, .user ⟨⟨minter⟩⟩, ⟨blobHash⟩, numMintedNfts, token, "1", 5,
    "minter", "owner", .generic⟩

theorem exampleArguments_valid {name token : String} {minter blobHash numMintedNfts : Nat}
    (hname : name.utf8ByteSize < 256 ^ 8) (hminter : minter < 256 ^ 32)
    (hblobHash : blobHash < 256 ^ 32) (hnum : numMintedNfts < 256 ^ 8) (htoken : ValidString token) :
    (exampleArguments name minter blobHash numMintedNfts token).Valid where
  chainId := show 0 < 256 ^ 32 by decide
  applicationId := show 1 < 256 ^ 32 ∧ 2 < 256 ^ 32 ∧ 0 < 256 ^ 32 ∧ 0 < 256 ^ 8 ∧ 0 < 256 ^ 4 by
    decide
  name := hname
  minter := hminter
  blobHash := hblobHash
  numMintedNfts := hnum
  token := htoken
  price := show ValidString "1" by decide +kernel
  id := show 5 < 256 ^ 8 by decide
  chainMinter := show ValidString "minter" by decide +kernel
  chainOwner := show ValidString "owner" by decide +kernel

/-- Two NFTs with names of different lengths. -/
theorem token_ids_distinct_cat_mouse :
    (exampleArguments "cat" 7 8 0 "ETH").tokenId (bcsEncodings id) ≠
      (exampleArguments "mouse" 7 8 0 "ETH").tokenId (bcsEncodings id) :=
  (token_ids_distinct_iff Function.injective_id
    (exampleArguments_valid (by decide) (by decide) (by decide) (by decide) (by decide +kernel))
    (exampleArguments_valid (by decide) (by decide) (by decide) (by decide) (by decide +kernel))
    (by decide)).2 (.inr (by decide +kernel))

/-- The first NFT of a chain: it has no name, and a token of nine characters. -/
def nameless : TokenIdArguments :=
  exampleArguments "" 9 0 0 "\x01\x00\x00\x00\x00\x00\x00\x00\x00"

/-- The second NFT of a chain: it has a name of nine characters, and no token. -/
def tokenless : TokenIdArguments :=
  exampleArguments "\x00\x00\x00\x00\x00\x00\x00\x00\x00" 0 (9 * 256 ^ 31) 1 ""

/-- For the two NFTs the same bytes are hashed, so that they have the same token id whatever the hash
function is. -/
theorem token_id_collision :
    nameless.Valid ∧ tokenless.Valid ∧ nameless.name ≠ tokenless.name ∧
    ∀ sha3, nameless.tokenId (bcsEncodings sha3) = tokenless.tokenId (bcsEncodings sha3) := by
  have hsame : nameless.tokenId (bcsEncodings id) = tokenless.tokenId (bcsEncodings id) := by
    decide +kernel
  refine ⟨?_, ?_, by decide, fun sha3 => ?_⟩
  · exact exampleArguments_valid (by decide) (by decide) (by decide) (by decide) (by decide +kernel)
  · exact exampleArguments_valid (by decide) (by decide) (by decide) (by decide) (by decide +kernel)
  · exact congrArg (fun t : TokenId => TokenId.mk (sha3 t.id)) hsame

end Linera.NonFungible
