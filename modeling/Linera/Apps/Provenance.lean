import Linera.Apps.NonFungible

/-!
# The provenance of NFTs

An NFT keeps what its mint says of it, wherever it goes, and the chain owner that it was
given last. To state this, a ledger records for each token id what the operations have
given, under the names of their fields.

The record of an NFT is copied through parameter lists, and `mint` is called with
`chain_owner` and `chain_minter` exchanged. So the NFT has them exchanged too.
-/

namespace Linera.NonFungible

/-- What is known of an NFT wherever it is. -/
structure Provenance where
  name : String
  minter : AccountOwner
  blobHash : CryptoHash
  token : String
  price : String
  id : Nat
  chainMinter : String
  chainOwner : String
  description : String
  nftType : NftType
deriving DecidableEq

def Nft.provenance (nft : Nft) : Provenance where
  name := nft.name
  minter := nft.minter
  blobHash := nft.blobHash
  token := nft.token
  price := nft.price
  id := nft.id
  chainMinter := nft.chainMinter
  chainOwner := nft.chainOwner
  description := nft.description
  nftType := nft.nftType

/-- What has been given for each token id. -/
abbrev Ledger := BTreeMap TokenId Provenance

def Ledger.setChainOwner (ledger : Ledger) (tokenId : TokenId) (chainOwner : String) : Ledger :=
  match ledger.get tokenId with
  | none => ledger
  | some p => ledger.insert tokenId { p with chainOwner }

section Program

variable (enc : Encodings) (applicationId : ApplicationId)

def Ledger.record (ledger : Ledger) (chainId : ChainId) (s : NonFungibleTokenState)
    (operation : Operation) : Ledger :=
  match operation with
  | .mint minter name blobHash token price id chainMinter chainOwner description nftType =>
    match mintedId enc applicationId chainId s operation with
    | none => ledger
    | some tokenId => ledger.insert tokenId
        { name, minter, blobHash, token, price, id, chainMinter, chainOwner, description, nftType }
  | .transfer _ tokenId _ chainOwner _ _ _ => ledger.setChainOwner tokenId chainOwner
  | .claim _ _ _ => ledger
  | .listNftForSale tokenId chainOwner => ledger.setChainOwner tokenId chainOwner

/-- All chains, and the ledger. -/
structure Recorded where
  history : History
  ledger : Ledger

def Recorded.empty : Recorded := ⟨.empty, .empty⟩

/-- Records an event. Messages give nothing new. -/
def Recorded.record (r : Recorded) : Event → Ledger
  | .operation c call =>
    r.ledger.record enc applicationId c (r.history.chain c) call.operation
  | .deliver _ => r.ledger
  | .bounce _ => r.ledger

def recordedStep (r : Recorded) (event : Event) : Option Recorded :=
  (step enc applicationId r.history event).map fun h => ⟨h, r.record enc applicationId event⟩

end Program

/-- The NFT is on a chain, or in a message in flight. -/
def Found (h : History) (nft : Nft) : Prop :=
  (∃ c t, (h.chain c).nfts.get t = some nft) ∨
    ∃ m ∈ h.network.inFlight, m.payload.message.nft = some nft

/-- Every NFT is as recorded. -/
def Faithful (r : Recorded) : Prop :=
  ∀ nft, Found r.history nft → r.ledger.get nft.tokenId = some nft.provenance

/-- A mint gives the same chain minter and chain owner. -/
def Operation.Symmetric : Operation → Prop
  | .mint _ _ _ _ _ _ chainMinter chainOwner _ _ => chainMinter = chainOwner
  | .transfer _ _ _ _ _ _ _ => True
  | .claim _ _ _ => True
  | .listNftForSale _ _ => True

def Symmetric : Event → Prop
  | .operation _ call => call.operation.Symmetric
  | .deliver _ => True
  | .bounce _ => True

variable {enc : Encodings} {applicationId : ApplicationId} {runtime : Runtime}
  {s s' : NonFungibleTokenState} {nft nft' : Nft} {h h' : History} {event : Event}

/-! ## One execution -/

/-- The NFT is in the result of an execution. -/
def Left (r : NonFungibleTokenState × List Outgoing) (nft : Nft) : Prop :=
  (∃ t, r.1.nfts.get t = some nft) ∨ ∃ m ∈ r.2, m.payload.message.nft = some nft

/-- The execution leaves the NFT `t` with provenance `p`, and all the others as they were. -/
structure Touches (s : NonFungibleTokenState) (r : NonFungibleTokenState × List Outgoing)
    (t : TokenId) (p : Provenance) : Prop where
  touched : ∃ nft, Left r nft ∧ nft.tokenId = t ∧ nft.provenance = p
  others : ∀ nft, Left r nft → nft.tokenId ≠ t → ∃ t, s.nfts.get t = some nft

/-- An NFT is put into the map. -/
theorem touches_insert (nft : Nft) (hs' : s'.nfts = s.nfts.insert nft.tokenId nft) :
    Touches s (s', []) nft.tokenId nft.provenance where
  touched := by
    refine ⟨nft, .inl ⟨nft.tokenId, ?_⟩, rfl, rfl⟩
    simp [hs', BTreeMap.get_insert]
  others := by
    rintro nft' (⟨t, hget⟩ | ⟨m, hm, -⟩) hne
    · simp only [hs', BTreeMap.get_insert] at hget
      split at hget
      · cases hget
        exact absurd rfl hne
      · exact ⟨t, hget⟩
    · cases hm

theorem touches_transfer (nft : Nft) (targetAccount : Account) :
    (transfer runtime s nft targetAccount).Ensures fun r =>
      Touches s r nft.tokenId nft.provenance := by
  intro r hr
  obtain ⟨s', hremove, hr⟩ := Except.bind_eq_ok.mp hr
  have hkept : ∀ t nft', s'.nfts.get t = some nft' → s.nfts.get t = some nft' := by
    intro t nft' hget
    obtain ⟨owned, -, rfl⟩ := removeNft_eq_ok.mp hremove
    simp only [BTreeMap.get_remove] at hget
    split at hget
    · cases hget
    · exact hget
  split at hr
  · cases hr
    -- It stays on this chain, with another owner and status.
    let moved : Nft := { nft with status := .sold, owner := targetAccount.owner }
    have htouches : Touches s' (s'.addNft moved, []) nft.tokenId nft.provenance :=
      touches_insert moved rfl
    refine ⟨htouches.touched, fun nft' hleft hne => ?_⟩
    obtain ⟨t, hget⟩ := htouches.others nft' hleft hne
    exact ⟨t, hkept t nft' hget⟩
  · -- It leaves in a message.
    cases hr
    refine ⟨⟨_, .inr ⟨_, List.mem_singleton_self _, rfl⟩, rfl, rfl⟩, ?_⟩
    rintro nft' (⟨t, hget⟩ | ⟨m, hm, hnft'⟩) hne
    · exact ⟨t, hkept t nft' hget⟩
    · rw [List.mem_singleton.mp hm] at hnft'
      cases hnft'
      exact absurd rfl hne

/-! ## Places -/

section Unique

variable {c c' : ChainId} {t : TokenId}

theorem Sound.weight_le_one (hsound : Sound h) (t : TokenId) :
    h.network.weight (held t) (carried t) ≤ 1 := by
  rw [hsound.once t]
  split
  · exact le_rfl
  · exact Nat.zero_le 1

theorem held_of_get (hget : (h.chain c).nfts.get t = some nft) :
    ∃ s, h.network.chains.get c = some s ∧ held t s = 1 := by
  unfold History.chain at hget
  cases hchain : h.network.chains.get c with
  | none =>
    rw [hchain] at hget
    cases hget
  | some s =>
    rw [hchain] at hget
    exact ⟨s, rfl, by simp [held, show s.nfts.get t = some nft from hget]⟩

theorem Sound.unique_chain (hsound : Sound h) (hget : (h.chain c).nfts.get t = some nft)
    (hget' : (h.chain c').nfts.get t = some nft') : c' = c := by
  by_contra hne
  obtain ⟨s, hchain, hheld⟩ := held_of_get hget
  obtain ⟨s', hchain', hheld'⟩ := held_of_get hget'
  -- Both chains count for the NFT, but it counts once.
  have hsum := h.network.chains.sumBy_remove (fun _ => held t) c
  have hle := BTreeMap.le_sumBy (fun _ => held t) (m := h.network.chains.remove c) (k := c')
    (v := s') (by rw [BTreeMap.get_remove, if_neg hne, hchain'])
  have hone := hsound.weight_le_one t
  rw [hchain, Option.elim_some] at hsum
  unfold Network.State.weight at hone
  omega

theorem Sound.not_in_flight (hsound : Sound h) (hget : (h.chain c).nfts.get t = some nft)
    {m : Network.InFlight ChainId Payload} (hm : m ∈ h.network.inFlight)
    (hnft : m.payload.message.nft = some nft') : nft'.tokenId ≠ t := by
  intro ht
  obtain ⟨s, hchain, hheld⟩ := held_of_get hget
  obtain ⟨index, hm⟩ := List.mem_iff_getElem?.mp hm
  have hle := BTreeMap.le_sumBy (fun _ => held t) hchain
  have herase := Network.messageWeight_eraseIdx (v := carried t) hm
  rw [carried_eq, hnft, Option.map_some, ht, if_pos rfl] at herase
  have hone := hsound.weight_le_one t
  unfold Network.State.weight at hone
  omega

/-- An NFT is in one message only. -/
theorem Sound.unique_message (hsound : Sound h) {m m' : Network.InFlight ChainId Payload}
    (hm : m ∈ h.network.inFlight) (hm' : m' ∈ h.network.inFlight)
    (hnft : m.payload.message.nft = some nft) (hnft' : m'.payload.message.nft = some nft')
    (ht : nft'.tokenId = nft.tokenId) : m' = m := by
  by_contra hne
  obtain ⟨i, hi⟩ := List.mem_iff_getElem?.mp hm
  obtain ⟨j, hj⟩ := List.mem_iff_getElem?.mp hm'
  have hmem : m' ∈ h.network.inFlight.eraseIdx i := by
    refine List.mem_eraseIdx_iff_getElem?.mpr ⟨j, ?_, hj⟩
    rintro rfl
    rw [hi] at hj
    exact hne (Option.some.inj hj).symm
  obtain ⟨k, hk⟩ := List.mem_iff_getElem?.mp hmem
  have herase := Network.messageWeight_eraseIdx (v := carried nft.tokenId) hi
  have herase' := Network.messageWeight_eraseIdx (v := carried nft.tokenId) hk
  rw [carried_eq, hnft, Option.map_some, if_pos rfl] at herase
  rw [carried_eq, hnft', Option.map_some, ht, if_pos rfl] at herase'
  have hone := hsound.weight_le_one nft.tokenId
  unfold Network.State.weight at hone
  omega

/-- There is one NFT with a token id at most. -/
theorem Sound.found_unique (hsound : Sound h) (hfound : Found h nft) (hfound' : Found h nft')
    (ht : nft'.tokenId = nft.tokenId) : nft' = nft := by
  rcases hfound with ⟨c, t, hget⟩ | ⟨m, hm, hnft⟩ <;>
    rcases hfound' with ⟨c', t', hget'⟩ | ⟨m', hm', hnft'⟩
  · obtain rfl := hsound.keyed c t nft hget
    obtain rfl := hsound.keyed c' t' nft' hget'
    rw [ht] at hget'
    obtain rfl := hsound.unique_chain hget hget'
    exact Option.some.inj (hget'.symm.trans hget)
  · -- It is on a chain, and not in flight as well.
    obtain rfl := hsound.keyed c t nft hget
    exact absurd ht (hsound.not_in_flight hget hm' hnft')
  · obtain rfl := hsound.keyed c' t' nft' hget'
    exact absurd ht.symm (hsound.not_in_flight hget' hm hnft)
  · obtain rfl := hsound.unique_message hm hm' hnft hnft' ht
    exact Option.some.inj (hnft'.symm.trans hnft)

end Unique

/-! ## Steps -/

variable {r : NonFungibleTokenState × List Outgoing}
  {rest : List (Network.InFlight ChainId Payload)} {c : ChainId} {minted : List TokenId}
  {ledger : Ledger} {t : TokenId} {p : Provenance}

/-- Each NFT that is found after an execution was found before it, or is in its result. -/
theorem found_of_update (hrest : rest ⊆ h.network.inFlight)
    (hfound : Found ⟨h.network.update c r rest, minted⟩ nft) : Left r nft ∨ Found h nft := by
  rcases hfound with ⟨c', t, hget⟩ | ⟨m, hm, hnft⟩
  · rw [chain_update] at hget
    split at hget
    · exact .inl (.inl ⟨t, hget⟩)
    · exact .inr (.inl ⟨c', t, hget⟩)
  · rcases List.mem_append.mp hm with hm | hm
    · exact .inr (.inr ⟨m, hrest hm, hnft⟩)
    · obtain ⟨o, ho, rfl⟩ := List.mem_map.mp hm
      exact .inl (.inr ⟨o, ho, hnft⟩)

theorem found_of_left (hleft : Left r nft) : Found ⟨h.network.update c r rest, minted⟩ nft := by
  rcases hleft with ⟨t, hget⟩ | ⟨m, hm, hnft⟩
  · refine .inl ⟨c, t, ?_⟩
    rwa [chain_update, if_pos rfl]
  · exact .inr ⟨⟨m, c⟩, List.mem_append_right _ (List.mem_map.mpr ⟨m, hm, rfl⟩), hnft⟩

/-- The step leaves the NFT `t` with provenance `p`, and all the others as they were. -/
structure StepTouches (h h' : History) (t : TokenId) (p : Provenance) : Prop where
  touched : ∃ nft, Found h' nft ∧ nft.tokenId = t ∧ nft.provenance = p
  others : ∀ nft, Found h' nft → nft.tokenId ≠ t → Found h nft

theorem Touches.step (htouches : Touches (h.chain c) r t p) (hrest : rest ⊆ h.network.inFlight)
    (minted : List TokenId) : StepTouches h ⟨h.network.update c r rest, minted⟩ t p where
  touched := by
    obtain ⟨nft, hleft, hnft⟩ := htouches.touched
    exact ⟨nft, found_of_left hleft, hnft⟩
  others := by
    intro nft hfound hne
    rcases found_of_update hrest hfound with hleft | hfound
    · obtain ⟨t, hget⟩ := htouches.others nft hleft hne
      exact .inl ⟨c, t, hget⟩
    · exact hfound

/-- The ledger has a new provenance for one NFT. -/
def Renewed (ledger ledger' : Ledger) (t : TokenId) (p : Provenance) : Prop :=
  ∀ t', ledger'.get t' = if t' = t then some p else ledger.get t'

/-- An NFT that has been touched is as recorded if the ledger has its new provenance. -/
theorem Faithful.renew {ledger ledger' : Ledger} (hfaithful : Faithful ⟨h, ledger⟩)
    (hsound : Sound h') (htouches : StepTouches h h' t p) (hledger : Renewed ledger ledger' t p) :
    Faithful ⟨h', ledger'⟩ := by
  intro nft hfound
  change ledger'.get nft.tokenId = some nft.provenance
  rw [hledger]
  split
  · next ht =>
    -- There is one NFT with this token id only.
    obtain ⟨nft', hfound', ht', rfl⟩ := htouches.touched
    rw [hsound.found_unique hfound' hfound (ht.trans ht'.symm)]
  · next ht => exact hfaithful nft (htouches.others nft hfound ht)

theorem renewed_setChainOwner (hget : ledger.get t = some p) (chainOwner : String) :
    Renewed ledger (ledger.setChainOwner t chainOwner) t { p with chainOwner } := by
  intro t'
  unfold Ledger.setChainOwner
  rw [hget]
  exact BTreeMap.get_insert ..

theorem renewed_mint (enc : Encodings) (applicationId : ApplicationId) (ledger : Ledger)
    (c : ChainId) (s : NonFungibleTokenState) (minter : AccountOwner) (name : String)
    (blobHash : CryptoHash) (token price : String) (id : Nat)
    (chainMinter chainOwner description : String) (nftType : NftType) : Renewed ledger
      (ledger.record enc applicationId c s
        (.mint minter name blobHash token price id chainMinter chainOwner description nftType))
      (Nft.createTokenId enc c applicationId name minter blobHash s.numMintedNfts token price id
        chainMinter chainOwner nftType)
      { name, minter, blobHash, token, price, id, chainMinter, chainOwner, description, nftType } :=
  fun _ => BTreeMap.get_insert ..

/-- What is recorded is not recorded again. -/
theorem renewed_self (hget : ledger.get t = some p) : Renewed ledger ledger t p := by
  intro t'
  split
  · next ht => rw [ht, hget]
  · rfl

/-- An NFT on a chain is as recorded, under the token id that it is looked up with. -/
theorem Faithful.get_of_getNft (hfaithful : Faithful ⟨h, ledger⟩) (hsound : Sound h)
    (hnft : (h.chain c).getNft t = .ok nft) :
    nft.tokenId = t ∧ ledger.get nft.tokenId = some nft.provenance := by
  have hget := getNft_eq_ok.mp hnft
  exact ⟨hsound.keyed c t nft hget, hfaithful nft (.inl ⟨c, t, hget⟩)⟩

/-- What `mint` makes of a mint operation: the two chain fields are exchanged. -/
theorem mint_touches (runtime : Runtime) {minter : AccountOwner} {name : String} {blobHash : CryptoHash}
    {token price : String} {id : Nat} {chainMinter chainOwner description : String}
    {nftType : NftType} (hchain : runtime.chainId = c) :
    (executeOperation enc runtime s (.mint minter name blobHash token price id chainMinter
      chainOwner description nftType)).Ensures fun r =>
      Touches s r (Nft.createTokenId enc c runtime.applicationId name minter blobHash
          s.numMintedNfts token price id chainMinter chainOwner nftType)
        { name, minter, blobHash, token, price, id, chainMinter := chainOwner,
          chainOwner := chainMinter, description, nftType } := by
  intro r hr
  obtain ⟨s', hmint, hr⟩ := Except.bind_eq_ok.mp hr
  obtain ⟨-, -, hmint⟩ := Except.bind_eq_ok.mp hmint
  cases hmint
  cases hr
  subst hchain
  let nft : Nft :=
    { tokenId := Nft.createTokenId enc runtime.chainId runtime.applicationId name minter blobHash
        s.numMintedNfts token price id chainMinter chainOwner nftType
      owner := minter, name, minter, blobHash, token, price, id, chainMinter := chainOwner,
      chainOwner := chainMinter, description, status := .onSale, nftType }
  exact touches_insert nft rfl

/-- An operation that gives the same chain minter and chain owner keeps all NFTs as recorded. -/
theorem Faithful.operation (runtime : Runtime) (hfaithful : Faithful ⟨h, ledger⟩) (hsound : Sound h)
    (hchain : runtime.chainId = c) {operation : Operation}
    (hr : executeOperation enc runtime (h.chain c) operation = .ok r)
    (hsymmetric : operation.Symmetric)
    (hsound' : Sound ⟨h.network.update c r h.network.inFlight, minted⟩) :
    Faithful ⟨⟨h.network.update c r h.network.inFlight, minted⟩,
      ledger.record enc runtime.applicationId c (h.chain c) operation⟩ := by
  have hrest : h.network.inFlight ⊆ h.network.inFlight := List.Subset.refl _
  cases operation with
  | mint minter name blobHash token price id chainMinter chainOwner description nftType =>
    have htouches := mint_touches runtime hchain r hr
    obtain rfl : chainMinter = chainOwner := hsymmetric
    exact hfaithful.renew hsound' (htouches.step hrest minted) fun _ => renewed_mint ..
  | transfer sourceOwner tokenId targetAccount chainOwner buyFromToken toToken amount =>
    obtain ⟨nft, hnft, htransfer⟩ := Except.bind_eq_ok.mp hr
    obtain ⟨-, -, htransfer⟩ := Except.bind_eq_ok.mp htransfer
    obtain ⟨rfl, hget⟩ := hfaithful.get_of_getNft hsound hnft
    exact hfaithful.renew hsound' ((touches_transfer _ _ r htransfer).step hrest minted)
      (renewed_setChainOwner hget chainOwner)
  | claim sourceAccount tokenId targetAccount =>
    simp only [executeOperation] at hr
    split at hr
    · obtain ⟨nft, hnft, htransfer⟩ := Except.bind_eq_ok.mp hr
      obtain ⟨-, hget⟩ := hfaithful.get_of_getNft hsound hnft
      exact hfaithful.renew hsound' ((touches_transfer _ _ r htransfer).step hrest minted)
        (renewed_self hget)
    · -- The claim is sent to the other chain, and no NFT moves.
      cases hr
      intro nft hfound
      rcases found_of_update hrest hfound with (⟨t, hget⟩ | ⟨m, hm, hnft⟩) | hfound
      · exact hfaithful nft (.inl ⟨c, t, hget⟩)
      · rw [List.mem_singleton.mp hm] at hnft
        cases hnft
      · exact hfaithful nft hfound
  | listNftForSale tokenId chainOwner =>
    obtain ⟨nft, hnft, hr⟩ := Except.bind_eq_ok.mp hr
    cases hr
    obtain ⟨rfl, hget⟩ := hfaithful.get_of_getNft hsound hnft
    have htouches : Touches (h.chain c) ((h.chain c).listNftForSale nft chainOwner, [])
        nft.tokenId { nft.provenance with chainOwner } :=
      touches_insert { nft with status := .onSale, chainOwner } rfl
    exact hfaithful.renew hsound' (htouches.step hrest minted)
      (renewed_setChainOwner hget chainOwner)

/-- A message gives nothing new, and keeps all NFTs as recorded. -/
theorem Faithful.message (hfaithful : Faithful ⟨h, ledger⟩) (hsound : Sound h)
    {m : Network.InFlight ChainId Payload} (hm : m ∈ h.network.inFlight) {isBouncing : Bool}
    (hr : executeMessage runtime (h.chain c) isBouncing m.payload.message = .ok r)
    (hrest : rest ⊆ h.network.inFlight) (hsound' : Sound ⟨h.network.update c r rest, minted⟩) :
    Faithful ⟨⟨h.network.update c r rest, minted⟩, ledger⟩ := by
  cases hmessage : m.payload.message with
  | transfer nft targetAccount =>
    rw [hmessage] at hr
    cases hr
    have hget : ledger.get nft.tokenId = some nft.provenance :=
      hfaithful nft (.inr ⟨m, hm, by rw [hmessage]; rfl⟩)
    have htouches : Touches (h.chain c) ((h.chain c).addNft
        (if isBouncing then nft else { nft with owner := targetAccount.owner }), [])
        nft.tokenId nft.provenance := by
      cases isBouncing with
      | true => exact touches_insert nft rfl
      | false => exact touches_insert { nft with owner := targetAccount.owner } rfl
    exact hfaithful.renew hsound' (htouches.step hrest minted) (renewed_self hget)
  | claim sourceAccount tokenId targetAccount =>
    rw [hmessage] at hr
    obtain ⟨-, -, hr⟩ := Except.bind_eq_ok.mp hr
    obtain ⟨nft, hnft, hr⟩ := Except.bind_eq_ok.mp hr
    obtain ⟨-, -, hr⟩ := Except.bind_eq_ok.mp hr
    obtain ⟨-, hget⟩ := hfaithful.get_of_getNft hsound hnft
    exact hfaithful.renew hsound' ((touches_transfer _ _ r hr).step hrest minted)
      (renewed_self hget)

/-- Every NFT is in one place and is as recorded. -/
structure Kept (r : Recorded) : Prop where
  sound : Sound r.history
  faithful : Faithful r

variable {r r' : Recorded}

theorem Kept.step (hkept : Kept r) (hdistinct : Distinct enc applicationId r.history event)
    (hsymmetric : Symmetric event) (hstep : recordedStep enc applicationId r event = some r') :
    Kept r' := by
  obtain ⟨h, hh, rfl⟩ := Option.map_eq_some_iff.mp hstep
  have hsound' := hkept.sound.step hdistinct hh
  refine ⟨hsound', ?_⟩
  obtain ⟨network, hnetwork, rfl⟩ := Option.map_eq_some_iff.mp hh
  rcases Network.step_cases hnetwork with
    ⟨c, call, result, rfl, hresult, rfl⟩ | ⟨index, m, result, bouncing, hm, rfl, hresult, rfl⟩
  · exact hkept.faithful.operation (call.runtime applicationId c) hkept.sound rfl hresult
      hsymmetric hsound'
  · have hledger : r.record enc applicationId (if bouncing then .bounce index else .deliver index) =
        r.ledger := by
      cases bouncing <;> rfl
    rw [hledger]
    exact hkept.faithful.message hkept.sound (List.mem_of_getElem? hm) hresult
      (List.eraseIdx_subset ..) hsound'

/-- If the NFT that a mint has made is as recorded, its chain minter and chain owner are the
same. -/
theorem symmetric_of_faithful (hstep : recordedStep enc applicationId r event = some r')
    (hfaithful : Faithful r') : Symmetric event := by
  obtain ⟨h, hh, rfl⟩ := Option.map_eq_some_iff.mp hstep
  obtain ⟨network, hnetwork, rfl⟩ := Option.map_eq_some_iff.mp hh
  rcases Network.step_cases hnetwork with
    ⟨c, call, result, rfl, hresult, rfl⟩ | ⟨index, m, result, bouncing, hm, rfl, hresult, rfl⟩
  · obtain ⟨signer, caller, blobs, swap, operation⟩ := call
    cases operation with
    | mint minter name blobHash token price id chainMinter chainOwner description nftType =>
      -- The NFT has the fields exchanged, the ledger has them as they were given.
      have htouches := mint_touches (Call.runtime applicationId _ c) rfl result hresult
      obtain ⟨nft, hleft, ht, hnft⟩ := htouches.touched
      have hget := hfaithful nft (found_of_left hleft)
      rw [ht, hnft] at hget
      have hledger := renewed_mint enc applicationId r.ledger c (r.history.chain c) minter name blobHash token price id
        chainMinter chainOwner description nftType
      have hrecorded := (hledger _).trans (if_pos rfl)
      exact congrArg Provenance.chainMinter (Option.some.inj (hrecorded.symm.trans hget))
    | transfer => trivial
    | claim => trivial
    | listNftForSale => trivial
  · cases bouncing <;> trivial

theorem kept_empty : Kept .empty where
  sound := sound_empty
  faithful := by
    rintro nft (⟨c, t, hget⟩ | ⟨m, hm, -⟩)
    · cases hget
    · cases hm

/-- **NFTs are as recorded.** Whatever is executed on whichever chains, in any order: after every
step, each NFT on a chain or in flight has the fields that its mint has given under the same
names, and the chain owner that it was given last, exactly if each mint that is executed gives
the same chain minter and chain owner. -/
theorem provenance_immutable_iff {events : List Event}
    (hdistinct : Run.Along (recordedStep enc applicationId)
      (fun r event => Distinct enc applicationId r.history event) .empty events) :
    Run.Along (recordedStep enc applicationId)
        (fun r event => ∀ r', recordedStep enc applicationId r event = some r' → Faithful r')
        .empty events ↔
      Run.Along (recordedStep enc applicationId)
        (fun r event => (recordedStep enc applicationId r event).isSome → Symmetric event)
        .empty events := by
  constructor
  · refine Run.Along.imp (P := fun _ => True) (fun _ _ _ _ _ _ => trivial) ?_ trivial
    intro r event _ hfaithful hsome
    obtain ⟨r', hstep⟩ := Option.isSome_iff_exists.mp hsome
    exact symmetric_of_faithful hstep (hfaithful r' hstep)
  · intro hsymmetric
    have hkeep : ∀ r event r', Kept r →
        Distinct enc applicationId r.history event ∧
          ((recordedStep enc applicationId r event).isSome → Symmetric event) →
        recordedStep enc applicationId r event = some r' → Kept r' := by
      intro r event r' hkept hcond hstep
      exact hkept.step hcond.1 (hcond.2 (by rw [hstep]; rfl)) hstep
    refine Run.Along.imp hkeep ?_ kept_empty (hdistinct.and hsymmetric)
    intro r event hkept hcond r' hstep
    exact (hkeep r event r' hkept hcond hstep).faithful

section Example

/-- A mint in which the two fields are the same, and a transfer with another chain owner: the NFT
is in flight. -/
theorem provenance_of_symmetric_mint :
    let there : Account := ⟨⟨⟨1⟩⟩, .user ⟨⟨8⟩⟩⟩
    let events : List Event :=
      [.operation ⟨⟨0⟩⟩ ⟨none, none, fun _ => true, fun _ _ _ _ => true,
          .mint (.user ⟨⟨7⟩⟩) "nft" ⟨1⟩ "ETH" "1" 5 "minter" "minter" "" .generic⟩,
        .operation ⟨⟨0⟩⟩ ⟨none, none, fun _ => true, fun _ _ _ _ => true,
          .transfer (.user ⟨⟨7⟩⟩) ⟨[3, 0, 5]⟩ there "owner" "ETH" "SOL" "1"⟩]
    (∃ r nft, Run.run (recordedStep countingEncodings exampleApplication) .empty events = some r ∧
      Found r.history nft ∧ nft.chainMinter = "minter" ∧ nft.chainOwner = "owner") ∧
    Run.Along (recordedStep countingEncodings exampleApplication)
      (fun r event => ∀ r', recordedStep countingEncodings exampleApplication r event = some r' →
        Faithful r') .empty events := by
  intro there events
  have hdistinct : Run.Along (recordedStep countingEncodings exampleApplication)
      (fun r event => Distinct countingEncodings exampleApplication r.history event)
      .empty events := by
    decide
  refine ⟨⟨_, _, rfl, .inr ⟨_, List.mem_singleton_self _, rfl⟩, rfl, rfl⟩, ?_⟩
  refine (provenance_immutable_iff hdistinct).mpr ⟨fun _ => rfl, fun r hr => ⟨fun _ => trivial, ?_⟩⟩
  exact fun _ _ => trivial

/-- The NFT that a mint has made has the given chain owner for its chain minter. -/
theorem minter_and_owner_exchanged :
    ∃ r nft, recordedStep countingEncodings exampleApplication .empty (mintNumber 5) = some r ∧
      Found r.history nft ∧ nft.chainMinter = "owner" ∧ nft.chainOwner = "minter" ∧
      (r.ledger.get nft.tokenId).map Provenance.chainMinter = some "minter" ∧
      (r.ledger.get nft.tokenId).map Provenance.chainOwner = some "owner" := by
  refine ⟨_, _, rfl, .inl ⟨⟨⟨0⟩⟩, ⟨[3, 0, 5]⟩, rfl⟩, rfl, rfl, rfl, rfl⟩

end Example

end Linera.NonFungible
