import Linera.Chain.Certificate
import Linera.Lib.Run

/-!
# The wallet

The wallet keeps secret keys: some that are not assigned to a chain yet, and at most one
for each chain that it knows. A client for a chain is made from the wallet's entry, and
later the entry is made anew from the client. The key that the entry then gets is the one
that the client can use on the chain as it is owned at that moment.
-/

namespace Linera.Client

structure UserChain where
  chainId : ChainId
  keyPair : Option KeyPair
  blockHash : Option CryptoHash
  timestamp : Nat
  nextBlockHeight : Nat
  pendingBlock : Option Block
  pendingBlobs : BTreeMap BlobId Blob

structure Wallet where
  chains : BTreeMap ChainId UserChain
  unassignedKeyPairs : BTreeMap PublicKey KeyPair
  default : Option ChainId

/-- What `chain_info` says about the owners of a chain. -/
structure OwnershipInfo where
  ownership : ChainOwnership
  leader : Option Owner

inductive ChainClientError where
  | localNodeError
  | inactiveChain
  | cannotFindKeyForChain
  | foundMultipleKeysForChain
  /-- "key should be known at this point" -/
  | panicked
deriving DecidableEq

/-- A client: the key pairs that it knows. -/
structure ChainClient where
  chainId : ChainId
  knownKeyPairs : BTreeMap Owner KeyPair

structure ClientProgress where
  blockHash : Option CryptoHash
  timestamp : Nat
  nextBlockHeight : Nat
  pendingBlock : Option Block
  pendingBlobs : BTreeMap BlobId Blob

namespace ChainClient

/-- The owners and super owners, followed by the leader. -/
def identities (info : OwnershipInfo) : List Owner :=
  info.ownership.superOwners.keys ++ info.ownership.owners.keys ++ info.leader.toList

def identity (client : ChainClient) (info : Option OwnershipInfo) : Except ChainClientError Owner :=
  match info with
  | none => .error .localNodeError
  | some info => do
    ensure info.ownership.isActive .inactiveChain
    match (identities info).filter client.knownKeyPairs.containsKey with
    | [] => throw .cannotFindKeyForChain
    | identity :: ourIdentities =>
      -- An owner may also be the leader, so that it occurs twice.
      ensure (∀ id ∈ ourIdentities, id = identity) .foundMultipleKeysForChain
      return identity

/-- The key pair associated to the current identity. -/
def keyPair (client : ChainClient) (info : Option OwnershipInfo) :
    Except ChainClientError KeyPair := do
  let id ← client.identity info
  match client.knownKeyPairs.get id with
  | some keyPair => return keyPair
  | none => throw .panicked

end ChainClient

namespace Wallet

def insert (w : Wallet) (chain : UserChain) : Wallet :=
  { w with
    default := if w.default.isNone then some chain.chainId else w.default
    chains := w.chains.insert chain.chainId chain }

def addUnassignedKeyPair (w : Wallet) (keyPair : KeyPair) : Wallet :=
  { w with unassignedKeyPairs := w.unassignedKeyPairs.insert keyPair.publicKey keyPair }

def keyPairForPk (w : Wallet) (key : PublicKey) : Option KeyPair :=
  match w.unassignedKeyPairs.get key with
  | some keyPair => some keyPair
  | none => (w.chains.values.filterMap UserChain.keyPair).find? fun keyPair =>
      keyPair.publicKey = key

/-- Assigns an unassigned key to a new chain. The result is `none` if there is no such key. -/
def assignNewChainToKey (w : Wallet) (key : PublicKey) (chainId : ChainId) (timestamp : Nat) :
    Option Wallet :=
  (w.unassignedKeyPairs.get key).map fun keyPair =>
    let w := { w with unassignedKeyPairs := w.unassignedKeyPairs.remove key }
    w.insert
      { chainId, keyPair := some keyPair, blockHash := none, timestamp, nextBlockHeight := 0,
        pendingBlock := none, pendingBlobs := .empty }

/-- Sets the default chain. The result is `none` if the wallet does not have the chain. -/
def setDefaultChain (w : Wallet) (chainId : ChainId) : Option Wallet :=
  if w.chains.containsKey chainId then some { w with default := some chainId } else none

/-- Makes the entry of a chain anew from a client. -/
def updateFromState (w : Wallet) (client : ChainClient) (info : Option OwnershipInfo)
    (progress : ClientProgress) : Wallet :=
  { w with
    chains := w.chains.insert client.chainId
      { chainId := client.chainId
        -- Whatever was there before, this is the only key that the entry has now.
        keyPair := (client.keyPair info).toOption
        blockHash := progress.blockHash
        timestamp := progress.timestamp
        nextBlockHeight := progress.nextBlockHeight
        pendingBlock := progress.pendingBlock
        pendingBlobs := progress.pendingBlobs } }

def makeChainClient (owner : PublicKey → Owner) (w : Wallet) (chainId : ChainId) :
    Option ChainClient :=
  (w.chains.get chainId).map fun chain =>
    ⟨chainId, .ofList (chain.keyPair.toList.map fun keyPair => (owner keyPair.publicKey, keyPair))⟩

end Wallet

/-- The wallet, and the clients that have been made from its entries. -/
structure State where
  wallet : Wallet
  clients : List ChainClient

/-- The operations other than `forget_keys` and `forget_chain`. -/
inductive Operation where
  | insert (chain : UserChain)
  | addUnassignedKeyPair (keyPair : KeyPair)
  | assignNewChainToKey (key : PublicKey) (chainId : ChainId) (timestamp : Nat)
  | setDefaultChain (chainId : ChainId)
  | makeChainClient (chainId : ChainId)
  /-- With one of the clients, and the chain as it is at this moment. -/
  | updateFromState (index : Nat) (info : Option OwnershipInfo) (progress : ClientProgress)

variable (owner : PublicKey → Owner)

/-- Chains are inserted only if the wallet does not have them yet. -/
def step (s : State) : Operation → Option State
  | .insert chain =>
    if s.wallet.chains.containsKey chain.chainId then none
    else some { s with wallet := s.wallet.insert chain }
  | .addUnassignedKeyPair keyPair => some { s with wallet := s.wallet.addUnassignedKeyPair keyPair }
  | .assignNewChainToKey key chainId timestamp =>
    if s.wallet.chains.containsKey chainId then none
    else (s.wallet.assignNewChainToKey key chainId timestamp).map fun w => { s with wallet := w }
  | .setDefaultChain chainId => (s.wallet.setDefaultChain chainId).map fun w =>
      { s with wallet := w }
  | .makeChainClient chainId => (s.wallet.makeChainClient owner chainId).map fun client =>
      { s with clients := s.clients ++ [client] }
  | .updateFromState index info progress => s.clients[index]?.map fun client =>
      { s with wallet := s.wallet.updateFromState client info progress }

/-! ## Where keys are -/

namespace Wallet

variable {w : Wallet} {key : PublicKey}

/-- A chain's entry has a key. -/
def ChainHas (w : Wallet) (chainId : ChainId) (key : PublicKey) : Prop :=
  ∃ chain keyPair, w.chains.get chainId = some chain ∧ chain.keyPair = some keyPair ∧
    keyPair.publicKey = key

theorem keyPairForPk_isSome_iff : (w.keyPairForPk key).isSome ↔
      (w.unassignedKeyPairs.get key).isSome ∨ ∃ chainId, w.ChainHas chainId key := by
  unfold keyPairForPk
  cases hget : w.unassignedKeyPairs.get key with
  | some keyPair => exact iff_of_true rfl (.inl rfl)
  | none =>
    simp only [List.find?_isSome, List.mem_filterMap, BTreeMap.mem_values_iff, decide_eq_true_eq,
      Option.isSome_none, Bool.false_eq_true, false_or, ChainHas]
    constructor
    · rintro ⟨keyPair, ⟨chain, ⟨chainId, hchain⟩, hkeyPair⟩, hkey⟩
      exact ⟨chainId, chain, keyPair, hchain, hkeyPair, hkey⟩
    · rintro ⟨chainId, chain, keyPair, hchain, hkeyPair, hkey⟩
      exact ⟨keyPair, ⟨chain, ⟨chainId, hchain⟩, hkeyPair⟩, hkey⟩

/-- Unassigned keys are filed under their public keys. -/
def Keyed (w : Wallet) : Prop :=
  ∀ key keyPair, w.unassignedKeyPairs.get key = some keyPair → keyPair.publicKey = key

/-- An entry in the place of none leaves the other entries as they are. -/
theorem ChainHas.insert {chainId : ChainId} (h : w.ChainHas chainId key) {w' : Wallet}
    {chain : UserChain} (hnew : w.chains.containsKey chain.chainId = false)
    (hchains : w'.chains = w.chains.insert chain.chainId chain) : w'.ChainHas chainId key := by
  obtain ⟨old, keyPair, hold, hkeyPair, hkey⟩ := h
  refine ⟨old, keyPair, ?_, hkeyPair, hkey⟩
  rw [hchains, BTreeMap.get_insert, if_neg, hold]
  rintro rfl
  rw [BTreeMap.containsKey, hold] at hnew
  cases hnew

end Wallet

/-! ## Losing keys -/

/-- Every key pair that is found before is found after. -/
def Keeps (s s' : State) : Prop :=
  ∀ key, (s.wallet.keyPairForPk key).isSome → (s'.wallet.keyPairForPk key).isSome

/-- The operation makes an entry anew without its key, and the wallet has the key nowhere else. -/
def Loses (s : State) : Operation → Prop
  | .updateFromState index info _ => ∃ client key, s.clients[index]? = some client ∧
      s.wallet.ChainHas client.chainId key ∧
      (∀ keyPair, client.keyPair info = .ok keyPair → keyPair.publicKey ≠ key) ∧
      s.wallet.unassignedKeyPairs.get key = none ∧
      ∀ chainId, s.wallet.ChainHas chainId key → chainId = client.chainId
  | _ => False

variable {owner} {s s' : State}

/-- Entries and unassigned keys that are still there are found. -/
theorem Keeps.of_kept (hunassigned : ∀ key, (s.wallet.unassignedKeyPairs.get key).isSome →
      (s'.wallet.keyPairForPk key).isSome)
    (hchains : ∀ chainId key, s.wallet.ChainHas chainId key → s'.wallet.ChainHas chainId key) :
    Keeps s s' := by
  intro key hkey
  rcases Wallet.keyPairForPk_isSome_iff.mp hkey with h | ⟨chainId, h⟩
  · exact hunassigned key h
  · exact Wallet.keyPairForPk_isSome_iff.mpr (.inr ⟨chainId, hchains chainId key h⟩)

theorem step_keyed (s : State) (operation : Operation) (s' : State) (h : s.wallet.Keyed)
    (hstep : step owner s operation = some s') : s'.wallet.Keyed := by
  cases operation with
  | insert chain =>
    rw [step] at hstep
    split at hstep
    · cases hstep
    · cases hstep
      exact h
  | addUnassignedKeyPair keyPair =>
    cases hstep
    intro key keyPair' hget
    rw [Wallet.addUnassignedKeyPair, BTreeMap.get_insert] at hget
    split at hget
    · next hkey =>
      cases hget
      exact hkey.symm
    · exact h key keyPair' hget
  | assignNewChainToKey key chainId timestamp =>
    rw [step] at hstep
    split at hstep
    · cases hstep
    · obtain ⟨w, hw, rfl⟩ := Option.map_eq_some_iff.mp hstep
      obtain ⟨keyPair, -, rfl⟩ := Option.map_eq_some_iff.mp hw
      intro key' keyPair' hget
      rw [Wallet.insert, BTreeMap.get_remove] at hget
      split at hget
      · cases hget
      · exact h key' keyPair' hget
  | setDefaultChain chainId =>
    obtain ⟨w, hw, rfl⟩ := Option.map_eq_some_iff.mp hstep
    rw [Wallet.setDefaultChain] at hw
    split at hw
    · cases hw
      exact h
    · cases hw
  | makeChainClient | updateFromState =>
    obtain ⟨client, -, rfl⟩ := Option.map_eq_some_iff.mp hstep
    exact h

/-- An assigned key moves from the unassigned ones to the new chain. -/
theorem keeps_assignNewChainToKey (hkeyed : s.wallet.Keyed) {key : PublicKey} {chainId : ChainId}
    {timestamp : Nat} (hnew : s.wallet.chains.containsKey chainId = false) {w : Wallet}
    (hw : s.wallet.assignNewChainToKey key chainId timestamp = some w) :
    Keeps s { s with wallet := w } := by
  obtain ⟨keyPair, hget, rfl⟩ := Option.map_eq_some_iff.mp hw
  refine .of_kept (fun key' hkey' => Wallet.keyPairForPk_isSome_iff.mpr ?_)
    fun other key' h => h.insert hnew rfl
  by_cases heq : key' = key
  · -- This key is taken out of the unassigned ones, and is in the new entry.
    subst heq
    have hchain := s.wallet.chains.get_insert chainId chainId
      ⟨chainId, some keyPair, none, timestamp, 0, none, .empty⟩
    rw [if_pos rfl] at hchain
    exact .inr ⟨chainId, _, keyPair, hchain, rfl, hkeyed key' keyPair hget⟩
  · left
    rw [Wallet.insert, BTreeMap.get_remove, if_neg heq]
    exact hkey'

theorem keeps_updateFromState_iff {index : Nat} {client : ChainClient}
    (hclient : s.clients[index]? = some client) (info : Option OwnershipInfo)
    (progress : ClientProgress) :
    Keeps s { s with wallet := s.wallet.updateFromState client info progress } ↔
      ¬Loses s (.updateFromState index info progress) := by
  -- The other chains are not affected.
  have hother : ∀ chainId key, chainId ≠ client.chainId → (s.wallet.ChainHas chainId key ↔
      (s.wallet.updateFromState client info progress).ChainHas chainId key) := by
    intro chainId key hne
    simp only [Wallet.ChainHas, Wallet.updateFromState, BTreeMap.get_insert, if_neg hne]
  have hthis : ∀ key, (s.wallet.updateFromState client info progress).ChainHas client.chainId key ↔
      ∃ keyPair, client.keyPair info = .ok keyPair ∧ keyPair.publicKey = key := by
    intro key
    simp only [Wallet.ChainHas, Wallet.updateFromState, BTreeMap.get_insert, if_true,
      Option.some.injEq]
    constructor
    · rintro ⟨_, keyPair, rfl, hkeyPair, hkey⟩
      exact ⟨keyPair, Except.toOption_eq_some.mp hkeyPair, hkey⟩
    · rintro ⟨keyPair, hkeyPair, hkey⟩
      exact ⟨_, keyPair, rfl, Except.toOption_eq_some.mpr hkeyPair, hkey⟩
  constructor
  · rintro hkeeps ⟨client', key, hclient', hhas, hkey, hunassigned, honly⟩
    cases hclient.symm.trans hclient'
    have hfound := hkeeps key (Wallet.keyPairForPk_isSome_iff.mpr (.inr ⟨_, hhas⟩))
    rcases Wallet.keyPairForPk_isSome_iff.mp hfound with h | ⟨chainId, h⟩
    · have h : (s.wallet.unassignedKeyPairs.get key).isSome := h
      rw [hunassigned] at h
      cases h
    · by_cases hchain : chainId = client.chainId
      · subst hchain
        obtain ⟨keyPair, hkeyPair, hpublic⟩ := (hthis key).mp h
        exact hkey keyPair hkeyPair hpublic
      · exact hchain (honly chainId ((hother chainId key hchain).mpr h))
  · intro hnot key hfound
    rw [Wallet.keyPairForPk_isSome_iff] at hfound ⊢
    rcases hfound with h | ⟨chainId, h⟩
    · exact .inl h
    · -- If the key is lost, this entry was the only place where it was.
      by_contra hlost
      obtain ⟨hunassigned, hchains⟩ := not_or.mp hlost
      have hchains := not_exists.mp hchains
      have honly : ∀ chainId, s.wallet.ChainHas chainId key → chainId = client.chainId :=
        fun other h => by_contra fun hne => hchains other ((hother other key hne).mp h)
      obtain rfl := honly chainId h
      refine hnot ⟨client, key, hclient, h,
        fun keyPair hkeyPair hpublic => ?_, Option.not_isSome_iff_eq_none.mp hunassigned, honly⟩
      exact hchains _ ((hthis key).mpr ⟨keyPair, hkeyPair, hpublic⟩)

theorem keeps_iff (hkeyed : s.wallet.Keyed) (operation : Operation) :
    (∀ s', step owner s operation = some s' → Keeps s s') ↔ ¬Loses s operation := by
  cases operation with
  | updateFromState index info progress =>
    cases hclient : s.clients[index]? with
    | none =>
      refine iff_of_true (fun s' hstep => ?_) ?_
      · rw [step, hclient] at hstep
        cases hstep
      · rintro ⟨client, key, hclient', -⟩
        cases hclient.symm.trans hclient'
    | some client =>
      rw [← keeps_updateFromState_iff hclient, step, hclient]
      exact ⟨fun h => h _ rfl, fun h s' hs' => Option.some.inj hs' ▸ h⟩
  | insert chain =>
    refine iff_of_true (fun s' hstep => ?_) id
    rw [step] at hstep
    split at hstep
    · cases hstep
    · next hnew =>
      cases hstep
      exact .of_kept (fun key h => Wallet.keyPairForPk_isSome_iff.mpr (.inl h))
        fun chainId key h => h.insert (Bool.eq_false_of_not_eq_true hnew) rfl
  | addUnassignedKeyPair keyPair =>
    refine iff_of_true (fun s' hstep => ?_) id
    cases hstep
    refine .of_kept (fun key h => Wallet.keyPairForPk_isSome_iff.mpr (.inl ?_)) fun _ _ h => h
    rw [Wallet.addUnassignedKeyPair, BTreeMap.get_insert]
    split
    · rfl
    · exact h
  | assignNewChainToKey key chainId timestamp =>
    refine iff_of_true (fun s' hstep => ?_) id
    rw [step] at hstep
    split at hstep
    · cases hstep
    · next hnew =>
      obtain ⟨w, hw, rfl⟩ := Option.map_eq_some_iff.mp hstep
      exact keeps_assignNewChainToKey hkeyed (Bool.eq_false_of_not_eq_true hnew) hw
  | setDefaultChain chainId =>
    refine iff_of_true (fun s' hstep => ?_) id
    obtain ⟨w, hw, rfl⟩ := Option.map_eq_some_iff.mp hstep
    rw [Wallet.setDefaultChain] at hw
    split at hw
    · cases hw
      exact fun key h => h
    · cases hw
  | makeChainClient chainId =>
    refine iff_of_true (fun s' hstep => ?_) id
    obtain ⟨client, -, rfl⟩ := Option.map_eq_some_iff.mp hstep
    exact fun key h => h

/-- **No key is lost** exactly if no operation makes the entry of a chain anew without its key while
the wallet has that key nowhere else. -/
theorem keys_never_lost_iff (hkeyed : s.wallet.Keyed) (operations : List Operation) :
    (∀ before between after, operations = before ++ (between ++ after) →
      ∀ s₁ s₂, Run.run (step owner) s before = some s₁ →
        Run.run (step owner) s₁ between = some s₂ → Keeps s₁ s₂) ↔
    Run.Along (step owner) (fun s operation => ¬Loses s operation) s operations := by
  rw [← Run.along_iff_forall_between (fun _ _ h => h) fun h h' key hkey => h' key (h key hkey)]
  constructor
  · exact Run.Along.imp (fun s i s' h _ => step_keyed s i s' h)
      (fun s operation h => (keeps_iff h operation).mp) hkeyed
  · exact Run.Along.imp (fun s i s' h _ => step_keyed s i s' h)
      (fun s operation h => (keeps_iff h operation).mpr) hkeyed

def ownerOf (key : PublicKey) : Owner := ⟨⟨key.value⟩⟩

/-- A chain whose only owner has the given key. -/
def ownedBy (key : Nat) : OwnershipInfo :=
  ⟨⟨.empty, BTreeMap.empty.insert (ownerOf ⟨key⟩) (⟨key⟩, 100), 0, .default⟩, none⟩

/-- A new chain with a key, and the client for it. -/
def newChain : List Operation :=
  [.addUnassignedKeyPair ⟨⟨1⟩, 11⟩, .assignNewChainToKey ⟨1⟩ ⟨⟨5⟩⟩ 0, .makeChainClient ⟨⟨5⟩⟩]

/-- The client writes its state to the wallet while the chain is owned by the given key. -/
def updateOwnedBy (key : Nat) : Operation :=
  .updateFromState 0 (some (ownedBy key)) ⟨none, 0, 1, none, .empty⟩

/-- A wallet without anything in it. -/
def emptyState : State := ⟨⟨.empty, .empty, none⟩, []⟩

/-- While the chain is owned by the key, the client can write its state and the key is kept. -/
theorem key_kept_while_owned :
    (Run.run (step ownerOf) emptyState (newChain ++ [updateOwnedBy 1])).isSome ∧
    ∀ s₁ s₂, Run.run (step ownerOf) emptyState newChain = some s₁ →
      Run.run (step ownerOf) s₁ [updateOwnedBy 1] = some s₂ → Keeps s₁ s₂ := by
  have hkeyed : emptyState.wallet.Keyed := by
    intro key keyPair hget
    cases hget
  refine ⟨rfl, (keys_never_lost_iff hkeyed (newChain ++ [updateOwnedBy 1])).mpr ?_ newChain
    [updateOwnedBy 1] [] rfl⟩
  refine ⟨id, fun s₁ h₁ => ⟨id, fun s₂ h₂ => ⟨id, fun s₃ h₃ => ⟨?_, fun _ _ => trivial⟩⟩⟩⟩
  cases h₁
  cases h₂
  cases h₃
  -- The client finds the key of the entry among the owners.
  rintro ⟨client, key, hclient, ⟨chain, keyPair, hchain, hkeyPair, hkey⟩, hlost, -⟩
  cases hclient
  cases hchain
  cases hkeyPair
  exact hlost ⟨⟨1⟩, 11⟩ rfl hkey

/-- The chain gets another owner, and the client writes its state to the wallet. The wallet does not
have the key any more. -/
theorem key_lost_with_ownership :
    (Run.run (step ownerOf) emptyState newChain).map
      (fun s => s.wallet.keyPairForPk ⟨1⟩) = some (some ⟨⟨1⟩, 11⟩) ∧
    (Run.run (step ownerOf) emptyState (newChain ++ [updateOwnedBy 2])).map
      (fun s => s.wallet.keyPairForPk ⟨1⟩) = some none :=
  ⟨rfl, rfl⟩

end Linera.Client
