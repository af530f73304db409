import Linera.Base.Identifiers
import Linera.Lib.BTreeMap
import Linera.Lib.Run

/-!
# The crowd-funding application

Applications for funds are kept under Twitter IDs, with a list of the addresses that take pledges on
other chains and a list of the totals pledged on each chain. Both lists are edited in the same way: a
loop over a copy finds the index of the chain, and the entry at that index is exchanged. The totals
remove the old entry and insert the new one. The addresses insert first, and then remove what they
have just inserted.

Pledges of tokens, and collecting or cancelling them, do not change the applications.
-/

namespace Linera.CrowdFunding

/-- What the contract uses of floating-point numbers. -/
structure F64 (F : Type) where
  parse : String → Option F
  toString : F → String
  add : F → F → F

structure ChainAddresses where
  address : String
  chain : String
deriving DecidableEq

structure ChainPledges where
  depositAddress : String
  amount : String
deriving DecidableEq

structure TotalChainPledges where
  chain : String
  amount : String
deriving DecidableEq

/-- The part of an application that operations change. -/
structure CrowdApplication where
  chainAddresses : List ChainAddresses := []
  totalChainPledges : List TotalChainPledges := []
  individualPledges : List ChainPledges := []
deriving DecidableEq

structure CrowdFundingState where
  chainAddresses : BTreeMap String String
  crowdApplication : BTreeMap String CrowdApplication

inductive Operation where
  | addChain (twitterId chainName chainAddress : String)
  | removeChain (chainName : String)
  | fund (twitterId chainName depositAddress amount : String)
  | newCrowdApp (profileScreenshot : CryptoHash) (twitterId : String)

/-! ## Editing a list at an index -/

/-- Goes through a copy of a list, and edits the list at the index of the first element that fits.
Tells whether there was one; there is no result if the edit panics. -/
def editFirst {α : Type} (fits : α → Bool) (edit : Nat → α → List α → Option (List α)) :
    Nat → List α → List α → Option (Bool × List α)
  | _, [], list => some (false, list)
  | index, x :: copy, list =>
    if fits x then (edit index x list).map (true, ·) else editFirst fits edit (index + 1) copy list

theorem editFirst_of_unchanged {α : Type} {fits : α → Bool}
    {edit : Nat → α → List α → Option (List α)} {list : List α}
    (hedit : ∀ index x, edit index x list = some list) (index : Nat) (copy : List α) :
    editFirst fits edit index copy list = some (copy.any fits, list) := by
  induction copy generalizing index with
  | nil => rfl
  | cons x copy ih =>
    rw [editFirst, List.any_cons, hedit, ih]
    cases fits x with
    | true => rfl
    | false => rfl

/-! ## The contract -/

/-- The part of `AddChain` that edits the addresses of an application. -/
def addChain (chainName chainAddress : String) (chainAddresses : List ChainAddresses) :
    Option (List ChainAddresses) := do
  let (found, chainAddresses) ← editFirst (·.chain == chainName) (fun index totalPledge addresses =>
    let totalPledge := { totalPledge with address := chainAddress }
    -- `remove` takes out what `insert` has just put at the index
    let addresses := addresses.insertIdx index totalPledge
    some (addresses.eraseIdx index)) 0 chainAddresses chainAddresses
  return if found then chainAddresses else chainAddresses ++ [⟨chainAddress, chainName⟩]

section contract

variable {F : Type} (f64 : F64 F)

/-- The part of `execute_total_chain_pledges` that edits the totals of an application. -/
def addPledge (chainName : String) (amount : F) (totalChainPledges : List TotalChainPledges) :
    Option (List TotalChainPledges) := do
  let (found, totalChainPledges) ← editFirst (·.chain == chainName) (fun index totalPledge totals => do
    let currAmt := if totalPledge.amount.isEmpty then "0" else totalPledge.amount
    let currAmtF64 ← f64.parse currAmt
    let totalPledge := { totalPledge with amount := f64.toString (f64.add currAmtF64 amount) }
    let totals := totals.eraseIdx index
    return totals.insertIdx index totalPledge) 0 totalChainPledges totalChainPledges
  return if found then totalChainPledges
    else totalChainPledges ++ [⟨chainName, f64.toString amount⟩]

namespace CrowdFundingState

def insertApp (s : CrowdFundingState) (twitterId : String) (app : CrowdApplication) :
    CrowdFundingState :=
  { s with crowdApplication := s.crowdApplication.insert twitterId app }

def executeTotalChainPledges (s : CrowdFundingState) (twitterId chainName : String) (amount : F) :
    Option CrowdFundingState := do
  let app ← s.crowdApplication.get twitterId
  let totalChainPledges ← addPledge f64 chainName amount app.totalChainPledges
  return s.insertApp twitterId { app with totalChainPledges }

def pledgeChainAmount (s : CrowdFundingState) (chainName depositAddress : String) (amount : F)
    (twitterId : String) : Option CrowdFundingState := do
  let key := depositAddress ++ "_" ++ chainName
  let app ← s.crowdApplication.get twitterId
  let individualPledges := app.individualPledges ++ [⟨key, f64.toString amount⟩]
  (s.insertApp twitterId { app with individualPledges }).executeTotalChainPledges f64 twitterId
    chainName amount

/-- Executes an operation, given the data blobs that exist at that time. There is no result if the
contract panics. -/
def executeOperation (s : CrowdFundingState) :
    (CryptoHash → Bool) × Operation → Option CrowdFundingState
  | (_, .addChain twitterId chainName chainAddress) => do
    let app ← s.crowdApplication.get twitterId
    let chainAddresses ← addChain chainName chainAddress app.chainAddresses
    return s.insertApp twitterId { app with chainAddresses }
  | (_, .removeChain chainName) =>
    -- not the addresses of an application
    some { s with chainAddresses := s.chainAddresses.remove chainName }
  | (_, .fund twitterId chainName depositAddress amount) => do
    let parseAmount ← f64.parse amount
    s.pledgeChainAmount f64 chainName depositAddress parseAmount twitterId
  | (dataBlobExists, .newCrowdApp profileScreenshot twitterId) =>
    if dataBlobExists profileScreenshot then some (s.insertApp twitterId {}) else none

end CrowdFundingState

end contract

/-- **The address of a chain stays the one that was registered first.** Inserting at an index and
then removing at it gives back the list. -/
theorem addChain_eq (chainName chainAddress : String) (addresses : List ChainAddresses) :
    addChain chainName chainAddress addresses =
      some (if chainName ∈ addresses.map (·.chain) then addresses
        else addresses ++ [⟨chainAddress, chainName⟩]) := by
  have hany : (addresses.any (·.chain == chainName) = true) ↔
      chainName ∈ addresses.map (·.chain) := by simp
  rw [addChain, editFirst_of_unchanged]
  · exact congrArg some (if_congr hany rfl rfl)
  · exact fun index x => congrArg some (List.eraseIdx_insertIdx_self _)

/-! ## Registered addresses -/

/-- What `AddChain` registers for an application since it was created, after one more operation. -/
def registrations (twitterId : String) (registered : List ChainAddresses) :
    (CryptoHash → Bool) × Operation → List ChainAddresses
  | (_, .addChain id chainName chainAddress) =>
    if twitterId = id then registered ++ [⟨chainAddress, chainName⟩] else registered
  | (_, .newCrowdApp _ id) => if twitterId = id then [] else registered
  | _ => registered

/-- The list is a map from the registered chains, in the order of their first registration, to the
registration that is picked among those of the chain. -/
structure MapOf (pick : List ChainAddresses → Option ChainAddresses)
    (registered addresses : List ChainAddresses) : Prop where
  nodup : (addresses.map (·.chain)).Nodup
  order : addresses.map (·.chain) = (registered.map (·.chain)).eraseDups
  address : ∀ e ∈ addresses, pick (registered.filter (·.chain = e.chain)) = some e

variable {registered : List ChainAddresses}

theorem MapOf.mem_iff {pick : List ChainAddresses → Option ChainAddresses}
    {addresses : List ChainAddresses} (h : MapOf pick registered addresses) (chain : String) :
    chain ∈ addresses.map (·.chain) ↔ chain ∈ registered.map (·.chain) := by
  rw [h.order, List.mem_eraseDups]

theorem eraseDups_concat (chains : List String) (chain : String) : (chains ++ [chain]).eraseDups =
      if chain ∈ chains then chains.eraseDups else chains.eraseDups ++ [chain] := by
  rw [List.eraseDups_append]
  by_cases hmem : chain ∈ chains
  · simp [List.removeAll, hmem]
  · simp [List.removeAll, hmem]
    rfl

/-- One more registration only counts if it is the first one of its chain. -/
theorem MapOf.add {addresses : List ChainAddresses} (h : MapOf List.head? registered addresses)
    (chainAddress chainName : String) : MapOf List.head? (registered ++ [⟨chainAddress, chainName⟩])
      (if chainName ∈ addresses.map (·.chain) then addresses
        else addresses ++ [⟨chainAddress, chainName⟩]) := by
  have hold : ∀ e ∈ addresses, ((registered ++ [(⟨chainAddress, chainName⟩ : ChainAddresses)]).filter
      (·.chain = e.chain)).head? = some e := by
    intro e he
    rw [List.filter_append, List.head?_append, h.address e he]
    rfl
  split
  · next hmem =>
    have hmem' := (h.mem_iff chainName).mp hmem
    refine ⟨h.nodup, ?_, hold⟩
    rw [List.map_append, List.map_singleton, eraseDups_concat, if_pos hmem', h.order]
  · next hmem =>
    have hmem' : chainName ∉ registered.map (·.chain) := fun h' => hmem ((h.mem_iff _).mpr h')
    refine ⟨?_, ?_, fun e he => ?_⟩
    · rw [List.map_append, List.map_singleton, ← List.concat_eq_append]
      exact h.nodup.concat hmem
    · rw [List.map_append, List.map_append, List.map_singleton, eraseDups_concat, if_neg hmem',
        h.order]
    · rcases List.mem_append.mp he with he | he
      · exact hold e he
      · -- No earlier registration is for this chain.
        obtain rfl := List.mem_singleton.mp he
        have hnone : registered.filter (·.chain = chainName) = [] :=
          List.filter_eq_nil_iff.mpr fun r hr hchain =>
            hmem' (List.mem_map.mpr ⟨r, hr, of_decide_eq_true hchain⟩)
        rw [List.filter_append, hnone]
        simp

namespace CrowdFundingState

def addresses (s : CrowdFundingState) (twitterId : String) : Option (List ChainAddresses) :=
  (s.crowdApplication.get twitterId).map (·.chainAddresses)

theorem addresses_insertApp (s : CrowdFundingState) (twitterId id : String)
    (app : CrowdApplication) : (s.insertApp id app).addresses twitterId =
      if twitterId = id then some app.chainAddresses else s.addresses twitterId := by
  rw [addresses, insertApp, BTreeMap.get_insert]
  split <;> rfl

theorem addresses_insertApp_of_eq {s : CrowdFundingState} {id : String}
    {app app' : CrowdApplication} (happ : s.crowdApplication.get id = some app)
    (heq : app'.chainAddresses = app.chainAddresses) (twitterId : String) :
    (s.insertApp id app').addresses twitterId = s.addresses twitterId := by
  rw [addresses_insertApp]
  split
  · next hid => rw [hid, addresses, happ, heq, Option.map_some]
  · rfl

variable {F : Type} {f64 : F64 F} {s s' : CrowdFundingState} {twitterId : String}

theorem addresses_pledgeChainAmount {id chainName depositAddress : String} {amount : F}
    (h : s.pledgeChainAmount f64 chainName depositAddress amount id = some s') :
    s'.addresses twitterId = s.addresses twitterId := by
  obtain ⟨app, happ, htotal⟩ := Option.bind_eq_some_iff.mp h
  obtain ⟨app', happ', h'⟩ := Option.bind_eq_some_iff.mp htotal
  obtain ⟨totals, -, hs'⟩ := Option.bind_eq_some_iff.mp h'
  cases hs'
  refine (addresses_insertApp_of_eq happ' ?_ twitterId).trans
    (addresses_insertApp_of_eq happ ?_ twitterId)
  · rfl
  · rfl

/-- What holds of the addresses of an application after the given registrations: each chain has
the address that was registered first. -/
def Holds (twitterId : String) (s : CrowdFundingState) (registered : List ChainAddresses) : Prop :=
  ∀ addresses, s.addresses twitterId = some addresses → MapOf List.head? registered addresses

theorem executeOperation_holds (input : (CryptoHash → Bool) × Operation)
    (hs : Holds twitterId s registered) (h : s.executeOperation f64 input = some s') :
    Holds twitterId s' (registrations twitterId registered input) := by
  intro addresses haddresses
  obtain ⟨dataBlobExists, operation⟩ := input
  cases operation with
  | addChain id chainName chainAddress =>
    obtain ⟨app, happ, h⟩ := Option.bind_eq_some_iff.mp h
    rw [addChain_eq] at h
    cases h
    rw [addresses_insertApp] at haddresses
    rw [registrations]
    split at haddresses
    · next hid =>
      cases haddresses
      rw [if_pos hid]
      refine (hs app.chainAddresses ?_).add chainAddress chainName
      rw [hid, CrowdFundingState.addresses, happ, Option.map_some]
    · next hid =>
      rw [if_neg hid]
      exact hs addresses haddresses
  | removeChain chainName =>
    cases h
    exact hs addresses haddresses
  | fund id chainName depositAddress amount =>
    obtain ⟨parseAmount, -, h⟩ := Option.bind_eq_some_iff.mp h
    rw [addresses_pledgeChainAmount h] at haddresses
    exact hs addresses haddresses
  | newCrowdApp profileScreenshot id =>
    rw [executeOperation] at h
    split at h
    · cases h
      rw [addresses_insertApp] at haddresses
      rw [registrations]
      split at haddresses
      · next hid =>
        cases haddresses
        rw [if_pos hid]
        exact ⟨List.nodup_nil, rfl, List.forall_mem_nil _⟩
      · next hid =>
        rw [if_neg hid]
        exact hs addresses haddresses
    · cases h

/-- **Which addresses an application has.** After any sequence of successful operations on a new
contract, its list is the map of the latest registrations exactly if each chain was registered with
the same address first and last. -/
theorem latest_addresses_iff (twitterId : String) (hnew : s.crowdApplication = .empty)
    (inputs : List ((CryptoHash → Bool) × Operation))
    (hrun : Run.run (executeOperation f64) s inputs = some s') {app : CrowdApplication}
    (happ : s'.crowdApplication.get twitterId = some app) :
    MapOf List.getLast? (inputs.foldl (registrations twitterId) []) app.chainAddresses ↔
      ∀ chain, ((inputs.foldl (registrations twitterId) []).filter (·.chain = chain)).head? =
        ((inputs.foldl (registrations twitterId) []).filter (·.chain = chain)).getLast? := by
  have hstart : Holds twitterId s [] := by
    intro addresses haddresses
    rw [CrowdFundingState.addresses, hnew] at haddresses
    cases haddresses
  have hfirst : MapOf List.head? (inputs.foldl (registrations twitterId) []) app.chainAddresses :=
    Run.simulates (fun s registered input s' hs h => executeOperation_holds input hs h) hstart hrun
      app.chainAddresses (by rw [CrowdFundingState.addresses, happ, Option.map_some])
  generalize inputs.foldl (registrations twitterId) [] = registered at hfirst ⊢
  constructor
  · intro hlatest chain
    by_cases hmem : chain ∈ app.chainAddresses.map (·.chain)
    · obtain ⟨e, he, rfl⟩ := List.mem_map.mp hmem
      rw [hfirst.address e he, hlatest.address e he]
    · have hnone : registered.filter (·.chain = chain) = [] :=
        List.filter_eq_nil_iff.mpr fun r hr hchain => hmem ((hfirst.mem_iff chain).mpr
          (List.mem_map.mpr ⟨r, hr, of_decide_eq_true hchain⟩))
      rw [hnone]
      rfl
  · intro hsame
    refine ⟨hfirst.nodup, hfirst.order, fun e he => ?_⟩
    rw [← hsame e.chain]
    exact hfirst.address e he

/-- Numbers for amounts without a fractional part. -/
def wholeAmounts : F64 Nat := ⟨String.toNat?, fun n => n.repr, (· + ·)⟩

def emptyState : CrowdFundingState := ⟨.empty, .empty⟩

def registerTwice (first second : String) : List ((CryptoHash → Bool) × Operation) :=
  [(fun _ => true, .newCrowdApp ⟨1⟩ "id"), (fun _ => true, .addChain "id" "ETH" first),
    (fun _ => true, .addChain "id" "ETH" second)]

/-- The same address again is the latest one. -/
theorem latest_address_same :
    MapOf List.getLast? ((registerTwice "0x1" "0x1").foldl (registrations "id") [])
      [⟨"0x1", "ETH"⟩] := by
  have hrun : Run.run (executeOperation wholeAmounts) emptyState (registerTwice "0x1" "0x1") =
      some ⟨.empty, .ofList [("id", { chainAddresses := [⟨"0x1", "ETH"⟩] })]⟩ := rfl
  have hiff := latest_addresses_iff "id" rfl _ hrun rfl
  refine hiff.mpr fun chain => ?_
  by_cases hchain : "ETH" = chain
  · subst hchain
    rfl
  · simp [hchain, registerTwice, registrations]

/-- A second address for a chain is lost: the list keeps the first one. -/
theorem address_not_replaced :
    (Run.run (executeOperation wholeAmounts) emptyState (registerTwice "0x1" "0x2")).bind
      (·.addresses "id") = some [⟨"0x1", "ETH"⟩] ∧
    ¬MapOf List.getLast? ((registerTwice "0x1" "0x2").foldl (registrations "id") [])
      [⟨"0x1", "ETH"⟩] := by
  refine ⟨rfl, fun h => ?_⟩
  have hlatest : some (⟨"0x2", "ETH"⟩ : ChainAddresses) = some ⟨"0x1", "ETH"⟩ :=
    h.address ⟨"0x1", "ETH"⟩ List.mem_cons_self
  revert hlatest
  decide

end CrowdFundingState

end Linera.CrowdFunding
