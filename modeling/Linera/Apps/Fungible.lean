import Linera.Base.DataTypes
import Linera.Lib.Except
import Linera.Lib.Network
import Linera.Lib.Run

/-!
# Fungible tokens

The `fungible` application keeps a map of balances on each chain. A transfer to an
account on another chain debits the source here and sends a `Credit` message, which
is tracked: if the other chain rejects it, the source gets its tokens back. A claim
from an account on another chain sends a `Withdraw` message there.

A credit saturates. `supply_conserved` says that this never happens, since the
balances on all chains and the credits in flight always add up to the supply.
-/

namespace Linera.Fungible

structure Account where
  chainId : ChainId
  owner : AccountOwner
deriving DecidableEq

instance instLinearOrderAccount : LinearOrder Account :=
  LinearOrder.lift' (β := ChainId ×ₗ AccountOwner) (fun a => toLex (a.chainId, a.owner))
    fun ⟨_, _⟩ ⟨_, _⟩ h => by simpa using h

structure FungibleTokenState where
  accounts : BTreeMap AccountOwner Nat

/-- What makes an execution fail. -/
inductive FungibleError where
  /-- "The requested transfer is not correctly authenticated." -/
  | notAuthenticated
  /-- "Source account does not have sufficient balance for transfer" -/
  | insufficientBalance
deriving DecidableEq

inductive Operation where
  | balance (owner : AccountOwner)
  | tickerSymbol
  /-- Transfers tokens from a (locally owned) account to a (possibly remote) account. -/
  | transfer (owner : AccountOwner) (amount : Nat) (targetAccount : Account)
  /-- Same as `transfer` but the source account may be remote. -/
  | claim (sourceAccount : Account) (amount : Nat) (targetAccount : Account)

inductive FungibleResponse where
  | ok
  | balance (balance : Nat)
  | tickerSymbol (symbol : String)

inductive Message where
  /-- Credits the given `target` account, unless the message is bouncing, in which case `source`
  is credited instead. -/
  | credit (target : AccountOwner) (amount : Nat) (source : AccountOwner)
  /-- Withdraws from the given account and starts a transfer to the target account. -/
  | withdraw (owner : AccountOwner) (amount : Nat) (targetAccount : Account)

/-- What an execution is told of its surroundings. -/
structure Runtime where
  chainId : ChainId
  authenticatedSigner : Option Owner
  authenticatedCallerId : Option ApplicationId

/-- A message that is sent with authentication carries the signer. -/
structure Payload where
  message : Message
  authenticatedSigner : Option Owner

abbrev Outgoing := Network.Outgoing ChainId Payload

/-! ## State -/

namespace FungibleTokenState

def empty : FungibleTokenState := ⟨.empty⟩

def initializeAccounts (s : FungibleTokenState) (accounts : BTreeMap AccountOwner Nat) :
    FungibleTokenState :=
  accounts.entries.foldl
    (fun s entry => if entry.2 ≠ 0 then ⟨s.accounts.insert entry.1 entry.2⟩ else s) s

def balanceOrDefault (s : FungibleTokenState) (account : AccountOwner) : Nat :=
  (s.accounts.get account).getD 0

def credit (s : FungibleTokenState) (account : AccountOwner) (amount : Nat) : FungibleTokenState :=
  if amount = 0 then s
  else ⟨s.accounts.insert account (Amount.saturatingAdd (s.balanceOrDefault account) amount)⟩

def debit (s : FungibleTokenState) (account : AccountOwner) (amount : Nat) :
    Except FungibleError FungibleTokenState :=
  if amount = 0 then .ok s
  else do
    let balance ← (Amount.trySub (s.balanceOrDefault account) amount).mapError
      fun _ => FungibleError.insufficientBalance
    if balance = 0 then return ⟨s.accounts.remove account⟩
    else return ⟨s.accounts.insert account balance⟩

def total (s : FungibleTokenState) : Nat := s.accounts.sumBy fun _ balance => balance

end FungibleTokenState

/-! ## Contract -/

/-- Verifies that a transfer is authenticated for this local account. -/
def checkAccountAuthentication (runtime : Runtime) :
    AccountOwner → Except FungibleError Unit
  | .user address => ensure (runtime.authenticatedSigner = some address) .notAuthenticated
  | .application id => ensure (runtime.authenticatedCallerId = some id) .notAuthenticated

/-- The final step of a transfer where the tokens are sent to the destination. -/
def finishTransferToAccount (runtime : Runtime) (s : FungibleTokenState) (amount : Nat)
    (targetAccount : Account) (source : AccountOwner) : FungibleTokenState × List Outgoing :=
  if targetAccount.chainId = runtime.chainId then (s.credit targetAccount.owner amount, [])
  else (s, [⟨targetAccount.chainId, true,
    ⟨.credit targetAccount.owner amount source, runtime.authenticatedSigner⟩⟩])

/-- Debits an account on this chain and sends the tokens to the destination. -/
def transfer (runtime : Runtime) (s : FungibleTokenState) (owner : AccountOwner) (amount : Nat)
    (targetAccount : Account) : Except FungibleError (FungibleTokenState × List Outgoing) := do
  let s ← s.debit owner amount
  return finishTransferToAccount runtime s amount targetAccount owner

def claim (runtime : Runtime) (s : FungibleTokenState) (sourceAccount : Account) (amount : Nat)
    (targetAccount : Account) : Except FungibleError (FungibleTokenState × List Outgoing) :=
  if sourceAccount.chainId = runtime.chainId then
    transfer runtime s sourceAccount.owner amount targetAccount
  else .ok (s, [⟨sourceAccount.chainId, false,
    ⟨.withdraw sourceAccount.owner amount targetAccount, runtime.authenticatedSigner⟩⟩])

def executeOperation (tickerSymbol : String) (runtime : Runtime) (s : FungibleTokenState) :
    Operation → Except FungibleError (FungibleResponse × FungibleTokenState × List Outgoing)
  | .balance owner => .ok (.balance (s.balanceOrDefault owner), s, [])
  | .tickerSymbol => .ok (.tickerSymbol tickerSymbol, s, [])
  | .transfer owner amount targetAccount => do
    checkAccountAuthentication runtime owner
    return (.ok, ← transfer runtime s owner amount targetAccount)
  | .claim sourceAccount amount targetAccount => do
    checkAccountAuthentication runtime sourceAccount.owner
    return (.ok, ← claim runtime s sourceAccount amount targetAccount)

def executeMessage (runtime : Runtime) (s : FungibleTokenState) (isBouncing : Bool) :
    Message → Except FungibleError (FungibleTokenState × List Outgoing)
  | .credit target amount source =>
    let receiver := if isBouncing then source else target
    .ok (s.credit receiver amount, [])
  | .withdraw owner amount targetAccount => do
    checkAccountAuthentication runtime owner
    transfer runtime s owner amount targetAccount

/-- The accounts with which the application starts. If none are given, the creator gets 1M tokens
to act like a faucet. -/
def initialAccounts (signer : Option Owner) (accounts : BTreeMap AccountOwner Nat) :
    BTreeMap AccountOwner Nat :=
  match signer with
  | some owner =>
    if accounts.isEmpty then accounts.insert (.user owner) (1000000 * 10 ^ 18) else accounts
  | none => accounts

def instantiate (signer : Option Owner) (accounts : BTreeMap AccountOwner Nat) :
    FungibleTokenState :=
  FungibleTokenState.empty.initializeAccounts (initialAccounts signer accounts)

/-- An operation, and who has asked for it. -/
structure Call where
  authenticatedSigner : Option Owner
  authenticatedCallerId : Option ApplicationId
  operation : Operation

/-- The application on all chains. No other application is calling when a message is executed. -/
def program (tickerSymbol : String) :
    Network.Program ChainId FungibleTokenState Payload Call FungibleError where
  empty := .empty
  operation chainId s call := Prod.snd <$> executeOperation tickerSymbol
    ⟨chainId, call.authenticatedSigner, call.authenticatedCallerId⟩ s call.operation
  message chainId s bouncing payload :=
    executeMessage ⟨chainId, payload.authenticatedSigner, none⟩ s bouncing payload.message

abbrev NetworkState := Network.State ChainId FungibleTokenState Payload

/-- The application has just been created on a chain. -/
def created (creator : ChainId) (signer : Option Owner) (accounts : BTreeMap AccountOwner Nat) :
    NetworkState :=
  ⟨BTreeMap.empty.insert creator (instantiate signer accounts), []⟩

/-! ## Conservation -/

namespace FungibleTokenState

variable {s : FungibleTokenState} {account : AccountOwner} {amount : Nat}

theorem balanceOrDefault_le_total (s : FungibleTokenState) (account : AccountOwner) :
    s.balanceOrDefault account ≤ s.total := by
  unfold balanceOrDefault total
  cases hget : s.accounts.get account with
  | none => exact Nat.zero_le _
  | some balance => exact BTreeMap.le_sumBy (fun _ balance => balance) hget

theorem total_insert (s : FungibleTokenState) (account : AccountOwner) (balance : Nat) :
    total ⟨s.accounts.insert account balance⟩ + s.balanceOrDefault account = s.total + balance := by
  have hsum := s.accounts.sumBy_insert (fun _ balance => balance) account balance
  unfold total balanceOrDefault
  cases hget : s.accounts.get account <;> simpa [hget] using hsum

theorem total_remove (s : FungibleTokenState) (account : AccountOwner) :
    total ⟨s.accounts.remove account⟩ + s.balanceOrDefault account = s.total := by
  have hsum := s.accounts.sumBy_remove (fun _ balance => balance) account
  unfold total balanceOrDefault
  cases hget : s.accounts.get account <;> simpa [hget] using hsum

/-- A credit does not saturate if the total stays in range. -/
theorem total_credit (h : s.total + amount ≤ Amount.max) :
    (s.credit account amount).total = s.total + amount := by
  unfold credit
  split
  · omega
  · have hle := s.balanceOrDefault_le_total account
    have hbalance : Amount.saturatingAdd (s.balanceOrDefault account) amount =
        s.balanceOrDefault account + amount := by
      unfold Amount.saturatingAdd
      omega
    have hinsert := s.total_insert account (s.balanceOrDefault account + amount)
    rw [hbalance]
    omega

theorem total_debit (s : FungibleTokenState) (account : AccountOwner) (amount : Nat) :
    (s.debit account amount).Ensures fun s' => s'.total + amount = s.total := by
  unfold debit
  split
  · next hzero => exact .ok (by omega)
  · intro s' hs'
    obtain ⟨balance, hbalance, hs'⟩ := Except.bind_eq_ok.mp hs'
    have hsub := Amount.trySub_eq_ok.mp (Except.mapError_eq_ok.mp hbalance)
    split at hs'
    · cases hs'
      have hremove := s.total_remove account
      omega
    · cases hs'
      have hinsert := s.total_insert account balance
      omega

theorem total_initializeAccounts (accounts : BTreeMap AccountOwner Nat) :
    (empty.initializeAccounts accounts).total = accounts.sumBy fun _ balance => balance := by
  -- The keys that are still to come are not in the state yet.
  have hfold : ∀ (entries : List (AccountOwner × Nat)) (s : FungibleTokenState),
      entries.Pairwise (fun a b => a.1 < b.1) →
      (∀ e ∈ entries, s.accounts.get e.1 = none) →
      total (entries.foldl (fun s entry =>
        if entry.2 ≠ 0 then ⟨s.accounts.insert entry.1 entry.2⟩ else s) s) =
          s.total + (entries.map Prod.snd).sum := by
    intro entries
    induction entries with
    | nil => intro s _ _; rfl
    | cons entry entries ih =>
      intro s hsorted hnone
      obtain ⟨hlt, hsorted⟩ := List.pairwise_cons.mp hsorted
      obtain ⟨hhead, hnone⟩ := List.forall_mem_cons.mp hnone
      rw [List.foldl_cons, List.map_cons, List.sum_cons]
      by_cases hzero : entry.2 = 0
      · rw [if_neg (not_not.mpr hzero), ih s hsorted hnone]
        omega
      · rw [if_pos hzero, ih _ hsorted fun e he => ?_]
        · have hinsert := s.total_insert entry.1 entry.2
          have habsent : s.balanceOrDefault entry.1 = 0 := by simp [balanceOrDefault, hhead]
          omega
        · rw [BTreeMap.get_insert, if_neg (hlt e he).ne']
          exact hnone e he
  have hsum := hfold accounts.entries .empty accounts.sorted fun _ _ => rfl
  have hempty : total empty = 0 := rfl
  rw [hempty, Nat.zero_add] at hsum
  exact hsum

end FungibleTokenState

/-- The amount that a message brings with it. -/
def creditAmount (payload : Payload) : Nat :=
  match payload.message with
  | .credit _ amount _ => amount
  | .withdraw _ _ _ => 0

variable {runtime : Runtime} {s : FungibleTokenState}

/-- An execution keeps the tokens on its chain and those it sends away. -/
def Keeps (total : Nat) (r : FungibleTokenState × List Outgoing) : Prop :=
  r.1.total + Network.messageWeight creditAmount r.2 = total

theorem finishTransfer_keeps {amount : Nat} (h : s.total + amount ≤ Amount.max)
    (targetAccount : Account) (source : AccountOwner) :
    Keeps (s.total + amount) (finishTransferToAccount runtime s amount targetAccount source) := by
  unfold finishTransferToAccount
  split
  · exact FungibleTokenState.total_credit h
  · simp [Keeps, creditAmount]

theorem transfer_keeps (h : s.total ≤ Amount.max) (owner : AccountOwner) (amount : Nat)
    (targetAccount : Account) :
    (transfer runtime s owner amount targetAccount).Ensures (Keeps s.total) := by
  refine .bind (s.total_debit owner amount) fun s' hs' => .ok ?_
  rw [← hs']
  exact finishTransfer_keeps (by omega) targetAccount owner

theorem claim_keeps (h : s.total ≤ Amount.max) (sourceAccount : Account) (amount : Nat)
    (targetAccount : Account) :
    (claim runtime s sourceAccount amount targetAccount).Ensures (Keeps s.total) := by
  unfold claim
  split
  · exact transfer_keeps h sourceAccount.owner amount targetAccount
  · exact .ok (by simp [Keeps, creditAmount])

theorem executeOperation_keeps {tickerSymbol : String} (h : s.total ≤ Amount.max)
    (operation : Operation) :
    (executeOperation tickerSymbol runtime s operation).Ensures fun r => Keeps s.total r.2 := by
  cases operation with
  | balance owner => exact .ok rfl
  | tickerSymbol => exact .ok rfl
  | transfer owner amount targetAccount =>
    exact .bind_any fun _ => .bind (transfer_keeps h owner amount targetAccount) fun _ hr => .ok hr
  | claim sourceAccount amount targetAccount =>
    exact .bind_any fun _ => .bind (claim_keeps h sourceAccount amount targetAccount)
      fun _ hr => .ok hr

theorem executeMessage_keeps {isBouncing : Bool} {payload : Payload}
    (h : s.total + creditAmount payload ≤ Amount.max) :
    (executeMessage runtime s isBouncing payload.message).Ensures
      (Keeps (s.total + creditAmount payload)) := by
  obtain ⟨message, signer⟩ := payload
  cases message with
  | credit target amount source => exact .ok (FungibleTokenState.total_credit h)
  | withdraw owner amount targetAccount =>
    exact .bind_any fun _ => transfer_keeps h owner amount targetAccount

/-- Everything there is: the balances on all chains, and the credits in flight. -/
abbrev supply (s : NetworkState) : Nat := s.weight FungibleTokenState.total creditAmount

theorem supply_created (creator : ChainId) (signer : Option Owner)
    (accounts : BTreeMap AccountOwner Nat) : supply (created creator signer accounts) =
      (initialAccounts signer accounts).sumBy fun _ balance => balance := by
  have hsum := (BTreeMap.empty : BTreeMap ChainId FungibleTokenState).sumBy_insert
    (fun _ => FungibleTokenState.total) creator (instantiate signer accounts)
  have htotal := FungibleTokenState.total_initializeAccounts (initialAccounts signer accounts)
  simp only [BTreeMap.sumBy_empty, BTreeMap.get_empty, Option.elim_none] at hsum
  simp only [supply, Network.State.weight, created, List.map_nil, Network.messageWeight_nil]
  rw [instantiate, htotal] at hsum
  rw [instantiate]
  omega

theorem supply_step {tickerSymbol : String} {s s' : NetworkState}
    {event : Network.Event ChainId Call} (hsupply : supply s ≤ Amount.max)
    (hstep : Network.step (program tickerSymbol) s event = some s') : supply s' = supply s := by
  have hempty : FungibleTokenState.total (program tickerSymbol).empty = 0 := rfl
  rcases Network.step_cases hstep with
    ⟨c, call, r, -, hr, rfl⟩ | ⟨index, m, r, bouncing, hm, -, hr, rfl⟩
  · have hle := Network.weight_chain_le (v := creditAmount) hempty s c
    obtain ⟨⟨response, r'⟩, hr', rfl⟩ := Except.map_eq_ok.mp hr
    have hkeeps : Keeps _ r' := executeOperation_keeps (hle.trans hsupply) call.operation _ hr'
    have hupdate := Network.weight_update (v := creditAmount) hempty s c r' s.inFlight
    simp only [Keeps] at hkeeps
    simp only [supply]
    omega
  · generalize (if bouncing then m.sender else m.target) = c at hr ⊢
    have hle := Network.weight_chain_add_le (v := creditAmount) hempty s c hm
    have hkeeps : Keeps _ r := executeMessage_keeps (hle.trans hsupply) _ hr
    have hupdate := Network.weight_update (v := creditAmount) hempty s c r
      (s.inFlight.eraseIdx index)
    have herase := Network.messageWeight_eraseIdx (v := creditAmount) hm
    simp only [Keeps] at hkeeps
    simp only [supply]
    omega

/-- **The supply is conserved.** Whatever is executed on whichever chains, in any order, the
balances on all chains and the credits that are in flight add up to the initial balances. -/
theorem supply_conserved (tickerSymbol : String) (creator : ChainId) (signer : Option Owner)
    (accounts : BTreeMap AccountOwner Nat) {supply₀ : Nat}
    (hsum : (initialAccounts signer accounts).sumBy (fun _ balance => balance) = supply₀)
    (hsupply : supply₀ < 2 ^ 128) {events : List (Network.Event ChainId Call)} {s : NetworkState}
    (hrun : Run.run (Network.step (program tickerSymbol)) (created creator signer accounts) events =
      some s) :
    (s.chains.sumBy fun _ state => state.accounts.sumBy fun _ balance => balance) +
      Network.messageWeight creditAmount (s.inFlight.map Network.InFlight.toOutgoing) = supply₀ := by
  have hstart : supply (created creator signer accounts) = supply₀ :=
    (supply_created creator signer accounts).trans hsum
  refine Run.invariant (P := fun s => supply s = supply₀) ?_ hstart hrun
  intro s event s' hs hstep
  rw [supply_step (by rw [hs]; unfold Amount.max; omega) hstep]
  exact hs

/-- Two of five tokens are on their way to another chain. -/
theorem supply_conserved_in_flight :
    let here : ChainId := ⟨⟨0⟩⟩
    let there : ChainId := ⟨⟨1⟩⟩
    let alice : Owner := ⟨⟨7⟩⟩
    let accounts := BTreeMap.empty.insert (AccountOwner.user alice) 5
    let events := [.operation here
      ⟨some alice, none, .transfer (.user alice) 2 ⟨there, .user alice⟩⟩]
    ∃ s, Run.run (Network.step (program "FUN")) (created here none accounts) events = some s ∧
      s.inFlight.length = 1 ∧
      (s.chains.sumBy fun _ state => state.accounts.sumBy fun _ balance => balance) +
        Network.messageWeight creditAmount (s.inFlight.map Network.InFlight.toOutgoing) = 5 := by
  intro here there alice accounts events
  obtain ⟨s, hrun, hflight⟩ : ∃ s, Run.run (Network.step (program "FUN"))
      (created here none accounts) events = some s ∧ s.inFlight.length = 1 := ⟨_, rfl, rfl⟩
  exact ⟨s, hrun, hflight, supply_conserved "FUN" here none accounts (by decide) (by decide) hrun⟩

end Linera.Fungible
