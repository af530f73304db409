import Linera.Chain.Conservation
import Linera.Chain.Trace
import Linera.Execution.Authority

/-!
# Who may spend what

What can take tokens from an account on a chain, and from the chain itself. The
accounts of users and applications are only debited for their owners
(`accounts_protected`), and each claim from an account on another chain is made by
its owner, unless it is rejected and only returns to its sender. The balance of the chain is only
debited for an owner of the chain, except that contracts can open chains with a
balance for anyone (`chainBalance_protected_iff`).
-/

namespace Linera

/-- The action may take tokens from the account, or from the chain itself. -/
def Action.Touches (account : Option AccountOwner) : Action → Prop
  | .operation _ (.transfer owner _ _) => account = owner.map .user
  | .operation _ (.openChain _) => account = none
  | .message _ (.withdraw owner _ _) => account = some owner
  | .fees payer => account = none ∨ ∃ owner ∈ payer, account = some (.user owner)
  | .transfer _ source _ _ => account = source
  | .openChain .. => account = none
  | _ => False

namespace Funds

/-- Whether one balance can change from the first to the second value, if the account is or is not
touched: it can become less only if it is, and it stays a `u128`. -/
structure Moves (touched : Prop) (balance balance' : Nat) : Prop where
  bounded : balance ≤ Amount.max → balance' ≤ Amount.max
  touched : balance ≤ Amount.max → balance' < balance → touched

theorem Moves.of_eq {touched : Prop} {balance balance' : Nat} (h : balance' = balance) :
    Moves touched balance balance' := by
  subst h
  exact ⟨id, fun _ hlt => absurd hlt (lt_irrefl _)⟩

theorem Debited.moves {source : Option AccountOwner} {amount : Nat} {f f' : Funds}
    (h : Debited source amount f f') (account : Option AccountOwner) :
    Moves (account = source) (f.balanceOf account) (f'.balanceOf account) := by
  refine ⟨fun hle => (h.le account).trans hle, fun _ hlt => ?_⟩
  by_contra hne
  exact absurd (h.others account hne) hlt.ne

theorem Credited.moves {target : Option AccountOwner} {amount : Nat} {f f' : Funds}
    (h : Credited target amount f f') (account : Option AccountOwner) (touched : Prop) :
    Moves touched (f.balanceOf account) (f'.balanceOf account) := by
  by_cases heq : account = target
  · subst heq
    rw [h.target, Amount.saturatingAdd]
    exact ⟨fun _ => Nat.min_le_right _ _, fun hle hlt => by omega⟩
  · exact .of_eq (h.others account heq)

theorem Charged.moves {payer : Option Owner} {f f' : Funds} (h : Charged payer f f')
    (account : Option AccountOwner) :
    Moves (account = none ∨ ∃ owner ∈ payer, account = some (.user owner))
      (f.balanceOf account) (f'.balanceOf account) := by
  refine ⟨fun hle => (h.le account).trans hle, fun _ hlt => ?_⟩
  cases account with
  | none => exact .inl rfl
  | some owner =>
    refine .inr ?_
    by_contra hnot
    refine absurd (h.others owner fun o ho heq => hnot ⟨o, ho, ?_⟩) hlt.ne
    rw [heq]

end Funds

variable {hashing : Hashing} {e : TraceEntry} {block : Block} {owner : AccountOwner}

variable {messages : List (RawOutgoingMessage SystemMessage Nat)}

theorem SystemOperation.Effect.moves {context : OperationContext} {f f' : Funds}
    {t t' : TransactionTracker} {operation : SystemOperation}
    (h : operation.Effect hashing context f f' t t' messages) (signer : Option Owner)
    (account : Option AccountOwner) :
    Funds.Moves ((Action.operation signer operation).Touches account) (f.balanceOf account)
      (f'.balanceOf account) := by
  cases operation with
  | openChain config => exact h.1.moves account
  | changeOwnership =>
    rw [h.1]
    cases account <;> exact .of_eq rfl
  | transfer owner recipient amount => exact h.2.1.moves account
  | claim => exact .of_eq (by rw [h.2.1])
  | createApplication | closeChain | changeApplicationPermissions | subscribe | unsubscribe
  | publishBytecode | publishDataBlob | readBlob | requestApplication | admin =>
    exact .of_eq (by rw [h.1])

theorem SystemMessage.Effect.moves {isBouncing : Bool} {f f' : Funds} {message : SystemMessage}
    (h : message.Effect isBouncing f f' messages) (account : Option AccountOwner) :
    Funds.Moves ((Action.message isBouncing message).Touches account) (f.balanceOf account)
      (f'.balanceOf account) := by
  cases message with
  | credit target amount source => exact h.1.moves account _
  | withdraw owner amount recipient => exact h.1.moves account
  | openChain | createCommittee | removeCommittee | subscribe | unsubscribe | applicationCreated
  | registerApplications | requestApplication => exact .of_eq (by rw [h.1])

/-- What an entry can do to one balance. -/
theorem TraceEntry.Accounted.moves (h : e.Accounted hashing block) (account : Option AccountOwner) :
    Funds.Moves (e.action.Touches account) (e.before.balanceOf account)
      (e.after.balanceOf account) := by
  obtain ⟨action, before, after⟩ := e
  obtain ⟨hsound, hcause⟩ := h
  cases action with
  | startBlock => cases hcause
  | operation signer operation =>
    obtain ⟨context, t, t', messages, -, heffect⟩ := hsound
    exact heffect.moves signer account
  | message isBouncing message =>
    obtain ⟨messages, heffect⟩ := hsound
    exact heffect.moves account
  | fees payer => exact hsound.moves account
  | bounce | call | readSigner => exact .of_eq (by rw [show after = before from hsound])
  | transfer caller source destination amount =>
    obtain ⟨frame, rest, -, -, hdebit⟩ := hsound
    exact hdebit.moves account
  | claim =>
    obtain ⟨frame, rest, owner, -, -, -, hsame⟩ := hsound
    exact .of_eq (by rw [show after = before from hsame])
  | openChain => exact Funds.Debited.moves hsound account

/-! ## The accounts of users and applications -/

/-- The running contract acts for the owner of an account: the signer of its frame is the user, or
it is the application. -/
def Caller.ActsFor (caller : Caller) (owner : AccountOwner) : Prop :=
  ∃ frame ∈ caller.stack.head?, match owner with
    | .user o => frame.signer = some o
    | .application id => frame.id = id

/-- The action takes tokens from an account for its owner: by a transfer, by fees for a block that
the owner has signed, or by an accepted message with a claim from the account. -/
def Action.SpendsFor (block : Block) (owner : AccountOwner) : Action → Prop
  | .operation _ (.transfer source recipient amount) => ∃ o, owner = .user o ∧ source = some o ∧
    block.authenticatedSigner = some o ∧
      .system (.transfer source recipient amount) ∈ block.operations
  | .transfer caller source _ _ => source = some owner ∧ caller.ActsFor owner
  | .fees _ => ∃ o, owner = .user o ∧ block.authenticatedSigner = some o
  | .message _ (.withdraw o amount recipient) =>
    owner = o ∧ block.Accepts (.withdraw o amount recipient)
  | _ => False

/-- The action claims tokens from an account on another chain for its owner. -/
def Action.ClaimsFor (block : Block) (owner : AccountOwner) : Action → Prop
  | .operation _ (.claim o targetId recipient amount) => owner = .user o ∧
    block.authenticatedSigner = some o ∧
      .system (.claim o targetId recipient amount) ∈ block.operations
  | .claim caller _ _ _ => caller.ActsFor owner
  | _ => False

theorem Caller.actsFor_of_maySpend {caller : Caller} {frame : Frame} {rest : List Frame} {f : Funds}
    (hstack : caller.stack = frame :: rest)
    (h : f.MaySpend frame.signer (some frame.id) (some owner)) : caller.ActsFor owner := by
  refine ⟨frame, by rw [hstack]; rfl, ?_⟩
  cases owner with
  | user o => exact h
  | application id => exact Option.some.inj h

theorem TraceEntry.Accounted.spendsFor (h : e.Accounted hashing block)
    (htouches : e.action.Touches (some owner)) : e.action.SpendsFor block owner := by
  obtain ⟨action, before, after⟩ := e
  obtain ⟨hsound, hcause⟩ := h
  cases action with
  | operation signer operation =>
    obtain ⟨context, t, t', messages, hsigner, heffect⟩ := hsound
    obtain ⟨hblock, hmem⟩ := hcause
    cases operation with
    | transfer source recipient amount =>
      obtain ⟨o, rfl, rfl⟩ := Option.map_eq_some_iff.mp (Eq.symm htouches)
      refine ⟨o, rfl, rfl, ?_, hmem⟩
      rw [← hblock, ← hsigner]
      exact heffect.1
    | openChain => cases htouches
    | _ => exact htouches
  | message isBouncing message =>
    cases message with
    | withdraw o amount recipient => exact ⟨Option.some.inj htouches, Option.some.inj htouches ▸ hcause⟩
    | _ => exact htouches
  | fees payer =>
    obtain hnone | ⟨o, ho, hsome⟩ := htouches
    · cases hnone
    · exact ⟨o, Option.some.inj hsome, Eq.trans (Eq.symm hcause) ho⟩
  | transfer caller source destination amount =>
    obtain ⟨frame, rest, hstack, hmay, -⟩ := hsound
    obtain rfl : some owner = source := htouches
    exact ⟨rfl, Caller.actsFor_of_maySpend hstack hmay⟩
  | openChain => cases htouches
  | _ => exact htouches

theorem TraceEntry.Accounted.claimsFor (h : e.Accounted hashing block) {destination : Destination}
    {amount : Nat} {recipient : Recipient}
    (hissue : e.action.issue = some (.withdrawal destination owner amount recipient)) :
    e.action.ClaimsFor block owner := by
  obtain ⟨action, before, after⟩ := e
  obtain ⟨hsound, hcause⟩ := h
  cases action with
  | operation signer operation =>
    obtain ⟨context, t, t', messages, hsigner, heffect⟩ := hsound
    obtain ⟨hblock, hmem⟩ := hcause
    cases operation with
    | claim o targetId recipient' amount' =>
      cases hissue
      refine ⟨rfl, ?_, hmem⟩
      rw [← hblock, ← hsigner]
      exact heffect.1
    | openChain => cases hissue
    | _ => cases hissue
  | claim caller source destination' amount' =>
    obtain ⟨frame, rest, owner', hstack, howner, hmay, -⟩ := hsound
    simp only [Action.issue, howner, Option.map_some, Option.some.injEq, Issue.withdrawal.injEq]
      at hissue
    obtain ⟨-, rfl, -, -⟩ := hissue
    exact Caller.actsFor_of_maySpend hstack hmay
  | openChain => cases hissue
  | bounce message => cases message <;> cases hissue
  | _ => cases hissue

theorem TraceEntry.Accounted.returns (h : e.Accounted hashing block) {message : SystemMessage}
    (hissue : e.action.issue = some (.returned message)) : block.Returns message := by
  obtain ⟨action, before, after⟩ := e
  obtain ⟨hsound, hcause⟩ := h
  cases action with
  | operation signer operation =>
    cases operation with
    | _ => cases hissue
  | bounce bounced =>
    cases bounced with
    | withdraw | openChain =>
      cases hissue
      exact hcause
    | _ => cases hissue
  | claim caller source destination amount =>
    obtain ⟨owner, -, hwithdrawal⟩ := Option.map_eq_some_iff.mp hissue
    cases hwithdrawal
  | _ => cases hissue

/-! ## The balance of the chain -/

def Funds.ownedBy (f : Funds) (signer : Option Owner) : Bool :=
  signer.any fun owner => (f.ownership.verifyOwner owner).isSome

/-- The running contract acts for an owner of the chain. -/
def Caller.actsForOwner (caller : Caller) (f : Funds) : Bool :=
  caller.stack.head?.any fun frame => f.ownedBy frame.signer

/-- The action may take tokens from the chain with the given funds: by fees, by opening a chain in
an operation, or by a transfer or a new chain for an owner of the chain. -/
def Action.spendsChain (f : Funds) : Action → Bool
  | .fees _ => true
  | .operation _ (.openChain _) => true
  | .operation signer (.transfer none _ _) => f.ownedBy signer
  | .transfer caller none _ _ => caller.actsForOwner f
  | .openChain caller _ _ _ => caller.actsForOwner f
  | _ => false

/-- A contract that opens a chain with tokens of this chain acts for one of its owners. -/
def Action.opensForOwner (f : Funds) : Action → Bool
  | .openChain caller _ _ balance => balance == 0 || caller.actsForOwner f
  | _ => true

theorem Funds.ownedBy_of_maySpend {f : Funds} {signer : Option Owner}
    {applicationId : Option UserApplicationId} (h : f.MaySpend signer applicationId none) :
    f.ownedBy signer = true := by
  obtain ⟨owner, rfl, howner⟩ := h
  exact howner

theorem TraceEntry.Accounted.spendsChain (h : e.Accounted hashing block)
    (htouches : e.action.Touches none) (hopens : e.action.opensForOwner e.before = true)
    (hlt : e.after.balanceOf none < e.before.balanceOf none) :
    e.action.spendsChain e.before = true := by
  obtain ⟨action, before, after⟩ := e
  obtain ⟨hsound, hcause⟩ := h
  cases action with
  | operation signer operation =>
    obtain ⟨context, t, t', messages, hsigner, heffect⟩ := hsound
    cases operation with
    | transfer source recipient amount =>
      obtain rfl : source = none := Option.map_eq_none_iff.mp (Eq.symm htouches)
      exact hsigner ▸ Funds.ownedBy_of_maySpend heffect.1
    | openChain => rfl
    | _ => cases htouches
  | message isBouncing message =>
    cases message with
    | withdraw => cases htouches
    | _ => cases htouches
  | fees => rfl
  | transfer caller source destination amount =>
    obtain ⟨frame, rest, hstack, hmay, -⟩ := hsound
    obtain rfl : none = source := htouches
    simp only [Action.spendsChain, Caller.actsForOwner, hstack, List.head?_cons, Option.any_some]
    exact Funds.ownedBy_of_maySpend hmay
  | openChain caller ownership permissions balance =>
    have hsource : after.balanceOf none + balance = before.balanceOf none := hsound.source
    have hpos : balance ≠ 0 := by
      dsimp only at hlt
      omega
    simpa [Action.spendsChain, Action.opensForOwner, hpos] using hopens
  | _ => cases htouches

/-- A chain that is opened with tokens takes them from this chain. -/
theorem TraceEntry.Accounted.opensForOwner (h : e.Accounted hashing block)
    (hspends : e.after.balanceOf none < e.before.balanceOf none →
      e.action.spendsChain e.before = true) : e.action.opensForOwner e.before = true := by
  obtain ⟨action, before, after⟩ := e
  cases action with
  | openChain caller ownership permissions balance =>
    have hsource : after.balanceOf none + balance = before.balanceOf none := h.sound.source
    simp only [Action.opensForOwner, Bool.or_eq_true, beq_iff_eq]
    by_cases hzero : balance = 0
    · exact .inl hzero
    · exact .inr (hspends (by dsimp only; omega))
  | _ => rfl

namespace ChainStateView

variable (context : ChainContext)

variable (c : ChainStateView)

/-- Initializing a chain does not change the accounts on it. -/
theorem fundsAtStart_balanceOf_some (block : Block) (owner : AccountOwner) :
    (c.fundsAtStart block).balanceOf (some owner) = c.funds.balanceOf (some owner) := by
  unfold fundsAtStart
  split <;> rfl

/-- The accounts on a chain are only debited for their owners, and claims are made by the owners
of the accounts, unless they are tracked messages of rejected bundles that return to their senders:
the trace explains all changes of the funds and, in their order, all claims. -/
theorem accounts_protected {c : ChainStateView} {block : Block} {localTime : Nat}
    {responses : Option (List (List OracleResponse))} {e : BlockExecution}
    (h : c.executeBlock context block localTime responses = .ok e)
    (hbounded : ∀ owner, c.funds.balanceOf (some owner) ≤ Amount.max) :
    Chained c.funds e.trace e.chain.funds ∧
      (∀ entry ∈ e.trace, ∀ owner,
        entry.after.balanceOf (some owner) < entry.before.balanceOf (some owner) →
          entry.action.SpendsFor block owner) ∧
      e.outcome.messages.flatten.filterMap OutgoingMessage.issue =
        e.trace.filterMap (fun entry => entry.action.issue) ∧
      ∀ entry ∈ e.trace,
        (∀ destination owner amount recipient,
          entry.action.issue = some (.withdrawal destination owner amount recipient) →
            entry.action.ClaimsFor block owner) ∧
        ∀ message, entry.action.issue = some (.returned message) → block.Returns message := by
  obtain ⟨hchained, ⟨entries, htrace, haccounted⟩, hissued⟩ := executeBlock_traces context h
  refine ⟨hchained, fun entry hentry owner hlt => ?_, hissued, fun entry hentry => ?_⟩
  · have hmoves : ∀ entry ∈ e.trace, Funds.Moves (entry.action.Touches (some owner))
        (entry.before.balanceOf (some owner)) (entry.after.balanceOf (some owner)) := by
      rw [htrace]
      refine List.forall_mem_cons.mpr ⟨?_, fun entry hentry => (haccounted entry hentry).moves _⟩
      exact .of_eq (c.fundsAtStart_balanceOf_some block owner)
    have hbefore := hchained.forall_mem (P := fun f => f.balanceOf (some owner) ≤ Amount.max)
      (hbounded owner)
      (fun entry hentry => (hmoves entry hentry).bounded) entry hentry
    have htouches := (hmoves entry hentry).touched hbefore hlt
    rw [htrace] at hentry
    obtain rfl | hmem := List.mem_cons.mp hentry
    · exact htouches
    · exact (haccounted entry hmem).spendsFor htouches
  · rw [htrace] at hentry
    obtain rfl | hmem := List.mem_cons.mp hentry
    · exact ⟨fun _ _ _ _ hissue => (nomatch hissue), fun _ hissue => (nomatch hissue)⟩
    · exact ⟨fun _ _ _ _ hissue => (haccounted entry hmem).claimsFor hissue,
        fun _ hissue => (haccounted entry hmem).returns hissue⟩

-- The owner of the chain has an account with ten tokens.

def accountChain : ChainStateView :=
  activeChain.setSystem { activeChain.executionState.system with
    balances := .ofList [(.user ⟨⟨1⟩⟩, 10)] }

theorem accountChain_bounded (owner : AccountOwner) :
    accountChain.funds.balanceOf (some owner) ≤ Amount.max := by
  have hget : accountChain.funds.balances = BTreeMap.insert .empty (.user ⟨⟨1⟩⟩) 10 := rfl
  rw [Funds.balanceOf, hget, BTreeMap.get_insert]
  split
  · decide
  · exact Nat.zero_le _

/-- The owner transfers three tokens from the account and claims two from an account elsewhere. -/
def transferAndClaim : Block :=
  ownerBlock [] [.system (.transfer (some ⟨⟨1⟩⟩) (.account ⟨⟨⟨5⟩⟩, none⟩) 3),
    .system (.claim ⟨⟨1⟩⟩ ⟨⟨7⟩⟩ (.account ⟨⟨⟨0⟩⟩, none⟩) 2)]

theorem accounts_protected_transferAndClaim :
    ∃ e ∈ (accountChain.executeBlock simpleContext transferAndClaim 0 none).toOption,
      e.chain.funds.balanceOf (some (.user ⟨⟨1⟩⟩)) = 7 ∧
        Chained accountChain.funds e.trace e.chain.funds ∧
        (∀ entry ∈ e.trace, ∀ owner,
          entry.after.balanceOf (some owner) < entry.before.balanceOf (some owner) →
            entry.action.SpendsFor transferAndClaim owner) ∧
        ∀ entry ∈ e.trace,
          (∀ destination owner amount recipient,
            entry.action.issue = some (.withdrawal destination owner amount recipient) →
              entry.action.ClaimsFor transferAndClaim owner) ∧
          ∀ message, entry.action.issue = some (.returned message) →
            transferAndClaim.Returns message := by
  obtain ⟨e, he, hbalance⟩ :
    ∃ e ∈ (accountChain.executeBlock simpleContext transferAndClaim 0 none).toOption,
      e.chain.funds.balanceOf (some (.user ⟨⟨1⟩⟩)) = 7 := by decide
  obtain ⟨hchained, hspends, -, hclaims⟩ :=
    accounts_protected simpleContext (Except.toOption_eq_some.mp he) accountChain_bounded
  exact ⟨e, he, hbalance, hchained, hspends, hclaims⟩

/-- A claim from another chain that asks to be returned if it is rejected. -/
def trackedWithdrawal : PostedMessage :=
  ⟨none, 0, none, .tracked, 0, .system (.withdraw (.user ⟨⟨9⟩⟩) 2 .burn)⟩

/-- A rejected claim returns to its sender: the block sends it although nobody claims anything. -/
theorem returned_claim_unauthenticated :
    ∃ e ∈ (activeChain.executeBlock simpleContext
        (ownerBlock [oneMessage .reject trackedWithdrawal] []) 0 none).toOption,
      (∃ m ∈ e.outcome.messages.flatten, m.message = .system (.withdraw (.user ⟨⟨9⟩⟩) 2 .burn)) ∧
        ∀ entry ∈ e.trace, entry.action.caller = none ∧ (entry.action.issue = none ∨
          entry.action = .bounce (.withdraw (.user ⟨⟨9⟩⟩) 2 .burn)) := by
  decide

/-- Initializing the chain with this block does not take tokens from it. -/
def KeepsBalance (block : Block) : Prop :=
  ∀ config ∈ c.initialConfig block, c.funds.balance ≤ config.balance

theorem fundsAtStart_balanceOf_none_lt_iff (block : Block) :
    (c.fundsAtStart block).balanceOf none < c.funds.balanceOf none ↔ ¬c.KeepsBalance block := by
  unfold fundsAtStart KeepsBalance
  split
  · next hconfig => simp [hconfig]
  · next config hconfig => simp [hconfig, Funds.balanceOf]

/-- The balance of a chain is only debited for its owners exactly if contracts only open chains
with a balance for the owners of the chain. -/
theorem chainBalance_protected_iff {c : ChainStateView} {block : Block} {localTime : Nat}
    {responses : Option (List (List OracleResponse))} {e : BlockExecution}
    (h : c.executeBlock context block localTime responses = .ok e)
    (hbounded : c.funds.balance ≤ Amount.max)
    (hconfig : ∀ config ∈ c.initialConfig block, config.balance ≤ Amount.max) :
    Chained c.funds e.trace e.chain.funds ∧
      ((∀ entry ∈ e.trace, entry.after.balanceOf none < entry.before.balanceOf none →
          entry.action.spendsChain entry.before = true) ↔
        c.KeepsBalance block ∧
          ∀ entry ∈ e.trace, entry.action.opensForOwner entry.before = true) := by
  obtain ⟨hchained, ⟨entries, htrace, haccounted⟩, -⟩ := executeBlock_traces context h
  have hstart : (c.fundsAtStart block).balanceOf none ≤ Amount.max := by
    unfold fundsAtStart
    split
    · exact hbounded
    · next config hinitial => exact hconfig config hinitial
  rw [htrace] at hchained ⊢
  have hbefore := hchained.2.forall_mem (P := fun f => f.balanceOf none ≤ Amount.max) hstart
    fun entry hentry => ((haccounted entry hentry).moves none).bounded
  refine ⟨hchained, ?_⟩
  rw [List.forall_mem_cons, List.forall_mem_cons]
  constructor
  · rintro ⟨hfirst, hrest⟩
    refine ⟨?_, rfl, fun entry hentry => (haccounted entry hentry).opensForOwner
      (hrest entry hentry)⟩
    by_contra hnot
    cases hfirst ((c.fundsAtStart_balanceOf_none_lt_iff block).mpr hnot)
  · rintro ⟨hkeeps, -, hrest⟩
    refine ⟨fun hlt => absurd hkeeps ((c.fundsAtStart_balanceOf_none_lt_iff block).mp hlt),
      fun entry hentry hlt => ?_⟩
    have haccount := haccounted entry hentry
    exact haccount.spendsChain ((haccount.moves none).touched (hbefore entry hentry) hlt)
      (hrest entry hentry) hlt

-- A chain with ten tokens and an application, and a block that accepts a message to it.

def chainWithApplication : ChainStateView :=
  activeChain.setSystem { activeChain.executionState.system with
    balance := 10
    registry := ⟨.ofList [((numberedApplication 0).applicationId, numberedApplication 0)]⟩ }

/-- An environment in which contracts make the given requests when they are executed. -/
def requestingContext (requests : List ContractRequest) : ChainContext :=
  { simpleContext with toExecutionRuntimeContext := scriptedContext fun _ => ⟨requests, []⟩ }

def messageToApplication (signer : Option Owner) : PostedMessage :=
  ⟨signer, 0, none, .simple, 0, .user (numberedApplication 0).applicationId []⟩

/-- The contract opens a chain with four tokens. -/
def openingContext : ChainContext :=
  requestingContext [.openChain Validator.superOwner .default 4]

/-- The contract opens a chain for the owner of the chain. -/
theorem chainBalance_protected_owner :
    ∃ e ∈ (chainWithApplication.executeBlock openingContext
        (ownerBlock [oneMessage .accept (messageToApplication (some ⟨⟨1⟩⟩))] []) 0 none).toOption,
      e.chain.funds.balance = 6 ∧
        ∀ entry ∈ e.trace, entry.after.balanceOf none < entry.before.balanceOf none →
          entry.action.spendsChain entry.before = true := by
  obtain ⟨e, he, hbalance, hopens⟩ : ∃ e ∈ (chainWithApplication.executeBlock openingContext
        (ownerBlock [oneMessage .accept (messageToApplication (some ⟨⟨1⟩⟩))] []) 0 none).toOption,
      e.chain.funds.balance = 6 ∧
        ∀ entry ∈ e.trace, entry.action.opensForOwner entry.before = true := by decide +kernel
  have hinitial : chainWithApplication.initialConfig
      (ownerBlock [oneMessage .accept (messageToApplication (some ⟨⟨1⟩⟩))] []) = none := by
    decide +kernel
  have hiff := (chainBalance_protected_iff openingContext (Except.toOption_eq_some.mp he)
    (by decide) (by simp [hinitial])).2
  exact ⟨e, he, hbalance, hiff.mpr ⟨by simp [KeepsBalance, hinitial], hopens⟩⟩

/-- The contract opens a chain with the chain's tokens while it executes a message that nobody
has signed. -/
theorem chainBalance_spent_unsigned :
    ∃ e ∈ (chainWithApplication.executeBlock openingContext
        (ownerBlock [oneMessage .accept (messageToApplication none)] []) 0 none).toOption,
      ∃ entry ∈ e.trace, entry.after.balanceOf none < entry.before.balanceOf none ∧
        entry.action.spendsChain entry.before = false := by
  decide +kernel

end ChainStateView

end Linera
