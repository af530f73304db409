import Linera.Execution.Authority

/-!
# Closing a chain from a contract

A chain is closed by an operation of its owner, or by a contract that calls
`close_chain`. Both reach `SystemExecutionStateView::close_chain`, which returns the
messages that unsubscribe the chain from its channels. The operation sends them; the
handler of the contract's request drops them, and no other request sends such a message.
-/

namespace Linera

def SystemMessage.isUnsubscribe : SystemMessage → Bool
  | .unsubscribe _ _ => true
  | _ => false

def ExecutionOutcome.unsubscribes : ExecutionOutcome → List (RawOutgoingMessage SystemMessage Nat)
  | .system outcome => outcome.messages.filter fun message => message.message.isUnsubscribe
  | .user _ _ => []

/-- The `Unsubscribe` messages that the transaction has sent so far. -/
def TransactionTracker.unsubscribes (t : TransactionTracker) :
    List (RawOutgoingMessage SystemMessage Nat) :=
  t.outcomes.flatMap ExecutionOutcome.unsubscribes

theorem TransactionTracker.unsubscribes_addOutcome {t t' : TransactionTracker}
    {outcome : ExecutionOutcome} (h : t.addOutcome outcome = .ok t') :
    t'.unsubscribes = t.unsubscribes ++ outcome.unsubscribes := by
  obtain ⟨-, rfl⟩ := TransactionTracker.addOutcome_eq_ok.mp h
  simp [unsubscribes]

namespace SystemExecutionStateView

variable (s : SystemExecutionStateView)

theorem debit_keeps (account : Option AccountOwner) (amount : Nat) :
    (s.debit account amount).Ensures s.KeptOrClosed := by
  unfold debit
  repeat' split
  all_goals first | exact .error | exact .ok (.refl _)

theorem transfer_keeps (signer : Option Owner) (applicationId : Option UserApplicationId)
    (source : Option AccountOwner) (recipient : Recipient) (amount : Nat) :
    (s.transfer signer applicationId source recipient amount).Ensures fun p =>
      s.KeptOrClosed p.1 ∧ p.2 = creditMessage source amount recipient :=
  .bind_any fun _ => .guard fun _ => .bind (s.debit_keeps _ _) fun _ h => .ok ⟨h, rfl⟩

theorem openChain_keeps (hashing : Hashing) (config : OpenChainConfig) (id : MessageId) :
    (s.openChain hashing config id).Ensures fun p =>
      s.KeptOrClosed p.1 ∧ ∀ message ∈ p.2, message.message.isUnsubscribe = false :=
  .guard fun _ => .guard fun _ => .guard fun _ => .bind (s.debit_keeps _ _) fun _ h =>
    .ok ⟨h, by simp [plainMessage, SystemMessage.isUnsubscribe]⟩

theorem withStateAndGrant_subscriptions (grant : Option Nat) (c : ResourceController (Option Owner))
    (f : ResourceController Sources → Except ExecutionError (ResourceController Sources)) :
    (c.withStateAndGrant s grant f).Ensures fun p =>
      p.2.1.subscriptions = s.subscriptions ∧ p.2.1.closed = s.closed := by
  refine .bind_any fun c' => .ok ?_
  show (s.putSources c.account grant c'.account).1.subscriptions = _ ∧
    (s.putSources c.account grant c'.account).1.closed = _
  unfold putSources
  constructor
  all_goals
    dsimp only
    repeat' split
    all_goals rfl

end SystemExecutionStateView

namespace SyncRuntime

/-- What contracts do to the channels of the chain: nothing, or they close it and tell no one. -/
structure ClosesSilently (r r' : SyncRuntime) : Prop where
  channels : r.state.system.KeptOrClosed r'.state.system
  unsubscribes : r'.transactionTracker.unsubscribes = r.transactionTracker.unsubscribes

theorem ClosesSilently.trans {r r' r'' : SyncRuntime} (h : ClosesSilently r r')
    (h' : ClosesSilently r' r'') : ClosesSilently r r'' :=
  ⟨h.channels.trans h'.channels, h'.unsubscribes.trans h.unsubscribes⟩

variable {hashing : Hashing} {r r' : SyncRuntime}

/-- A request that sends system messages of other kinds. -/
theorem unsubscribes_of_addOutcome {outcome : RawExecutionOutcome SystemMessage Nat}
    {t : TransactionTracker} (hadd : r.transactionTracker.addOutcome (.system outcome) = .ok t)
    (hother : ∀ message ∈ outcome.messages, message.message.isUnsubscribe = false) :
    t.unsubscribes = r.transactionTracker.unsubscribes := by
  have hnone : outcome.messages.filter (fun message => message.message.isUnsubscribe) = [] := by
    simpa using hother
  rw [TransactionTracker.unsubscribes_addOutcome hadd, ExecutionOutcome.unsubscribes, hnone,
    List.append_nil]

theorem Step.closesSilently (h : Step hashing r r') : ClosesSilently r r' := by
  cases h with
  | quiet h => exact ⟨h.channels, congrArg (List.flatMap _) h.records.outcomes⟩
  | readSigner => exact ⟨.refl _, rfl⟩
  | @transfer _ _ source destination amount _ message _ _ htransfer hadd =>
    obtain ⟨hkept, hmessage⟩ := r.state.system.transfer_keeps _ _ _ _ _ _ htransfer
    obtain rfl : message = SystemExecutionStateView.creditMessage source amount _ := hmessage
    have hsame := unsubscribes_of_addOutcome hadd <| by
      simp [RawExecutionOutcome.default, RawExecutionOutcome.withMessages,
        SystemExecutionStateView.creditMessage, SystemExecutionStateView.plainMessage,
        SystemMessage.isUnsubscribe]
    exact ⟨hkept, hsame⟩
  | claim _ _ hclaim hadd =>
    obtain ⟨-, rfl⟩ := SystemExecutionStateView.claim_ensures _ _ _ _ _ _ r.funds _ hclaim
    have hsame := unsubscribes_of_addOutcome hadd <| by
      simp [RawExecutionOutcome.default, RawExecutionOutcome.withMessages,
        RawExecutionOutcome.withAuthenticatedSigner, SystemMessage.isUnsubscribe]
    exact ⟨.refl _, hsame⟩
  | openChain _ hopen hadd =>
    obtain ⟨hkept, hmessages⟩ := r.state.system.openChain_keeps _ _ _ _ hopen
    have hsame := unsubscribes_of_addOutcome hadd hmessages
    exact ⟨hkept, hsame⟩

/-- What a contract sends when it returns are messages of users. -/
theorem Leaves.closesSilently (h : Leaves r r') : ClosesSilently r r' := by
  obtain ⟨_, _, _, -, -, hadd, -⟩ := h.sends
  refine ⟨h.state ▸ .refl _, ?_⟩
  exact (TransactionTracker.unsubscribes_addOutcome hadd).trans (List.append_nil _)

/-- The rule for contracts, for the channels of the chain. -/
theorem closesSilently (hashing : Hashing) (root : UserApplicationId) :
    Preserved hashing root ClosesSilently where
  trans := .trans
  step := Step.closesSilently
  call hcalls _ h hleaves := by
    refine .trans ⟨hcalls.channels, ?_⟩ (h.trans hleaves.closesSilently)
    exact congrArg (List.flatMap _) hcalls.records.outcomes
  start hstarts _ h hleaves := by
    refine .trans ⟨hstarts.channels, ?_⟩ (h.trans hleaves.closesSilently)
    exact congrArg (List.flatMap _) hstarts.records.outcomes
  finalize _ _ := ⟨.refl _, rfl⟩

end SyncRuntime

namespace ExecutionStateView

variable (context : ExecutionRuntimeContext) (hashing : Hashing) (s : ExecutionStateView)

/-- Whatever a contract does, it leaves the subscriptions alone or closes the chain without a
word. -/
theorem runUserAction_closes (applicationId : UserApplicationId) (chainId : ChainId)
    (localTime : Nat) (action : UserAction) (refundGrantTo : Option Account) (grant : Option Nat)
    (t : TransactionTracker) (c : ResourceController (Option Owner)) :
    (s.runUserAction context hashing applicationId chainId localTime action refundGrantTo grant t
      c).Ensures fun p =>
      s.system.KeptOrClosed p.1.system ∧ p.2.2.1.unsubscribes = t.unsubscribes := by
  refine .bind_any fun initialBalance => .bind_any ?_
  rintro ⟨code, description⟩
  have hrule := SyncRuntime.closesSilently hashing applicationId
  refine .bind (hrule.runAction context _ (hrule.runCode context _) rfl chainId action) ?_
  rintro r ⟨hchannels, hunsubscribes⟩
  -- The fees touch the balances only.
  refine .bind (r.state.system.withStateAndGrant_subscriptions grant c _) ?_
  rintro ⟨c', system, grant'⟩ hfees
  exact .ok ⟨hchannels.trans (.inl hfees), hunsubscribes⟩

/-- The operation `CloseChain` closes the chain too, and sends the messages that unsubscribe it. -/
theorem executeOperation_closeChain (operationContext : OperationContext) (localTime : Nat)
    (t : TransactionTracker) (c : ResourceController (Option Owner)) :
    (s.executeOperation context hashing operationContext localTime (.system .closeChain) t
      c).Ensures fun p =>
      p.1.system.subscriptions = .empty ∧ p.1.system.closed = true ∧
      p.2.1.unsubscribes =
        t.unsubscribes ++ (s.system.closeChain operationContext.chainId).2 := by
  refine .guard fun _ => ?_
  have hsystem : ((s.system.executeOperation hashing context.blobs operationContext .closeChain
      t).mapError ExecutionError.ofSystem).Ensures fun p =>
      p.1 = (s.system.closeChain operationContext.chainId).1 ∧ p.2.2 = none ∧
      p.2.1.unsubscribes =
        t.unsubscribes ++ (s.system.closeChain operationContext.chainId).2 := by
    refine .mapError (.bind (P := fun p => p =
      ((s.system.closeChain operationContext.chainId).1, t,
        (s.system.closeChain operationContext.chainId).2, none)) (.ok rfl) ?_)
    rintro _ rfl
    refine .bind (P := fun t' => t.addOutcome _ = .ok t')
      (fun _ h => Except.mapError_eq_ok.mp h) fun t' ht => .ok ⟨rfl, rfl, ?_⟩
    rw [TransactionTracker.unsubscribes_addOutcome ht]
    -- All of its messages are of this kind.
    simp [ExecutionOutcome.unsubscribes, SystemExecutionStateView.closeChain,
      SystemExecutionStateView.plainMessage, SystemMessage.isUnsubscribe, List.filter_eq_self]
  refine .bind hsystem ?_
  rintro ⟨system, t', newApplication⟩ ⟨rfl, rfl, hmessages⟩
  exact .ok ⟨rfl, rfl, hmessages⟩

/-- An operation of a user whose contracts have closed the chain, whatever else they do, leaves the
same subscriptions and the same flag as the operation `CloseChain`. It adds the same `Unsubscribe`
messages exactly if there is nothing to unsubscribe from. -/
theorem closes_with_same_messages_iff {s : ExecutionStateView} {applicationId : UserApplicationId}
    {operationContext : OperationContext} {localTime : Nat} {bytes : Bytes}
    {t : TransactionTracker} {c : ResourceController (Option Owner)}
    {byContract byOperation :
      ExecutionStateView × TransactionTracker × ResourceController (Option Owner)}
    (hopen : s.system.closed = false)
    (hcontract : s.executeOperation context hashing operationContext localTime
      (.user applicationId bytes) t c = .ok byContract)
    (hclosed : byContract.1.system.closed = true)
    (hoperation : s.executeOperation context hashing operationContext localTime
      (.system .closeChain) t c = .ok byOperation) :
    byContract.1.system.subscriptions = byOperation.1.system.subscriptions ∧
      byContract.1.system.closed = byOperation.1.system.closed ∧
      (byContract.2.1.unsubscribes = byOperation.2.1.unsubscribes ↔
        s.system.subscriptions = .empty) := by
  have huser : (s.executeOperation context hashing operationContext localTime
      (.user applicationId bytes) t c).Ensures fun p =>
      s.system.KeptOrClosed p.1.system ∧ p.2.1.unsubscribes = t.unsubscribes := by
    refine .guard fun _ => ?_
    refine .bind (s.runUserAction_closes context hashing _ _ _ _ _ _ _ _) ?_
    rintro ⟨s', grant, t', c'⟩ h
    exact .ok h
  obtain ⟨hchannels, hunsubscribes⟩ := huser _ hcontract
  -- The flag was not set before, so a contract has set it.
  have hempty : byContract.1.system.subscriptions = .empty := by
    obtain ⟨-, hkept⟩ | ⟨hempty, -⟩ := hchannels
    · rw [hclosed, hopen] at hkept
      cases hkept
    · exact hempty
  obtain ⟨hempty', hclosed', hunsubscribes'⟩ :=
    s.executeOperation_closeChain context hashing operationContext localTime t c _ hoperation
  refine ⟨hempty.trans hempty'.symm, hclosed.trans hclosed'.symm, ?_⟩
  rw [hunsubscribes, hunsubscribes', List.self_eq_append_right,
    SystemExecutionStateView.closeChain, List.map_eq_nil_iff, BTreeMap.keys, List.map_eq_nil_iff]
  exact (@BTreeMap.ext_iff _ _ _ s.system.subscriptions .empty).symm

/-- A chain with the given subscriptions, which application 0 may close. -/
def followingChain (subscriptions : List ChannelSubscription) : ExecutionStateView :=
  { twoApplications with system := { twoApplications.system with
    subscriptions := .ofList (subscriptions.map fun subscription => (subscription, ()))
    applicationPermissions := ⟨none, [], [(numberedApplication 0).applicationId]⟩ } }

/-- User 1 has an operation executed in an environment in which all applications close the chain. -/
def runClosing (subscriptions : List ChannelSubscription) (operation : Operation) :
    Except ExecutionError
      (ExecutionStateView × TransactionTracker × ResourceController (Option Owner)) :=
  (followingChain subscriptions).executeOperation
    (scriptedContext fun _ => ⟨[.consumeFuel 1, .closeChain], []⟩) simpleHashing
    ⟨⟨⟨0⟩⟩, some ⟨⟨1⟩⟩, none, 0, none⟩ 0 operation (.new 0 none)
    ⟨.default, .default, some ⟨⟨1⟩⟩⟩

/-- The contract consumes fuel before it closes the chain. -/
theorem closes_with_same_messages_following :
    ∃ byContract ∈ (runClosing [] (.user (numberedApplication 0).applicationId [])).toOption,
      ∃ byOperation ∈ (runClosing [] (.system .closeChain)).toOption,
        byContract.1.system.closed = true ∧
          byContract.2.1.unsubscribes = byOperation.2.1.unsubscribes := by
  obtain ⟨byContract, hcontract, hclosed⟩ : ∃ byContract ∈
      (runClosing [] (.user (numberedApplication 0).applicationId [])).toOption,
      byContract.1.system.closed = true := by decide +kernel
  obtain ⟨byOperation, hoperation, -⟩ : ∃ byOperation ∈
      (runClosing [] (.system .closeChain)).toOption, True := by decide +kernel
  have h := closes_with_same_messages_iff _ _ rfl (Except.toOption_eq_some.mp hcontract) hclosed
    (Except.toOption_eq_some.mp hoperation)
  exact ⟨byContract, hcontract, byOperation, hoperation, hclosed, h.2.2.mpr rfl⟩

/-- A chain that follows a channel of chain 7 is closed by a contract: it drops its subscription,
and chain 7 is not told. The operation would have sent it a message. -/
theorem subscribed_chain_closed_silently :
    ∃ byContract ∈ (runClosing [⟨⟨⟨7⟩⟩, ⟨[]⟩⟩]
        (.user (numberedApplication 0).applicationId [])).toOption,
      ∃ byOperation ∈ (runClosing [⟨⟨⟨7⟩⟩, ⟨[]⟩⟩] (.system .closeChain)).toOption,
        byContract.1.system.closed = true ∧ byContract.1.system.subscriptions = .empty ∧
          byContract.2.1.unsubscribes = [] ∧
          byOperation.2.1.unsubscribes =
            [SystemExecutionStateView.plainMessage (.recipient ⟨⟨7⟩⟩) .protected
              (.unsubscribe ⟨⟨0⟩⟩ ⟨⟨⟨7⟩⟩, ⟨[]⟩⟩)] := by
  decide +kernel

end ExecutionStateView

end Linera
