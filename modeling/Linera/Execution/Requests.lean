import Linera.Execution.Execution

/-!
# What contracts can do

The code of a contract is arbitrary, but it acts on the chain only through its
requests to the runtime. Most requests leave the funds of the chain and the
records of the transaction alone (`Quiet`); the others are `readSigner`,
`transfer`, `claim`, `openChain`, and calls into other contracts.

`Preserved.runAction` is the rule for reasoning about contracts: a relation
between states of the runtime that holds for each of these holds for every user
action, whatever its contracts do and however they call each other.
-/

namespace Linera

/-! ## Charging the running contract -/

namespace ResourceController

/-- The bound on the size of a block, and the size that was tracked so far. -/
def limits {A : Type} (c : ResourceController A) : Nat × Nat :=
  (c.policy.maximumExecutedBlockSize, c.tracker.executedBlockSize)

/-- The resources that were charged for are paid from the account. -/
structure Spends (c c' : ResourceController AmountAccount) : Prop where
  limits : c'.limits = c.limits
  amount : c'.account.amount ≤ c.account.amount

namespace Spends

theorem refl (c : ResourceController AmountAccount) : Spends c c := ⟨rfl, le_rfl⟩

theorem trans {c c' c'' : ResourceController AmountAccount} (h : Spends c c') (h' : Spends c' c'') :
    Spends c c'' :=
  ⟨h'.limits.trans h.limits, h'.amount.trans h.amount⟩

end Spends

variable (c : ResourceController AmountAccount)

theorem updateBalance_ensures (fees : Nat) : (c.updateBalance fees).Ensures fun c' =>
      c'.limits = c.limits ∧ c'.account.amount + fees = c.account.amount := by
  intro c' h
  simp only [updateBalance, BalanceHolder.trySubAssign] at h
  cases hsub : Amount.trySub c.account.amount fees with
  | error error =>
    rw [hsub] at h
    cases h
  | ok amount =>
    rw [hsub] at h
    cases h
    exact ⟨rfl, Amount.trySub_eq_ok.mp hsub⟩

theorem updateBalance_spends {tracker : ResourceTracker}
    (htracker : tracker.executedBlockSize = c.tracker.executedBlockSize) (fees : Nat) :
    (updateBalance { c with tracker } fees).Ensures (Spends c) :=
  (updateBalance_ensures _ fees).mono fun c' h => ⟨h.1.trans (congrArg (_, ·) htracker), by
    have := h.2
    change c'.account.amount + fees = c.account.amount at this
    omega⟩

theorem trackGrant_ensures (grant : Nat) : (c.trackGrant grant).Ensures fun c' =>
      c'.limits = c.limits ∧ c'.account.amount + grant = c.account.amount :=
  .bind_any fun _ => updateBalance_ensures _ grant

theorem trackFuel_spends (fuel : Nat) : (c.trackFuel fuel).Ensures (Spends c) :=
  .bind_any fun _ => .guard fun _ => .bind_any fun _ => updateBalance_spends c (by rfl) _

theorem trackReadOperations_spends (n : Nat) : (c.trackReadOperations n).Ensures (Spends c) :=
  .bind_any fun _ => .bind_any fun _ => updateBalance_spends c (by rfl) _

theorem trackWriteOperations_spends (n : Nat) : (c.trackWriteOperations n).Ensures (Spends c) :=
  .bind_any fun _ => .bind_any fun _ => updateBalance_spends c (by rfl) _

theorem trackBytesRead_spends (n : Nat) : (c.trackBytesRead n).Ensures (Spends c) :=
  .bind_any fun _ => .guard fun _ => .bind_any fun _ => updateBalance_spends c (by rfl) _

theorem trackBytesWritten_spends (n : Nat) : (c.trackBytesWritten n).Ensures (Spends c) :=
  .bind_any fun _ => .guard fun _ => .bind_any fun _ => updateBalance_spends c (by rfl) _

end ResourceController

/-! ## Relations between states of the runtime -/

/-- The trackers agree on everything but oracle responses. -/
structure TransactionTracker.SameRecords (t t' : TransactionTracker) : Prop where
  outcomes : t'.outcomes = t.outcomes
  nextMessageIndex : t'.nextMessageIndex = t.nextMessageIndex
  trace : t'.trace = t.trace

namespace TransactionTracker

variable (t : TransactionTracker)

theorem SameRecords.refl : t.SameRecords t := ⟨rfl, rfl, rfl⟩

theorem SameRecords.trans {t t' t'' : TransactionTracker} (h : t.SameRecords t')
    (h' : t'.SameRecords t'') : t.SameRecords t'' :=
  ⟨h'.outcomes.trans h.outcomes, h'.nextMessageIndex.trans h.nextMessageIndex,
    h'.trace.trans h.trace⟩

theorem addOracleResponse_sameRecords (response : OracleResponse) :
    t.SameRecords (t.addOracleResponse response) := ⟨rfl, rfl, rfl⟩

theorem nextReplayedOracleResponse_ensures :
    t.nextReplayedOracleResponse.Ensures fun p => t.SameRecords p.2 := by
  unfold nextReplayedOracleResponse
  split
  · exact .ok (.refl t)
  · exact .error
  · exact .ok ⟨rfl, rfl, rfl⟩

theorem replayOracleResponse_ensures (response : OracleResponse) :
    (t.replayOracleResponse response).Ensures fun p => t.SameRecords p.2 := by
  refine .bind t.nextReplayedOracleResponse_ensures ?_
  rintro ⟨recorded, t₁⟩ h
  have hadd := h.trans (t₁.addOracleResponse_sameRecords response)
  cases recorded with
  | none => exact .ok hadd
  | some recordedResponse => exact .guard fun _ => .ok hadd

end TransactionTracker

namespace SystemExecutionStateView

/-- The subscriptions and the flag are as they were, or a contract has closed the chain. -/
def KeptOrClosed (s s' : SystemExecutionStateView) : Prop :=
  s'.subscriptions = s.subscriptions ∧ s'.closed = s.closed ∨
    s'.subscriptions = .empty ∧ s'.closed = true

theorem KeptOrClosed.refl (s : SystemExecutionStateView) : s.KeptOrClosed s := .inl ⟨rfl, rfl⟩

theorem KeptOrClosed.trans {s s' s'' : SystemExecutionStateView} (h : s.KeptOrClosed s')
    (h' : s'.KeptOrClosed s'') : s.KeptOrClosed s'' := by
  obtain ⟨hsubscriptions, hclosed⟩ | hclosed := h'
  · rwa [KeptOrClosed, hsubscriptions, hclosed]
  · exact .inr hclosed

end SystemExecutionStateView

namespace SyncRuntime

def funds (r : SyncRuntime) : Funds := r.state.system.funds

/-- What is left of the fuel and grants that the action may spend. -/
def amount (r : SyncRuntime) : Nat := r.resourceController.account.amount

/-- What does not change during an action, or only when it begins to finalize. -/
structure SameContext (r r' : SyncRuntime) : Prop where
  isFinalizing : r'.isFinalizing = r.isFinalizing
  authenticatedSigner : r'.authenticatedSigner = r.authenticatedSigner
  chainId : r'.chainId = r.chainId
  height : r'.height = r.height
  limits : r'.resourceController.limits = r.resourceController.limits

/-- The applications on the call stack are the same, in the same context. Their outcomes may
differ. -/
structure Stable (r r' : SyncRuntime) : Prop where
  context : SameContext r r'
  stack : r'.caller.stack = r.caller.stack

/-- A request that has nothing to do with authority, with the funds of the chain, or with the
messages of other applications. -/
structure Quiet (r r' : SyncRuntime) : Prop where
  stable : Stable r r'
  funds : r'.funds = r.funds
  records : r.transactionTracker.SameRecords r'.transactionTracker
  amount : r'.amount ≤ r.amount
  channels : r.state.system.KeptOrClosed r'.state.system

/-- A contract is called by the current one, with or without its authority. -/
structure Calls (r r' : SyncRuntime) : Prop where
  context : SameContext r r'
  not_finalizing : r.isFinalizing = false
  stack : ∃ callee caller rest, ∃ authenticated : Bool, r.callStack = caller :: rest ∧
    r'.callStack = callee :: r.callStack ∧
    callee.signer = (if authenticated then caller.signer else none) ∧
    callee.callerId = if authenticated then some caller.id else none
  funds : r'.funds = r.funds
  records : (r.transactionTracker.record (.call r'.caller) r.funds r.funds).SameRecords
    r'.transactionTracker
  amount : r'.amount = r.amount
  channels : r.state.system.KeptOrClosed r'.state.system

/-- A contract is executed on its own: the application `root`, or any loaded one when the
execution is finalizing. -/
structure Starts (root : UserApplicationId) (r r' : SyncRuntime) : Prop where
  context : SameContext r r'
  empty : r.callStack = []
  stack : ∃ status, r'.callStack = [status] ∧ status.signer = r.authenticatedSigner ∧
    status.callerId = none ∧ (r.isFinalizing = false → status.id = root)
  funds : r'.funds = r.funds
  records : r.transactionTracker.SameRecords r'.transactionTracker
  amount : r'.amount = r.amount
  channels : r.state.system.KeptOrClosed r'.state.system

def grants {μ : Type} (outcome : RawExecutionOutcome μ Nat) : Nat :=
  (outcome.messages.map (·.grant)).sum

/-- The current contract returns, and its messages are sent and paid for. -/
structure Leaves (r r' : SyncRuntime) : Prop where
  context : SameContext r r'
  funds : r'.funds = r.funds
  sends : ∃ status rest outcome, r.callStack = status :: rest ∧ r'.callStack = rest ∧
    r.transactionTracker.addOutcome (.user status.id outcome) = .ok r'.transactionTracker ∧
    r'.amount + grants outcome = r.amount
  state : r'.state = r.state

theorem SameContext.refl (r : SyncRuntime) : SameContext r r := ⟨rfl, rfl, rfl, rfl, rfl⟩

theorem SameContext.trans {r r' r'' : SyncRuntime} (h : SameContext r r')
    (h' : SameContext r' r'') : SameContext r r'' :=
  ⟨h'.isFinalizing.trans h.isFinalizing, h'.authenticatedSigner.trans h.authenticatedSigner,
    h'.chainId.trans h.chainId, h'.height.trans h.height, h'.limits.trans h.limits⟩

theorem Stable.refl (r : SyncRuntime) : Stable r r := ⟨.refl r, rfl⟩

theorem Stable.trans {r r' r'' : SyncRuntime} (h : Stable r r') (h' : Stable r' r'') :
    Stable r r'' :=
  ⟨h.context.trans h'.context, h'.stack.trans h.stack⟩

theorem Stable.callStack_eq_nil {r r' : SyncRuntime} (h : Stable r r') :
    r'.callStack = [] ↔ r.callStack = [] := by
  have hlength := congrArg List.length h.stack
  simp only [caller, List.length_map] at hlength
  rw [← List.length_eq_zero_iff, ← List.length_eq_zero_iff, hlength]

theorem Quiet.refl (r : SyncRuntime) : Quiet r r := ⟨.refl r, rfl, .refl _, le_rfl, .refl _⟩

/-! ## Requests -/

variable (context : ExecutionRuntimeContext) (hashing : Hashing) (run : RunCode) (r : SyncRuntime)

theorem quiet_of_spends {c : ResourceController AmountAccount}
    (h : r.resourceController.Spends c) : Quiet r { r with resourceController := c } :=
  ⟨⟨⟨rfl, rfl, rfl, rfl, h.limits⟩, rfl⟩, rfl, .refl _, h.amount, .refl _⟩

theorem quiet_of_records {t : TransactionTracker} (h : r.transactionTracker.SameRecords t) :
    Quiet r { r with transactionTracker := t } :=
  ⟨⟨⟨rfl, rfl, rfl, rfl, rfl⟩, rfl⟩, rfl, h, le_rfl, .refl _⟩

theorem updateOutcome_quiet
    (f : RawExecutionOutcome Bytes Resources → RawExecutionOutcome Bytes Resources) :
    (r.updateOutcome f).Ensures (Quiet r) := by
  unfold updateOutcome
  split
  · next status rest hstack =>
    refine .ok ⟨⟨⟨rfl, rfl, rfl, rfl, rfl⟩, ?_⟩, rfl, .refl _, le_rfl, .refl _⟩
    simp [caller, hstack]
  · exact .error

theorem readStorage_quiet (query : Views.KeyValueMap → ContractResponse × Option Nat) :
    (r.readStorage query).Ensures fun p => Quiet r p.1 := by
  refine .bind_any fun storage => ?_
  refine .bind (r.resourceController.trackReadOperations_spends 1) fun c hc => ?_
  obtain ⟨response, size⟩ := query storage
  cases size with
  | none => exact .ok (quiet_of_spends r hc)
  | some size =>
    refine .bind (c.trackBytesRead_spends size) fun c' hc' => ?_
    exact .ok (quiet_of_spends r (hc.trans hc'))

variable (c : ResourceController AmountAccount)

theorem trackValues_spends (values : List (Option Bytes)) :
    (trackValues c values).Ensures c.Spends := by
  induction values generalizing c with
  | nil => exact .ok (.refl c)
  | cons value values ih =>
    cases value with
    | none => exact ih c
    | some value =>
      refine .bind (c.trackBytesRead_spends value.length) fun c' hc' => ?_
      exact (ih c').mono fun c'' hc'' => hc'.trans hc''

theorem readMultiValuesBytes_quiet (keys : List Bytes) :
    (r.readMultiValuesBytes keys).Ensures fun p => Quiet r p.1 := by
  refine .bind_any fun storage => ?_
  refine .bind (r.resourceController.trackReadOperations_spends 1) fun c hc => ?_
  refine .bind (trackValues_spends c _) fun c' hc' => ?_
  exact .ok (quiet_of_spends r (hc.trans hc'))

theorem oracle_quiet (recorded : OracleResponse → Option Bytes)
    (ask : Except ExecutionError Bytes) (record : Bytes → OracleResponse) :
    (r.oracle context recorded ask record).Ensures fun p => Quiet r p.1 := by
  refine .guard fun _ => ?_
  refine .bind (Except.Ensures.mapError
    r.transactionTracker.nextReplayedOracleResponse_ensures) ?_
  rintro ⟨replayed, t⟩ ht
  have hrecords : ∀ response, Quiet r
      { r with transactionTracker := t.addOracleResponse (record response) } := fun response =>
    quiet_of_records r (ht.trans (t.addOracleResponse_sameRecords _))
  simp only
  split
  · split
    · exact .bind_any fun _ => .ok (hrecords _)
    · exact .bind_any fun _ => .ok (hrecords _)
  · exact .bind_any fun _ => .ok (hrecords _)

theorem assertBefore_quiet (timestamp : Nat) :
    (r.assertBefore timestamp).Ensures fun p => Quiet r p.1 := by
  refine .bind (Except.Ensures.mapError
    (r.transactionTracker.replayOracleResponse_ensures .assert)) ?_
  rintro ⟨replaying, t⟩ ht
  exact .guard fun _ => .ok (quiet_of_records r ht)

theorem useBlob_quiet (blobId : BlobId) : (r.useBlob blobId).Ensures (Quiet r) := by
  have hmark : (r.state.system.markBlobUsed blobId).1.funds = r.funds ∧
      r.state.system.KeptOrClosed (r.state.system.markBlobUsed blobId).1 := by
    unfold SystemExecutionStateView.markBlobUsed
    split <;> exact ⟨rfl, .refl _⟩
  unfold useBlob
  split
  · next system heq =>
    rw [heq] at hmark
    exact .ok ⟨⟨⟨rfl, rfl, rfl, rfl, rfl⟩, rfl⟩, hmark.1, .refl _, le_rfl, hmark.2⟩
  · next system heq =>
    rw [heq] at hmark
    refine .bind (Except.Ensures.mapError
      (r.transactionTracker.replayOracleResponse_ensures (.blob blobId))) ?_
    rintro ⟨_, t⟩ ht
    exact .ok ⟨⟨⟨rfl, rfl, rfl, rfl, rfl⟩, rfl⟩, hmark.1, ht, le_rfl, hmark.2⟩

theorem readDataBlob_quiet (hash : CryptoHash) :
    (r.readDataBlob context hash).Ensures fun p => Quiet r p.1 :=
  .bind_any fun _ => .bind (r.useBlob_quiet _) fun _ h => .ok h

theorem assertDataBlobExists_quiet (hash : CryptoHash) :
    (r.assertDataBlobExists context hash).Ensures fun p => Quiet r p.1 :=
  .bind_any fun _ => .bind (r.useBlob_quiet _) fun _ h => .ok h

theorem closeChain_quiet : (r.closeChain context).Ensures fun p => Quiet r p.1 :=
  .bind_any fun _ => .guard fun _ =>
    .ok ⟨⟨⟨rfl, rfl, rfl, rfl, rfl⟩, rfl⟩, rfl, .refl _, le_rfl, .inr ⟨rfl, rfl⟩⟩

theorem writeBatch_quiet (batch : Views.Batch) :
    (r.writeBatch batch).Ensures fun p => Quiet r p.1 := by
  refine .bind_any fun current => .guard fun _ => ?_
  refine .bind (r.resourceController.trackWriteOperations_spends _) fun c hc => ?_
  refine .bind (c.trackBytesWritten_spends _) fun c' hc' => ?_
  exact .ok ⟨⟨⟨rfl, rfl, rfl, rfl, (hc.trans hc').limits⟩, rfl⟩, rfl, .refl _,
    (hc.trans hc').amount, .refl _⟩

/-- What one request does, unless it calls another contract. -/
inductive Step (r : SyncRuntime) : SyncRuntime → Prop where
  | quiet {r' : SyncRuntime} : Quiet r r' → Step r r'
  | readSigner : Step r (r.record (.readSigner r.caller r.authenticatedSigner) r.funds)
  | transfer {status : ApplicationStatus} {rest : List ApplicationStatus}
      {source : Option AccountOwner} {destination : Account} {amount : Nat}
      {system : SystemExecutionStateView} {message : Option (RawOutgoingMessage SystemMessage Nat)}
      {t : TransactionTracker} :
      r.callStack = status :: rest →
      r.state.system.transfer status.signer (some status.id) source (.account destination) amount =
        .ok (system, message) →
      r.transactionTracker.addOutcome
        (.system (RawExecutionOutcome.default.withMessages message.toList)) = .ok t →
      Step r { r with
        state := { r.state with system }
        transactionTracker :=
          t.record (.transfer r.caller source destination amount) r.funds system.funds }
  | claim {status : ApplicationStatus} {rest : List ApplicationStatus}
      {source destination : Account} {owner : AccountOwner} {amount : Nat}
      {message : RawOutgoingMessage SystemMessage Nat} {t : TransactionTracker} :
      r.callStack = status :: rest → source.owner = some owner →
      SystemExecutionStateView.claim status.signer (some status.id) owner source.chainId
        (.account destination) amount = .ok message →
      r.transactionTracker.addOutcome (.system ((RawExecutionOutcome.default.withAuthenticatedSigner
        status.signer).withMessages [message])) = .ok t →
      Step r { r with
        transactionTracker := t.record (.claim r.caller source destination amount) r.funds r.funds }
  | openChain {ownership : ChainOwnership} {applicationPermissions : ApplicationPermissions}
      {balance : Nat} {config : OpenChainConfig} {system : SystemExecutionStateView}
      {messages : List (RawOutgoingMessage SystemMessage Nat)} {t : TransactionTracker} :
      openChainConfig r.state.system ownership applicationPermissions balance = .ok config →
      r.state.system.openChain hashing config
        (r.transactionTracker.nextMessageId r.chainId r.height) = .ok (system, messages) →
      r.transactionTracker.addOutcome
        (.system (RawExecutionOutcome.default.withMessages messages)) = .ok t →
      Step r { r with
        state := { r.state with system }
        transactionTracker := t.record
          (.openChain r.caller ownership applicationPermissions balance) r.funds system.funds }

variable {hashing r}

theorem Step.stable {r' : SyncRuntime} (h : Step hashing r r') : Stable r r' := by
  cases h with
  | quiet h => exact h.stable
  | readSigner | transfer | claim | openChain => exact ⟨⟨rfl, rfl, rfl, rfl, rfl⟩, rfl⟩

variable (hashing r)

theorem currentApplication_ensures :
    r.currentApplication.Ensures fun status => ∃ rest, r.callStack = status :: rest := by
  unfold currentApplication
  split
  · next status rest hstack => exact .ok ⟨rest, hstack⟩
  · exact .error

theorem addOutcome_ensures (outcome : ExecutionOutcome) :
    (r.addOutcome outcome).Ensures fun r' => ∃ t,
      r.transactionTracker.addOutcome outcome = .ok t ∧ r' = { r with transactionTracker := t } :=
  .bind (P := fun t => r.transactionTracker.addOutcome outcome = .ok t)
    (fun _ h => Except.mapError_eq_ok.mp h) fun t h => .ok ⟨t, h, rfl⟩

theorem transfer_step (source : Option AccountOwner) (destination : Account) (amount : Nat) :
    (r.transfer source destination amount).Ensures fun p => Step hashing r p.1 := by
  refine .bind r.currentApplication_ensures fun status ⟨rest, hstack⟩ => ?_
  refine .bind (P := fun p => r.state.system.transfer status.signer (some status.id) source
    (.account destination) amount = .ok p) (fun _ h => Except.mapError_eq_ok.mp h) ?_
  rintro ⟨system, message⟩ htransfer
  refine .bind (addOutcome_ensures _ _) ?_
  rintro _ ⟨t, hadd, rfl⟩
  exact .ok (.transfer hstack htransfer hadd)

theorem claim_step (source destination : Account) (amount : Nat) :
    (r.claim source destination amount).Ensures fun p => Step hashing r p.1 := by
  refine .bind r.currentApplication_ensures fun status ⟨rest, hstack⟩ => ?_
  cases howner : source.owner with
  | none => exact .error
  | some owner =>
    refine .bind (P := fun message => SystemExecutionStateView.claim status.signer (some status.id)
      owner source.chainId (.account destination) amount = .ok message)
      (fun _ h => Except.mapError_eq_ok.mp h) fun message hclaim => ?_
    refine .bind (addOutcome_ensures _ _) ?_
    rintro _ ⟨t, hadd, rfl⟩
    exact .ok (.claim hstack howner hclaim hadd)

theorem openChain_step (ownership : ChainOwnership)
    (applicationPermissions : ApplicationPermissions) (balance : Nat) :
    (r.openChain hashing ownership applicationPermissions balance).Ensures fun p =>
      Step hashing r p.1 := by
  refine .bind (P := fun config => openChainConfig r.state.system ownership applicationPermissions
    balance = .ok config) (fun _ h => h) fun config hconfig => ?_
  refine .bind (P := fun p => r.state.system.openChain hashing config
    (r.transactionTracker.nextMessageId r.chainId r.height) = .ok p)
    (fun _ h => Except.mapError_eq_ok.mp h) ?_
  rintro ⟨system, messages⟩ hopen
  refine .bind (addOutcome_ensures _ _) ?_
  rintro _ ⟨t, hadd, rfl⟩
  exact .ok (.openChain hconfig hopen hadd)

/-! ## Calls -/

theorem loadContractInstance_quiet (id : UserApplicationId) :
    (r.loadContractInstance context id).Ensures fun p =>
      Quiet r p.1 ∧ p.1.callStack = r.callStack ∧ p.1.amount = r.amount := by
  unfold loadContractInstance
  split
  · exact .ok ⟨.refl r, rfl, rfl⟩
  · refine .bind_any ?_
    rintro ⟨code, description⟩
    exact .ok ⟨⟨⟨⟨rfl, rfl, rfl, rfl, rfl⟩, rfl⟩, rfl, .refl _, le_rfl, .refl _⟩, rfl, rfl⟩

theorem prepareForCall_calls (authenticated : Bool) (calleeId : UserApplicationId) :
    (r.prepareForCall context authenticated calleeId).Ensures fun p => Calls r p.1 := by
  refine .guard fun _ => ?_
  refine .bind r.currentApplication_ensures fun status ⟨rest, hstack⟩ => .guard fun hfinal => ?_
  refine .bind (r.loadContractInstance_quiet context calleeId) ?_
  rintro ⟨r₁, application⟩ ⟨hquiet, hcallStack, hamount⟩
  have hcontext := hquiet.stable.context
  have hfunds : r₁.funds = r.funds := hquiet.funds
  refine .ok ⟨⟨hcontext.isFinalizing, hcontext.authenticatedSigner, hcontext.chainId,
    hcontext.height, hcontext.limits⟩, by simpa using hfinal, ?_, hfunds, ?_, hamount,
    hquiet.channels⟩
  · exact ⟨_, status, rest, authenticated, hstack, congrArg (_ :: ·) hcallStack, rfl, rfl⟩
  · obtain ⟨houtcomes, hindex, htrace⟩ := hquiet.records
    refine ⟨houtcomes, hindex, ?_⟩
    change r₁.transactionTracker.trace ++ [⟨.call _, r₁.funds, r₁.funds⟩] =
      r.transactionTracker.trace ++ [⟨.call _, r.funds, r.funds⟩]
    rw [show r₁.transactionTracker.trace = _ from htrace, hfunds]
    rfl

theorem popApplication_ensures :
    r.popApplication.Ensures fun p => r.callStack = p.2 :: p.1.callStack ∧
      SameContext r p.1 ∧ p.1.state = r.state ∧ p.1.transactionTracker = r.transactionTracker ∧
      p.1.resourceController = r.resourceController := by
  unfold popApplication
  split
  · exact .error
  · next status rest hstack =>
    exact .guard fun _ => .ok ⟨hstack, ⟨rfl, rfl, rfl, rfl, rfl⟩, rfl, rfl, rfl⟩

theorem trackGrants_ensures (messages : List (RawOutgoingMessage Bytes Nat)) :
    (trackGrants c messages).Ensures fun c' => c'.limits = c.limits ∧
      c'.account.amount + (messages.map (·.grant)).sum = c.account.amount := by
  induction messages generalizing c with
  | nil => exact .ok ⟨rfl, rfl⟩
  | cons message messages ih =>
    refine .bind (c.trackGrant_ensures message.grant) fun c₁ ⟨hlimits, hamount⟩ => ?_
    refine (ih c₁).mono fun c' ⟨hlimits', hamount'⟩ => ⟨hlimits'.trans hlimits, ?_⟩
    rw [List.map_cons, List.sum_cons]
    omega

/-- Handling an outcome sends its messages and charges for their grants. -/
theorem handleOutcome_ensures (rawOutcome : RawExecutionOutcome Bytes Resources)
    (signer : Option Owner) (applicationId : UserApplicationId) :
    (r.handleOutcome rawOutcome signer applicationId).Ensures fun r' =>
      SameContext r r' ∧ r'.callStack = r.callStack ∧ r'.state = r.state ∧
        ∃ outcome, r.transactionTracker.addOutcome (.user applicationId outcome) =
          .ok r'.transactionTracker ∧ r'.amount + grants outcome = r.amount := by
  refine .bind_any fun outcome => ?_
  refine .bind (trackGrants_ensures _ _) fun c ⟨hlimits, hamount⟩ => ?_
  refine (addOutcome_ensures _ _).mono ?_
  rintro _ ⟨t, hadd, rfl⟩
  exact ⟨⟨rfl, rfl, rfl, rfl, hlimits⟩, rfl, rfl, outcome, hadd, hamount⟩

theorem finishCall_leaves : r.finishCall.Ensures (Leaves r) := by
  refine .bind r.popApplication_ensures ?_
  rintro ⟨r₁, status⟩ ⟨hstack, hcontext, hstate, htracker, hcontroller⟩
  refine (handleOutcome_ensures r₁ _ _ _).mono ?_
  rintro r' ⟨hcontext', hstack', hstate', outcome, hadd, hamount⟩
  have hsame : r'.state = r.state := hstate'.trans hstate
  refine ⟨hcontext.trans hcontext', congrArg (·.system.funds) hsame,
    ⟨status, r₁.callStack, outcome, hstack, hstack', ?_, ?_⟩, hsame⟩
  · rw [← show r₁.transactionTracker = _ from htracker]
    exact hadd
  · rw [hamount]
    exact congrArg (·.account.amount) hcontroller

/-! ## The rule -/

/-- A relation that holds whenever a contract makes a request, calls another one, or is executed
on its own. -/
structure Preserved (root : UserApplicationId) (R : SyncRuntime → SyncRuntime → Prop) : Prop where
  trans : ∀ {r r' r''}, R r r' → R r' r'' → R r r''
  step : ∀ {r r'}, Step hashing r r' → R r r'
  call : ∀ {r r₁ r₂ r'}, Calls r r₁ → Stable r₁ r₂ → R r₁ r₂ → Leaves r₂ r' → R r r'
  start : ∀ {r r₁ r₂ r'}, Starts root r r₁ → Stable r₁ r₂ → R r₁ r₂ → Leaves r₂ r' → R r r'
  finalize : ∀ r, r.callStack = [] →
    R r { r with applicationsToFinalize := [], isFinalizing := true }

namespace Preserved

variable {hashing} {root : UserApplicationId} {R : SyncRuntime → SyncRuntime → Prop}

/-- What running code in the current frame does. -/
def Runs (R : SyncRuntime → SyncRuntime → Prop) (run : RunCode) : Prop :=
  ∀ applicationId entry r, r.callStack ≠ [] →
    (run applicationId entry r).Ensures fun p => Stable r p.1 ∧ R r p.1

variable (h : Preserved hashing root R)
include h

theorem quiet {r r' : SyncRuntime} (hquiet : Quiet r r') : Stable r r' ∧ R r r' :=
  ⟨hquiet.stable, h.step (.quiet hquiet)⟩

theorem setLoadedApplications (loadedApplications : BTreeMap UserApplicationId LoadedApplication) :
    Stable r { r with loadedApplications } ∧ R r { r with loadedApplications } :=
  h.quiet ⟨⟨⟨rfl, rfl, rfl, rfl, rfl⟩, rfl⟩, rfl, .refl _, le_rfl, .refl _⟩

omit h in
/-- A contract cannot be executed on its own while another one is running. -/
theorem execute_of_ne_nil {run : RunCode} (hrun : Runs R run) (hstack : r.callStack ≠ [])
    (applicationId : UserApplicationId) (signer : Option Owner) (entry : Entry) :
    (r.execute context run applicationId signer entry).Ensures fun _ => False := by
  refine .bind (r.loadContractInstance_quiet context applicationId) ?_
  rintro ⟨r₁, application⟩ ⟨-, hcallStack, -⟩
  refine .bind (hrun _ _ _ (by simp [pushApplication])) ?_
  rintro ⟨r₂, response⟩ ⟨hstable, -⟩
  refine .bind r₂.popApplication_ensures ?_
  rintro ⟨r₃, status⟩ ⟨hpop, -⟩
  refine .guard fun _ => .guard fun hempty => (hstack ?_).elim
  have hlength := congrArg List.length hstable.stack
  simp only [caller, pushApplication, List.length_map, List.length_cons,
    show r₁.callStack = _ from hcallStack, show r₂.callStack = _ from hpop,
    show r₃.callStack = [] from hempty, List.length_nil] at hlength
  exact List.length_eq_zero_iff.mp (by omega)

omit h in
theorem createApplication {run : RunCode} (hrun : Runs R run) (hstack : r.callStack ≠ [])
    (bytecodeId : BytecodeId) (parameters argument : Bytes)
    (requiredApplicationIds : List UserApplicationId) :
    (r.createApplication context run bytecodeId parameters argument
      requiredApplicationIds).Ensures fun _ => False := by
  refine .bind_any fun callerId => .bind_any ?_
  rintro ⟨system, result⟩
  refine .bind_any fun t => ?_
  refine .bind (addOutcome_ensures _ _) ?_
  rintro _ ⟨t', -, rfl⟩
  refine .bind (P := fun _ => False) (.guard fun _ => ?_) fun _ hfalse => False.elim hfalse
  refine .bind (execute_of_ne_nil context _ hrun ?_ _ _ _) fun _ hfalse => False.elim hfalse
  exact hstack

theorem tryCallApplication {run : RunCode} (hrun : Runs R run) (authenticated : Bool)
    (calleeId : UserApplicationId) (argument : Bytes) :
    (r.tryCallApplication context run authenticated calleeId argument).Ensures fun p =>
      Stable r p.1 ∧ R r p.1 := by
  refine .bind (r.prepareForCall_calls context authenticated calleeId) ?_
  rintro ⟨r₁, calleeContext⟩ hcalls
  obtain ⟨callee, caller, rest, authenticated, hstack, hstack₁, -, -⟩ := hcalls.stack
  refine .bind (hrun _ _ r₁ (by rw [show r₁.callStack = _ from hstack₁]; simp)) ?_
  rintro ⟨r₂, value⟩ ⟨hstable, hR⟩
  refine .bind r₂.finishCall_leaves fun r₃ hleaves => .ok ⟨⟨?_, ?_⟩, ?_⟩
  · exact (hcalls.context.trans hstable.context).trans hleaves.context
  · obtain ⟨status, rest', -, hstack₂, hstack₃, -⟩ := hleaves.sends
    have hframes := hstable.stack
    simp only [SyncRuntime.caller, show r₁.callStack = _ from hstack₁,
      show r₂.callStack = _ from hstack₂, List.map_cons, List.cons.injEq] at hframes
    rw [SyncRuntime.caller, hstack₃]
    exact hframes.2
  · exact h.call hcalls hstable hR hleaves

theorem handle {run : RunCode} (hrun : Runs R run) (request : ContractRequest)
    (hstack : r.callStack ≠ []) :
    (r.handle context hashing run request).Ensures fun p => Stable r p.1 ∧ R r p.1 := by
  have hsame : Stable r r ∧ R r r := h.quiet (.refl r)
  have hquiet : ∀ {x : Except ExecutionError (SyncRuntime × ContractResponse)},
      (x.Ensures fun p => Quiet r p.1) → x.Ensures fun p => Stable r p.1 ∧ R r p.1 :=
    fun hx => hx.mono fun p hp => h.quiet hp
  have hstep : ∀ {x : Except ExecutionError (SyncRuntime × ContractResponse)},
      (x.Ensures fun p => Step hashing r p.1) → x.Ensures fun p => Stable r p.1 ∧ R r p.1 :=
    fun hx => hx.mono fun p hp => ⟨hp.stable, h.step hp⟩
  have hread : ∀ query, (r.readStorage query).Ensures fun p => Stable r p.1 ∧ R r p.1 :=
    fun query => hquiet (r.readStorage_quiet query)
  have houtcome : ∀ f, (r.updateOutcome f >>= fun r' => pure (r', ContractResponse.unit)).Ensures
      fun p => Stable r p.1 ∧ R r p.1 := fun f =>
    .bind (r.updateOutcome_quiet f) fun r' hr' => .ok (h.quiet hr')
  cases request with
  | chainId | blockHeight | readSystemTimestamp | readChainBalance | readOwnerBalance
  | readOwnerBalances | readBalanceOwners | chainOwnership | messageId | messageIsBouncing
  | remainingFuel => exact .ok hsame
  | applicationId | applicationCreatorChainId | applicationParameters | authenticatedCallerId =>
    exact .bind_any fun _ => .ok hsame
  | containsKey | containsKeys | readValueBytes | findKeysByPrefix | findKeyValuesByPrefix =>
    rw [SyncRuntime.handle]
    exact hread _
  | readMultiValuesBytes keys => exact hquiet (r.readMultiValuesBytes_quiet keys)
  | queryService | performHttpRequest => exact hquiet (r.oracle_quiet context _ _ _)
  | assertBefore timestamp => exact hquiet (r.assertBefore_quiet timestamp)
  | readDataBlob hash => exact hquiet (r.readDataBlob_quiet context hash)
  | assertDataBlobExists hash => exact hquiet (r.assertDataBlobExists_quiet context hash)
  | authenticatedSigner => exact hstep (.ok .readSigner)
  | consumeFuel fuel =>
    exact .bind (r.resourceController.trackFuel_spends fuel) fun c hc =>
      .ok (h.quiet (r.quiet_of_spends hc))
  | sendMessage | subscribe | unsubscribe => exact houtcome _
  | transfer source destination amount => exact hstep (r.transfer_step hashing _ _ _)
  | claim source destination amount => exact hstep (r.claim_step hashing _ _ _)
  | tryCallApplication authenticated calleeId argument =>
    exact h.tryCallApplication context r hrun authenticated calleeId argument
  | emit name key value => exact .guard fun _ => .guard fun _ => houtcome _
  | openChain ownership applicationPermissions balance =>
    exact hstep (r.openChain_step hashing _ _ _)
  | closeChain => exact hquiet (r.closeChain_quiet context)
  | createApplication bytecodeId parameters argument requiredApplicationIds =>
    exact (createApplication context r hrun hstack _ _ _ _).mono fun _ hfalse => False.elim hfalse
  | writeBatch batch => exact hquiet (r.writeBatch_quiet batch)

theorem interpret {run : RunCode} (hrun : Runs R run) (program : Program)
    (hstack : r.callStack ≠ []) :
    (r.interpret context hashing run program).Ensures fun p => Stable r p.1 ∧ R r p.1 := by
  induction program generalizing r with
  | done memory response => exact .ok (h.quiet (.refl r))
  | fail message => exact .error
  | request request next ih =>
    refine .bind (h.handle context r hrun request hstack) ?_
    rintro ⟨r₁, response⟩ ⟨hstable, hR⟩
    have hstack₁ : r₁.callStack ≠ [] := mt hstable.callStack_eq_nil.mp hstack
    exact (ih response r₁ hstack₁).mono fun p hp => ⟨hstable.trans hp.1, h.trans hR hp.2⟩

/-- Running the code of an application, by induction on the depth of nested calls. -/
theorem runCode (depth : Nat) : Runs R (runCode context hashing depth) := by
  induction depth with
  | zero => exact fun _ _ _ _ => .error
  | succ depth ih =>
    intro applicationId entry r hstack
    simp only [SyncRuntime.runCode]
    split
    · exact .error
    · refine .bind (h.interpret context r ih _ hstack) ?_
      rintro ⟨r₁, memory, response⟩ ⟨hstable, hR⟩
      have hmemory := h.setLoadedApplications r₁
      exact .ok ⟨hstable.trans (hmemory _).1, h.trans hR (hmemory _).2⟩

theorem execute {run : RunCode} (hrun : Runs R run) (hempty : r.callStack = [])
    {applicationId : UserApplicationId} {signer : Option Owner} (entry : Entry)
    (hroot : r.isFinalizing = false → applicationId = root)
    (hsigner : signer = r.authenticatedSigner) :
    (r.execute context run applicationId signer entry).Ensures fun r' =>
      r'.callStack = [] ∧ SameContext r r' ∧ R r r' := by
  refine .bind (r.loadContractInstance_quiet context applicationId) ?_
  rintro ⟨r₁, application⟩ ⟨hquiet, hcallStack, hamount⟩
  have hcontext := hquiet.stable.context
  have hstarts : Starts root r (r₁.pushApplication
      ⟨none, applicationId, application.parameters, signer, .default⟩) := by
    refine ⟨⟨hcontext.isFinalizing, hcontext.authenticatedSigner, hcontext.chainId,
      hcontext.height, hcontext.limits⟩, hempty, ?_, hquiet.funds, hquiet.records, hamount,
      hquiet.channels⟩
    refine ⟨⟨none, applicationId, application.parameters, signer, .default⟩, ?_, hsigner, rfl, hroot⟩
    rw [pushApplication, show r₁.callStack = _ from hcallStack, hempty]
  refine .bind (hrun _ _ _ (by simp [pushApplication])) ?_
  rintro ⟨r₂, response⟩ ⟨hstable, hR⟩
  refine .bind r₂.popApplication_ensures ?_
  rintro ⟨r₃, status⟩ ⟨hpop, hcontext₃, hstate, htracker, hcontroller⟩
  refine .guard fun hstatus => .guard fun hnil => ?_
  refine (handleOutcome_ensures r₃ _ _ _).mono ?_
  rintro r' ⟨hcontext', hstack', hstate', outcome, hadd, hleft⟩
  have hsame : r'.state = r₂.state := hstate'.trans hstate
  have hleaves : Leaves r₂ r' := by
    refine ⟨hcontext₃.trans hcontext', congrArg (·.system.funds) hsame,
      ⟨status, r₃.callStack, outcome, hpop, hstack', ?_, ?_⟩, hsame⟩
    · rw [← show r₃.transactionTracker = _ from htracker, hstatus.2.1]
      exact hadd
    · rw [hleft]
      exact congrArg (·.account.amount) hcontroller
  refine ⟨hstack'.trans hnil, ?_, h.start hstarts hstable hR hleaves⟩
  exact (hstarts.context.trans hstable.context).trans hleaves.context

theorem finalizeAll {run : RunCode} (hrun : Runs R run) (finalizeContext : FinalizeContext)
    (applications : List UserApplicationId) (hempty : r.callStack = [])
    (hfinal : r.isFinalizing = true)
    (hsigner : finalizeContext.authenticatedSigner = r.authenticatedSigner) :
    (r.finalizeAll context run finalizeContext applications).Ensures (R r) := by
  induction applications generalizing r with
  | nil => exact .ok (h.quiet (.refl r)).2
  | cons application applications ih =>
    have hroot : r.isFinalizing = false → application = root := by simp [hfinal]
    refine .bind (h.execute context r hrun hempty _ hroot hsigner) ?_
    rintro r₁ ⟨hempty₁, hcontext, hR⟩
    have hremove := h.setLoadedApplications r₁ (r₁.loadedApplications.remove application)
    refine (ih { r₁ with loadedApplications := r₁.loadedApplications.remove application } hempty₁
      (hcontext.isFinalizing.trans hfinal) (hsigner.trans hcontext.authenticatedSigner.symm)).mono fun r' hr' => ?_
    exact h.trans (h.trans hR hremove.2) hr'

/-- The rule for user actions. -/
theorem runAction {run : RunCode} (hrun : Runs R run) (hempty : r.callStack = [])
    (chainId : ChainId) (action : UserAction) :
    (r.runAction context run root chainId action).Ensures (R r) := by
  refine .guard fun hsame => ?_
  refine .bind (h.execute context r hrun hempty _ (fun _ => rfl) hsame.1.symm) ?_
  rintro r₁ ⟨hempty₁, hcontext, hR⟩
  refine (h.finalizeAll context { r₁ with applicationsToFinalize := [], isFinalizing := true } hrun
    ⟨chainId, action.signer, action.height⟩ _ hempty₁ rfl ?_).mono fun r' hr' => ?_
  · exact hsame.1.symm.trans hcontext.authenticatedSigner.symm
  · exact h.trans (h.trans hR (h.finalize r₁ hempty₁)) hr'

end Preserved

end SyncRuntime

end Linera
