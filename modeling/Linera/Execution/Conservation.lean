import Linera.Execution.Effects

/-!
# Conservation of tokens in a transaction

Tokens are on the chain, in the messages that the transaction sends, or in the
grant of the message that it executes. Operations, messages and contracts move
them from one place to another, and fees take some of them away, but nothing
creates any.
-/

namespace Linera

/-- The tokens that a message transfers. -/
def SystemMessage.value : SystemMessage → Nat
  | .credit _ amount _ => amount
  | .openChain config => config.balance
  | _ => 0

def Message.value : Message → Nat
  | .system message => message.value
  | .user _ _ => 0

/-- The tokens that an outcome carries away: what its messages transfer, and their grants. -/
def ExecutionOutcome.carried : ExecutionOutcome → Nat
  | .system outcome => (outcome.messages.map fun m => m.grant + m.message.value).sum
  | .user _ outcome => (outcome.messages.map fun m => m.grant).sum

/-- The tokens that the messages of a transaction carry away. -/
def TransactionTracker.carried (t : TransactionTracker) : Nat :=
  (t.outcomes.map ExecutionOutcome.carried).sum

variable {messages : List (RawOutgoingMessage SystemMessage Nat)} {t t' : TransactionTracker}

theorem TransactionTracker.carried_addOutcome {outcome : ExecutionOutcome}
    (h : t.addOutcome outcome = .ok t') : t'.carried = t.carried + outcome.carried := by
  obtain ⟨-, rfl⟩ := TransactionTracker.addOutcome_eq_ok.mp h
  simp [carried]

theorem TransactionTracker.SameRecords.carried_eq (h : t.SameRecords t') :
    t'.carried = t.carried := by
  rw [carried, h.outcomes, carried]

theorem Notices.carried_eq_zero (h : Notices messages) :
    (messages.map fun m => m.grant + m.message.value).sum = 0 := by
  rw [List.sum_eq_zero_iff]
  intro n hn
  obtain ⟨message, hmessage, rfl⟩ := List.mem_map.mp hn
  obtain ⟨hgrant, hnotice⟩ := h message hmessage
  rw [hgrant, zero_add]
  cases hm : message.message <;> simp_all [SystemMessage.isNotice, SystemMessage.value]

theorem creditMessage_carried_le (source : Option AccountOwner) (amount : Nat)
    (recipient : Recipient) :
    ((SystemExecutionStateView.creditMessage source amount recipient).toList.map
      fun m => m.grant + m.message.value).sum ≤ amount := by
  cases recipient <;>
    simp [SystemExecutionStateView.creditMessage, SystemExecutionStateView.plainMessage,
      SystemMessage.value]

theorem openChainMessages_carried (hashing : Hashing) (config : OpenChainConfig) (id : MessageId) :
    ((openChainMessages hashing config id).map fun m => m.grant + m.message.value).sum =
      config.balance := by
  simp [openChainMessages, SystemExecutionStateView.plainMessage, SystemMessage.value]

/-- What an operation sends it has taken from the chain. -/
theorem SystemOperation.Effect.conserves {hashing : Hashing} {context : OperationContext}
    {f f' : Funds} {operation : SystemOperation}
    (h : operation.Effect hashing context f f' t t' messages) :
    f'.total + (messages.map fun m => m.grant + m.message.value).sum ≤ f.total ∧
      t'.carried = t.carried := by
  have hnotices : f' = f ∧ t.SameRecords t' ∧ Notices messages →
      f'.total + (messages.map fun m => m.grant + m.message.value).sum ≤ f.total ∧
        t'.carried = t.carried := by
    rintro ⟨rfl, hrecords, hnotices⟩
    rw [hnotices.carried_eq_zero]
    exact ⟨le_rfl, hrecords.carried_eq⟩
  cases operation with
  | openChain config =>
    obtain ⟨hdebit, rfl, rfl⟩ := h
    rw [openChainMessages_carried]
    exact ⟨hdebit.total.le, rfl⟩
  | changeOwnership => obtain ⟨rfl, rfl, rfl⟩ := h; exact ⟨le_rfl, rfl⟩
  | transfer owner recipient amount =>
    obtain ⟨-, hdebit, rfl, rfl⟩ := h
    have hcredit := creditMessage_carried_le (owner.map .user) amount recipient
    have htotal := hdebit.total
    exact ⟨by omega, rfl⟩
  | claim => obtain ⟨-, rfl, rfl, rfl⟩ := h; exact ⟨le_rfl, rfl⟩
  | createApplication => obtain ⟨rfl, hrecords, rfl⟩ := h; exact ⟨le_rfl, hrecords.carried_eq⟩
  | closeChain | changeApplicationPermissions | subscribe | unsubscribe | publishBytecode
  | publishDataBlob | readBlob | requestApplication | admin => exact hnotices h

/-- The tokens that a message brings to the chain when it is executed. -/
def SystemMessage.credits : SystemMessage → Nat
  | .credit _ amount _ => amount
  | _ => 0

def Message.credits : Message → Nat
  | .system message => message.credits
  | .user _ _ => 0

theorem SystemMessage.Effect.conserves {isBouncing : Bool} {f f' : Funds} {message : SystemMessage}
    (h : message.Effect isBouncing f f' messages) :
    f'.total + (messages.map fun m => m.grant + m.message.value).sum ≤
      f.total + message.credits := by
  have hnotices : f' = f ∧ Notices messages →
      f'.total + (messages.map fun m => m.grant + m.message.value).sum ≤
        f.total + message.credits := by
    rintro ⟨rfl, hnotices⟩
    rw [hnotices.carried_eq_zero]
    exact Nat.le_add_right _ _
  cases message with
  | credit target amount source =>
    obtain ⟨hcredit, rfl⟩ := h
    exact hcredit.total
  | withdraw owner amount recipient =>
    obtain ⟨hdebit, rfl⟩ := h
    have hcredit := creditMessage_carried_le (some owner) amount recipient
    have htotal := hdebit.total
    simp only [SystemMessage.credits]
    omega
  | openChain | createCommittee | removeCommittee | subscribe | unsubscribe | applicationCreated
  | registerApplications | requestApplication => exact hnotices h

/-! ## Contracts -/

namespace SyncRuntime

/-- The tokens on the chain and in the messages sent so far, and what the action may still spend
on fees and grants. -/
def held (r : SyncRuntime) : Nat := r.funds.total + r.transactionTracker.carried + r.amount

/-- Nothing is created, neither tokens nor an allowance. -/
structure Conserves (r r' : SyncRuntime) : Prop where
  held : r'.held ≤ r.held
  amount : r'.amount ≤ r.amount

theorem Conserves.trans {r r' r'' : SyncRuntime} (h : Conserves r r') (h' : Conserves r' r'') :
    Conserves r r'' :=
  ⟨h'.held.trans h.held, h'.amount.trans h.amount⟩

/-- Sending what was taken from the chain. -/
theorem held_of_addOutcome {r : SyncRuntime} {f : Funds} {outcome : ExecutionOutcome}
    (ht : t.carried = r.transactionTracker.carried) (hadd : t.addOutcome outcome = .ok t')
    (hle : f.total + outcome.carried ≤ r.funds.total) :
    f.total + t'.carried + r.amount ≤ r.held := by
  have hcarried := TransactionTracker.carried_addOutcome hadd
  simp only [held]
  omega

theorem Step.conserves {hashing : Hashing} {r r' : SyncRuntime} (h : Step hashing r r') :
    Conserves r r' := by
  cases h with
  | quiet h =>
    refine ⟨?_, h.amount⟩
    simp only [SyncRuntime.held, h.funds, h.records.carried_eq]
    exact Nat.add_le_add_left h.amount _
  | readSigner => exact ⟨le_rfl, le_rfl⟩
  | @transfer status rest source destination amount system message t hstack htransfer hadd =>
    obtain ⟨-, -, hdebit, hmessage⟩ := r.state.system.transfer_ensures _ _ _ _ _ _ htransfer
    have hcredit := creditMessage_carried_le source amount (.account destination)
    have htotal : system.funds.total + amount = r.funds.total := hdebit.total
    refine ⟨held_of_addOutcome rfl hadd ?_, le_rfl⟩
    rw [show message = _ from hmessage]
    change system.funds.total + _ ≤ _
    exact (Nat.add_le_add_left hcredit _).trans htotal.le
  | claim hstack howner hclaim hadd =>
    obtain ⟨-, rfl⟩ := SystemExecutionStateView.claim_ensures _ _ _ _ _ _ r.funds _ hclaim
    exact ⟨held_of_addOutcome (f := r.funds) rfl hadd le_rfl, le_rfl⟩
  | @openChain ownership permissions balance config system messages t hconfig hopen hadd =>
    obtain ⟨hdebit, hmessages⟩ := r.state.system.openChain_ensures _ _ _ _ hopen
    refine ⟨?_, le_rfl⟩
    change system.funds.total + t.carried + r.amount ≤ r.held
    refine held_of_addOutcome rfl hadd ?_
    rw [show messages = openChainMessages _ _ _ from hmessages]
    exact (congrArg _ (openChainMessages_carried _ _ _)).trans hdebit.total |>.le

theorem Leaves.conserves {r r' : SyncRuntime} (h : Leaves r r') : Conserves r r' := by
  obtain ⟨status, rest, outcome, -, -, hadd, hamount⟩ := h.sends
  have hcarried := TransactionTracker.carried_addOutcome hadd
  change _ = _ + grants outcome at hcarried
  refine ⟨?_, by omega⟩
  simp only [SyncRuntime.held, h.funds]
  omega

/-- The rule for contracts, for tokens. -/
theorem conserves (hashing : Hashing) (root : UserApplicationId) :
    Preserved hashing root Conserves where
  trans := .trans
  step := Step.conserves
  call {r r₁ r₂ r'} hcalls _ h hleaves := by
    have henter : Conserves r r₁ := by
      refine ⟨?_, hcalls.amount.le⟩
      simp only [held, hcalls.funds, hcalls.amount, hcalls.records.carried_eq]
      exact le_rfl
    exact (henter.trans h).trans hleaves.conserves
  start {r r₁ r₂ r'} hstarts _ h hleaves := by
    have henter : Conserves r r₁ := by
      refine ⟨?_, hstarts.amount.le⟩
      simp only [held, hstarts.funds, hstarts.amount, hstarts.records.carried_eq]
      exact le_rfl
    exact (henter.trans h).trans hleaves.conserves
  finalize _ _ := ⟨le_rfl, le_rfl⟩

end SyncRuntime

namespace ExecutionStateView

variable (context : ExecutionRuntimeContext) (hashing : Hashing) (s : ExecutionStateView)

/-- Running a contract: what is left of the grant, what is on the chain and what was sent is at
most what there was before. -/
theorem runUserAction_conserves (applicationId : UserApplicationId) (chainId : ChainId)
    (localTime : Nat) (action : UserAction) (refundGrantTo : Option Account) (grant : Option Nat)
    (t : TransactionTracker) (c : ResourceController (Option Owner)) :
    (s.runUserAction context hashing applicationId chainId localTime action refundGrantTo grant t
      c).Ensures fun p =>
        p.1.system.funds.total + p.2.2.1.carried + p.2.1.getD 0 ≤
          s.system.funds.total + t.carried + grant.getD 0 ∧ p.2.1.isSome = grant.isSome := by
  refine .bind_any fun initialBalance => .bind_any ?_
  rintro ⟨code, description⟩
  have hrule := SyncRuntime.conserves hashing applicationId
  refine .bind (hrule.runAction context _ (hrule.runCode context _) rfl chainId action) ?_
  intro r hr
  obtain ⟨hheld, hamount⟩ := hr
  refine .bind (c.withStateAndGrant_ensures r.state.system grant
    fun c => c.mergeBalance_pays hamount) ?_
  rintro ⟨c', system, grant'⟩ ⟨-, -, htotal, hsome⟩
  refine .ok ⟨?_, hsome⟩
  change r.funds.total + r.transactionTracker.carried + r.amount ≤
    s.system.funds.total + t.carried + initialBalance at hheld
  change r.amount ≤ initialBalance at hamount
  change system.funds.total + grant'.getD 0 + (initialBalance - r.amount) ≤
    r.funds.total + grant.getD 0 at htotal
  change system.funds.total + r.transactionTracker.carried + grant'.getD 0 ≤ _
  omega

theorem executeOperation_conserves (operationContext : OperationContext) (localTime : Nat)
    (operation : Operation) (t : TransactionTracker) (c : ResourceController (Option Owner)) :
    (s.executeOperation context hashing operationContext localTime operation t c).Ensures fun p =>
      p.1.system.funds.total + p.2.1.carried ≤ s.system.funds.total + t.carried := by
  refine .guard fun _ => ?_
  cases operation with
  | system operation =>
    refine .bind (.mapError (s.system.executeOperation_ensures hashing _ operationContext operation
      t)) ?_
    rintro ⟨system, t₁, newApplication⟩ ⟨t₀, messages, heffect, hadd⟩
    obtain ⟨hle, hcarried₀⟩ := heffect.conserves
    have hcarried : t₁.carried = t₀.carried + (messages.map fun m => m.grant + m.message.value).sum :=
      TransactionTracker.carried_addOutcome hadd
    have hop : system.funds.total + t₁.carried ≤ s.system.funds.total + t.carried := by
      dsimp only at hle
      omega
    cases newApplication with
    | none => exact .ok hop
    | some newApplication =>
      refine .bind (runUserAction_conserves context hashing _ _ _ _ _ _ none _ _) ?_
      rintro ⟨s', grant', t', c'⟩ ⟨hle', -⟩
      exact .ok (((Nat.le_add_right _ _).trans hle').trans hop)
  | user applicationId bytes =>
    refine .bind (s.runUserAction_conserves context hashing _ _ _ _ _ none _ _) ?_
    rintro ⟨s', grant', t', c'⟩ ⟨hle, -⟩
    exact .ok ((Nat.le_add_right _ _).trans hle)

variable (messageContext : MessageContext)

theorem executeMessage_conserves (localTime : Nat) (message : Message) (grant : Option Nat)
    (t : TransactionTracker) (c : ResourceController (Option Owner)) :
    (s.executeMessage context hashing messageContext localTime message grant t c).Ensures fun p =>
      p.1.system.funds.total + p.2.2.1.carried + p.2.1.getD 0 ≤
        s.system.funds.total + t.carried + grant.getD 0 + message.credits ∧
      p.2.1.isSome = grant.isSome := by
  refine .guard fun _ => ?_
  cases message with
  | system message =>
    refine .bind (.mapError (s.system.executeMessage_ensures _ messageContext message t)) ?_
    rintro ⟨system, t₁, outcome⟩ ⟨messages, heffect, hrecords, rfl⟩
    refine .bind (P := fun t₂ => t₁.addOutcome _ = .ok t₂)
      (fun _ h => Except.mapError_eq_ok.mp h) fun t₂ hadd => .ok ⟨?_, rfl⟩
    have hle := heffect.conserves
    have hcarried₁ : t₁.carried = t.carried := hrecords.carried_eq
    have hcarried : t₂.carried = t₁.carried + (messages.map fun m => m.grant + m.message.value).sum :=
      TransactionTracker.carried_addOutcome hadd
    change system.funds.total + t₂.carried + grant.getD 0 ≤
      s.system.funds.total + t.carried + grant.getD 0 + message.credits
    dsimp only at hle
    omega
  | user applicationId bytes =>
    refine (s.runUserAction_conserves context hashing _ _ _ _ _ grant _ _).mono fun p hp => ?_
    exact ⟨hp.1.trans (Nat.le_add_right _ _), hp.2⟩

theorem bounceMessage_carried (grant : Nat) (message : Message) (t : TransactionTracker) :
    (s.bounceMessage context messageContext grant message t).Ensures fun t' =>
      t'.carried = t.carried + (grant + message.value) := by
  refine .guard fun _ => ?_
  cases message with
  | system message =>
    refine .bind (P := fun t₁ => t.addOutcome _ = .ok t₁)
      (fun _ h => Except.mapError_eq_ok.mp h) fun t₁ hadd => .ok ?_
    change t₁.carried = _
    rw [TransactionTracker.carried_addOutcome hadd]
    simp [ExecutionOutcome.carried, Message.value]
  | user applicationId bytes =>
    refine .mapError fun t' h => ?_
    rw [TransactionTracker.carried_addOutcome h]
    simp [ExecutionOutcome.carried, Message.value]

theorem sendRefund_carried (amount : Nat) (account : Account) (t : TransactionTracker) :
    (sendRefund context messageContext amount account t).Ensures fun t' =>
      t'.carried = t.carried + amount := by
  refine .guard fun _ => .mapError fun t' h => ?_
  rw [TransactionTracker.carried_addOutcome h]
  simp [ExecutionOutcome.carried, RawExecutionOutcome.withMessages, RawExecutionOutcome.default,
    SystemExecutionStateView.plainMessage, SystemMessage.value]

end ExecutionStateView

end Linera
