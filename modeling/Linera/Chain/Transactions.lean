import Linera.Chain.Execution
import Linera.Chain.Sending
import Linera.Execution.Effects

/-!
# The transactions of a block

What the parts of `execute_block` around the execution of operations and messages
do: how a block starts, what is recorded of a transaction when its body has been
executed, and how a block ends.
-/

namespace Linera

/-! ## Registration messages -/

def ExecutionOutcome.sendsUserMessage : ExecutionOutcome → Bool
  | .system _ => false
  | .user _ outcome => !outcome.messages.isEmpty

theorem ExecutionOutcome.isEmpty_addDestinations
    (toRegister : BTreeMap Destination (BTreeSet UserApplicationId)) (outcome : ExecutionOutcome) :
    (outcome.addDestinations toRegister).isEmpty =
      (toRegister.isEmpty && !outcome.sendsUserMessage) := by
  cases outcome with
  | system outcome => simp [addDestinations, sendsUserMessage]
  | user applicationId outcome =>
    simp only [addDestinations, sendsUserMessage, Bool.not_not]
    induction outcome.messages generalizing toRegister with
    | nil => simp
    | cons message messages ih => simp [ih, BTreeMap.isEmpty_insert]

/-- There is something to register if a user application sends a message. -/
theorem isEmpty_applicationsToRegister (outcomes : List ExecutionOutcome) :
    (applicationsToRegisterPerDestination outcomes).isEmpty =
      !outcomes.any ExecutionOutcome.sendsUserMessage := by
  have hfold : ∀ toRegister, (outcomes.foldl ExecutionOutcome.addDestinations toRegister).isEmpty =
      (toRegister.isEmpty && !outcomes.any ExecutionOutcome.sendsUserMessage) := by
    induction outcomes with
    | nil => simp
    | cons outcome outcomes ih =>
      intro toRegister
      rw [List.foldl_cons, ih, outcome.isEmpty_addDestinations]
      simp [Bool.and_assoc]
  rw [applicationsToRegisterPerDestination, hfold]
  rfl

/-- Messages that register applications have been put in front of the messages of contracts, if
there are any. -/
def TransactionTracker.Registered (t t' : TransactionTracker) : Prop :=
  (t.outcomes.any ExecutionOutcome.sendsUserMessage = false ∧ t' = t) ∨
    (t.outcomes.any ExecutionOutcome.sendsUserMessage = true ∧ ∃ messages, messages ≠ [] ∧
      Notices messages ∧ t' = { t with
        outcomes := t.outcomes.insertIdx (t.outcomes.findIdx ExecutionOutcome.isUser)
          (.system (RawExecutionOutcome.default.withMessages messages)) })

namespace TransactionTracker.Registered

variable {t t' : TransactionTracker} (h : t.Registered t')
include h

theorem trace : t'.trace = t.trace := by
  obtain ⟨-, rfl⟩ | ⟨-, messages, -, -, rfl⟩ := h <;> rfl

theorem nextMessageIndex : t'.nextMessageIndex = t.nextMessageIndex := by
  obtain ⟨-, rfl⟩ | ⟨-, messages, -, -, rfl⟩ := h <;> rfl

end TransactionTracker.Registered

namespace ExecutionStateView

theorem registrationMessages_ensures (s : ExecutionStateView)
    (toRegister : List (Destination × BTreeSet UserApplicationId)) :
    (toRegister.mapM fun (destination, applications) =>
      s.registrationMessage destination applications).Ensures fun messages =>
        messages.length = toRegister.length ∧ Notices messages := by
  induction toRegister with
  | nil => exact .ok ⟨rfl, .nil⟩
  | cons e toRegister ih =>
    rw [List.mapM_cons]
    refine .bind (P := fun message => message.grant = 0 ∧ message.message.isNotice = true)
      (.bind_any fun _ => .ok ⟨rfl, rfl⟩) fun message hmessage => ?_
    refine .bind ih fun messages ⟨hlength, hmessages⟩ => .ok ⟨?_, ?_⟩
    · rw [List.length_cons, hlength, List.length_cons]
    · exact List.forall_mem_cons.mpr ⟨hmessage, hmessages⟩

theorem updateExecutionOutcomesWithAppRegistrations_ensures (s : ExecutionStateView)
    (t : TransactionTracker) :
    (s.updateExecutionOutcomesWithAppRegistrations t).Ensures t.Registered := by
  have hempty := isEmpty_applicationsToRegister t.outcomes
  simp only [updateExecutionOutcomesWithAppRegistrations]
  split
  · next h =>
    rw [h, eq_comm, Bool.not_eq_true'] at hempty
    exact .ok (.inl ⟨hempty, rfl⟩)
  · next h =>
    rw [Bool.eq_false_iff.mpr h, eq_comm, Bool.not_eq_false'] at hempty
    refine .bind (s.registrationMessages_ensures _) fun messages ⟨hlength, hmessages⟩ => ?_
    refine .ok (.inr ⟨hempty, messages, fun hnil => h ?_, hmessages, rfl⟩)
    rw [hnil, List.length_nil, eq_comm, List.length_eq_zero_iff] at hlength
    rw [BTreeMap.isEmpty, hlength, List.isEmpty_nil]

end ExecutionStateView

/-! ## Fees of a block -/

/-- Fees were charged to the chain and to the account of the payer. -/
structure ChainStateView.Paid (payer : Option Owner) (c c' : ChainStateView) : Prop where
  charged : Funds.Charged payer c.funds c'.funds
  total : c'.funds.total ≤ c.funds.total

namespace ChainStateView

theorem Paid.refl (payer : Option Owner) (c : ChainStateView) : Paid payer c c :=
  ⟨.refl payer _, le_rfl⟩

theorem Paid.trans {payer : Option Owner} {c c' c'' : ChainStateView} (h : Paid payer c c')
    (h' : Paid payer c' c'') : Paid payer c c'' :=
  ⟨h.charged.trans h'.charged, h'.total.trans h.total⟩

theorem pay_ensures (c : ChainStateView) (controller : ResourceController (Option Owner))
    {f : ResourceController Sources → Except ExecutionError (ResourceController Sources)}
    (hf : ∀ c, (f c).Ensures (c.Pays 0)) : (c.pay controller f).Ensures fun p =>
      p.2.account = controller.account ∧ Paid controller.account c p.1 := by
  refine .bind (controller.withState_ensures _ hf) ?_
  rintro ⟨controller', system⟩ ⟨haccount, hcharged, htotal⟩
  exact .ok ⟨haccount, hcharged, htotal⟩

theorem trackMessages_ensures (c : ChainStateView) (controller : ResourceController (Option Owner))
    (messages : List OutgoingMessage) : (c.trackMessages controller messages).Ensures fun p =>
      p.2.account = controller.account ∧ Paid controller.account c p.1 := by
  induction messages generalizing c controller with
  | nil => exact .ok ⟨rfl, .refl _ c⟩
  | cons message messages ih =>
    refine .bind (c.pay_ensures controller fun c => c.trackMessage_pays message.message) ?_
    rintro ⟨c₁, controller₁⟩ ⟨haccount₁, hpaid₁⟩
    refine (ih c₁ controller₁).mono ?_
    rintro ⟨c₂, controller₂⟩ ⟨haccount₂, hpaid₂⟩
    have haccount : controller₁.account = controller.account := haccount₁
    rw [haccount] at haccount₂ hpaid₂
    exact ⟨haccount₂, hpaid₁.trans hpaid₂⟩

end ChainStateView

theorem ResourceController.trackExecutedBlockSize_account {A : Type} (c : ResourceController A)
    (size : Nat) : (c.trackExecutedBlockSize size).Ensures fun c' => c'.account = c.account := by
  unfold trackExecutedBlockSize
  split
  · exact .error
  · exact .guard fun _ => .ok rfl

theorem ResourceController.trackExecutedBlockSizeSequenceExtension_account {A : Type}
    (c : ResourceController A) (oldLen delta : Nat) :
    (c.trackExecutedBlockSizeSequenceExtension oldLen delta).Ensures fun c' =>
      c'.account = c.account := by
  simp only [trackExecutedBlockSizeSequenceExtension]
  split
  · exact .ok rfl
  · split
    · exact c.trackExecutedBlockSize_account _
    · exact .ok rfl

/-- The size of the results of a transaction is tracked in four steps. -/
theorem ResourceController.trackResults_account {A : Type} (c : ResourceController A)
    (size oracleResponses messages events : Nat) : (do
      let c ← c.trackExecutedBlockSize size
      let c ← c.trackExecutedBlockSizeSequenceExtension oracleResponses 1
      let c ← c.trackExecutedBlockSizeSequenceExtension messages 1
      c.trackExecutedBlockSizeSequenceExtension events 1).Ensures fun c' =>
        c'.account = c.account := by
  refine .bind (c.trackExecutedBlockSize_account _) fun c₁ h₁ => ?_
  refine .bind (c₁.trackExecutedBlockSizeSequenceExtension_account _ _) fun c₂ h₂ => ?_
  refine .bind (c₂.trackExecutedBlockSizeSequenceExtension_account _ _) fun c₃ h₃ => ?_
  refine (c₃.trackExecutedBlockSizeSequenceExtension_account _ _).mono fun c₄ h₄ => ?_
  exact ((h₄.trans h₃).trans h₂).trans h₁

/-! ## The transactions one after another -/

/-- What is recorded when the body of a transaction has left the chain in the state `chain` with
the outcomes of `t`: its messages, with the registrations, what it did, and the fees for the
messages. -/
structure BlockProgress.Records (p : BlockProgress) (chain : ChainStateView)
    (t : TransactionTracker) (payer : Option Owner) (p' : BlockProgress) : Prop where
  messages : ∃ t', t.Registered t' ∧
    p'.messages = p.messages ++ [t'.outcomes.flatMap ExecutionOutcome.outgoing]
  nextMessageIndex : p'.nextMessageIndex = t.nextMessageIndex
  trace : p'.trace = p.trace ++ t.trace ++ [⟨.fees payer, chain.funds, p'.chain.funds⟩]
  account : p'.controller.account = payer
  paid : ChainStateView.Paid payer chain p'.chain

namespace BlockProgress

variable (context : ChainContext)

theorem executeTransaction_ensures (p : BlockProgress) (block : Block) (localTime txnIndex : Nat)
    (transaction : Transaction) {Q : ChainStateView → TransactionTracker → Option Owner → Prop}
    (hbody : ∀ responses, (p.chain.executeTransactionBody context block localTime txnIndex
      (.new p.nextMessageIndex responses) p.controller transaction).Ensures fun b =>
        Q b.1 b.2.1 b.2.2.account) :
    (p.executeTransaction context block localTime txnIndex transaction).Ensures fun p' =>
      ∃ chain t payer, Q chain t payer ∧ p.Records chain t payer p' := by
  refine .bind_any ?_
  rintro ⟨responses, replaying⟩
  refine .bind (hbody responses) ?_
  rintro ⟨chain, t, controller⟩ hQ
  refine .bind (.mapError (chain.executionState.updateExecutionOutcomesWithAppRegistrations_ensures
    t)) fun t' hregistered => ?_
  refine .bind (P := fun d => d.1 = t'.outcomes ∧ d.2.2 = t'.nextMessageIndex) (.mapError ?_) ?_
  · unfold TransactionTracker.destructure
    split
    · exact .error
    · exact .ok ⟨rfl, rfl⟩
  rintro ⟨outcomes, oracleResponses, nextMessageIndex⟩ ⟨houtcomes, hindex⟩
  refine .bind (chain.processExecutionOutcomes_sends _ _) ?_
  rintro ⟨chain₁, messages, events⟩ ⟨hsends, hmessages⟩
  obtain rfl : outcomes = t'.outcomes := houtcomes
  have hstart : chain₁.funds = chain.funds := by
    rw [ChainStateView.funds, hsends.executionState, ChainStateView.funds]
  have hsame : t'.trace = t.trace ∧ t'.nextMessageIndex = t.nextMessageIndex :=
    ⟨hregistered.trace, hregistered.nextMessageIndex⟩
  -- Whether or not the messages are paid for, only the fees are left to be recorded.
  have hrecords : ∀ chain₂ (controller₂ : ResourceController (Option Owner)),
      ChainStateView.Paid controller.account chain₁ chain₂ →
      controller₂.account = controller.account →
      ∀ p' : BlockProgress, p'.chain = chain₂ → p'.controller = controller₂ →
        p'.nextMessageIndex = nextMessageIndex → p'.messages = p.messages ++ [messages] →
        p'.trace = p.trace ++ t'.trace ++ [⟨.fees controller₂.account, chain₁.funds, chain₂.funds⟩] →
        p.Records chain t controller.account p' := by
    rintro chain₂ controller₂ hpaid haccount p' rfl rfl hnext hp'messages htrace
    refine ⟨⟨t', hregistered, ?_⟩, ?_, ?_, haccount, ?_⟩
    · rw [hp'messages, show messages = _ from hmessages]
    · exact (hnext.trans hindex).trans hsame.2
    · rw [htrace, hsame.1, haccount, hstart]
    · exact ⟨hstart ▸ hpaid.charged, hstart ▸ hpaid.total⟩
  simp only
  split
  · refine .bind (.mapError (chain₁.trackMessages_ensures controller messages)) ?_
    rintro ⟨chain₂, controller₂⟩ ⟨haccount₂, hpaid⟩
    refine .bind (.mapError (controller₂.trackResults_account _ _ _ _)) fun controller₃ haccount₃ => ?_
    exact .ok ⟨chain, t, controller.account, hQ,
      hrecords chain₂ controller₃ hpaid (haccount₃.trans haccount₂) _ rfl rfl rfl rfl rfl⟩
  · rw [Except.pure_eq, Except.ok_bind]
    refine .bind (.mapError (controller.trackResults_account _ _ _ _)) fun controller₃ haccount₃ => ?_
    exact .ok ⟨chain, t, controller.account, hQ,
      hrecords chain₁ controller₃ (.refl _ _) haccount₃ _ rfl rfl rfl rfl rfl⟩

/-- The rule for the transactions of a block: an invariant that each of them keeps. -/
theorem executeTransactions_ensures (block : Block) (localTime : Nat)
    {I : List Transaction → BlockProgress → Prop} (transactions : List Transaction)
    (hstep : ∀ txnIndex transaction transactions p, I (transaction :: transactions) p →
      (p.executeTransaction context block localTime txnIndex transaction).Ensures
        (I transactions)) (txnIndex : Nat) (p : BlockProgress) (hp : I transactions p) :
    (executeTransactions context block localTime txnIndex transactions p).Ensures (I []) := by
  induction transactions generalizing txnIndex p with
  | nil => exact .ok hp
  | cons transaction transactions ih =>
    exact .bind (hstep txnIndex transaction transactions p hp) fun p' hp' => ih (txnIndex + 1) p' hp'

end BlockProgress

namespace ChainStateView

variable (context : ChainContext) (c : ChainStateView)

theorem resetManager_ensures (height localTime : Nat) :
    (c.resetManager context height localTime).Ensures fun c' =>
      c'.executionState = c.executionState :=
  .bind_any fun _ => .ok rfl

/-- The configuration that the block installs, if it is the first one of a child chain. -/
def initialConfig (c : ChainStateView) (block : Block) : Option OpenChainConfig :=
  if block.height = 0 ∧ c.executionState.system.description.all ChainDescription.isChild ∧
      c.isActive = false
  then block.startsWithOpenChainMessage.map fun (_, _, config) => config
  else none

theorem initialConfig_eq_some {c : ChainStateView} {block : Block} {config : OpenChainConfig}
    (h : c.initialConfig block = some config) : c.isActive = false ∧ ∃ inBundle postedMessage,
      block.startsWithOpenChainMessage = some (inBundle, postedMessage, config) := by
  unfold initialConfig at h
  split at h
  · next hfirst =>
    obtain ⟨⟨inBundle, postedMessage, config'⟩, hopen, rfl⟩ := Option.map_eq_some_iff.mp h
    exact ⟨hfirst.2.2, inBundle, postedMessage, hopen⟩
  · cases h

/-- The funds of a chain before its first transaction: they are the ones before the block, unless
the block initializes the chain. -/
def fundsAtStart (c : ChainStateView) (block : Block) : Funds :=
  match c.initialConfig block with
  | none => c.funds
  | some config => ⟨config.balance, c.funds.balances, config.ownership⟩

theorem initializeFirstBlock_ensures (block : Block) (localTime : Nat) :
    (c.initializeFirstBlock context block localTime).Ensures fun c' =>
      c'.funds = c.fundsAtStart block := by
  unfold initializeFirstBlock fundsAtStart initialConfig
  by_cases hfirst : block.height = 0 ∧
      c.executionState.system.description.all ChainDescription.isChild
  · rw [if_pos hfirst]
    cases hopen : block.startsWithOpenChainMessage with
    | none => exact .error
    | some opening =>
      obtain ⟨inBundle, postedMessage, config⟩ := opening
      by_cases hactive : c.isActive
      · simp only [hactive, if_true]
        exact .ok (by simp)
      · simp only [hactive, hfirst]
        refine .bind (P := fun system => system.funds =
          ⟨config.balance, c.funds.balances, config.ownership⟩) (.mapError ?_) fun system hfunds => ?_
        · exact .guard fun _ => .guard fun _ => .guard fun _ => .ok rfl
        · refine (resetManager_ensures context _ _ _).mono fun c' hc' => ?_
          rw [funds, hc']
          exact hfunds
  · rw [if_neg hfirst, if_neg (fun h => hfirst ⟨h.1, h.2.1⟩)]
    exact .ok rfl

theorem startController_account (policy : ResourceControlPolicy) (block : Block) :
    (startController policy block).Ensures fun controller =>
      controller.account = block.authenticatedSigner := by
  refine .bind (ResourceController.trackExecutedBlockSize_account _ _) fun c₁ h₁ => ?_
  refine .bind (c₁.trackExecutedBlockSizeSequenceExtension_account _ _) fun c₂ h₂ => ?_
  refine (c₂.trackExecutedBlockSizeSequenceExtension_account _ _).mono fun c₃ h₃ => ?_
  exact (h₃.trans h₂).trans h₁

theorem startBlock_ensures (block : Block) (localTime : Nat)
    (responses : Option (List (List OracleResponse))) :
    (c.startBlock context block localTime responses).Ensures fun p =>
      p.chain.funds = c.fundsAtStart block ∧ p.controller.account = block.authenticatedSigner ∧
        p.messages = [] ∧ p.nextMessageIndex = 0 ∧
        p.trace = [⟨.startBlock, c.funds, p.chain.funds⟩] := by
  refine .guard fun _ => .bind (c.initializeFirstBlock_ensures context block localTime) ?_
  intro c₁ hstarts
  refine .guard fun _ => ?_
  simp only
  split
  · exact .error
  · refine .bind (.mapError (startController_account _ block)) fun controller haccount => ?_
    refine .guard fun _ => .bind_any fun _ => .ok ⟨hstarts, haccount, rfl, rfl, rfl⟩

theorem finishBlock_ensures (p : BlockProgress) (block : Block) (localTime : Nat) :
    (finishBlock context p block localTime).Ensures fun e =>
      Paid p.controller.account p.chain e.chain ∧ e.outcome.messages = p.messages ∧
        e.trace = p.trace ++ [⟨.fees p.controller.account, p.chain.funds, e.chain.funds⟩] := by
  have hpay : (withExecutionContext (if p.chain.isClosed then pure (p.chain, p.controller)
      else p.chain.pay p.controller fun controller => controller.trackBlock) .block).Ensures
      fun x => Paid p.controller.account p.chain x.1 := by
    refine .mapError ?_
    split
    · exact .ok (.refl _ _)
    · exact (p.chain.pay_ensures p.controller fun c => c.trackBlock_pays).mono fun x hx => hx.2
  refine .bind hpay ?_
  rintro ⟨c₁, controller₁⟩ hpaid
  refine .bind_any fun nextHeight => .bind (resetManager_ensures context c₁ _ _) fun c₂ hc₂ => ?_
  have hfunds : c₂.funds = c₁.funds := by rw [funds, hc₂, funds]
  refine .guard fun _ => .ok ⟨⟨?_, ?_⟩, rfl, rfl⟩
  · rw [hfunds]
    exact hpaid.charged
  · rw [hfunds]
    exact hpaid.total

end ChainStateView

end Linera
