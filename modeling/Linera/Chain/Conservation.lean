import Linera.Chain.Outbox
import Linera.Chain.Transactions
import Linera.Execution.Conservation

/-!
# Conservation of tokens in a block

The balances of a chain after a block, together with everything that the block
sends, are at most the balances before it and everything that the block receives
(`tokens_conserved`). An `OpenChain` message brings the balance of the new chain
if it initializes it. On a chain that is already open it brings nothing, but a
tracked one that is rejected bounces with the balance (`bounced_opening_mints`).
-/

namespace Linera

def Message.openingBalance : Message → Nat
  | .system (.openChain config) => config.balance
  | _ => 0

theorem Message.value_eq (message : Message) :
    message.value = message.credits + message.openingBalance := by
  cases message with
  | user => rfl
  | system message => cases message <;> simp [value, credits, openingBalance, SystemMessage.value,
      SystemMessage.credits]

/-- The tokens that a message of a block carries: what it transfers, and its grant. -/
def OutgoingMessage.tokens (m : OutgoingMessage) : Nat := m.grant + m.message.value

/-- The tokens that the messages of a block carry away. -/
def tokensOut (messages : List (List OutgoingMessage)) : Nat :=
  (messages.map fun messages => (messages.map OutgoingMessage.tokens).sum).sum

/-- The tokens that a message brings, with or without the balance of a new chain. -/
def PostedMessage.tokens (m : PostedMessage) (opens : Bool) : Nat :=
  m.grant + m.message.credits + if opens then m.message.openingBalance else 0

/-- The tokens that the messages of a bundle bring, where `opens` says which ones may bring the
balance of a new chain. -/
def IncomingBundle.tokens (opens : IncomingBundle → PostedMessage → Bool) (b : IncomingBundle) :
    Nat :=
  (b.bundle.messages.map fun m => m.tokens (opens b m)).sum

def Block.tokensIn (opens : IncomingBundle → PostedMessage → Bool) (b : Block) : Nat :=
  (b.incomingBundles.map (IncomingBundle.tokens opens)).sum

def IncomingBundle.bounces (b : IncomingBundle) (m : PostedMessage) : Bool :=
  b.action == .reject && m.isTracked

/-- The tokens that a transaction brings when it is executed. -/
def Transaction.tokens : Transaction → Nat
  | .receiveMessages bundle => bundle.tokens IncomingBundle.bounces
  | .executeOperation _ => 0

/-! ## Outgoing messages -/

theorem ExecutionOutcome.outgoing_tokens (outcome : ExecutionOutcome) :
    (outcome.outgoing.map OutgoingMessage.tokens).sum = outcome.carried := by
  cases outcome with
  | system | user =>
    rw [outgoing, List.map_map, carried]
    rfl

theorem sum_outgoing_tokens (outcomes : List ExecutionOutcome) :
    ((outcomes.flatMap ExecutionOutcome.outgoing).map OutgoingMessage.tokens).sum =
      (outcomes.map ExecutionOutcome.carried).sum := by
  induction outcomes with
  | nil => rfl
  | cons outcome outcomes ih =>
    rw [List.flatMap_cons, List.map_append, List.sum_append, ih, outcome.outgoing_tokens,
      List.map_cons, List.sum_cons]

/-- Registration messages carry no tokens. -/
theorem TransactionTracker.Registered.carried_eq {t t' : TransactionTracker}
    (h : t.Registered t') : t'.carried = t.carried := by
  obtain ⟨-, rfl⟩ | ⟨huser, messages, -, hnotices, rfl⟩ := h
  · rfl
  · have hindex : t.outcomes.findIdx ExecutionOutcome.isUser ≤ t.outcomes.length :=
      List.findIdx_le_length
    have hperm := (List.perm_insertIdx (ExecutionOutcome.system
      (RawExecutionOutcome.default.withMessages messages)) t.outcomes hindex).map
        ExecutionOutcome.carried
    have hzero : (ExecutionOutcome.system
        (RawExecutionOutcome.default.withMessages messages)).carried = 0 :=
      hnotices.carried_eq_zero
    rw [carried, hperm.sum_eq, List.map_cons, List.sum_cons, hzero, zero_add, carried]

namespace ChainStateView

variable (context : ChainContext)

/-! ## Transactions -/

variable (c : ChainStateView)

variable (block : Block)

/-- A message is executed, refunded, bounced or dropped. -/
theorem executeMessageInBlock_conserves (localTime txnIndex : Nat) (bundle : IncomingBundle)
    (messageId : MessageId) (m : PostedMessage) (t : TransactionTracker)
    (controller : ResourceController (Option Owner)) :
    (c.executeMessageInBlock context block localTime txnIndex bundle messageId m t
      controller).Ensures fun p =>
        p.1.funds.total + p.2.1.carried ≤
          c.funds.total + t.carried + m.tokens (bundle.bounces m) := by
  simp only [executeMessageInBlock]
  split
  · next haction =>
    have hbounces : bundle.bounces m = false := by simp [IncomingBundle.bounces, haction]
    rw [hbounces]
    refine .guard fun _ => ?_
    refine .bind (.mapError (c.executionState.executeMessage_conserves _ _ _ _ _ _ _ _)) ?_
    rintro ⟨executionState, grantLeft, t₁, controller₁⟩ ⟨hle, hsome⟩
    -- If there was no grant then none is left.
    have hleft : grantLeft.getD m.grant = grantLeft.getD 0 := by
      cases grantLeft with
      | some grantLeft => rfl
      | none =>
        by_cases hgrant : m.grant > 0
        · simp [hgrant] at hsome
        · simp only [Option.getD_none]
          omega
    have hgrant : (if m.grant > 0 then some m.grant else none).getD 0 = m.grant := by
      split
      · rfl
      · simp only [Option.getD_none]
        omega
    change executionState.system.funds.total + t₁.carried + grantLeft.getD 0 ≤ _ at hle
    rw [hgrant] at hle
    have hdone : executionState.system.funds.total + t₁.carried ≤
        c.funds.total + t.carried + m.tokens false := by
      simp only [PostedMessage.tokens, funds, Bool.false_eq_true, if_false]
      omega
    simp only
    split
    · split
      · refine .bind (.mapError (ExecutionStateView.sendRefund_carried _ _ _ _ _)) fun t₂ ht₂ => ?_
        refine .ok ?_
        change executionState.system.funds.total + t₂.carried ≤ _
        simp only [PostedMessage.tokens, funds, Bool.false_eq_true, if_false]
        omega
      · exact .ok hdone
    · exact .ok hdone
  · next haction =>
    have hbounces : bundle.bounces m = m.isTracked := by simp [IncomingBundle.bounces, haction]
    rw [hbounces]
    refine .guard fun _ => ?_
    split
    · next htracked =>
      refine .bind (.mapError (c.executionState.bounceMessage_carried _ _ _ _ _)) fun t₁ ht₁ => ?_
      refine .ok ?_
      change c.funds.total + t₁.carried ≤ _
      rw [ht₁, Message.value_eq, htracked, PostedMessage.tokens, if_pos rfl]
      omega
    · split
      · split
        · exact .error
        · refine .bind (.mapError (ExecutionStateView.sendRefund_carried _ _ _ _ _)) fun t₁ ht₁ => ?_
          refine .ok ?_
          change c.funds.total + t₁.carried ≤ _
          rw [ht₁, PostedMessage.tokens]
          omega
      · exact .ok (Nat.le_add_right _ _)

theorem executeMessages_conserves (localTime txnIndex : Nat) (bundle : IncomingBundle)
    (t : TransactionTracker) (controller : ResourceController (Option Owner))
    (messages : List (MessageId × PostedMessage)) :
    (c.executeMessages context block localTime txnIndex bundle t controller messages).Ensures
      fun p => p.1.funds.total + p.2.1.carried ≤ c.funds.total + t.carried +
        (messages.map fun m => m.2.tokens (bundle.bounces m.2)).sum := by
  induction messages generalizing c t controller with
  | nil => exact .ok le_rfl
  | cons m messages ih =>
    refine .bind (c.executeMessageInBlock_conserves context block localTime txnIndex bundle m.1 m.2 t
      controller) ?_
    rintro ⟨c₁, t₁, controller₁⟩ hle
    refine (ih c₁ t₁ controller₁).mono fun p hp => ?_
    rw [List.map_cons, List.sum_cons]
    change c₁.funds.total + t₁.carried ≤ _ at hle
    omega

theorem executeTransactionBody_conserves (localTime txnIndex : Nat) (t : TransactionTracker)
    (controller : ResourceController (Option Owner)) (transaction : Transaction) :
    (c.executeTransactionBody context block localTime txnIndex t controller transaction).Ensures
      fun p => p.1.funds.total + p.2.1.carried ≤
        c.funds.total + t.carried + transaction.tokens := by
  cases transaction with
  | receiveMessages bundle =>
    refine .bind_any fun controller₁ => ?_
    refine (c.executeMessages_conserves context block localTime txnIndex bundle t controller₁
      _).mono fun p hp => hp.trans_eq ?_
    simp only [IncomingBundle.messagesAndIds, List.map_map, Transaction.tokens,
      IncomingBundle.tokens]
    rfl
  | executeOperation operation =>
    refine .bind_any fun controller₁ => ?_
    refine .bind (.mapError (c.executionState.executeOperation_conserves _ _ _ _ _ _ _)) ?_
    rintro ⟨executionState, t₁, controller₂⟩ hle
    refine .bind (.mapError (pay_ensures _ controller₂ fun c => c.trackOperation_pays operation)) ?_
    rintro ⟨c₁, controller₃⟩ ⟨-, hpaid⟩
    refine .ok ?_
    have htotal : c₁.funds.total ≤ executionState.system.funds.total := hpaid.total
    change c₁.funds.total + t₁.carried ≤ c.funds.total + t.carried + 0
    change executionState.system.funds.total + t₁.carried ≤ c.funds.total + t.carried at hle
    omega

/-! ## Blocks -/

theorem tokensOut_append (messages : List (List OutgoingMessage))
    (outcomes : List ExecutionOutcome) :
    tokensOut (messages ++ [outcomes.flatMap ExecutionOutcome.outgoing]) =
      tokensOut messages + (outcomes.map ExecutionOutcome.carried).sum := by
  simp [tokensOut, sum_outgoing_tokens]

/-- What the transactions do to the tokens on the chain and in messages. -/
theorem executeTransactions_conserves (localTime : Nat) (p : BlockProgress) :
    (p.executeTransactions context block localTime 0 block.transactions).Ensures fun p' =>
      p'.chain.funds.total + tokensOut p'.messages ≤ p.chain.funds.total + tokensOut p.messages +
        (block.transactions.map Transaction.tokens).sum := by
  -- The tokens of the transactions to come are still part of the budget.
  refine BlockProgress.executeTransactions_ensures context block localTime
    (I := fun transactions p' => p'.chain.funds.total + tokensOut p'.messages +
      (transactions.map Transaction.tokens).sum ≤ p.chain.funds.total + tokensOut p.messages +
        (block.transactions.map Transaction.tokens).sum) block.transactions ?_ 0 p le_rfl
  intro txnIndex transaction transactions p₁ hp₁
  refine (p₁.executeTransaction_ensures context block localTime txnIndex transaction
    (Q := fun chain t _ => chain.funds.total + t.carried ≤
      p₁.chain.funds.total + transaction.tokens) fun responses => ?_).mono ?_
  · exact executeTransactionBody_conserves context _ _ _ _ _ _ _
  rintro p₂ ⟨chain, t, payer, hle, hrecords⟩
  obtain ⟨t', hregistered, hmessages⟩ := hrecords.messages
  have htotal := hrecords.paid.total
  have hcarried : (t'.outcomes.map ExecutionOutcome.carried).sum = t.carried :=
    hregistered.carried_eq
  rw [hmessages, tokensOut_append, hcarried]
  rw [List.map_cons, List.sum_cons] at hp₁
  omega

/-- The tokens of the transactions are the ones of the bundles. -/
theorem sum_tokens_transactions :
    (block.transactions.map Transaction.tokens).sum = block.tokensIn IncomingBundle.bounces := by
  have hoperations : ∀ operations : List Operation,
      (operations.map (Transaction.tokens ∘ Transaction.executeOperation)).sum = 0 := by
    intro operations
    induction operations with
    | nil => rfl
    | cons operation operations ih => simpa [Transaction.tokens] using ih
  rw [Block.transactions, List.map_append, List.sum_append, List.map_map, List.map_map,
    hoperations]
  rfl

theorem startsWithOpenChainMessage_eq_some {block : Block} {bundle : IncomingBundle}
    {m : PostedMessage} {config : OpenChainConfig}
    (h : block.startsWithOpenChainMessage = some (bundle, m, config)) :
    ∃ bundles messages, block.incomingBundles = bundle :: bundles ∧ bundle.action = .accept ∧
      bundle.bundle.messages = m :: messages ∧ m.message = .system (.openChain config) := by
  obtain ⟨bundle', hbundle, h⟩ := Option.bind_eq_some_iff.mp h
  obtain ⟨_, haccept, h⟩ := Option.bind_eq_some_iff.mp h
  obtain ⟨m', hm, h⟩ := Option.bind_eq_some_iff.mp h
  obtain ⟨config', hconfig, h⟩ := Option.bind_eq_some_iff.mp h
  obtain ⟨rfl, rfl, rfl⟩ : bundle' = bundle ∧ m' = m ∧ config' = config := by
    simpa using h
  obtain ⟨bundles, hbundles⟩ := List.head?_eq_some_iff.mp hbundle
  obtain ⟨messages, hmessages⟩ := List.head?_eq_some_iff.mp hm
  refine ⟨bundles, messages, hbundles, ?_, hmessages, ?_⟩
  · by_contra hne
    simp [guard, hne] at haccept
  · unfold Message.matchesOpenChain at hconfig
    split at hconfig
    · next hmessage => rw [hmessage, Option.some.inj hconfig]
    · cases hconfig

theorem tokens_mono (m : PostedMessage) {opens opens' : Bool}
    (h : opens = true → opens' = true) : m.tokens opens ≤ m.tokens opens' := by
  cases opens with
  | false => exact Nat.add_le_add_left (Nat.zero_le _) _
  | true => rw [h rfl]

theorem tokens_le (opens : IncomingBundle → PostedMessage → Bool) (bundle : IncomingBundle)
    (messages : List PostedMessage) : (messages.map fun m => m.tokens (opens bundle m)).sum ≤
      (messages.map fun m => m.tokens true).sum :=
  List.sum_le_sum fun m _ => tokens_mono m fun _ => rfl

/-- The balance of a new chain is brought by its first message, which is not rejected. -/
theorem opening_add_tokensIn_le {block : Block} {bundle : IncomingBundle} {m : PostedMessage}
    {config : OpenChainConfig} (h : block.startsWithOpenChainMessage = some (bundle, m, config)) :
    config.balance + block.tokensIn IncomingBundle.bounces ≤ block.tokensIn fun _ _ => true := by
  obtain ⟨bundles, messages, hbundles, haccept, hmessages, hm⟩ :=
    startsWithOpenChainMessage_eq_some h
  have hopening : config.balance + m.tokens (bundle.bounces m) = m.tokens true := by
    simp [IncomingBundle.bounces, haccept, PostedMessage.tokens, hm, Message.openingBalance]
    omega
  have hrest := tokens_le IncomingBundle.bounces bundle messages
  have hothers : (bundles.map (IncomingBundle.tokens IncomingBundle.bounces)).sum ≤
      (bundles.map (IncomingBundle.tokens fun _ _ => true)).sum :=
    List.sum_le_sum fun other _ => tokens_le IncomingBundle.bounces other _
  rw [Block.tokensIn, Block.tokensIn, hbundles, List.map_cons, List.map_cons, List.sum_cons,
    List.sum_cons, IncomingBundle.tokens, IncomingBundle.tokens, hmessages, List.map_cons,
    List.map_cons, List.sum_cons, List.sum_cons]
  omega

/-- The messages whose opening balance counts: all of them if they arrive at a new chain, and
otherwise the ones that bounce. -/
def opens (c : ChainStateView) (bundle : IncomingBundle) (m : PostedMessage) : Bool :=
  !c.isActive || bundle.bounces m

/-- What the chain starts from, and what its messages bring. -/
theorem fundsAtStart_total_le :
    (c.fundsAtStart block).total + block.tokensIn IncomingBundle.bounces ≤
      c.funds.total + block.tokensIn c.opens := by
  unfold fundsAtStart
  split
  · refine Nat.add_le_add_left (List.sum_le_sum fun bundle _ => List.sum_le_sum fun m _ => ?_) _
    exact tokens_mono m fun hbounces => by simp [opens, hbounces]
  · next config hconfig =>
    obtain ⟨hinactive, bundle, m, hfirst⟩ := initialConfig_eq_some hconfig
    have hopens : c.opens = fun _ _ => true := by
      funext bundle m
      simp [opens, hinactive]
    have hle := opening_add_tokensIn_le hfirst
    rw [hopens]
    simp only [Funds.total]
    omega

/-- No tokens are created by a block, whatever it contains and whatever its contracts do. -/
theorem tokens_conserved {c : ChainStateView} {block : Block} {localTime : Nat}
    {responses : Option (List (List OracleResponse))} {e : BlockExecution}
    (h : c.executeBlock context block localTime responses = .ok e) :
    e.chain.funds.total + tokensOut e.outcome.messages ≤
      c.funds.total + block.tokensIn c.opens := by
  obtain ⟨p, hstart, h⟩ := Except.bind_eq_ok.mp h
  obtain ⟨p₁, htransactions, hfinish⟩ := Except.bind_eq_ok.mp h
  obtain ⟨hstarts, -, hmessages, -, -⟩ := c.startBlock_ensures context _ _ _ p hstart
  have hle := executeTransactions_conserves context block localTime p p₁ htransactions
  obtain ⟨hpaid, houtgoing, -⟩ := finishBlock_ensures context p₁ _ _ e hfinish
  have hnothing : tokensOut [] = 0 := rfl
  rw [hmessages, hnothing, sum_tokens_transactions] at hle
  rw [houtgoing]
  rw [hstarts] at hle
  have hbefore := c.fundsAtStart_total_le block
  have hafter := hpaid.total
  omega

-- A chain with ten tokens, and blocks of its owner.

def fundedChain : ChainStateView :=
  activeChain.setSystem { activeChain.executionState.system with balance := 10 }

/-- A block of the owner of `activeChain`. -/
def ownerBlock (incomingBundles : List IncomingBundle) (operations : List Operation) : Block :=
  ⟨⟨⟨0⟩⟩, 0, incomingBundles, operations, 0, 0, some ⟨⟨1⟩⟩, none⟩

def oneMessage (action : MessageAction) (m : PostedMessage) : IncomingBundle :=
  ⟨⟨⟨⟨3⟩⟩, .direct⟩, ⟨0, 0, ⟨0⟩, 0, [m]⟩, action⟩

/-- A transfer of three tokens to another chain. -/
theorem tokens_conserved_transfer :
    ∃ e ∈ (fundedChain.executeBlock simpleContext (ownerBlock []
        [.system (.transfer none (.account ⟨⟨⟨5⟩⟩, none⟩) 3)]) 0 none).toOption,
      e.chain.funds.balance = 7 ∧ tokensOut e.outcome.messages = 3 ∧
        e.chain.funds.total + tokensOut e.outcome.messages ≤ 10 := by
  obtain ⟨e, he, hbalance, hout⟩ :
    ∃ e ∈ (fundedChain.executeBlock simpleContext (ownerBlock []
        [.system (.transfer none (.account ⟨⟨⟨5⟩⟩, none⟩) 3)]) 0 none).toOption,
      e.chain.funds.balance = 7 ∧ tokensOut e.outcome.messages = 3 := by decide
  exact ⟨e, he, hbalance, hout, tokens_conserved simpleContext (Except.toOption_eq_some.mp he)⟩

/-- The balance for a new chain, in a tracked message to a chain that is already open. -/
def trackedOpening : PostedMessage :=
  ⟨none, 0, none, .tracked, 0, .system (.openChain
    ⟨Validator.superOwner, ⟨⟨0⟩⟩, 0, .ofList [(0, ⟨.empty, .default⟩)], 5, .default⟩)⟩

/-- A rejected `OpenChain` message bounces with tokens that the open chain has not received. -/
theorem bounced_opening_mints :
    ∃ e ∈ (fundedChain.executeBlock simpleContext
        (ownerBlock [oneMessage .reject trackedOpening] []) 0 none).toOption,
      fundedChain.isActive = true ∧
        fundedChain.funds.total + (ownerBlock [oneMessage .reject trackedOpening] []).tokensIn
          (fun _ _ => !fundedChain.isActive) <
        e.chain.funds.total + tokensOut e.outcome.messages := by
  decide

end ChainStateView

end Linera
