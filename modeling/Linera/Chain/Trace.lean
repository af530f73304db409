import Linera.Chain.Transactions
import Linera.Execution.Trace

/-!
# The trace of a block

The trace of a block explains what happens to the funds of the chain from before
the block to after it, and each entry has its cause in the block: an operation of
the block, a message of an accepted bundle, a message of a rejected bundle that
returns to its sender, a request of a contract, or fees.
-/

namespace Linera

/-- What a message of a block asks for. -/
def OutgoingMessage.issue (m : OutgoingMessage) : Option Issue :=
  match m.message with
  | .system message =>
    if m.kind = .bouncing then message.returned else message.issue m.destination
  | .user _ _ => none

/-- The message is one of an accepted bundle of the block. -/
def Block.Accepts (block : Block) (message : SystemMessage) : Prop :=
  ∃ bundle ∈ block.incomingBundles, bundle.action = .accept ∧
    ∃ m ∈ bundle.bundle.messages, m.message = .system message

/-- The message is a tracked one of a rejected bundle of the block. -/
def Block.Returns (block : Block) (message : SystemMessage) : Prop :=
  ∃ bundle ∈ block.incomingBundles, bundle.action = .reject ∧
    ∃ m ∈ bundle.bundle.messages, m.isTracked ∧ m.message = .system message

/-- The action has its cause in the transactions of the block. -/
def Action.In (block : Block) : Action → Prop
  | .startBlock => False
  | .operation signer op => signer = block.authenticatedSigner ∧ .system op ∈ block.operations
  | .message _ m => block.Accepts m
  | .bounce m => block.Returns m
  | .fees payer => payer = block.authenticatedSigner
  | _ => True

/-- The entry says what the action has done, and the action has its cause in the block. -/
structure TraceEntry.Accounted (hashing : Hashing) (block : Block) (e : TraceEntry) : Prop where
  sound : e.Sound hashing
  cause : e.action.In block

theorem Action.in_of_caller {action : Action} (h : action.caller.isSome) (block : Block) :
    action.In block := by
  cases action <;> trivial

/-! ## Outgoing messages -/

theorem ExecutionOutcome.outgoing_issued (outcome : ExecutionOutcome) :
    outcome.outgoing.filterMap OutgoingMessage.issue = outcome.issued := by
  cases outcome with
  | system outcome =>
    rw [outgoing, List.filterMap_map, issued]
    rfl
  | user applicationId outcome =>
    rw [outgoing, List.filterMap_map, issued, List.filterMap_eq_nil_iff]
    intro m _
    simp [OutgoingMessage.issue, ChainStateView.outgoingMessage]

theorem outgoing_issued (outcomes : List ExecutionOutcome) :
    (outcomes.flatMap ExecutionOutcome.outgoing).filterMap OutgoingMessage.issue =
      outcomes.flatMap ExecutionOutcome.issued := by
  induction outcomes with
  | nil => rfl
  | cons outcome outcomes ih =>
    rw [List.flatMap_cons, List.filterMap_append, ih, outcome.outgoing_issued, List.flatMap_cons]

/-- Registration messages ask for nothing. -/
theorem TransactionTracker.Registered.issued_eq {t t' : TransactionTracker}
    (h : t.Registered t') : t'.issued = t.issued := by
  obtain ⟨-, rfl⟩ | ⟨-, messages, -, hnotices, rfl⟩ := h
  · rfl
  · have hnil : (ExecutionOutcome.system
        (RawExecutionOutcome.default.withMessages messages)).issued = [] := hnotices.issued_eq_nil
    rw [issued, issued]
    generalize ExecutionOutcome.system _ = registration at hnil
    generalize t.outcomes.findIdx ExecutionOutcome.isUser = index
    induction t.outcomes generalizing index with
    | nil => cases index <;> simp [hnil]
    | cons outcome outcomes ih =>
      cases index with
      | zero => simp [hnil]
      | succ index => simp [ih index]

namespace ChainStateView

variable (context : ChainContext)

/-- What happens to the funds is explained by entries that are accounted for by the block. -/
def ExplainedBy (block : Block) (c : ChainStateView) (t : TransactionTracker)
    (c' : ChainStateView) (t' : TransactionTracker) : Prop :=
  ∃ entries, Explained (TraceEntry.Accounted context.primitives.toHashing block) c.funds t entries
    c'.funds t'

variable {controller : ResourceController (Option Owner)} {block : Block}

variable {context} in
theorem ExplainedBy.trans {c c' c'' : ChainStateView} {t t' t'' : TransactionTracker}
    (h : ExplainedBy context block c t c' t') (h' : ExplainedBy context block c' t' c'' t'') :
    ExplainedBy context block c t c'' t'' := by
  obtain ⟨entries, hentries⟩ := h
  obtain ⟨entries', hentries'⟩ := h'
  exact ⟨entries ++ entries', hentries.trans hentries'⟩

variable {context} in
theorem ExplainedBy.of_issued {c c' : ChainStateView} {t t' t'' : TransactionTracker}
    (h : ExplainedBy context block c t c' t') (hissued : t''.issued = t'.issued)
    (htrace : t''.trace = t'.trace) : ExplainedBy context block c t c' t'' :=
  h.trans ⟨[], .nil htrace rfl hissued⟩

theorem explainedBy_refl (block : Block) (c : ChainStateView) (t : TransactionTracker) :
    ExplainedBy context block c t c t :=
  ⟨[], .nil rfl rfl rfl⟩

variable (c : ChainStateView)

theorem executeMessageInBlock_explained (localTime txnIndex : Nat) {bundle : IncomingBundle}
    (hbundle : bundle ∈ block.incomingBundles) (messageId : MessageId) {m : PostedMessage}
    (hm : m ∈ bundle.bundle.messages) (t : TransactionTracker)
    (haccount : controller.account = block.authenticatedSigner) :
    (c.executeMessageInBlock context block localTime txnIndex bundle messageId m t
      controller).Ensures fun p => p.2.2.account = block.authenticatedSigner ∧
        ExplainedBy context block c t p.1 p.2.1 := by
  simp only [executeMessageInBlock]
  split
  · next haction =>
    refine .guard fun _ => ?_
    refine .bind (.mapError (c.executionState.executeMessage_explained _ _ _ _ _ _ _ _)) ?_
    rintro ⟨executionState, grantLeft, t₁, controller₁⟩ ⟨haccount₁, entries, hexplained, hkinds⟩
    have haccount₁ : controller₁.account = block.authenticatedSigner :=
      Eq.trans haccount₁ haccount
    have hby : ExplainedBy context block c t { c with executionState } t₁ := by
      refine ⟨entries, hexplained.mono fun e he hsound => ⟨hsound, ?_⟩⟩
      obtain hfees | hcaller | ⟨message, hmessage, hcause⟩ := hkinds e he
      · rw [hfees]
        exact haccount
      · exact Action.in_of_caller hcaller block
      · rw [hcause]
        exact ⟨bundle, hbundle, haction, m, hm, hmessage⟩
    simp only
    split
    · split
      · refine .bind (.mapError (ExecutionStateView.sendRefund_issued _ _ _ _ _)) fun t₂ ht₂ => ?_
        exact .ok ⟨haccount₁, hby.of_issued ht₂.1 ht₂.2⟩
      · exact .ok ⟨haccount₁, hby⟩
    · exact .ok ⟨haccount₁, hby⟩
  · next haction =>
    have hby := explainedBy_refl context block c t
    refine .guard fun _ => ?_
    split
    · next htracked =>
      refine .bind (.mapError (c.executionState.bounceMessage_explained _
        context.primitives.toHashing _ _ _ _)) ?_
      rintro t₁ ⟨entries, hexplained, hkinds⟩
      refine .ok ⟨haccount, entries, hexplained.mono fun e he hsound => ⟨hsound, ?_⟩⟩
      obtain ⟨message, hmessage, hcause⟩ := hkinds e he
      rw [hcause]
      exact ⟨bundle, hbundle, haction, m, hm, htracked, hmessage⟩
    · split
      · split
        · exact .error
        · refine .bind (.mapError (ExecutionStateView.sendRefund_issued _ _ _ _ _)) fun t₁ ht₁ => ?_
          exact .ok ⟨haccount, hby.of_issued ht₁.1 ht₁.2⟩
      · exact .ok ⟨haccount, hby⟩

theorem executeMessages_explained (localTime txnIndex : Nat) {bundle : IncomingBundle}
    (hbundle : bundle ∈ block.incomingBundles) (t : TransactionTracker)
    (haccount : controller.account = block.authenticatedSigner)
    {messages : List (MessageId × PostedMessage)}
    (hmessages : ∀ m ∈ messages, m.2 ∈ bundle.bundle.messages) :
    (c.executeMessages context block localTime txnIndex bundle t controller messages).Ensures
      fun p => p.2.2.account = block.authenticatedSigner ∧
        ExplainedBy context block c t p.1 p.2.1 := by
  induction messages generalizing c t controller with
  | nil => exact .ok ⟨haccount, explainedBy_refl context block c t⟩
  | cons m messages ih =>
    obtain ⟨hm, hmessages⟩ := List.forall_mem_cons.mp hmessages
    refine .bind (c.executeMessageInBlock_explained context localTime txnIndex hbundle m.1 hm t
      haccount) ?_
    rintro ⟨c₁, t₁, controller₁⟩ ⟨haccount₁, hby₁⟩
    refine (ih c₁ t₁ haccount₁ hmessages).mono fun p hp => ⟨hp.1, hby₁.trans hp.2⟩

theorem executeTransactionBody_explained (localTime txnIndex : Nat) (t : TransactionTracker)
    (haccount : controller.account = block.authenticatedSigner) {transaction : Transaction}
    (htransaction : transaction ∈ block.transactions) :
    (c.executeTransactionBody context block localTime txnIndex t controller transaction).Ensures
      fun p => p.2.2.account = block.authenticatedSigner ∧
        ExplainedBy context block c t p.1 p.2.1 := by
  cases transaction with
  | receiveMessages bundle =>
    have hbundle : bundle ∈ block.incomingBundles := by
      simpa [Block.transactions] using htransaction
    refine .bind (.mapError (controller.trackExecutedBlockSize_account _)) fun controller₁ h₁ => ?_
    refine c.executeMessages_explained context localTime txnIndex hbundle t (h₁.trans haccount)
      fun m hm => ?_
    obtain ⟨m', hm', rfl⟩ := List.mem_map.mp hm
    exact hm'
  | executeOperation operation =>
    have hoperation : operation ∈ block.operations := by
      simpa [Block.transactions] using htransaction
    refine .bind (.mapError (controller.trackExecutedBlockSize_account _)) fun controller₁ h₁ => ?_
    have haccount₁ := h₁.trans haccount
    refine .bind (.mapError (c.executionState.executeOperation_explained _ _ _ _ _ _ _)) ?_
    rintro ⟨executionState, t₁, controller₂⟩ ⟨h₂, entries, hexplained, hkinds⟩
    have haccount₂ : controller₂.account = block.authenticatedSigner := Eq.trans h₂ haccount₁
    refine .bind (.mapError (pay_ensures _ controller₂ fun c => c.trackOperation_pays operation)) ?_
    rintro ⟨c₁, controller₃⟩ ⟨h₃, hpaid⟩
    have haccount₃ : controller₃.account = block.authenticatedSigner := Eq.trans h₃ haccount₂
    refine .ok ⟨haccount₃, ?_⟩
    have hby : ExplainedBy context block c t { c with executionState } t₁ := by
      refine ⟨entries, hexplained.mono fun e he hsound => ⟨hsound, ?_⟩⟩
      obtain hfees | hcaller | ⟨op, rfl, hcause⟩ := hkinds e he
      · rw [hfees]
        exact haccount₁
      · exact Action.in_of_caller hcaller block
      · rw [hcause]
        exact ⟨rfl, hoperation⟩
    refine hby.trans ⟨[⟨.fees controller₃.account, executionState.system.funds, c₁.funds⟩],
      .single rfl ⟨?_, haccount₃⟩ (List.append_nil _).symm⟩
    change Funds.Charged controller₃.account _ _
    rw [haccount₃, ← haccount₂]
    exact hpaid.charged

/-- The trace so far explains the funds and the messages so far. -/
structure Traces (c : ChainStateView) (block : Block) (p : BlockProgress) : Prop where
  account : p.controller.account = block.authenticatedSigner
  chained : Chained c.funds p.trace p.chain.funds
  accounted : ∃ entries, p.trace = ⟨.startBlock, c.funds, c.fundsAtStart block⟩ :: entries ∧
    ∀ e ∈ entries, e.Accounted context.primitives.toHashing block
  issued : p.messages.flatten.filterMap OutgoingMessage.issue =
    p.trace.filterMap fun e => e.action.issue

variable {context} in
theorem Traces.executeTransaction {c : ChainStateView} {p : BlockProgress}
    (h : c.Traces context block p) (localTime txnIndex : Nat) {transaction : Transaction}
    (htransaction : transaction ∈ block.transactions) :
    (p.executeTransaction context block localTime txnIndex transaction).Ensures
      (c.Traces context block) := by
  refine (p.executeTransaction_ensures context block localTime txnIndex transaction
    (Q := fun chain t payer => payer = block.authenticatedSigner ∧
      ∃ responses, ExplainedBy context block p.chain (.new p.nextMessageIndex responses) chain t)
    fun responses => ?_).mono ?_
  · refine (p.chain.executeTransactionBody_explained context localTime txnIndex _ h.account
      htransaction).mono fun b hb => ⟨hb.1, responses, hb.2⟩
  rintro p' ⟨chain, t, payer, ⟨rfl, responses, entries, hexplained⟩, hrecords⟩
  have htrace : t.trace = entries := hexplained.trace
  have hissued : t.issued = entries.filterMap fun e => e.action.issue := hexplained.issued
  obtain ⟨t', hregistered, hmessages⟩ := hrecords.messages
  have hfees : TraceEntry.Accounted context.primitives.toHashing block
      ⟨.fees block.authenticatedSigner, chain.funds, p'.chain.funds⟩ :=
    ⟨hrecords.paid.charged, rfl⟩
  obtain ⟨before, hbefore, haccounted⟩ := h.accounted
  refine ⟨hrecords.account, ?_, ⟨before ++ entries ++
    [⟨.fees block.authenticatedSigner, chain.funds, p'.chain.funds⟩], ?_, fun e he => ?_⟩, ?_⟩
  · rw [hrecords.trace, htrace]
    exact (h.chained.append hexplained.chained).append ⟨rfl, rfl⟩
  · rw [hrecords.trace, htrace, hbefore, List.cons_append, List.cons_append]
  · obtain hmem | hmem := List.mem_append.mp he
    · exact (List.mem_append.mp hmem).elim (haccounted e) (hexplained.forall_mem e)
    · exact List.mem_singleton.mp hmem ▸ hfees
  · rw [hmessages, hrecords.trace, htrace, List.flatten_append, List.filterMap_append, h.issued,
      List.filterMap_append, List.filterMap_append, ← hissued, List.flatten_singleton,
      outgoing_issued, ← hregistered.issued_eq]
    exact (List.append_nil _).symm

/-- The trace of a block explains the funds after it, and its messages. -/
theorem executeBlock_traces {c : ChainStateView} {localTime : Nat}
    {responses : Option (List (List OracleResponse))} {e : BlockExecution}
    (h : c.executeBlock context block localTime responses = .ok e) :
    Chained c.funds e.trace e.chain.funds ∧
      (∃ entries, e.trace = ⟨.startBlock, c.funds, c.fundsAtStart block⟩ :: entries ∧
        ∀ entry ∈ entries, entry.Accounted context.primitives.toHashing block) ∧
      e.outcome.messages.flatten.filterMap OutgoingMessage.issue =
        e.trace.filterMap fun entry => entry.action.issue := by
  obtain ⟨p, hstart, h⟩ := Except.bind_eq_ok.mp h
  obtain ⟨p₁, htransactions, hfinish⟩ := Except.bind_eq_ok.mp h
  obtain ⟨hfunds, haccount, hmessages, -, htrace⟩ := c.startBlock_ensures context _ _ _ p hstart
  have hstarts : c.Traces context block p := by
    refine ⟨haccount, ?_, ⟨[], ?_, List.forall_mem_nil _⟩, ?_⟩
    · rw [htrace]
      exact ⟨rfl, rfl⟩
    · rw [htrace, hfunds]
    · rw [htrace, hmessages]
      rfl
  -- Each transaction of the block adds to the trace.
  have hruns := BlockProgress.executeTransactions_ensures context block localTime
    (I := fun transactions p => (∀ transaction ∈ transactions, transaction ∈ block.transactions) ∧
      c.Traces context block p) block.transactions
    (fun txnIndex transaction transactions p ⟨hmem, hp⟩ =>
      (hp.executeTransaction localTime txnIndex (hmem _ List.mem_cons_self)).mono fun p' hp' =>
        ⟨fun other hother => hmem other (List.mem_cons_of_mem _ hother), hp'⟩)
    0 p ⟨fun _ h => h, hstarts⟩ p₁ htransactions
  obtain ⟨-, haccount₁, hchained, ⟨entries, hentries, haccounted⟩, hissued⟩ := hruns
  obtain ⟨hpaid, houtgoing, htrace₁⟩ := finishBlock_ensures context p₁ _ _ e hfinish
  rw [htrace₁, houtgoing]
  refine ⟨hchained.append ⟨rfl, rfl⟩, ⟨entries ++
    [⟨.fees p₁.controller.account, p₁.chain.funds, e.chain.funds⟩], ?_, fun entry hentry => ?_⟩, ?_⟩
  · rw [hentries, List.cons_append]
  · obtain hmem | hmem := List.mem_append.mp hentry
    · exact haccounted entry hmem
    · exact List.mem_singleton.mp hmem ▸ ⟨hpaid.charged, haccount₁⟩
  · rw [List.filterMap_append, hissued]
    exact (List.append_nil _).symm

end ChainStateView

end Linera
