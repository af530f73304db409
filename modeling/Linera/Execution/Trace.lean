import Linera.Execution.Effects

/-!
# The trace of a transaction

Everything that concerns someone's authority or the funds of the chain is in the
trace. `Explained` says that the trace is complete: the funds change from one entry
to the next exactly as the entries say (`Chained`, `TraceEntry.Sound`), and each
claim and each new chain among the messages has its entry (`Issue`). The rule for
contracts gives this for user actions, whatever their code is; it also says in
which frames of nested calls contracts make their requests (`Placed`).
-/

namespace Linera

/-! ## Claims and new chains -/

/-- What a message asks another chain for: to pay from an account, or to have the given owners. -/
inductive Issue where
  | withdrawal (destination : Destination) (owner : AccountOwner) (amount : Nat)
      (recipient : Recipient)
  | opening (ownership : ChainOwnership)
  /-- Such a message is not asked for any more, and returns to its sender. -/
  | returned (message : SystemMessage)
deriving DecidableEq

def SystemMessage.issue (destination : Destination) : SystemMessage → Option Issue
  | .withdraw owner amount recipient => some (.withdrawal destination owner amount recipient)
  | .openChain config => some (.opening config.ownership)
  | _ => none

def SystemMessage.returned (message : SystemMessage) : Option Issue :=
  match message with
  | .withdraw .. | .openChain _ => some (.returned message)
  | _ => none

def RawOutgoingMessage.issue (m : RawOutgoingMessage SystemMessage Nat) : Option Issue :=
  if m.kind = .bouncing then m.message.returned else m.message.issue m.destination

def ExecutionOutcome.issued : ExecutionOutcome → List Issue
  | .system outcome => outcome.messages.filterMap RawOutgoingMessage.issue
  | .user _ _ => []

def TransactionTracker.issued (t : TransactionTracker) : List Issue :=
  t.outcomes.flatMap ExecutionOutcome.issued

def Action.issue : Action → Option Issue
  | .operation _ (.claim owner targetId recipient amount) =>
    some (.withdrawal (.recipient targetId) (.user owner) amount recipient)
  | .operation _ (.openChain config) => some (.opening config.ownership)
  | .bounce m => m.returned
  | .claim _ source destination amount => source.owner.map fun owner =>
    .withdrawal (.recipient source.chainId) owner amount (.account destination)
  | .openChain _ ownership _ _ => some (.opening ownership)
  | _ => none

/-! ## Entries -/

/-- Where a request was made. -/
def Action.caller : Action → Option Caller
  | .call caller | .readSigner caller _ | .transfer caller _ _ _ | .claim caller _ _ _
  | .openChain caller _ _ _ => some caller
  | _ => none

/-- What an action does to the funds, and what it was allowed by. -/
def TraceEntry.Sound (hashing : Hashing) (e : TraceEntry) : Prop :=
  match e.action with
  | .startBlock => True
  | .operation signer operation => ∃ context t t' messages,
    context.authenticatedSigner = signer ∧
      operation.Effect hashing context e.before e.after t t' messages
  | .message isBouncing message => ∃ messages, message.Effect isBouncing e.before e.after messages
  | .fees payer => Funds.Charged payer e.before e.after
  | .bounce _ | .call _ | .readSigner _ _ => e.after = e.before
  | .transfer caller source _ amount => ∃ frame rest, caller.stack = frame :: rest ∧
    e.before.MaySpend frame.signer (some frame.id) source ∧
      Funds.Debited source amount e.before e.after
  | .claim caller source _ _ => ∃ frame rest owner, caller.stack = frame :: rest ∧
    source.owner = some owner ∧ e.before.MaySpend frame.signer (some frame.id) (some owner) ∧
      e.after = e.before
  | .openChain _ _ _ balance => Funds.Debited none balance e.before e.after

/-- Each entry starts from the funds that the one before it has left. -/
def Chained : Funds → List TraceEntry → Funds → Prop
  | f, [], f' => f' = f
  | f, e :: entries, f' => e.before = f ∧ Chained e.after entries f'

theorem Chained.append {f f' f'' : Funds} {entries entries' : List TraceEntry}
    (h : Chained f entries f') (h' : Chained f' entries' f'') :
    Chained f (entries ++ entries') f'' := by
  induction entries generalizing f with
  | nil =>
    obtain rfl : f' = f := h
    exact h'
  | cons e entries ih => exact ⟨h.1, ih h.2⟩

/-- An invariant of the funds that each entry keeps holds before each entry. -/
theorem Chained.forall_mem {P : Funds → Prop} {f f' : Funds} {entries : List TraceEntry}
    (h : Chained f entries f') (hf : P f) (hstep : ∀ e ∈ entries, P e.before → P e.after) :
    ∀ e ∈ entries, P e.before := by
  induction entries generalizing f with
  | nil => exact List.forall_mem_nil _
  | cons e entries ih =>
    obtain ⟨rfl, hrest⟩ := h
    intro e' he'
    obtain rfl | hmem := List.mem_cons.mp he'
    · exact hf
    · exact ih hrest (hstep e List.mem_cons_self hf)
        (fun e he => hstep e (List.mem_cons_of_mem _ he)) e' hmem

/-- The entries are what has been added to the trace, each one satisfies `P`, and they account for
the change of the funds and for the claims and new chains among the messages. -/
structure Explained (P : TraceEntry → Prop) (f : Funds) (t : TransactionTracker)
    (entries : List TraceEntry) (f' : Funds) (t' : TransactionTracker) : Prop where
  trace : t'.trace = t.trace ++ entries
  forall_mem : ∀ e ∈ entries, P e
  chained : Chained f entries f'
  issued : t'.issued = t.issued ++ entries.filterMap fun e => e.action.issue

namespace Explained

variable {P : TraceEntry → Prop} {f f' f'' : Funds} {t t' t'' : TransactionTracker}

theorem trans {entries entries' : List TraceEntry} (h : Explained P f t entries f' t')
    (h' : Explained P f' t' entries' f'' t'') : Explained P f t (entries ++ entries') f'' t'' := by
  refine ⟨?_, ?_, h.chained.append h'.chained, ?_⟩
  · rw [h'.trace, h.trace, List.append_assoc]
  · intro e he
    obtain hmem | hmem := List.mem_append.mp he
    · exact h.forall_mem e hmem
    · exact h'.forall_mem e hmem
  · rw [h'.issued, h.issued, List.append_assoc, List.filterMap_append]

theorem mono {Q : TraceEntry → Prop} {entries : List TraceEntry}
    (h : Explained P f t entries f' t') (hPQ : ∀ e ∈ entries, P e → Q e) :
    Explained Q f t entries f' t' :=
  ⟨h.trace, fun e he => hPQ e he (h.forall_mem e he), h.chained, h.issued⟩

theorem nil (htrace : t'.trace = t.trace) (hfunds : f' = f) (hissued : t'.issued = t.issued) :
    Explained P f t [] f' t' :=
  ⟨by simpa using htrace, List.forall_mem_nil _, hfunds, by simpa using hissued⟩

theorem single {action : Action} (htrace : t'.trace = t.trace ++ [⟨action, f, f'⟩])
    (hP : P ⟨action, f, f'⟩) (hissued : t'.issued = t.issued ++ action.issue.toList) :
    Explained P f t [⟨action, f, f'⟩] f' t' := by
  refine ⟨htrace, fun e he => List.mem_singleton.mp he ▸ hP, ⟨rfl, rfl⟩, ?_⟩
  rw [hissued]
  cases h : action.issue <;> simp [h]

end Explained

namespace TransactionTracker

theorem issued_addOutcome {t t' : TransactionTracker} {outcome : ExecutionOutcome}
    (h : t.addOutcome outcome = .ok t') :
    t'.issued = t.issued ++ outcome.issued ∧ t'.trace = t.trace := by
  obtain ⟨-, rfl⟩ := addOutcome_eq_ok.mp h
  simp [issued]

theorem SameRecords.issued_eq {t t' : TransactionTracker} (h : t.SameRecords t') :
    t'.issued = t.issued := by
  rw [issued, h.outcomes, issued]

end TransactionTracker

/-! ## Operations and messages -/

variable {messages : List (RawOutgoingMessage SystemMessage Nat)}

theorem Notices.issued_eq_nil (h : Notices messages) :
    messages.filterMap RawOutgoingMessage.issue = [] := by
  rw [List.filterMap_eq_nil_iff]
  intro message hmessage
  have hnotice := (h message hmessage).2
  unfold RawOutgoingMessage.issue
  split
  · cases hm : message.message <;> simp_all [SystemMessage.isNotice, SystemMessage.returned]
  · cases hm : message.message <;> simp_all [SystemMessage.isNotice, SystemMessage.issue]

theorem creditMessage_issued (source : Option AccountOwner) (amount : Nat) (recipient : Recipient) :
    (SystemExecutionStateView.creditMessage source amount recipient).toList.filterMap
      RawOutgoingMessage.issue = [] := by
  cases recipient <;> rfl

theorem openChainMessages_issued (hashing : Hashing) (config : OpenChainConfig) (id : MessageId) :
    (openChainMessages hashing config id).filterMap RawOutgoingMessage.issue =
      [.opening config.ownership] := rfl

theorem SystemOperation.Effect.issued {hashing : Hashing} {context : OperationContext}
    {f f' : Funds} {t t' : TransactionTracker} {operation : SystemOperation}
    (h : operation.Effect hashing context f f' t t' messages) (signer : Option Owner) :
    messages.filterMap RawOutgoingMessage.issue = (Action.operation signer operation).issue.toList ∧
      t'.issued = t.issued ∧ t'.trace = t.trace := by
  have hnotices : f' = f ∧ t.SameRecords t' ∧ Notices messages →
      messages.filterMap RawOutgoingMessage.issue = [] ∧ t'.issued = t.issued ∧
        t'.trace = t.trace := by
    rintro ⟨-, hrecords, hnotices⟩
    exact ⟨hnotices.issued_eq_nil, hrecords.issued_eq, hrecords.trace⟩
  cases operation with
  | openChain config =>
    obtain ⟨-, rfl, rfl⟩ := h
    exact ⟨openChainMessages_issued hashing config _, rfl, rfl⟩
  | changeOwnership => obtain ⟨-, rfl, rfl⟩ := h; exact ⟨rfl, rfl, rfl⟩
  | transfer owner recipient amount =>
    obtain ⟨-, -, rfl, rfl⟩ := h
    exact ⟨creditMessage_issued _ _ _, rfl, rfl⟩
  | claim => obtain ⟨-, -, rfl, rfl⟩ := h; exact ⟨rfl, rfl, rfl⟩
  | createApplication =>
    obtain ⟨-, hrecords, rfl⟩ := h
    exact ⟨rfl, hrecords.issued_eq, hrecords.trace⟩
  | closeChain | changeApplicationPermissions | subscribe | unsubscribe | publishBytecode
  | publishDataBlob | readBlob | requestApplication | admin => exact hnotices h

theorem SystemMessage.Effect.issued {isBouncing : Bool} {f f' : Funds} {message : SystemMessage}
    (h : message.Effect isBouncing f f' messages) :
    messages.filterMap RawOutgoingMessage.issue = [] := by
  have hnotices : f' = f ∧ Notices messages → messages.filterMap RawOutgoingMessage.issue = [] :=
    fun hnotices => hnotices.2.issued_eq_nil
  cases message with
  | credit target amount source => rw [h.2, List.filterMap_nil]
  | withdraw owner amount recipient => rw [h.2, creditMessage_issued]
  | openChain | createCommittee | removeCommittee | subscribe | unsubscribe | applicationCreated
  | registerApplications | requestApplication => exact hnotices h

/-! ## Contracts -/

/-- The frames of nested calls: a callee has the signer of its caller and knows its caller if the
call is authenticated, and neither of them if it is not. The first frame has the signer of the
transaction, and it is the root application's unless the execution is finalizing. -/
def Linked (root : UserApplicationId) (signer : Option Owner) (isFinalizing : Bool) :
    List Frame → Prop
  | [] => True
  | [frame] => frame.signer = signer ∧ frame.callerId = none ∧
    (isFinalizing = false → frame.id = root)
  | callee :: caller :: rest =>
    (callee.signer = caller.signer ∧ callee.callerId = some caller.id ∨
      callee.signer = none ∧ callee.callerId = none) ∧
      Linked root signer isFinalizing (caller :: rest)

/-- The request of the entry was made in linked frames. -/
def TraceEntry.Placed (root : UserApplicationId) (signer : Option Owner) (e : TraceEntry) : Prop :=
  ∃ caller, e.action.caller = some caller ∧
    Linked root signer caller.isFinalizing caller.stack

namespace SyncRuntime

variable {hashing : Hashing} {root : UserApplicationId} {r r' r'' : SyncRuntime}

theorem caller_stack_cons {status : ApplicationStatus} {rest : List ApplicationStatus}
    (h : r.callStack = status :: rest) :
    r.caller.stack = ⟨status.id, status.signer, status.callerId⟩ ::
      rest.map fun status => ⟨status.id, status.signer, status.callerId⟩ := by
  rw [caller, h, List.map_cons]

/-- The frames of the call stack are linked. -/
def WellStacked (root : UserApplicationId) (r : SyncRuntime) : Prop :=
  Linked root r.authenticatedSigner r.isFinalizing r.caller.stack

/-- What a contract has done is explained by requests, and they were made in linked frames. -/
structure Traced (hashing : Hashing) (root : UserApplicationId) (r r' : SyncRuntime) : Prop where
  signer : r'.authenticatedSigner = r.authenticatedSigner
  stacked : r.WellStacked root → r'.WellStacked root
  amount : r'.amount ≤ r.amount
  explained : ∃ entries, Explained (TraceEntry.Sound hashing) r.funds r.transactionTracker entries
      r'.funds r'.transactionTracker ∧ ∀ e ∈ entries, e.action.caller.isSome ∧
      (r.WellStacked root → e.Placed root r.authenticatedSigner)

theorem Traced.trans (h : Traced hashing root r r') (h' : Traced hashing root r' r'') :
    Traced hashing root r r'' := by
  obtain ⟨entries, hexplained, hplaced⟩ := h.explained
  obtain ⟨entries', hexplained', hplaced'⟩ := h'.explained
  refine ⟨h'.signer.trans h.signer, h'.stacked ∘ h.stacked, h'.amount.trans h.amount,
    entries ++ entries', hexplained.trans hexplained', fun e he => ?_⟩
  obtain hmem | hmem := List.mem_append.mp he
  · exact hplaced e hmem
  · refine ⟨(hplaced' e hmem).1, fun hstacked => ?_⟩
    rw [← h.signer]
    exact (hplaced' e hmem).2 (h.stacked hstacked)

theorem Stable.wellStacked (h : Stable r r') (hr : r.WellStacked root) : r'.WellStacked root := by
  rw [WellStacked, h.stack, h.context.authenticatedSigner, h.context.isFinalizing]
  exact hr

/-- A step that records a request of the running contract. -/
theorem Traced.of_record (action : Action) (hstable : Stable r r') (hamount : r'.amount ≤ r.amount)
    (hcaller : action.caller = some r.caller) (htrace : r'.transactionTracker.trace =
      r.transactionTracker.trace ++ [⟨action, r.funds, r'.funds⟩])
    (hsound : TraceEntry.Sound hashing ⟨action, r.funds, r'.funds⟩)
    (hissued : r'.transactionTracker.issued =
      r.transactionTracker.issued ++ action.issue.toList) : Traced hashing root r r' := by
  refine ⟨hstable.context.authenticatedSigner, hstable.wellStacked, hamount, _,
    .single htrace hsound hissued, fun e he => ?_⟩
  obtain rfl := List.mem_singleton.mp he
  exact ⟨by rw [hcaller]; rfl, fun hstacked => ⟨r.caller, hcaller, hstacked⟩⟩

theorem openChainConfig_ensures (system : SystemExecutionStateView) (ownership : ChainOwnership)
    (applicationPermissions : ApplicationPermissions) (balance : Nat) :
    (openChainConfig system ownership applicationPermissions balance).Ensures fun config =>
      config.ownership = ownership ∧ config.balance = balance := by
  unfold openChainConfig
  split
  · exact .ok ⟨rfl, rfl⟩
  · exact .error

theorem Step.traced (h : Step hashing r r') : Traced hashing root r r' := by
  have hstable := h.stable
  cases h with
  | quiet h =>
    refine ⟨hstable.context.authenticatedSigner, hstable.wellStacked, h.amount, [], ?_, List.forall_mem_nil _⟩
    exact .nil h.records.trace h.funds h.records.issued_eq
  | readSigner => exact .of_record (.readSigner _ _) hstable le_rfl rfl rfl rfl (List.append_nil _).symm
  | @transfer status rest source destination amount system message t hstack htransfer hadd =>
    obtain ⟨hmay, -, hdebit, hmessage⟩ := r.state.system.transfer_ensures _ _ _ _ _ _ htransfer
    obtain ⟨hissued, htrace⟩ := TransactionTracker.issued_addOutcome hadd
    refine .of_record (.transfer r.caller source destination amount) hstable le_rfl rfl
      (congrArg (· ++ _) htrace) ⟨_, _, caller_stack_cons hstack, hmay, hdebit⟩ (hissued.trans ?_)
    rw [show message = _ from hmessage]
    exact congrArg (_ ++ ·) (creditMessage_issued source amount (.account destination))
  | @claim status rest source destination owner amount message t hstack howner hclaim hadd =>
    obtain ⟨hmay, rfl⟩ := SystemExecutionStateView.claim_ensures _ _ _ _ _ _ r.funds _ hclaim
    obtain ⟨hissued, htrace⟩ := TransactionTracker.issued_addOutcome hadd
    refine .of_record (.claim r.caller source destination amount) hstable le_rfl rfl
      (congrArg (· ++ _) htrace) ⟨_, _, owner, caller_stack_cons hstack, howner, hmay, rfl⟩
      (hissued.trans ?_)
    rw [Action.issue, howner]
    rfl
  | @openChain ownership permissions balance config system messages t hconfig hopen hadd =>
    obtain ⟨hdebit, hmessages⟩ := r.state.system.openChain_ensures _ _ _ _ hopen
    obtain ⟨hissued, htrace⟩ := TransactionTracker.issued_addOutcome hadd
    obtain ⟨hownership, hbalance⟩ := openChainConfig_ensures _ _ _ _ _ hconfig
    refine .of_record (.openChain r.caller ownership permissions balance) hstable le_rfl
      rfl (congrArg (· ++ _) htrace) (hbalance ▸ hdebit) (hissued.trans ?_)
    rw [show messages = openChainMessages _ _ _ from hmessages]
    exact congrArg (_ ++ [·]) (congrArg Issue.opening hownership)

theorem Leaves.traced (h : Leaves r r') (hstacked : r.WellStacked root → r'.WellStacked root) :
    Traced hashing root r r' := by
  obtain ⟨status, rest, outcome, hstack, hstack', hadd, hamount⟩ := h.sends
  obtain ⟨hissued, htrace⟩ := TransactionTracker.issued_addOutcome hadd
  refine ⟨h.context.authenticatedSigner, hstacked, by omega, [], .nil htrace h.funds ?_, List.forall_mem_nil _⟩
  rw [hissued, ExecutionOutcome.issued, List.append_nil]

theorem Calls.wellStacked (h : Calls r r') (hr : r.WellStacked root) : r'.WellStacked root := by
  obtain ⟨callee, caller, rest, authenticated, hstack, hstack', hsigner, hcaller⟩ := h.stack
  rw [WellStacked, h.context.authenticatedSigner, h.context.isFinalizing, SyncRuntime.caller,
    hstack', hstack]
  rw [WellStacked, SyncRuntime.caller, hstack] at hr
  refine ⟨?_, hr⟩
  cases authenticated with
  | true => exact .inl ⟨hsigner, hcaller⟩
  | false => exact .inr ⟨hsigner, hcaller⟩

theorem Starts.wellStacked (h : Starts root r r') : r'.WellStacked root := by
  obtain ⟨status, hstack, hsigner, hcaller, hid⟩ := h.stack
  rw [WellStacked, caller_stack_cons hstack, h.context.authenticatedSigner, h.context.isFinalizing]
  exact ⟨hsigner, hcaller, hid⟩

/-- Leaving the callee, the frames of the caller are left. -/
theorem Leaves.wellStacked (h : Leaves r r') (hr : r.WellStacked root) : r'.WellStacked root := by
  obtain ⟨status, rest, outcome, hstack, hstack', -, -⟩ := h.sends
  rw [WellStacked, h.context.authenticatedSigner, h.context.isFinalizing, caller, hstack']
  rw [WellStacked, caller, hstack] at hr
  cases rest with
  | nil => trivial
  | cons => exact hr.2

/-- The rule for contracts, for traces. -/
theorem traced (hashing : Hashing) (root : UserApplicationId) :
    Preserved hashing root (Traced hashing root) where
  trans := .trans
  step := Step.traced
  call {r r₁ r₂ r'} hcalls hstable h hleaves := by
    have henter : Traced hashing root r r₁ := by
      refine ⟨hcalls.context.authenticatedSigner, hcalls.wellStacked, hcalls.amount.le,
        [⟨.call r₁.caller, r.funds, r₁.funds⟩], ?_, fun e he => ?_⟩
      · refine .single (hcalls.records.trace.trans ?_) hcalls.funds ?_
        · rw [hcalls.funds]
          rfl
        · exact hcalls.records.issued_eq.trans (List.append_nil _).symm
      · obtain rfl := List.mem_singleton.mp he
        refine ⟨rfl, fun hstacked => ⟨r₁.caller, rfl, ?_⟩⟩
        rw [← hcalls.context.authenticatedSigner]
        exact hcalls.wellStacked hstacked
    exact (henter.trans h).trans (hleaves.traced hleaves.wellStacked)
  start {r r₁ r₂ r'} hstarts hstable h hleaves := by
    have henter : Traced hashing root r r₁ := by
      refine ⟨hstarts.context.authenticatedSigner, fun _ => hstarts.wellStacked, hstarts.amount.le,
        [], ?_, List.forall_mem_nil _⟩
      exact .nil hstarts.records.trace hstarts.funds hstarts.records.issued_eq
    exact (henter.trans h).trans (hleaves.traced hleaves.wellStacked)
  finalize r hempty := by
    refine ⟨rfl, fun _ => ?_, le_rfl, [], .nil rfl rfl rfl, List.forall_mem_nil _⟩
    rw [WellStacked, caller, hempty]
    trivial

end SyncRuntime

/-! ## Executing operations and messages -/

namespace ExecutionStateView

variable (context : ExecutionRuntimeContext) (hashing : Hashing) (s : ExecutionStateView)

/-- Running a contract is explained by its requests and by the fees for it. -/
theorem runUserAction_explained (applicationId : UserApplicationId) (chainId : ChainId)
    (localTime : Nat) (action : UserAction) (refundGrantTo : Option Account) (grant : Option Nat)
    (t : TransactionTracker) (c : ResourceController (Option Owner)) :
    (s.runUserAction context hashing applicationId chainId localTime action refundGrantTo grant t
      c).Ensures fun p => p.2.2.2.account = c.account ∧ ∃ entries,
        Explained (TraceEntry.Sound hashing) s.system.funds t entries p.1.system.funds p.2.2.1 ∧
          ∀ e ∈ entries, e.action = .fees c.account ∨
            e.action.caller.isSome ∧ e.Placed applicationId action.signer := by
  refine .bind_any fun initialBalance => .bind_any ?_
  rintro ⟨code, description⟩
  have hrule := SyncRuntime.traced hashing applicationId
  refine .bind (hrule.runAction context _ (hrule.runCode context _) rfl chainId action) ?_
  intro r htraced
  refine .bind (c.withStateAndGrant_ensures r.state.system grant
    fun c => c.mergeBalance_pays htraced.amount) ?_
  rintro ⟨c', system, grant'⟩ ⟨haccount, hcharged, -, -⟩
  obtain ⟨entries, hexplained, hplaced⟩ := htraced.explained
  refine .ok ⟨haccount, entries ++ [⟨.fees c.account, r.funds, system.funds⟩], ?_, fun e he => ?_⟩
  · refine hexplained.trans (.single ?_ hcharged (List.append_nil _).symm)
    change r.transactionTracker.trace ++ [⟨.fees c'.account, _, _⟩] = _
    rw [show c'.account = _ from haccount]
    rfl
  · obtain hmem | hmem := List.mem_append.mp he
    · exact .inr ⟨(hplaced e hmem).1, (hplaced e hmem).2 trivial⟩
    · exact .inl (List.mem_singleton.mp hmem ▸ rfl)

/-- An operation is explained by itself, by the requests of its contracts, and by the fees. -/
theorem executeOperation_explained (operationContext : OperationContext) (localTime : Nat)
    (operation : Operation) (t : TransactionTracker) (c : ResourceController (Option Owner)) :
    (s.executeOperation context hashing operationContext localTime operation t c).Ensures fun p =>
      p.2.2.account = c.account ∧ ∃ entries,
        Explained (TraceEntry.Sound hashing) s.system.funds t entries p.1.system.funds p.2.1 ∧
          ∀ e ∈ entries, e.action = .fees c.account ∨ e.action.caller.isSome ∨
            ∃ op, operation = .system op ∧
              e.action = .operation operationContext.authenticatedSigner op := by
  refine .guard fun _ => ?_
  cases operation with
  | system operation =>
    refine .bind (.mapError (s.system.executeOperation_ensures hashing _ operationContext operation
      t)) ?_
    rintro ⟨system, t₁, newApplication⟩ ⟨t₀, messages, heffect, hadd⟩
    obtain ⟨hmessages, hissued₀, htrace₀⟩ := heffect.issued operationContext.authenticatedSigner
    obtain ⟨hissued₁, htrace₁⟩ := TransactionTracker.issued_addOutcome hadd
    have hop : Explained (TraceEntry.Sound hashing) s.system.funds t
        [⟨.operation operationContext.authenticatedSigner operation, s.system.funds, system.funds⟩]
        system.funds (t₁.record (.operation operationContext.authenticatedSigner operation)
          s.system.funds system.funds) := by
      refine .single (congrArg (· ++ _) (htrace₁.trans htrace₀)) ⟨_, _, _, _, rfl, heffect⟩ ?_
      rw [← hmessages, ← hissued₀]
      exact hissued₁
    cases newApplication with
    | none =>
      refine .ok ⟨rfl, _, hop, fun e he => .inr (.inr ⟨operation, rfl, ?_⟩)⟩
      rw [List.mem_singleton.mp he]
    | some newApplication =>
      refine .bind (runUserAction_explained context hashing { s with system } _ _ _ _ _ none _ c) ?_
      rintro ⟨s', grant', t', c'⟩ ⟨haccount, entries, hexplained, hentries⟩
      refine .ok ⟨haccount, _, hop.trans hexplained, fun e he => ?_⟩
      obtain hmem | hmem := List.mem_append.mp he
      · exact .inr (.inr ⟨operation, rfl, by rw [List.mem_singleton.mp hmem]⟩)
      · exact (hentries e hmem).imp_right fun h => .inl h.1
  | user applicationId bytes =>
    refine .bind (s.runUserAction_explained context hashing _ _ _ _ _ none _ c) ?_
    rintro ⟨s', grant', t', c'⟩ ⟨haccount, entries, hexplained, hentries⟩
    exact .ok ⟨haccount, entries, hexplained, fun e he =>
      (hentries e he).imp_right fun h => .inl h.1⟩

variable (messageContext : MessageContext)

/-- A message is explained by itself, or by the requests of its contracts and the fees. -/
theorem executeMessage_explained (localTime : Nat) (message : Message) (grant : Option Nat)
    (t : TransactionTracker) (c : ResourceController (Option Owner)) :
    (s.executeMessage context hashing messageContext localTime message grant t c).Ensures fun p =>
      p.2.2.2.account = c.account ∧ ∃ entries,
        Explained (TraceEntry.Sound hashing) s.system.funds t entries p.1.system.funds p.2.2.1 ∧
          ∀ e ∈ entries, e.action = .fees c.account ∨ e.action.caller.isSome ∨
            ∃ m, message = .system m ∧ e.action = .message messageContext.isBouncing m := by
  refine .guard fun _ => ?_
  cases message with
  | system message =>
    refine .bind (.mapError (s.system.executeMessage_ensures _ messageContext message t)) ?_
    rintro ⟨system, t₁, outcome⟩ ⟨messages, heffect, hrecords, rfl⟩
    refine .bind (P := fun t₂ => t₁.addOutcome _ = .ok t₂)
      (fun _ h => Except.mapError_eq_ok.mp h) fun t₂ hadd => .ok ⟨rfl, ?_⟩
    obtain ⟨hissued, htrace⟩ := TransactionTracker.issued_addOutcome hadd
    refine ⟨[⟨.message messageContext.isBouncing message, s.system.funds, system.funds⟩],
      .single (congrArg (· ++ _) (htrace.trans hrecords.trace)) ⟨messages, heffect⟩ ?_, fun e he => ?_⟩
    · change t₂.issued = _
      rw [hissued, show t₁.issued = _ from hrecords.issued_eq]
      exact congrArg (_ ++ ·) heffect.issued
    · exact .inr (.inr ⟨message, rfl, by rw [List.mem_singleton.mp he]⟩)
  | user applicationId bytes =>
    refine (s.runUserAction_explained context hashing _ _ _ _ _ grant _ c).mono ?_
    rintro ⟨s', grant', t', c'⟩ ⟨haccount, entries, hexplained, hentries⟩
    exact ⟨haccount, entries, hexplained, fun e he =>
      (hentries e he).imp_right fun h => .inl h.1⟩

/-- A message that returns to its sender is explained by itself. -/
theorem bounceMessage_explained (grant : Nat) (message : Message) (t : TransactionTracker) :
    (s.bounceMessage context messageContext grant message t).Ensures fun t' => ∃ entries,
      Explained (TraceEntry.Sound hashing) s.system.funds t entries s.system.funds t' ∧
        ∀ e ∈ entries, ∃ m, message = .system m ∧ e.action = .bounce m := by
  refine .guard fun _ => ?_
  cases message with
  | system message =>
    refine .bind (P := fun t₁ => t.addOutcome _ = .ok t₁)
      (fun _ h => Except.mapError_eq_ok.mp h) fun t₁ hadd => .ok ?_
    obtain ⟨hissued, htrace⟩ := TransactionTracker.issued_addOutcome hadd
    refine ⟨[⟨.bounce message, s.system.funds, s.system.funds⟩],
      .single (congrArg (· ++ _) htrace) rfl (hissued.trans ?_), fun e he => ?_⟩
    · cases message <;> rfl
    · exact ⟨message, rfl, by rw [List.mem_singleton.mp he]⟩
  | user applicationId bytes =>
    refine .mapError fun t' h => ?_
    obtain ⟨hissued, htrace⟩ := TransactionTracker.issued_addOutcome h
    exact ⟨[], .nil htrace rfl (hissued.trans (List.append_nil _)), List.forall_mem_nil _⟩

/-- Returning a grant claims nothing. -/
theorem sendRefund_issued (amount : Nat) (account : Account) (t : TransactionTracker) :
    (sendRefund context messageContext amount account t).Ensures fun t' =>
      t'.issued = t.issued ∧ t'.trace = t.trace := by
  refine .guard fun _ => .mapError fun t' h => ?_
  obtain ⟨hissued, htrace⟩ := TransactionTracker.issued_addOutcome h
  exact ⟨hissued.trans (List.append_nil _), htrace⟩

end ExecutionStateView

end Linera
