import Linera.Execution.Trace

/-!
# The authority of the signer in nested calls

A contract that is called without authentication has no signer in its frame, so
its transfers and claims from the signer's account are refused. But
`authenticated_signer` answers with the signer of the whole transaction in every
frame, and when the transaction is finalized every loaded contract runs with that
signer. `signer_observed` says that these are the only ways in which a contract can
have an authority that was not passed on to it; `signer_leaks` is an example of
both.
-/

namespace Linera

/-- The signer whose authority the action shows: `authenticated_signer` has answered with it, or
a transfer or a claim from its account was not refused. -/
def Action.observed : Action → Option (Caller × Owner)
  | .readSigner caller (some owner) => some (caller, owner)
  | .transfer caller (some (.user owner)) _ _ => some (caller, owner)
  | .claim caller ⟨_, some (.user owner)⟩ _ _ => some (caller, owner)
  | _ => none

/-- The contract of the application has observed the authority of the signer. -/
def TraceEntry.Observes (e : TraceEntry) (application : UserApplicationId) (owner : Owner) : Prop :=
  ∃ o ∈ e.action.observed, o.2 = owner ∧ ∃ frame ∈ o.1.stack.head?, frame.id = application

/-- The current application was entered from the root application by authenticated calls only. -/
def Caller.EnteredFrom (caller : Caller) (root : UserApplicationId) : Prop :=
  (∃ first ∈ caller.stack.getLast?, first.id = root) ∧
    ∀ callee ∈ caller.stack.dropLast, callee.callerId.isSome

def Action.called : Action → Option Caller
  | .call caller => some caller
  | _ => none

/-- The application was entered from the root application by authenticated calls only: in the frame
of the entry itself, or by some other call of the transaction. -/
def EnteredAuthenticated (root application : UserApplicationId) (entries : List TraceEntry)
    (e : TraceEntry) : Prop :=
  ∃ caller ∈ e.action.caller.toList ++ entries.filterMap fun e => e.action.called,
    (∃ frame ∈ caller.stack.head?, frame.id = application) ∧ caller.EnteredFrom root

def Action.isReadSigner : Action → Bool
  | .readSigner _ _ => true
  | _ => false

/-- The contract asks for the signer only in a frame that has one, and when the transaction is
finalized then only the root application asks for it or acts with it. -/
def TraceEntry.Discreet (root : UserApplicationId) (e : TraceEntry) : Prop :=
  ∀ o ∈ e.action.observed, ∃ frame ∈ o.1.stack.head?, (o.1.isFinalizing = true → frame.id = root) ∧
    (o.1.isFinalizing = false → e.action.isReadSigner = true → frame.signer.isSome)

instance (caller : Caller) (root : UserApplicationId) : Decidable (caller.EnteredFrom root) :=
  inferInstanceAs (Decidable (_ ∧ _))

instance (root application : UserApplicationId) (entries : List TraceEntry) (e : TraceEntry) :
    Decidable (EnteredAuthenticated root application entries e) :=
  inferInstanceAs (Decidable (∃ _ ∈ _, _))

instance (e : TraceEntry) (application : UserApplicationId) (owner : Owner) :
    Decidable (e.Observes application owner) :=
  inferInstanceAs (Decidable (∃ _ ∈ _, _))

instance (root : UserApplicationId) (e : TraceEntry) : Decidable (e.Discreet root) :=
  inferInstanceAs (Decidable (∀ _ ∈ _, _))

variable {caller : Caller} {owner : Owner}

theorem Action.observed_eq_some {action : Action} (h : action.observed = some (caller, owner)) :
    action = .readSigner caller (some owner) ∨
      (∃ destination amount, action = .transfer caller (some (.user owner)) destination amount) ∨
      ∃ chainId destination amount,
        action = .claim caller ⟨chainId, some (.user owner)⟩ destination amount := by
  unfold Action.observed at h
  split at h
  · cases h
    exact .inl rfl
  · cases h
    exact .inr (.inl ⟨_, _, rfl⟩)
  · cases h
    exact .inr (.inr ⟨_, _, _, rfl⟩)
  · cases h

/-- Linked frames with a signer on top are connected by authenticated calls. -/
theorem Linked.enteredFrom {root : UserApplicationId} {signer : Option Owner} {frame : Frame}
    (h : Linked root signer caller.isFinalizing caller.stack) (hfinal : caller.isFinalizing = false)
    (hframe : frame ∈ caller.stack.head?) (hsigner : frame.signer.isSome) :
    caller.EnteredFrom root := by
  obtain ⟨stack, isFinalizing⟩ := caller
  obtain rfl : isFinalizing = false := hfinal
  obtain ⟨rest, rfl⟩ := List.head?_eq_some_iff.mp hframe
  unfold Caller.EnteredFrom
  clear hframe
  dsimp only at h ⊢
  induction rest generalizing frame with
  | nil => exact ⟨⟨frame, rfl, h.2.2 rfl⟩, List.forall_mem_nil _⟩
  | cons caller rest ih =>
    obtain ⟨⟨hsame, hcaller⟩ | ⟨hnone, -⟩, hrest⟩ := h
    · obtain ⟨⟨first, hlast, hroot⟩, hcallees⟩ := ih (hsame ▸ hsigner) hrest
      refine ⟨⟨first, hlast, hroot⟩, ?_⟩
      rw [List.dropLast_cons_cons]
      exact List.forall_mem_cons.mpr ⟨by rw [hcaller]; rfl, hcallees⟩
    · rw [hnone] at hsigner
      cases hsigner

theorem EnteredAuthenticated.of_caller {root application : UserApplicationId}
    {entries : List TraceEntry} {e : TraceEntry} (hcaller : e.action.caller = some caller)
    (happlication : ∃ frame ∈ caller.stack.head?, frame.id = application)
    (hentered : caller.EnteredFrom root) : EnteredAuthenticated root application entries e := by
  refine ⟨caller, List.mem_append_left _ ?_, happlication, hentered⟩
  rw [hcaller]
  exact List.mem_singleton_self caller

/-- A transfer or a claim from the account of a user is made in a frame with that signer. -/
theorem TraceEntry.Sound.signer_isSome {hashing : Hashing} {e : TraceEntry} (h : e.Sound hashing)
    (hobserved : e.action.observed = some (caller, owner)) {frame : Frame}
    (hframe : frame ∈ caller.stack.head?)
    (hread : e.action.isReadSigner = true → frame.signer.isSome) : frame.signer.isSome := by
  have hmay : ∀ {f : Funds} {frame' : Frame} {rest : List Frame}, caller.stack = frame' :: rest →
      f.MaySpend frame'.signer (some frame'.id) (some (.user owner)) → frame.signer.isSome := by
    intro f frame' rest hstack hmay
    rw [hstack] at hframe
    obtain rfl : frame' = frame := Option.some.inj hframe
    rw [show frame'.signer = some owner from hmay]
    rfl
  obtain ⟨action, before, after⟩ := e
  obtain rfl | ⟨destination, amount, rfl⟩ | ⟨chainId, destination, amount, rfl⟩ :=
    Action.observed_eq_some hobserved
  · exact hread rfl
  · obtain ⟨frame', rest, hstack, hspend, -⟩ := h
    exact hmay hstack hspend
  · obtain ⟨frame', rest, owner', hstack, howner, hspend, -⟩ := h
    obtain rfl : .user owner = owner' := Option.some.inj howner
    exact hmay hstack hspend

theorem Action.caller_of_observed {action : Action} (h : action.observed = some (caller, owner)) :
    action.caller = some caller := by
  obtain rfl | ⟨_, _, rfl⟩ | ⟨_, _, _, rfl⟩ := Action.observed_eq_some h <;> rfl

/-- Where contracts are discreet, only authority that was passed on is observed. -/
theorem TraceEntry.Placed.entered {hashing : Hashing} {root application : UserApplicationId}
    {signer : Option Owner} {entries : List TraceEntry} {e : TraceEntry}
    (hplaced : e.Placed root signer) (hsound : e.Sound hashing) (hdiscreet : e.Discreet root)
    (hobserves : e.Observes application owner) :
    application = root ∨ EnteredAuthenticated root application entries e := by
  obtain ⟨⟨caller, owner⟩, hobserved, rfl, frame, hframe, rfl⟩ := hobserves
  have hcaller := Action.caller_of_observed hobserved
  obtain ⟨caller', hcaller', hlinked⟩ := hplaced
  obtain rfl : caller' = caller := Option.some.inj (hcaller'.symm.trans hcaller)
  obtain ⟨frame', hframe', hroot, hread⟩ := hdiscreet _ hobserved
  obtain rfl : frame' = frame := Option.some.inj (Eq.trans (Eq.symm hframe') hframe)
  cases hfinal : caller'.isFinalizing with
  | true => exact .inl (hroot hfinal)
  | false =>
    have hsigner := hsound.signer_isSome hobserved hframe (hread hfinal)
    exact .inr (.of_caller hcaller ⟨frame', hframe, rfl⟩
      (hlinked.enteredFrom hfinal hframe hsigner))

namespace ExecutionStateView

variable (context : ExecutionRuntimeContext) (hashing : Hashing)

/-- In every user action whose contracts ask for the signer only in frames that have one, and act
with it in the end only as the root application, the signer's authority is observed only by the
root application and by applications that were entered from it by authenticated calls. -/
theorem signer_observed {s s' : ExecutionStateView} {root : UserApplicationId} {chainId : ChainId}
    {localTime : Nat} {action : UserAction} {refundGrantTo : Option Account}
    {grant grant' : Option Nat} {t t' : TransactionTracker}
    {c c' : ResourceController (Option Owner)}
    (h : s.runUserAction context hashing root chainId localTime action refundGrantTo grant t c =
      .ok (s', grant', t', c')) :
    ∃ entries, t'.trace = t.trace ++ entries ∧ ((∀ e ∈ entries, e.Discreet root) →
      ∀ e ∈ entries, ∀ application owner, e.Observes application owner →
        application = root ∨ EnteredAuthenticated root application entries e) := by
  obtain ⟨-, entries, hexplained, hkinds⟩ :=
    s.runUserAction_explained context hashing root _ _ _ _ _ _ _ _ h
  refine ⟨entries, hexplained.trace, fun hdiscreet e he application owner hobserves => ?_⟩
  obtain hfees | ⟨-, hplaced⟩ := hkinds e he
  · obtain ⟨caller, hobserved, -⟩ := hobserves
    rw [hfees] at hobserved
    cases hobserved
  · exact hplaced.entered (hexplained.forall_mem e he) (hdiscreet e he) hobserves

end ExecutionStateView

/-! ## Contracts that follow a script -/

/-- The requests that a contract makes when it is executed, and when it is finalized. -/
structure Script where
  onExecute : List ContractRequest
  onFinalize : List ContractRequest

/-- Makes requests one after another, without looking at the responses. -/
def Program.ofRequests (requests : List ContractRequest) : Program :=
  requests.foldr (fun request next => .request request fun _ => next) (.done [] [])

def Script.code (script : Script) : ContractCode where
  memory := []
  run _
    | .finalize _ => .ofRequests script.onFinalize
    | _ => .ofRequests script.onExecute

/-- The application that was created by the message with the given index. -/
def numberedApplication (n : Nat) : UserApplicationDescription :=
  ⟨⟨⟨0⟩, ⟨0⟩⟩, ⟨⟨⟨0⟩⟩, 0, n⟩, [], []⟩

/-- An environment in which each application follows its script. -/
def scriptedContext (script : Nat → Script) : ExecutionRuntimeContext where
  chainId := ⟨⟨0⟩⟩
  blobs _ := none
  getUserContract description := .ok (script description.creation.index).code
  queryService _ _ _ := .error (.userError [])
  performHttpRequest _ := .error (.userError [])
  unstableOracles := false
  maxCallDepth := 3

/-- Library functions that are simple enough to compute with. -/
def simpleHashing : Hashing where
  owner publicKey := ⟨⟨publicKey.value⟩⟩
  chainId
    | .root index => ⟨⟨2 * index⟩⟩
    | .child id => ⟨⟨2 * id.index + 1⟩⟩

/-- A chain with two applications, on which user 1 has ten tokens. -/
def twoApplications : ExecutionStateView where
  system := { SystemExecutionStateView.default with
    balances := .ofList [(.user ⟨⟨1⟩⟩, 10)]
    registry := ⟨.ofList ([0, 1].map fun n =>
      ((numberedApplication n).applicationId, numberedApplication n))⟩ }
  users := .empty

/-- Application 0 executes an operation of user 1. -/
def runScripts (script : Nat → Script) :
    Except ExecutionError (ExecutionStateView × Option Nat × TransactionTracker ×
      ResourceController (Option Owner)) :=
  twoApplications.runUserAction (scriptedContext script) simpleHashing
    (numberedApplication 0).applicationId ⟨⟨0⟩⟩ 0
    (.operation ⟨⟨⟨0⟩⟩, some ⟨⟨1⟩⟩, none, 0, none⟩ []) none none (.new 0 none)
    ⟨.default, .default, some ⟨⟨1⟩⟩⟩

namespace ExecutionStateView

/-- Application 1 is called with authentication, and transfers three tokens of the signer. -/
def passingScript : Nat → Script
  | 0 => ⟨[.tryCallApplication true (numberedApplication 1).applicationId []], []⟩
  | _ => ⟨[.authenticatedSigner, .transfer (some (.user ⟨⟨1⟩⟩)) ⟨⟨⟨5⟩⟩, none⟩ 3], []⟩

theorem signer_observed_passing :
    ∃ p ∈ (runScripts passingScript).toOption,
      p.1.system.funds.balanceOf (some (.user ⟨⟨1⟩⟩)) = 7 ∧
        ∀ e ∈ p.2.2.1.trace, ∀ application owner, e.Observes application owner →
          application = (numberedApplication 0).applicationId ∨
            EnteredAuthenticated (numberedApplication 0).applicationId application
              p.2.2.1.trace e := by
  obtain ⟨p, hp, hbalance, hdiscreet⟩ : ∃ p ∈ (runScripts passingScript).toOption,
      p.1.system.funds.balanceOf (some (.user ⟨⟨1⟩⟩)) = 7 ∧
        ∀ e ∈ p.2.2.1.trace, e.Discreet (numberedApplication 0).applicationId := by
    decide +kernel
  obtain ⟨entries, htrace, hobserved⟩ := signer_observed _ _ (Except.toOption_eq_some.mp hp)
  obtain rfl : p.2.2.1.trace = entries := htrace
  exact ⟨p, hp, hbalance, hobserved hdiscreet⟩

/-- Application 1 is called without authentication. It asks for the signer, and when the
transaction is finalized it transfers three tokens from the signer's account. -/
def leakingScript : Nat → Script
  | 0 => ⟨[.tryCallApplication false (numberedApplication 1).applicationId []], []⟩
  | _ => ⟨[.authenticatedSigner], [.transfer (some (.user ⟨⟨1⟩⟩)) ⟨⟨⟨5⟩⟩, none⟩ 3]⟩

/-- An application that was never entered by authenticated calls learns the signer, and takes
tokens from the signer's account. -/
theorem signer_leaks :
    ∃ p ∈ (runScripts leakingScript).toOption, ∃ read ∈ p.2.2.1.trace, ∃ spend ∈ p.2.2.1.trace,
      (read.action.isReadSigner = true ∧
        read.Observes (numberedApplication 1).applicationId ⟨⟨1⟩⟩ ∧
        ¬EnteredAuthenticated (numberedApplication 0).applicationId
          (numberedApplication 1).applicationId p.2.2.1.trace read) ∧
      spend.action.isReadSigner = false ∧
        spend.Observes (numberedApplication 1).applicationId ⟨⟨1⟩⟩ ∧
        ¬EnteredAuthenticated (numberedApplication 0).applicationId
          (numberedApplication 1).applicationId p.2.2.1.trace spend := by
  decide +kernel

end ExecutionStateView

end Linera
