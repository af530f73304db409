import Linera.Chain.Execution
import Linera.Chain.Sending

/-!
# A rule for blocks

`execute_block` changes a chain in few ways: it may initialize it, it changes the
execution state in operations, in messages and for fees, it records outgoing messages and
resets the chain manager. `Preserved.executeBlock` is the rule for reasoning about blocks:
a relation that holds for each of these holds between the chain before a block and the
chain after it.
-/

namespace Linera

namespace ChainStateView

/-- A relation between states of a chain that holds for everything a block does to it. -/
structure Preserved (context : ChainContext) (block : Block)
    (R : ChainStateView → ChainStateView → Prop) : Prop where
  refl : ∀ c, R c c
  trans : ∀ {c c' c''}, R c c' → R c' c'' → R c c''
  start : ∀ (c : ChainStateView) localTime,
    (c.initializeFirstBlock context block localTime).Ensures (R c)
  execution : ∀ (c : ChainStateView) executionState, R c { c with executionState }
  sends : ∀ {c c' : ChainStateView}, c.Sends c' → R c c'
  reset : ∀ (c : ChainStateView) height localTime,
    (c.resetManager context height localTime).Ensures (R c)

namespace Preserved

variable {context : ChainContext} {block : Block} {R : ChainStateView → ChainStateView → Prop}
  (h : Preserved context block R)
include h

variable (c : ChainStateView) (controller : ResourceController (Option Owner))

theorem pay (f : ResourceController Sources → Except ExecutionError (ResourceController Sources)) :
    (c.pay controller f).Ensures fun p => R c p.1 :=
  .bind_any fun _ => .ok (h.execution c _)

variable (localTime txnIndex : Nat)

theorem executeMessageInBlock (bundle : IncomingBundle) (messageId : MessageId) (m : PostedMessage)
    (t : TransactionTracker) :
    (c.executeMessageInBlock context block localTime txnIndex bundle messageId m t
      controller).Ensures fun p => R c p.1 := by
  simp only [ChainStateView.executeMessageInBlock]
  split
  · refine .guard fun _ => .bind_any ?_
    rintro ⟨executionState, grantLeft, t₁, controller₁⟩
    have hR := h.execution c executionState
    simp only
    split
    · split
      · exact .bind_any fun _ => .ok hR
      · exact .ok hR
    · exact .ok hR
  · refine .guard fun _ => ?_
    split
    · exact .bind_any fun _ => .ok (h.refl c)
    · split
      · split
        · exact .error
        · exact .bind_any fun _ => .ok (h.refl c)
      · exact .ok (h.refl c)

theorem executeMessages (bundle : IncomingBundle) (t : TransactionTracker)
    (messages : List (MessageId × PostedMessage)) :
    (c.executeMessages context block localTime txnIndex bundle t controller messages).Ensures
      fun p => R c p.1 := by
  induction messages generalizing c t controller with
  | nil => exact .ok (h.refl c)
  | cons m messages ih =>
    refine .bind (h.executeMessageInBlock c controller localTime txnIndex bundle m.1 m.2 t) ?_
    rintro ⟨c₁, t₁, controller₁⟩ hR
    exact (ih c₁ controller₁ t₁).mono fun p hp => h.trans hR hp

theorem executeTransactionBody (t : TransactionTracker) (transaction : Transaction) :
    (c.executeTransactionBody context block localTime txnIndex t controller transaction).Ensures
      fun p => R c p.1 := by
  cases transaction with
  | receiveMessages bundle =>
    exact .bind_any fun controller₁ => h.executeMessages c controller₁ localTime txnIndex bundle t _
  | executeOperation operation =>
    refine .bind_any fun controller₁ => .bind_any ?_
    rintro ⟨executionState, t₁, controller₂⟩
    refine .bind (.mapError (h.pay _ controller₂ _)) ?_
    rintro ⟨c₁, controller₃⟩ hpay
    exact .ok (h.trans (h.execution c executionState) hpay)

theorem trackMessages (messages : List OutgoingMessage) :
    (c.trackMessages controller messages).Ensures fun p => R c p.1 := by
  induction messages generalizing c controller with
  | nil => exact .ok (h.refl c)
  | cons message messages ih =>
    refine .bind (h.pay c controller _) ?_
    rintro ⟨c₁, controller₁⟩ hpay
    exact (ih c₁ controller₁).mono fun p hp => h.trans hpay hp

theorem executeTransaction (p : BlockProgress) (localTime txnIndex : Nat)
    (transaction : Transaction) :
    (p.executeTransaction context block localTime txnIndex transaction).Ensures fun p' =>
      R p.chain p'.chain := by
  refine .bind_any ?_
  rintro ⟨responses, rest⟩
  refine .bind (h.executeTransactionBody p.chain p.controller localTime txnIndex _ transaction) ?_
  rintro ⟨chain, t, controller⟩ hbody
  refine .bind_any fun t' => .bind_any ?_
  rintro ⟨outcomes, oracleResponses, nextMessageIndex⟩
  refine .bind (chain.processExecutionOutcomes_sends _ _) ?_
  rintro ⟨chain₁, messages, events⟩ ⟨hsends, -⟩
  have hR := h.trans hbody (h.sends hsends)
  simp only
  split
  · refine .bind (.mapError (h.trackMessages chain₁ controller messages)) ?_
    rintro ⟨chain₂, controller₂⟩ htrack
    exact .bind_any fun _ => .ok (h.trans hR htrack)
  · rw [Except.pure_eq, Except.ok_bind]
    exact .bind_any fun _ => .ok hR

theorem executeTransactions (transactions : List Transaction) (p : BlockProgress) :
    (p.executeTransactions context block localTime txnIndex transactions).Ensures fun p' =>
      R p.chain p'.chain := by
  induction transactions generalizing txnIndex p with
  | nil => exact .ok (h.refl _)
  | cons transaction transactions ih =>
    refine .bind (h.executeTransaction p localTime txnIndex transaction) fun p₁ hR => ?_
    exact (ih (txnIndex + 1) p₁).mono fun p₂ hR' => h.trans hR hR'

theorem startBlock (localTime : Nat) (responses : Option (List (List OracleResponse))) :
    (c.startBlock context block localTime responses).Ensures fun p => R c p.chain := by
  refine .guard fun _ => .bind (h.start c localTime) fun c₁ hstart => .guard fun _ => ?_
  simp only
  split
  · exact .error
  · refine .bind_any fun controller => .guard fun _ => .bind_any fun _ => .ok ?_
    exact h.trans hstart (h.execution c₁ _)

theorem finishBlock (p : BlockProgress) (localTime : Nat) :
    (ChainStateView.finishBlock context p block localTime).Ensures fun e =>
      R p.chain e.chain := by
  have hpay : (withExecutionContext (if p.chain.isClosed then pure (p.chain, p.controller)
      else p.chain.pay p.controller fun controller => controller.trackBlock) .block).Ensures
      fun x => R p.chain x.1 := by
    refine .mapError ?_
    split
    · exact .ok (h.refl _)
    · exact h.pay _ _ _
  refine .bind hpay ?_
  rintro ⟨c₁, controller₁⟩ hR
  refine .bind_any fun nextHeight => .bind (h.reset c₁ _ _) fun c₂ hreset => ?_
  exact .guard fun _ => .ok (h.trans hR hreset)

theorem executeBlock (localTime : Nat) (responses : Option (List (List OracleResponse))) :
    (c.executeBlock context block localTime responses).Ensures fun e => R c e.chain := by
  refine .bind (h.startBlock c localTime responses) fun p hstart => ?_
  refine .bind (h.executeTransactions localTime 0 block.transactions p) fun p' htransactions => ?_
  refine (h.finishBlock p' localTime).mono fun e hfinish => ?_
  exact h.trans (h.trans hstart htransactions) hfinish

end Preserved

theorem initializeFirstBlock_initializes (context : ChainContext) (c : ChainStateView)
    (block : Block) (localTime : Nat) :
    (c.initializeFirstBlock context block localTime).Ensures c.Initializes := by
  unfold initializeFirstBlock
  split
  · split
    · exact .error
    · split
      · exact .ok (.refl c)
      · exact c.executeInitMessage_initializes context _ _ _ _
  · exact .ok (.refl c)

/-- The tip of the chain and the log of its blocks are the same. -/
structure SameTip (c c' : ChainStateView) : Prop where
  tipState : c'.tipState = c.tipState
  confirmedLog : c'.confirmedLog = c.confirmedLog

namespace SameTip

theorem refl (c : ChainStateView) : c.SameTip c := ⟨rfl, rfl⟩

theorem trans {c c' c'' : ChainStateView} (h : c.SameTip c') (h' : c'.SameTip c'') :
    c.SameTip c'' :=
  ⟨h'.tipState.trans h.tipState, h'.confirmedLog.trans h.confirmedLog⟩

theorem of_initializes {c c' : ChainStateView} (h : c.Initializes c') : c.SameTip c' :=
  ⟨by rw [h], by rw [h]⟩

variable (context : ChainContext) (c : ChainStateView) (block : Block)

theorem initializeFirstBlock (localTime : Nat) :
    (c.initializeFirstBlock context block localTime).Ensures c.SameTip :=
  (c.initializeFirstBlock_initializes context block localTime).mono fun _ h => .of_initializes h

theorem removeBundlesFromInboxes : (c.removeBundlesFromInboxes context block).Ensures c.SameTip :=
  (c.removeBundlesFromInboxes_removes context block).mono fun _ h => ⟨by rw [h], by rw [h]⟩

/-- Executing a block does not advance the tip. -/
theorem executeBlock (localTime : Nat) (responses : Option (List (List OracleResponse))) :
    (c.executeBlock context block localTime responses).Ensures fun e => c.SameTip e.chain :=
  Preserved.executeBlock (R := SameTip)
    { refl := refl
      trans := trans
      start := fun c localTime => initializeFirstBlock context c block localTime
      execution := fun _ _ => ⟨rfl, rfl⟩
      sends := fun {c c'} h => ⟨by rw [h], by rw [h]⟩
      reset := fun c height localTime =>
        (c.resetManager_initializes context height localTime).mono fun _ h => .of_initializes h }
    c localTime responses

end SameTip

end ChainStateView

end Linera
