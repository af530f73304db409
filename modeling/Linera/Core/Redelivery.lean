import Linera.Core.Selection
import Linera.Chain.Outbox

/-!
# Delivering cross-chain updates again

Cross-chain requests are retried, so a chain may be sent bundles that it has
already received. They are recognized by the inbox: `next_block_height_to_receive`
is above the last bundle that has entered it. But bundles that consist of
`Subscribe` and `Unsubscribe` messages are processed without entering the inbox,
and are not recognized. `redelivery_unchanged_iff` says exactly when a repeated
update changes nothing.
-/

namespace Linera

namespace ChainStateView

/-! ## What receiving leaves alone -/

/-- The log of received blocks is the same, and an active chain is still active. -/
structure KeepsLog (c c' : ChainStateView) : Prop where
  log : c'.receivedLog = c.receivedLog
  active : c.isActive → c'.isActive

theorem KeepsLog.trans {c c' c'' : ChainStateView} (h : KeepsLog c c') (h' : KeepsLog c' c'') :
    KeepsLog c c'' := ⟨h'.log.trans h.log, h'.active ∘ h.active⟩

theorem Sends.keepsLog {c c' : ChainStateView} (h : c.Sends c') : KeepsLog c c' := by
  refine ⟨h.receivedLog, fun hactive => ?_⟩
  rw [isActive, h.executionState]
  exact hactive

theorem Removes.keepsLog {c c' : ChainStateView} (h : c.Removes c') : KeepsLog c c' := by
  rw [h]
  exact ⟨rfl, id⟩

variable (context : ChainContext)

/-- Each received bundle is recorded, unless its height has just been. -/
theorem receiveMessageBundle_log (c : ChainStateView) (origin : Origin) (bundle : MessageBundle)
    (localTime : Nat) (addToReceivedLog : Bool) :
    (c.receiveMessageBundle context origin bundle localTime addToReceivedLog).Ensures
      fun (c', _) => c'.receivedLog.length =
        c.receivedLog.length + (if addToReceivedLog then 1 else 0) ∧ (c.isActive → c'.isActive) := by
  refine .guard fun _ => .bind (c.handleImmediateMessages_initializes context _ _ _ _) ?_
  rintro ⟨c₁, subscribes, unsubscribes⟩ ⟨(hc₁ : c.Initializes c₁), hactive₁⟩
  have hkeeps₁ : KeepsLog c c₁ := ⟨by rw [hc₁], hactive₁⟩
  refine .bind (c₁.processUnsubscribes_sends _ _) fun c₂ hc₂ => ?_
  refine .bind (c₂.processSubscribes_sends _ _) ?_
  rintro ⟨c₃, newEntries⟩ hc₃
  refine .bind (c₃.addToInbox_removes origin bundle localTime) fun c₄ hc₄ => ?_
  have hkeeps := (hkeeps₁.trans (hc₂.trans hc₃).keepsLog).trans hc₄.keepsLog
  split
  · exact .ok ⟨by simp [hkeeps.log], hkeeps.active⟩
  · exact .ok ⟨by simp [hkeeps.log], hkeeps.active⟩

theorem receiveMessageBundles_log (c : ChainStateView) (origin : Origin) (localTime : Nat)
    (previousHeight : Option Nat) (bundles : List MessageBundle) :
    (c.receiveMessageBundles context origin localTime previousHeight bundles).Ensures
      fun (c', _) => c.receivedLog.length ≤ c'.receivedLog.length ∧
        (bundles ≠ [] → previousHeight = none → c.receivedLog.length < c'.receivedLog.length) ∧
        (c.isActive → c'.isActive) := by
  induction bundles generalizing c previousHeight with
  | nil => exact .ok ⟨le_rfl, fun h => absurd rfl h, id⟩
  | cons bundle bundles ih =>
    refine .bind (receiveMessageBundle_log context c origin bundle localTime _) ?_
    rintro ⟨c₁, newEntries⟩ ⟨hlog₁, hactive₁⟩
    refine .bind (ih c₁ (some bundle.height)) ?_
    rintro ⟨c₂, moreEntries⟩ ⟨hlog₂, -, hactive₂⟩
    refine .ok ⟨by omega, fun _ hprevious => ?_, hactive₂ ∘ hactive₁⟩
    simp only [hprevious, ne_eq, reduceCtorEq, not_false_eq_true, decide_true, if_true] at hlog₁
    omega

/-! ## Repeated updates -/

/-- The subscribers, inboxes, outboxes and counters, and the log of received blocks are the
same. -/
structure SameDelivery (c c' : ChainStateView) : Prop where
  subscribers : ∀ name, (c'.loadChannel name).subscribers = (c.loadChannel name).subscribers
  inboxes : c'.inboxes = c.inboxes
  outboxes : c'.outboxes = c.outboxes
  outboxCounters : c'.outboxCounters = c.outboxCounters
  receivedLog : c'.receivedLog = c.receivedLog

theorem SameDelivery.refl (c : ChainStateView) : SameDelivery c c := ⟨fun _ => rfl, rfl, rfl, rfl, rfl⟩

/-- The inbox shows that bundles at this height have been received. -/
def AlreadyReceived (c : ChainStateView) (origin : Origin) (height : Nat) : Prop :=
  ∃ next, c.nextBlockHeightToReceive origin = .ok next ∧ height < next

/-- Whether a bundle relies on validators that the chain trusts. -/
def trusts (config : ChainWorkerConfig) (c : ChainStateView) (origin : Origin)
    (e : Nat × MessageBundle) : Bool :=
  (CrossChainUpdateHelper.new config c).isTrusted (c.lastAnticipatedBlockHeight origin) e

variable {config : ChainWorkerConfig} {c₀ c : ChainStateView} {origin : Origin}

/-- A chain that has been saved is active, unless inactive chains are allowed. -/
theorem active_of_processCrossChainUpdate {bundles : List (Nat × MessageBundle)} {localTime : Nat} :
    (processCrossChainUpdate context config c₀ origin bundles localTime).Ensures fun r =>
      ∀ update ∈ r, config.allowInactiveChains ∨ update.chain.isActive := by
  refine .bind_any fun next => .bind_any fun selected => ?_
  split
  · exact .ok (by simp)
  · refine .bind_any ?_
    rintro ⟨c', newEntries⟩
    simp only
    split
    · exact .ok (by simp)
    · next hactive =>
      refine .ok ?_
      rintro update ⟨⟩
      simpa [or_iff_not_imp_left] using hactive

/-- **Repeated updates.** After an update from an origin has been processed and saved, processing
another update from there (without an error) leaves the subscribers, inboxes, outboxes and
counters and the log of received blocks unchanged if and only if the inbox shows that each of its
trusted bundles has already been received. -/
theorem redelivery_unchanged_iff {bundles again : List (Nat × MessageBundle)} {time time' : Nat}
    {update : CrossChainUpdate} {r : Option CrossChainUpdate}
    (hfirst : processCrossChainUpdate context config c₀ origin bundles time = .ok (some update))
    (hagain : processCrossChainUpdate context config update.chain origin again time' = .ok r) :
    SameDelivery update.chain (update.chain.afterCrossChainUpdate (.ok r)) ↔
      ∀ e ∈ again, update.chain.trusts config origin e →
        update.chain.AlreadyReceived origin e.2.height := by
  have hsaved := active_of_processCrossChainUpdate context _ hfirst update rfl
  generalize update.chain = c at *
  obtain ⟨next, hnext, hagain⟩ := Except.bind_eq_ok.mp hagain
  replace hnext := Except.mapError_eq_ok.mp hnext
  obtain ⟨selected, hselected, hagain⟩ := Except.bind_eq_ok.mp hagain
  have hnil := CrossChainUpdateHelper.selectMessageBundles_eq_nil_iff _ _ _ again _ hselected
  have hreceived : (∀ e ∈ again, c.trusts config origin e → c.AlreadyReceived origin e.2.height) ↔
      selected = [] := by
    simp only [hnil, AlreadyReceived, hnext, Except.ok.injEq, exists_eq_left', trusts]
  rw [hreceived]
  cases hlast : selected.getLast? with
  | none =>
    rw [hlast] at hagain
    cases hagain
    simpa using ⟨fun _ => List.getLast?_eq_none_iff.mp hlast, fun _ => SameDelivery.refl c⟩
  | some lastBundle =>
    rw [hlast] at hagain
    have hne : selected ≠ [] := by
      rintro rfl
      cases hlast
    -- Something is received, so the log grows.
    obtain ⟨⟨c', newEntries⟩, hreceive, hagain⟩ := Except.bind_eq_ok.mp hagain
    obtain ⟨-, hlog, hactive⟩ :=
      receiveMessageBundles_log context c origin time' none selected _
        (Except.mapError_eq_ok.mp hreceive)
    have hok : ¬(!config.allowInactiveChains && !c'.isActive) := by
      rcases hsaved with h | h
      · simp [h]
      · simp [hactive h]
    simp only [hok] at hagain
    cases hagain
    refine ⟨fun hsame => absurd (congrArg List.length hsame.receivedLog) ?_, fun h => absurd h hne⟩
    exact (hlog hne rfl).ne'

-- An admin chain, and a chain that has subscribed to it at height 0 and unsubscribed at height 1.

def systemBundle (height : Nat) (message : SystemMessage) : Nat × MessageBundle :=
  (0, ⟨height, 0, ⟨height⟩, 0, [⟨none, 0, none, .protected, 0, .system message⟩]⟩)

/-- Receiving a payment from chain 3 again changes nothing. -/
theorem redelivery_unchanged_payment :
    ∃ first ∈ (processCrossChainUpdate simpleContext ⟨false, false⟩ activeChain ⟨⟨⟨3⟩⟩, .direct⟩
        [systemBundle 0 (.credit none 5 none)] 0).toOption,
      ∃ update ∈ first, ∃ r ∈ (processCrossChainUpdate simpleContext ⟨false, false⟩ update.chain
          ⟨⟨⟨3⟩⟩, .direct⟩ [systemBundle 0 (.credit none 5 none)] 0).toOption,
        SameDelivery update.chain (update.chain.afterCrossChainUpdate (.ok r)) := by
  obtain ⟨first, hfirst, update, hupdate, r, hr, hnext⟩ :
    ∃ first ∈ (processCrossChainUpdate simpleContext ⟨false, false⟩ activeChain ⟨⟨⟨3⟩⟩, .direct⟩
        [systemBundle 0 (.credit none 5 none)] 0).toOption,
      ∃ update ∈ first, ∃ r ∈ (processCrossChainUpdate simpleContext ⟨false, false⟩ update.chain
          ⟨⟨⟨3⟩⟩, .direct⟩ [systemBundle 0 (.credit none 5 none)] 0).toOption,
        update.chain.nextBlockHeightToReceive ⟨⟨⟨3⟩⟩, .direct⟩ = .ok 1 := by decide
  obtain rfl : first = some update := hupdate
  refine ⟨_, hfirst, update, rfl, r, hr, ?_⟩
  refine (redelivery_unchanged_iff simpleContext (Except.toOption_eq_some.mp hfirst)
    (Except.toOption_eq_some.mp hr)).mpr ?_
  rintro e he -
  obtain rfl := List.mem_singleton.mp he
  exact ⟨1, hnext, by decide⟩

def subscribeBundle0 : Nat × MessageBundle :=
  systemBundle 0 (.subscribe ⟨⟨3⟩⟩ (SystemExecutionStateView.adminSubscription ⟨⟨0⟩⟩))

def unsubscribeBundle1 : Nat × MessageBundle :=
  systemBundle 1 (.unsubscribe ⟨⟨3⟩⟩ (SystemExecutionStateView.adminSubscription ⟨⟨0⟩⟩))

/-- The first bundle is delivered again after both: the chain is subscribed again, and the block
is recorded twice. -/
theorem redelivery_subscribes_again :
    ∃ first ∈ (processCrossChainUpdate simpleContext ⟨false, false⟩ activeChain ⟨⟨⟨3⟩⟩, .direct⟩
        [subscribeBundle0, unsubscribeBundle1] 0).toOption,
      ∃ update ∈ first, ∃ again ∈ (processCrossChainUpdate simpleContext ⟨false, false⟩
          update.chain ⟨⟨⟨3⟩⟩, .direct⟩ [subscribeBundle0] 0).toOption,
        ∃ update' ∈ again,
          update.chain.receivedLog.length = 2 ∧ update'.chain.receivedLog.length = 3 ∧
          (update.chain.channels.values.map (·.subscribers.keys)) = [[]] ∧
          (update'.chain.channels.values.map (·.subscribers.keys)) = [[⟨⟨3⟩⟩]] := by
  decide

end ChainStateView

end Linera
