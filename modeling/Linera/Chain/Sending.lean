import Linera.Chain.ChainState

/-!
# What sending and initializing change

Recording the outcomes of a transaction changes the outboxes, their counters and
the channels of a chain, and nothing else (`Sends`). Initializing a chain changes
its execution state, the hash of that and the chain manager (`Initializes`), and
removing bundles changes the inboxes and what tracks their bundles (`Removes`).
-/

namespace Linera

def ExecutionOutcome.outgoing : ExecutionOutcome → List OutgoingMessage
  | .system outcome => outcome.messages.map (ChainStateView.outgoingMessage .system outcome)
  | .user applicationId outcome =>
    outcome.messages.map (ChainStateView.outgoingMessage (.user applicationId) outcome)

namespace ChainStateView

/-- Only the outboxes, their counters and the channels differ. -/
def Sends (c c' : ChainStateView) : Prop :=
  c' = { c with
    outboxes := c'.outboxes, outboxCounters := c'.outboxCounters, channels := c'.channels }

theorem Sends.refl (c : ChainStateView) : c.Sends c := rfl

variable {c c' c'' : ChainStateView}

theorem Sends.trans (h : c.Sends c') (h' : c'.Sends c'') : c.Sends c'' := by
  unfold Sends at h h'
  rw [h] at h'
  exact h'

theorem Sends.executionState {c c' : ChainStateView} (h : c.Sends c') :
    c'.executionState = c.executionState := by
  rw [h]

theorem Sends.receivedLog {c c' : ChainStateView} (h : c.Sends c') :
    c'.receivedLog = c.receivedLog := by
  rw [h]

/-- Only the channels differ. -/
def SetsChannels (c c' : ChainStateView) : Prop := c' = { c with channels := c'.channels }

theorem SetsChannels.refl (c : ChainStateView) : c.SetsChannels c := rfl

theorem SetsChannels.trans (h : c.SetsChannels c') (h' : c'.SetsChannels c'') :
    c.SetsChannels c'' := by
  unfold SetsChannels at h h'
  rw [h] at h'
  exact h'

theorem SetsChannels.sends {c c' : ChainStateView} (h : c.SetsChannels c') : c.Sends c' := by
  rw [h]
  rfl

variable (c : ChainStateView)

theorem setChannel_setsChannels (name : ChannelFullName) (channel : ChannelStateView) :
    c.SetsChannels (c.setChannel name channel) := rfl

theorem addSubscribers_setsChannels (subscriptions : List (ChannelFullName × ChainId)) :
    c.SetsChannels (c.addSubscribers subscriptions).1 := by
  induction subscriptions generalizing c with
  | nil => exact .refl c
  | cons s subscriptions ih =>
    simp only [addSubscribers]
    split
    · exact (c.setChannel_setsChannels _ _).trans (ih _)
    · exact (c.setChannel_setsChannels _ _).trans (ih _)

theorem broadcast_setsChannels (height : Nat) (names : List ChannelFullName) :
    c.SetsChannels (c.broadcast height names).1 := by
  induction names generalizing c with
  | nil => exact .refl c
  | cons name names ih => exact (c.setChannel_setsChannels _ _).trans (ih _)

variable (namesAndIds : List (ChannelName × ChainId))

variable (applicationId : GenericApplicationId)

theorem processUnsubscribes_setsChannels :
    (c.processUnsubscribes namesAndIds applicationId).Ensures c.SetsChannels := by
  refine .guard fun _ => .ok ?_
  generalize namesAndIds.map (fun x => (ChannelFullName.mk applicationId x.1, x.2)) = subscriptions
  induction subscriptions generalizing c with
  | nil => exact .refl c
  | cons s subscriptions ih =>
    rw [List.foldl_cons]
    exact (c.setChannel_setsChannels _ _).trans (ih _)

theorem schedule_sends (target : Target) (height : Nat) :
    (c.schedule target height).Ensures fun p => c.Sends p.1 := by
  refine .bind_any ?_
  rintro ⟨outbox, changed⟩
  simp only
  split
  · exact .guard fun _ => .ok rfl
  · exact .ok rfl

theorem scheduleAll_sends (messages : List (Target × Nat)) :
    (c.scheduleAll messages).Ensures fun p => c.Sends p.1 := by
  induction messages generalizing c with
  | nil => exact .ok (.refl c)
  | cons m messages ih =>
    refine .bind (c.schedule_sends m.1 m.2) ?_
    rintro ⟨c₁, changed₁⟩ hc₁
    refine .bind (ih c₁) ?_
    rintro ⟨c₂, changed₂⟩ hc₂
    exact .ok (hc₁.trans hc₂)

theorem processSubscribes_sends :
    (c.processSubscribes namesAndIds applicationId).Ensures fun p => c.Sends p.1 :=
  .guard fun _ => (scheduleAll_sends _ _).mono fun _ h => (c.addSubscribers_setsChannels _).sends.trans h

theorem processUnsubscribes_sends :
    (c.processUnsubscribes namesAndIds applicationId).Ensures c.Sends :=
  (c.processUnsubscribes_setsChannels _ _).mono fun _ h => h.sends

theorem processRawExecutionOutcome_sends {μ : Type} (lift : μ → Message) (height : Nat)
    (outcome : RawExecutionOutcome μ Nat) :
    (c.processRawExecutionOutcome applicationId lift height outcome).Ensures fun p =>
      c.Sends p.1 ∧ p.2.1 = outcome.messages.map (outgoingMessage lift outcome) := by
  refine .bind_any fun _ => .bind (c.scheduleAll_sends _) ?_
  rintro ⟨c₁, changed₁⟩ hc₁
  refine .bind (c₁.processUnsubscribes_sends _ _) fun c₂ hc₂ => ?_
  have hc₃ := (c₂.broadcast_setsChannels height
    ((channelBroadcasts outcome.messages).keys.map (ChannelFullName.mk applicationId))).sends
  refine .bind (scheduleAll_sends _ _) ?_
  rintro ⟨c₄, changed₄⟩ hc₄
  refine .bind (c₄.processSubscribes_sends _ _) ?_
  rintro ⟨c₅, changed₅⟩ hc₅
  exact .ok ⟨(((hc₁.trans hc₂).trans hc₃).trans hc₄).trans hc₅, rfl⟩

/-- The messages of a transaction are the ones of its outcomes. -/
theorem processExecutionOutcomes_sends (height : Nat) (outcomes : List ExecutionOutcome) :
    (c.processExecutionOutcomes height outcomes).Ensures fun p =>
      c.Sends p.1 ∧ p.2.1 = outcomes.flatMap ExecutionOutcome.outgoing := by
  induction outcomes generalizing c with
  | nil => exact .ok ⟨.refl c, rfl⟩
  | cons outcome outcomes ih =>
    have hfirst : (c.processExecutionOutcome height outcome).Ensures fun p =>
        c.Sends p.1 ∧ p.2.1 = outcome.outgoing := by
      cases outcome with
      | system outcome => exact c.processRawExecutionOutcome_sends _ _ _ _
      | user applicationId outcome => exact c.processRawExecutionOutcome_sends _ _ _ _
    refine .bind hfirst ?_
    rintro ⟨c₁, messages₁, events₁⟩ ⟨hc₁, hmessages₁⟩
    refine .bind (ih c₁) ?_
    rintro ⟨c₂, messages₂, events₂⟩ ⟨hc₂, hmessages₂⟩
    exact .ok ⟨hc₁.trans hc₂, congrArg₂ (· ++ ·) hmessages₁ hmessages₂⟩

/-! ## Initializing -/

/-- Only the execution state, its hash and the chain manager differ. -/
def Initializes (c c' : ChainStateView) : Prop :=
  c' = { c with
    executionState := c'.executionState, executionStateHash := c'.executionStateHash
    manager := c'.manager }

theorem Initializes.refl (c : ChainStateView) : c.Initializes c := rfl

theorem Initializes.trans {c c' c'' : ChainStateView} (h : c.Initializes c')
    (h' : c'.Initializes c'') : c.Initializes c'' := by
  unfold Initializes at h h'
  rw [h] at h'
  exact h'

variable (context : ChainContext)

theorem resetManager_initializes (height localTime : Nat) :
    (c.resetManager context height localTime).Ensures c.Initializes :=
  .bind_any fun _ => .ok rfl

theorem executeInitMessage_initializes (messageId : MessageId) (config : OpenChainConfig)
    (timestamp localTime : Nat) :
    (c.executeInitMessage context messageId config timestamp localTime).Ensures c.Initializes :=
  .bind_any fun _ => .bind_any fun _ => .ok rfl

variable (chainAndHeight : ChainAndHeight)

/-- Only a chain that is not active yet is initialized. -/
theorem receiveOpenChain_initializes (timestamp localTime : Nat) (m : PostedMessage) :
    (c.receiveOpenChain context chainAndHeight timestamp localTime m).Ensures
      fun c' => c.Initializes c' ∧ (c.isActive → c'.isActive) := by
  unfold receiveOpenChain
  split
  · split
    · next hnone =>
      have hinactive : ¬c.isActive := by
        rw [Option.isNone_iff_eq_none] at hnone
        simp [isActive, SystemExecutionStateView.isActive, hnone]
      exact (c.executeInitMessage_initializes context _ _ _ _).mono fun _ h =>
        ⟨h, fun hactive => absurd hactive hinactive⟩
    · exact .ok ⟨.refl c, id⟩
  · exact .ok ⟨.refl c, id⟩

theorem handleImmediateMessages_initializes (timestamp localTime : Nat)
    (messages : List PostedMessage) :
    (c.handleImmediateMessages context chainAndHeight timestamp localTime messages).Ensures
      fun p => c.Initializes p.1 ∧ (c.isActive → p.1.isActive) := by
  induction messages generalizing c with
  | nil => exact .ok ⟨.refl c, id⟩
  | cons m messages ih =>
    refine .bind (c.receiveOpenChain_initializes context _ _ _ m) fun c₁ hc₁ => .bind (ih c₁) ?_
    rintro ⟨c₂, subscribes, unsubscribes⟩ hc₂
    simp only
    split <;> exact .ok ⟨hc₁.1.trans hc₂.1, hc₂.2 ∘ hc₁.2⟩

/-! ## Removing bundles -/

/-- Only the inboxes and the record of unskippable bundles differ. -/
def Removes (c c' : ChainStateView) : Prop :=
  c' = { c with
    inboxes := c'.inboxes, unskippableBundles := c'.unskippableBundles
    removedUnskippableBundles := c'.removedUnskippableBundles }

/-- A new bundle enters an inbox, and may be unskippable. -/
theorem addToInbox_removes (origin : Origin) (bundle : MessageBundle) (localTime : Nat) :
    (c.addToInbox origin bundle localTime).Ensures c.Removes := by
  unfold addToInbox
  split
  · refine .bind_any ?_
    rintro ⟨inbox, newlyAdded⟩
    simp only
    split <;> exact .ok rfl
  · exact .ok rfl

theorem removeFromInboxes_removes (bundles : List (Origin × List MessageBundle)) :
    (c.removeFromInboxes context bundles).Ensures fun p =>
      p.1 = { c with inboxes := p.1.inboxes } := by
  induction bundles generalizing c with
  | nil => exact .ok rfl
  | cons e bundles ih =>
    refine .bind_any ?_
    rintro ⟨inbox, removed⟩
    refine .bind (ih _) ?_
    rintro ⟨c₁, moreRemoved⟩ h
    exact .ok h

theorem removeBundlesFromInboxes_removes (block : Block) :
    (c.removeBundlesFromInboxes context block).Ensures c.Removes := by
  refine .bind_any fun byOrigin => .bind (c.removeFromInboxes_removes context _) ?_
  rintro ⟨c₁, removed⟩ h
  refine .ok ?_
  unfold Removes
  dsimp only at h ⊢
  rw [h]
  rfl

end ChainStateView

end Linera
