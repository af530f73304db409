import Linera.Chain.Outbox

/-!
# Subscribing one by one

`processSubscribes` and `processUnsubscribes` take a list, and lock the entries of
all its channels before they look at the first one. Here they are compared with
the same functions called for one pair after the other. What the loop over the
list does is what the single calls do (`scheduleAll_addSubscribers`), so that the
lock is the only difference: a list that names a channel twice is refused.
-/

namespace Linera

namespace ChainStateView

/-! ## Subscribing and scheduling do not interfere -/

def withChannels (c : ChainStateView) (channels : BTreeMap ChannelFullName ChannelStateView) :
    ChainStateView :=
  { c with channels }

variable (c : ChainStateView)

theorem addSubscribers_cons (subscription : ChannelFullName × ChainId)
    (rest : List (ChannelFullName × ChainId)) : c.addSubscribers (subscription :: rest) =
      (((c.addSubscribers [subscription]).1.addSubscribers rest).1,
        (c.addSubscribers [subscription]).2 ++
          ((c.addSubscribers [subscription]).1.addSubscribers rest).2) := by
  obtain ⟨name, id⟩ := subscription
  simp only [addSubscribers]
  split <;> simp

variable (channels : BTreeMap ChannelFullName ChannelStateView)

/-- Subscribing reads and changes nothing but the channels. -/
theorem addSubscribers_withChannels (subscriptions : List (ChannelFullName × ChainId)) :
    (c.withChannels channels).addSubscribers subscriptions =
      (c.withChannels ((fresh.withChannels channels).addSubscribers subscriptions).1.channels,
        ((fresh.withChannels channels).addSubscribers subscriptions).2) := by
  induction subscriptions generalizing channels with
  | nil => rfl
  | cons subscription rest ih =>
    obtain ⟨name, id⟩ := subscription
    simp only [addSubscribers]
    have hload : ∀ d : ChainStateView, (d.withChannels channels).loadChannel name =
        (channels.get name).getD .fresh := fun _ => rfl
    have hset : ∀ (d : ChainStateView) channel, (d.withChannels channels).setChannel name channel =
        d.withChannels (channels.insert name channel) := fun _ _ => rfl
    simp only [hload, hset]
    split
    · exact ih _
    · rw [ih]

theorem schedule_withChannels (target : Target) (height : Nat) :
    (c.withChannels channels).schedule target height =
      (fun r => (r.1.withChannels channels, r.2)) <$> c.schedule target height := by
  simp only [schedule, withChannels]
  cases ((c.outboxes.get target).getD .fresh).scheduleMessage height with
  | error e => rfl
  | ok r =>
    obtain ⟨outbox, changed⟩ := r
    cases changed with
    | false => rfl
    | true =>
      simp only [Except.mapError_ok, Except.ok_bind, if_true]
      by_cases hcounter : (c.outboxCounters.get height).getD 0 < u32Max <;>
        simp [hcounter, ensure]

theorem scheduleAll_withChannels (missed : List (Target × Nat)) :
    (c.withChannels channels).scheduleAll missed =
      (fun r => (r.1.withChannels channels, r.2)) <$> c.scheduleAll missed := by
  induction missed generalizing c with
  | nil => rfl
  | cons entry rest ih =>
    obtain ⟨target, height⟩ := entry
    simp only [scheduleAll, schedule_withChannels]
    cases c.schedule target height with
    | error e => rfl
    | ok r =>
      simp only [Except.map_ok, Except.ok_bind, ih]
      cases r.1.scheduleAll rest <;> rfl

theorem scheduleAll_append (missed more : List (Target × Nat)) : c.scheduleAll (missed ++ more) = do
      let (c, changed) ← c.scheduleAll missed
      let (c, changedMore) ← c.scheduleAll more
      return (c, changed || changedMore) := by
  induction missed generalizing c with
  | nil =>
    simp only [List.nil_append, scheduleAll, Except.ok_bind, Bool.false_or]
    cases c.scheduleAll more <;> rfl
  | cons entry rest ih =>
    obtain ⟨target, height⟩ := entry
    simp only [List.cons_append, scheduleAll, ih]
    cases c.schedule target height with
    | error e => rfl
    | ok r =>
      simp only [Except.ok_bind]
      cases r.1.scheduleAll rest with
      | error e => rfl
      | ok r' =>
        simp only [Except.ok_bind, Except.pure_eq]
        cases r'.1.scheduleAll more with
        | error e => rfl
        | ok r'' => simp [Bool.or_assoc]

/-- Scheduling fails for its own reasons. -/
theorem scheduleAll_ne_tryLockError (missed : List (Target × Nat)) :
    c.scheduleAll missed ≠ .error .tryLockError := by
  induction missed generalizing c with
  | nil => rintro ⟨⟩
  | cons entry rest ih =>
    obtain ⟨target, height⟩ := entry
    have hschedule : c.schedule target height ≠ .error .tryLockError := by
      simp only [schedule]
      cases ((c.outboxes.get target).getD .fresh).scheduleMessage height with
      | error e => rintro ⟨⟩
      | ok r =>
        simp only [Except.mapError_ok, Except.ok_bind, ensure]
        split_ifs <;> rintro ⟨⟩
    simp only [scheduleAll]
    cases hr : c.schedule target height with
    | error e =>
      rw [hr] at hschedule
      exact hschedule
    | ok r =>
      have hrest := ih r.1
      simp only [Except.ok_bind]
      cases hr' : r.1.scheduleAll rest with
      | error e =>
        rw [hr'] at hrest
        exact hrest
      | ok r' => rintro ⟨⟩

/-! ## One pair at a time -/

/-- Processes the subscriptions one at a time. Returns whether one created outbox entries. -/
def subscribeEach (c : ChainStateView) (applicationId : GenericApplicationId) :
    List (ChannelName × ChainId) → Except ChainError (ChainStateView × Bool)
  | [] => .ok (c, false)
  | nameAndId :: rest => do
    let (c, newEntries) ← c.processSubscribes [nameAndId] applicationId
    let (c, newEntriesRest) ← c.subscribeEach applicationId rest
    return (c, newEntries || newEntriesRest)

/-- Processes the unsubscriptions one at a time. -/
def unsubscribeEach (c : ChainStateView) (applicationId : GenericApplicationId) :
    List (ChannelName × ChainId) → Except ChainError ChainStateView
  | [] => .ok c
  | nameAndId :: rest => do
    let c ← c.processUnsubscribes [nameAndId] applicationId
    c.unsubscribeEach applicationId rest

/-- The channels of the pairs. -/
def fullSubscriptions (applicationId : GenericApplicationId)
    (namesAndIds : List (ChannelName × ChainId)) : List (ChannelFullName × ChainId) :=
  namesAndIds.map fun (name, id) => (ChannelFullName.mk applicationId name, id)

variable (applicationId : GenericApplicationId)

variable (namesAndIds : List (ChannelName × ChainId))

theorem nodup_fullSubscriptions :
    ((fullSubscriptions applicationId namesAndIds).map Prod.fst).Nodup ↔
      (namesAndIds.map Prod.fst).Nodup := by
  have hnames : (fullSubscriptions applicationId namesAndIds).map Prod.fst =
      (namesAndIds.map Prod.fst).map (ChannelFullName.mk applicationId) := by
    simp [fullSubscriptions]
  rw [hnames]
  exact List.nodup_map_iff fun _ _ h => (ChannelFullName.mk.inj h).2

/-- Without the lock, a list of subscriptions is processed like its elements: the subscribers that
are added later do not see what has been scheduled for the earlier ones. -/
theorem scheduleAll_addSubscribers (applicationId : GenericApplicationId)
    (namesAndIds : List (ChannelName × ChainId)) :
    (c.addSubscribers (fullSubscriptions applicationId namesAndIds)).1.scheduleAll
        (c.addSubscribers (fullSubscriptions applicationId namesAndIds)).2 =
      c.subscribeEach applicationId namesAndIds := by
  induction namesAndIds generalizing c with
  | nil => rfl
  | cons nameAndId rest ih =>
    obtain ⟨name, id⟩ := nameAndId
    have hone : c.processSubscribes [(name, id)] applicationId =
        (c.addSubscribers [(⟨applicationId, name⟩, id)]).1.scheduleAll
          (c.addSubscribers [(⟨applicationId, name⟩, id)]).2 := by
      simp [processSubscribes]
    have hfirst := addSubscribers_withChannels c c.channels [(⟨applicationId, name⟩, id)]
    rw [show c.withChannels c.channels = c from rfl] at hfirst
    have hcons : fullSubscriptions applicationId ((name, id) :: rest) =
      (⟨applicationId, name⟩, id) :: fullSubscriptions applicationId rest := rfl
    rw [hcons, addSubscribers_cons, subscribeEach, hone, hfirst]
    generalize (fresh.withChannels c.channels).addSubscribers [(⟨applicationId, name⟩, id)] = first
    rw [addSubscribers_withChannels c]
    simp only [scheduleAll_append, scheduleAll_withChannels]
    cases c.scheduleAll first.2 with
    | error e => rfl
    | ok r =>
      simp only [Except.map_ok, Except.ok_bind, ← ih]
      rw [addSubscribers_withChannels r.1]

theorem locked_eq {α : Type} (x : Except ChainError α) :
    (ensure ((fullSubscriptions applicationId namesAndIds).map Prod.fst).Nodup
      .tryLockError >>= fun _ => x) =
      if (namesAndIds.map Prod.fst).Nodup then x else .error .tryLockError := by
  have hnodup := nodup_fullSubscriptions applicationId namesAndIds
  split
  · next h => rw [Except.ensure_of (hnodup.mpr h), Except.ok_bind]
  · next h => rw [Except.ensure_of_not fun hn => h (hnodup.mp hn), Except.error_bind]

/-- The lock is the only thing that a list adds. -/
theorem processSubscribes_eq (applicationId : GenericApplicationId) :
    c.processSubscribes namesAndIds applicationId =
      if (namesAndIds.map Prod.fst).Nodup then c.subscribeEach applicationId namesAndIds
      else .error .tryLockError := by
  rw [← scheduleAll_addSubscribers]
  exact locked_eq applicationId namesAndIds _

theorem subscribeEach_ne_tryLockError (applicationId : GenericApplicationId)
    (namesAndIds : List (ChannelName × ChainId)) :
    c.subscribeEach applicationId namesAndIds ≠ .error .tryLockError := by
  rw [← scheduleAll_addSubscribers]
  exact scheduleAll_ne_tryLockError _ _

theorem unsubscribeEach_eq (applicationId : GenericApplicationId)
    (namesAndIds : List (ChannelName × ChainId)) :
    c.unsubscribeEach applicationId namesAndIds =
      .ok ((fullSubscriptions applicationId namesAndIds).foldl (fun c (name, id) =>
        let channel := c.loadChannel name
        c.setChannel name { channel with subscribers := channel.subscribers.remove id }) c) := by
  induction namesAndIds generalizing c with
  | nil => rfl
  | cons nameAndId rest ih =>
    rw [unsubscribeEach]
    simp only [processUnsubscribes, List.map_cons, List.map_nil, List.nodup_singleton,
      Except.ensure_true, Except.ok_bind, Except.pure_eq, ih]
    rfl

theorem processUnsubscribes_eq (applicationId : GenericApplicationId) :
    c.processUnsubscribes namesAndIds applicationId =
      if (namesAndIds.map Prod.fst).Nodup then c.unsubscribeEach applicationId namesAndIds
      else .error .tryLockError := by
  rw [unsubscribeEach_eq]
  exact locked_eq applicationId namesAndIds _

/-! ## A bundle of subscriptions -/

/-- A `Subscribe` message, with the metadata of a posted message. -/
structure PostedSubscribe where
  posted : PostedMessage
  id : ChainId
  subscription : ChannelSubscription

def subscribeBundle (bundle : MessageBundle) (subscribes : List PostedSubscribe) : MessageBundle :=
  { bundle with
    messages := subscribes.map fun s =>
      { s.posted with message := .system (.subscribe s.id s.subscription) } }

def subscribedNames (subscribes : List PostedSubscribe) : List (ChannelName × ChainId) :=
  subscribes.map fun s => (s.subscription.name, s.id)

/-- Remembers the sender and height of a bundle. -/
def logReceived (c : ChainStateView) (chainAndHeight : ChainAndHeight) (addToReceivedLog : Bool) :
    ChainStateView :=
  if addToReceivedLog then { c with receivedLog := c.receivedLog ++ [chainAndHeight] } else c

variable (context : ChainContext)

theorem handleImmediateMessages_subscribes (chainAndHeight : ChainAndHeight)
    (timestamp localTime : Nat) (bundle : MessageBundle) (subscribes : List PostedSubscribe) :
    c.handleImmediateMessages context chainAndHeight timestamp localTime
        (subscribeBundle bundle subscribes).messages =
      .ok (c, subscribedNames subscribes, []) := by
  induction subscribes with
  | nil => rfl
  | cons s rest ih =>
    simp only [subscribeBundle] at ih
    simp only [subscribeBundle, List.map_cons, handleImmediateMessages, receiveOpenChain,
      Message.matchesOpenChain, Except.ok_bind, ih]
    rfl

/-- Such a bundle is only about its subscriptions: it does not enter the inbox. -/
theorem receiveMessageBundle_subscribes (origin : Origin) (bundle : MessageBundle)
    (first : PostedSubscribe) (rest : List PostedSubscribe) (localTime : Nat)
    (addToReceivedLog : Bool) :
    c.receiveMessageBundle context origin (subscribeBundle bundle (first :: rest)) localTime
        addToReceivedLog =
      (fun r => (r.1.logReceived ⟨origin.sender, bundle.height⟩ addToReceivedLog, r.2)) <$>
        c.processSubscribes (subscribedNames (first :: rest)) .system := by
  have hinbox : ∀ d : ChainStateView,
      d.addToInbox origin (subscribeBundle bundle (first :: rest)) localTime = .ok d := by
    intro d
    have hgoes : (subscribeBundle bundle (first :: rest)).goesToInbox = false := by
      simp [MessageBundle.goesToInbox, subscribeBundle, Message.goesToInbox]
    rw [addToInbox, hgoes]
    rfl
  have hne : (subscribeBundle bundle (first :: rest)).messages ≠ [] := List.cons_ne_nil _ _
  simp only [receiveMessageBundle, hne, ne_eq, not_false_eq_true, Except.ensure_true,
    Except.ok_bind, handleImmediateMessages_subscribes, hinbox]
  have hnone : ∀ d : ChainStateView, d.processUnsubscribes [] .system = .ok d := fun _ => rfl
  simp only [hnone, Except.ok_bind]
  cases c.processSubscribes (subscribedNames (first :: rest)) .system with
  | error e => rfl
  | ok r => cases addToReceivedLog <;> rfl

/-- **Lists of subscriptions.** A list of subscriptions or unsubscriptions is processed like its
elements, from left to right, if and only if it names no channel twice. The same holds for a
bundle of `Subscribe` messages. -/
theorem subscriptions_eq_each_iff (c : ChainStateView) :
    (∀ namesAndIds applicationId,
      (c.processSubscribes namesAndIds applicationId = c.subscribeEach applicationId namesAndIds ↔
        (namesAndIds.map Prod.fst).Nodup) ∧
      (c.processUnsubscribes namesAndIds applicationId =
          c.unsubscribeEach applicationId namesAndIds ↔
        (namesAndIds.map Prod.fst).Nodup)) ∧
    ∀ origin bundle first rest localTime addToReceivedLog,
      c.receiveMessageBundle context origin (subscribeBundle bundle (first :: rest)) localTime
          addToReceivedLog =
        (fun r => (r.1.logReceived ⟨origin.sender, bundle.height⟩ addToReceivedLog, r.2)) <$>
          c.subscribeEach .system (subscribedNames (first :: rest)) ↔
      ((subscribedNames (first :: rest)).map Prod.fst).Nodup := by
  refine ⟨fun namesAndIds applicationId => ⟨?_, ?_⟩, ?_⟩
  · rw [processSubscribes_eq]
    split
    · simpa
    · rename_i h
      simpa [h] using (subscribeEach_ne_tryLockError c applicationId namesAndIds).symm
  · rw [processUnsubscribes_eq]
    split
    · simpa
    · rename_i h
      simp [h, unsubscribeEach_eq]
  · intro origin bundle first rest localTime addToReceivedLog
    rw [receiveMessageBundle_subscribes, processSubscribes_eq]
    split
    · simpa
    · rename_i h
      have hne := subscribeEach_ne_tryLockError c .system (subscribedNames (first :: rest))
      cases heach : c.subscribeEach .system (subscribedNames (first :: rest)) with
      | ok r => simp [h]
      | error e =>
        rw [heach] at hne
        simpa [h] using fun he => hne (congrArg Except.error he.symm)

/-- The message that subscribes a new chain to the channel of the admin chain. -/
def adminSubscribe (id : Nat) : PostedSubscribe where
  posted := ⟨none, 0, none, .protected, id,
    .system (.subscribe ⟨⟨id⟩⟩ (SystemExecutionStateView.adminSubscription ⟨⟨0⟩⟩))⟩
  id := ⟨⟨id⟩⟩
  subscription := SystemExecutionStateView.adminSubscription ⟨⟨0⟩⟩

/-- A transaction that opens two chains sends the admin chain two `Subscribe` messages. One at a
time they are fine, but the admin chain can't receive their bundle. -/
theorem receiveMessageBundle_two_opened_chains :
    (∃ c, fresh.subscribeEach .system (subscribedNames [adminSubscribe 1, adminSubscribe 3]) =
      .ok (c, false)) ∧
    fresh.receiveMessageBundle simpleContext ⟨⟨⟨5⟩⟩, .direct⟩
        (subscribeBundle ⟨0, 0, ⟨0⟩, 0, []⟩ [adminSubscribe 1, adminSubscribe 3]) 0 true =
      .error .tryLockError := by
  refine ⟨?_, by decide⟩
  rw [← scheduleAll_addSubscribers]
  exact ⟨_, rfl⟩

end ChainStateView

end Linera
