import Linera.Chain.Manager
import Linera.Execution.Execution

/-!
# The state of a chain

The model of `ChainStateView`: what a validator keeps about a chain, the
messages that the chain receives from others, and how the messages that a block
sends are put in the outboxes of their recipients.
-/

namespace Linera

/-! ## Outboxes and channels -/

structure OutboxStateView where
  /-- The minimum block height accepted in the future. -/
  nextHeightToSchedule : Nat
  /-- The block heights with messages that have not been acknowledged yet. -/
  queue : List Nat
deriving DecidableEq

/-- The state of a new outbox. -/
def OutboxStateView.fresh : OutboxStateView := ⟨0, []⟩

/-- Schedules a message at the given height if we haven't already. Returns whether a change was
made. -/
def OutboxStateView.scheduleMessage (o : OutboxStateView) (height : Nat) :
    Except ArithmeticError (OutboxStateView × Bool) :=
  if height < o.nextHeightToSchedule then .ok (o, false)
  else do
    let next ← BlockHeight.tryAddOne height
    return (⟨next, o.queue ++ [height]⟩, true)

def OutboxStateView.markMessagesAsReceived (o : OutboxStateView) (height : Nat) :
    OutboxStateView × List Nat :=
  ({ o with queue := o.queue.dropWhile (· ≤ height) }, o.queue.takeWhile (· ≤ height))

structure ChannelStateView where
  subscribers : BTreeSet ChainId
  /-- The block heights so far, to be sent to future subscribers. -/
  blockHeights : List Nat
deriving DecidableEq

/-- The state of a new channel. -/
def ChannelStateView.fresh : ChannelStateView := ⟨.empty, []⟩

def Target.chain (recipient : ChainId) : Target := ⟨recipient, .direct⟩

def Target.channel (recipient : ChainId) (name : ChannelFullName) : Target :=
  ⟨recipient, .channel name⟩

/-! ## Chain state -/

structure ChainTipState where
  blockHash : Option CryptoHash
  nextBlockHeight : Nat
  numIncomingBundles : Nat
  numOperations : Nat
  numOutgoingMessages : Nat
deriving DecidableEq

structure ChainAndHeight where
  chainId : ChainId
  height : Nat
deriving DecidableEq

/-- The ID of the `index`-th message sent by the block at that height. -/
def ChainAndHeight.toMessageId (c : ChainAndHeight) (index : Nat) : MessageId :=
  ⟨c.chainId, c.height, index⟩

/-- An origin and cursor of an unskippable bundle. -/
structure BundleInInbox where
  origin : Origin
  cursor : Cursor
deriving DecidableEq

instance : LinearOrder BundleInInbox :=
  LinearOrder.lift' (β := Origin ×ₗ Cursor) (fun b => toLex (b.origin, b.cursor))
    fun ⟨_, _⟩ ⟨_, _⟩ h => by simpa using h

def BundleInInbox.new (origin : Origin) (bundle : MessageBundle) : BundleInInbox :=
  ⟨origin, .ofBundle bundle⟩

/-- An unskippable bundle in our inbox, and when it was added. -/
structure TimestampedBundleInInbox where
  entry : BundleInInbox
  seen : Nat
deriving DecidableEq

structure ChainStateView where
  executionState : ExecutionStateView
  executionStateHash : Option CryptoHash
  tipState : ChainTipState
  manager : ChainManager
  /-- Hashes of all certified blocks for this sender. -/
  confirmedLog : List CryptoHash
  /-- Sender chain and height of all certified blocks known as a receiver. -/
  receivedLog : List ChainAndHeight
  inboxes : BTreeMap Origin InboxStateView
  /-- A queue of unskippable bundles, with the time when we added them to the inbox. -/
  unskippableBundles : List TimestampedBundleInInbox
  /-- Unskippable bundles that have been removed but are still in the queue. -/
  removedUnskippableBundles : BTreeSet BundleInInbox
  outboxes : BTreeMap Target OutboxStateView
  /-- Number of outgoing messages in flight for each block height. -/
  outboxCounters : BTreeMap Nat Nat
  channels : BTreeMap ChannelFullName ChannelStateView
deriving DecidableEq

/-- What a chain takes from its environment, besides what its execution does. -/
structure ChainContext extends ExecutionRuntimeContext where
  primitives : Primitives
  cryptoHash : ExecutionStateView → CryptoHash
  bundleSize : IncomingBundle → Nat
  operationSize : Operation → Nat
  /-- The size of the BCS form of the results of a transaction. -/
  resultsSize : List OracleResponse → List OutgoingMessage → List EventRecord → Nat
  proposalSize : Block → List Blob → Nat

namespace ChainStateView

/-- The state of a chain about which nothing is known yet. -/
def fresh : ChainStateView where
  executionState := ⟨.default, .empty⟩
  executionStateHash := none
  tipState := ⟨none, 0, 0, 0, 0⟩
  manager := .default
  confirmedLog := []
  receivedLog := []
  inboxes := .empty
  unskippableBundles := []
  removedUnskippableBundles := .empty
  outboxes := .empty
  outboxCounters := .empty
  channels := .empty

def isActive (c : ChainStateView) : Bool := c.executionState.system.isActive

variable (c : ChainStateView)

def isClosed : Bool := c.executionState.system.closed

def setSystem (system : SystemExecutionStateView) : ChainStateView :=
  { c with executionState := { c.executionState with system } }

/-! ## Sending -/

/-- Schedules a message in the outbox of a target. Returns whether it was new. -/
def schedule (target : Target) (height : Nat) : Except ChainError (ChainStateView × Bool) := do
  let outbox := (c.outboxes.get target).getD .fresh
  let (outbox, changed) ← (outbox.scheduleMessage height).mapError .arithmeticError
  let c := { c with outboxes := c.outboxes.insert target outbox }
  if changed then
    let counter := (c.outboxCounters.get height).getD 0
    ensure (counter < u32Max) .panicked  -- The counter is a `u32`.
    return ({ c with outboxCounters := c.outboxCounters.insert height (counter + 1) }, true)
  else return (c, false)

/-- Schedules messages in the outboxes of several targets. Returns whether one was new. -/
def scheduleAll (c : ChainStateView) :
    List (Target × Nat) → Except ChainError (ChainStateView × Bool)
  | [] => .ok (c, false)
  | (target, height) :: rest => do
    let (c, changed) ← c.schedule target height
    let (c, changedRest) ← c.scheduleAll rest
    return (c, changed || changedRest)

def loadChannel (name : ChannelFullName) : ChannelStateView :=
  (c.channels.get name).getD .fresh

def setChannel (name : ChannelFullName) (channel : ChannelStateView) : ChainStateView :=
  { c with channels := c.channels.insert name channel }

/-- Adds subscribers to channels. Returns the messages they have missed. -/
def addSubscribers (c : ChainStateView) :
    List (ChannelFullName × ChainId) → ChainStateView × List (Target × Nat)
  | [] => (c, [])
  | (name, id) :: rest =>
    let channel := c.loadChannel name
    if channel.subscribers.containsKey id then  -- Was already a subscriber.
      (c.setChannel name channel).addSubscribers rest
    else
      let channel := { channel with subscribers := channel.subscribers.insert id () }
      let (c, missed) := (c.setChannel name channel).addSubscribers rest
      (c, channel.blockHeights.map (fun height => (Target.channel id name, height)) ++ missed)

variable (namesAndIds : List (ChannelName × ChainId))

/-- Processes new subscriptions. Returns whether a new subscriber was added for which we have
outgoing messages. -/
def processSubscribes (applicationId : GenericApplicationId) :
    Except ChainError (ChainStateView × Bool) := do
  let subscriptions := namesAndIds.map fun (name, id) => (ChannelFullName.mk applicationId name, id)
  ensure (subscriptions.map Prod.fst).Nodup .tryLockError
  let (c, missed) := c.addSubscribers subscriptions
  c.scheduleAll missed

/-- Removes subscribers from channels. -/
def processUnsubscribes (applicationId : GenericApplicationId) :
    Except ChainError ChainStateView := do
  let subscriptions := namesAndIds.map fun (name, id) => (ChannelFullName.mk applicationId name, id)
  ensure (subscriptions.map Prod.fst).Nodup .tryLockError
  return subscriptions.foldl (fun c (name, id) =>
    let channel := c.loadChannel name
    c.setChannel name { channel with subscribers := channel.subscribers.remove id }) c

/-- Records a height in channels. Returns the subscribers that get its messages. -/
def broadcast (c : ChainStateView) (height : Nat) :
    List ChannelFullName → ChainStateView × List Target
  | [] => (c, [])
  | name :: names =>
    let channel := c.loadChannel name
    let targets := channel.subscribers.keys.map fun recipient => Target.channel recipient name
    let channel := { channel with blockHeights := channel.blockHeights ++ [height] }
    let (c, rest) := (c.setChannel name channel).broadcast height names
    (c, targets ++ rest)

section outcome

variable {μ : Type}

/-- The message that a block sends. Messages are understood within an application. -/
def outgoingMessage (lift : μ → Message) (rawOutcome : RawExecutionOutcome μ Nat)
    (message : RawOutgoingMessage μ Nat) : OutgoingMessage where
  destination := message.destination
  authenticatedSigner := rawOutcome.authenticatedSigner.filter fun _ => message.authenticated
  grant := message.grant
  refundGrantTo := rawOutcome.refundGrantTo.filter fun _ => message.grant > 0
  kind := message.kind
  message := lift message.message

variable (messages : List (RawOutgoingMessage μ Nat))

def recipients : BTreeSet ChainId :=
  .ofList (messages.filterMap fun message =>
    match message.destination with
    | .recipient id => some (id, ())
    | .subscribers _ => none)

def channelBroadcasts : BTreeSet ChannelName :=
  .ofList (messages.filterMap fun message =>
    match message.destination with
    | .recipient _ => none
    | .subscribers name => some (name, ()))

/-- A grant needs a single recipient. -/
def checkGrants : List (RawOutgoingMessage μ Nat) → Except ChainError Unit
  | [] => .ok ()
  | message :: messages => do
    match message.destination with
    | .recipient _ => pure ()
    | .subscribers _ => ensure (message.grant = 0) .grantUseOnBroadcast
    checkGrants messages

/-- Records the messages and events of an outcome. -/
def processRawExecutionOutcome (c : ChainStateView) (applicationId : GenericApplicationId)
    (lift : μ → Message) (height : Nat) (rawOutcome : RawExecutionOutcome μ Nat) :
    Except ChainError (ChainStateView × List OutgoingMessage × List EventRecord) := do
  let events := rawOutcome.events.map fun (streamName, key, value) =>
    EventRecord.mk ⟨applicationId, streamName⟩ key value
  checkGrants rawOutcome.messages
  let messages := rawOutcome.messages.map (outgoingMessage lift rawOutcome)
  -- Update the (regular) outboxes.
  let (c, _) ← c.scheduleAll ((recipients rawOutcome.messages).keys.map fun id =>
    (Target.chain id, height))
  -- Update the channels.
  let c ← c.processUnsubscribes rawOutcome.unsubscribe applicationId
  let (c, targets) := c.broadcast height
    ((channelBroadcasts rawOutcome.messages).keys.map (ChannelFullName.mk applicationId))
  let (c, _) ← c.scheduleAll (targets.map fun target => (target, height))
  let (c, _) ← c.processSubscribes rawOutcome.subscribe applicationId
  return (c, messages, events)

end outcome

/-- Records the messages and events of the system application or of a user application. -/
def processExecutionOutcome (height : Nat) :
    ExecutionOutcome → Except ChainError (ChainStateView × List OutgoingMessage × List EventRecord)
  | .system result => c.processRawExecutionOutcome .system .system height result
  | .user applicationId result =>
    c.processRawExecutionOutcome (.user applicationId) (.user applicationId) height result

/-- Records the messages and events of a transaction. -/
def processExecutionOutcomes (c : ChainStateView) (height : Nat) :
    List ExecutionOutcome →
      Except ChainError (ChainStateView × List OutgoingMessage × List EventRecord)
  | [] => .ok (c, [], [])
  | result :: results => do
    let (c, messages, events) ← c.processExecutionOutcome height result
    let (c, moreMessages, moreEvents) ← c.processExecutionOutcomes height results
    return (c, messages ++ moreMessages, events ++ moreEvents)

/-- Decrements the counters of delivered messages. A counter that reaches zero is removed. -/
def decrementCounters (outboxCounters : BTreeMap Nat Nat) :
    List Nat → Except ChainError (BTreeMap Nat Nat)
  | [] => .ok outboxCounters
  | update :: updates =>
    match outboxCounters.get update with
    | none => .error .panicked  -- The message counter should be present.
    | some 0 => .error .panicked  -- The message counter should not underflow.
    | some 1 => decrementCounters (outboxCounters.remove update) updates
    | some (counter + 2) => decrementCounters (outboxCounters.insert update (counter + 1)) updates

def markMessagesAsReceived (c : ChainStateView) (target : Target) (height : Nat) :
    Except ChainError (ChainStateView × Bool) := do
  let (outbox, updates) :=
    ((c.outboxes.get target).getD .fresh).markMessagesAsReceived height
  let c := { c with outboxes := c.outboxes.insert target outbox }
  if updates = [] then return (c, false)
  else
    let outboxCounters ← decrementCounters c.outboxCounters updates
    let outboxes := if outbox.queue = [] then c.outboxes.remove target else c.outboxes
    return ({ c with outboxes, outboxCounters }, true)

/-- Whether there are no more outgoing messages in flight up to the given block height. -/
def allMessagesDeliveredUpTo (height : Nat) : Bool :=
  match c.outboxCounters.entries.head? with
  | some (key, _) => decide (key > height)
  | none => true

/-! ## Receiving -/

variable (context : ChainContext)

/-- Recomputes the hash of the execution state, and resets the consensus state based on the
current ownership. -/
def resetManager (height localTime : Nat) : Except ChainError ChainStateView := do
  let hash := context.cryptoHash c.executionState
  let fallbackOwners :=
    c.executionState.system.currentCommittee.toList.flatMap fun (_, committee) =>
      committee.keysAndWeights
  let manager ← ChainManager.new context.primitives c.executionState.system.ownership height
    localTime fallbackOwners
  return { c with executionStateHash := some hash, manager }

def executeInitMessage (messageId : MessageId) (config : OpenChainConfig)
    (timestamp localTime : Nat) : Except ChainError ChainStateView := do
  let system ← (c.executionState.system.initializeChain messageId timestamp config).mapError
    fun _ => .panicked
  (c.setSystem system).resetManager context 0 localTime

/-- Initializes the chain if the message opens it and this has not happened yet. -/
def receiveOpenChain (chainAndHeight : ChainAndHeight) (timestamp localTime : Nat)
    (postedMessage : PostedMessage) : Except ChainError ChainStateView :=
  match postedMessage.message.matchesOpenChain with
  | some config =>
    if c.executionState.system.description.isNone then
      c.executeInitMessage context (chainAndHeight.toMessageId postedMessage.index) config
        timestamp localTime
    else .ok c
  | none => .ok c

/-- Handles the messages that are executed as soon as they are received. Returns the new
subscriptions and unsubscriptions. -/
def handleImmediateMessages (c : ChainStateView) (chainAndHeight : ChainAndHeight)
    (timestamp localTime : Nat) :
    List PostedMessage →
      Except ChainError
        (ChainStateView × List (ChannelName × ChainId) × List (ChannelName × ChainId))
  | [] => .ok (c, [], [])
  | postedMessage :: rest => do
    let c ← c.receiveOpenChain context chainAndHeight timestamp localTime postedMessage
    let (c, subscribes, unsubscribes) ←
      c.handleImmediateMessages chainAndHeight timestamp localTime rest
    match postedMessage.message with
    | .system (.subscribe id subscription) =>
      return (c, (subscription.name, id) :: subscribes, unsubscribes)
    | .system (.unsubscribe id subscription) =>
      return (c, subscribes, (subscription.name, id) :: unsubscribes)
    | _ => return (c, subscribes, unsubscribes)

def addToInbox (origin : Origin) (bundle : MessageBundle) (localTime : Nat) :
    Except ChainError ChainStateView :=
  if bundle.goesToInbox then do
    let inbox := (c.inboxes.get origin).getD .fresh
    let (inbox, newlyAdded) ← (inbox.addBundle bundle).mapError .certifiedBundleError
    let c := { c with inboxes := c.inboxes.insert origin inbox }
    if newlyAdded ∧ !bundle.isSkippable then
      let entry : TimestampedBundleInInbox := ⟨.new origin bundle, localTime⟩
      return { c with unskippableBundles := c.unskippableBundles ++ [entry] }
    else return c
  else .ok c

/-- Attempts to process a new bundle of messages from the given origin. Returns whether incoming
`Subscribe` messages created new outbox entries. -/
def receiveMessageBundle (origin : Origin) (bundle : MessageBundle) (localTime : Nat)
    (addToReceivedLog : Bool) : Except ChainError (ChainStateView × Bool) := do
  ensure (bundle.messages ≠ []) .panicked
  let chainAndHeight : ChainAndHeight := ⟨origin.sender, bundle.height⟩
  let (c, subscribes, unsubscribes) ←
    c.handleImmediateMessages context chainAndHeight bundle.timestamp localTime bundle.messages
  let c ← c.processUnsubscribes unsubscribes .system
  let (c, newOutboxEntries) ← c.processSubscribes subscribes .system
  let c ← c.addToInbox origin bundle localTime
  -- Remember the certificate for future validator/client synchronizations.
  if addToReceivedLog then
    return ({ c with receivedLog := c.receivedLog ++ [chainAndHeight] }, newOutboxEntries)
  else return (c, newOutboxEntries)

/-- `ChainError::from`. -/
def ofInboxError (chainId : ChainId) (origin : Origin) : InboxError → ChainError
  | .arithmeticError error => .arithmeticError error
  | .unexpectedBundle bundle previousBundle =>
    .unexpectedMessage chainId origin bundle previousBundle
  | .incorrectOrder bundle nextCursor =>
    .incorrectMessageOrder chainId origin bundle nextCursor.height nextCursor.index
  | .unskippableBundle bundle => .cannotSkipMessage chainId origin bundle

/-- The bundles of a block by their origin, each one no later than the block. -/
def bundlesByOrigin (chainId : ChainId) (timestamp : Nat)
    (byOrigin : BTreeMap Origin (List MessageBundle)) :
    List IncomingBundle → Except ChainError (BTreeMap Origin (List MessageBundle))
  | [] => .ok byOrigin
  | incoming :: rest => do
    ensure (incoming.bundle.timestamp ≤ timestamp)
      (.incorrectBundleTimestamp chainId incoming.bundle.timestamp timestamp)
    let bundles := (byOrigin.get incoming.origin).getD []
    bundlesByOrigin chainId timestamp
      (byOrigin.insert incoming.origin (bundles ++ [incoming.bundle])) rest

/-- Marks bundles as processed in the inbox of their origin. Returns the ones that were there and
could not be skipped. -/
def removeBundles (chainId : ChainId) (origin : Origin) (inbox : InboxStateView) :
    List MessageBundle → Except ChainError (InboxStateView × List BundleInInbox)
  | [] => .ok (inbox, [])
  | bundle :: bundles => do
    let (inbox, wasPresent) ← (inbox.removeBundle bundle).mapError (ofInboxError chainId origin)
    let (inbox, removed) ← removeBundles chainId origin inbox bundles
    if wasPresent ∧ !bundle.isSkippable then return (inbox, .new origin bundle :: removed)
    else return (inbox, removed)

/-- Removes the bundles of all origins. -/
def removeFromInboxes (c : ChainStateView) :
    List (Origin × List MessageBundle) → Except ChainError (ChainStateView × List BundleInInbox)
  | [] => .ok (c, [])
  | (origin, bundles) :: rest => do
    let inbox := (c.inboxes.get origin).getD .fresh
    let (inbox, removed) ← removeBundles context.chainId origin inbox bundles
    let (c, moreRemoved) ← removeFromInboxes { c with inboxes := c.inboxes.insert origin inbox } rest
    return (c, removed ++ moreRemoved)

/-- Deletes removed bundles from the front of the unskippable queue: the ones of this block
(`removed`) and the ones of earlier blocks (`earlier`). -/
def deleteFront (removed earlier : BTreeSet BundleInInbox) :
    List TimestampedBundleInInbox →
      List TimestampedBundleInInbox × BTreeSet BundleInInbox × BTreeSet BundleInInbox
  | [] => ([], removed, earlier)
  | front :: queue =>
    if removed.containsKey front.entry then deleteFront (removed.remove front.entry) earlier queue
    else if earlier.containsKey front.entry then
      deleteFront removed (earlier.remove front.entry) queue
    else (front :: queue, removed, earlier)

def updateUnskippable (removed : BTreeSet BundleInInbox) : ChainStateView :=
  let (queue, removed, earlier) :=
    if c.unskippableBundles.head?.any fun front => removed.containsKey front.entry
    then deleteFront removed c.removedUnskippableBundles c.unskippableBundles
    else (c.unskippableBundles, removed, c.removedUnskippableBundles)
  { c with
    unskippableBundles := queue
    removedUnskippableBundles := removed.keys.foldl (fun set entry => set.insert entry ()) earlier }

def removeBundlesFromInboxes (block : Block) : Except ChainError ChainStateView := do
  let byOrigin ← bundlesByOrigin context.chainId block.timestamp .empty block.incomingBundles
  let (c, removed) ← c.removeFromInboxes context byOrigin.entries
  return c.updateUnskippable (.ofList (removed.map fun entry => (entry, ())))

end ChainStateView

end Linera
