import Linera.Chain.ChainState

/-!
# Cross-chain updates

How a worker processes the bundles that another chain has sent
(`process_cross_chain_update`): the ones that are new and rely on trusted
validators are received one by one, and then the chain is saved. A request that
fails, or that is refused because the chain is inactive, leaves the chain as it
is.
-/

namespace Linera

inductive WorkerError where
  | cryptoError
  | arithmeticError (error : ArithmeticError)
  | viewError
  | chainError (error : ChainError)
  | invalidOwner
  | invalidSigner (signer : Owner)
  | missingEarlierBlocks (currentBlockHeight : Nat)
  | invalidEpoch (chainId : ChainId) (chainEpoch epoch : Nat)
  | invalidCrossChainRequest
  | invalidBlockChaining
  | incorrectOutcome (computed submitted : BlockExecutionOutcome)
  | invalidTimestamp
  | invalidLiteCertificate
  | unneededBlob (blobId : BlobId)
  | wrongBlobsInProposal
  | fastBlockUsingOracles
  | blobsNotFound (blobIds : List BlobId)
  | invalidBlockProposal (message : String)
  | blobTooLarge
  | bytecodeTooLarge
  | decompression
  /-- The `expect("chain is active")` of a committee does not hold. -/
  | panicked
deriving DecidableEq

/-- `From<ChainError>`: missing blobs are reported as such. -/
def WorkerError.ofChainError : ChainError → WorkerError
  | .blobsNotFound blobIds => .blobsNotFound blobIds
  | .executionError (.blobsNotFound blobIds) _ => .blobsNotFound blobIds
  | error => .chainError error

/-- The part of the configuration of a worker that matters for cross-chain updates. -/
structure ChainWorkerConfig where
  allowInactiveChains : Bool
  allowMessagesFromDeprecatedEpochs : Bool
deriving DecidableEq

def InboxStateView.nextBlockHeightToReceive (s : InboxStateView) : Except ChainError Nat :=
  if s.nextCursorToAdd.index = 0 then .ok s.nextCursorToAdd.height
  else (BlockHeight.tryAddOne s.nextCursorToAdd.height).mapError .arithmeticError

def ChainStateView.nextBlockHeightToReceive (c : ChainStateView) (origin : Origin) :
    Except ChainError Nat :=
  match c.inboxes.get origin with
  | some inbox => inbox.nextBlockHeightToReceive
  | none => .ok 0

def ChainStateView.lastAnticipatedBlockHeight (c : ChainStateView) (origin : Origin) :
    Option Nat := do
  let inbox ← c.inboxes.get origin
  let bundle ← inbox.removedBundles.getLast?
  return bundle.height

structure CrossChainUpdateHelper where
  allowMessagesFromDeprecatedEpochs : Bool
  currentEpoch : Option Nat
  committees : BTreeMap Nat Committee

namespace CrossChainUpdateHelper

def new (config : ChainWorkerConfig) (c : ChainStateView) : CrossChainUpdateHelper where
  allowMessagesFromDeprecatedEpochs := config.allowMessagesFromDeprecatedEpochs
  currentEpoch := c.executionState.system.epoch
  committees := c.executionState.system.committees

def isTrusted (helper : CrossChainUpdateHelper) (lastAnticipatedBlockHeight : Option Nat)
    (e : Nat × MessageBundle) : Bool :=
  helper.allowMessagesFromDeprecatedEpochs ||
    lastAnticipatedBlockHeight.any (e.2.height ≤ ·) ||
    helper.currentEpoch.all (· ≤ e.1) ||
    helper.committees.containsKey e.1

/-- Counts how many bundles to skip and up to which one to trust them, from the `i`-th bundle
on. -/
def selectLoop (helper : CrossChainUpdateHelper) (nextHeightToReceive : Nat)
    (lastAnticipatedBlockHeight : Option Nat) (i : Nat) (latestHeight : Option Nat)
    (skippedLen trustedLen : Nat) : List (Nat × MessageBundle) → Except WorkerError (Nat × Nat)
  | [] => .ok (skippedLen, trustedLen)
  | e :: rest => do
    -- Make sure that heights are not decreasing.
    ensure (latestHeight.all (· ≤ e.2.height)) .invalidCrossChainRequest
    -- Check if the block has been received already.
    let skippedLen := if e.2.height < nextHeightToReceive then i + 1 else skippedLen
    let trustedLen :=
      if helper.isTrusted lastAnticipatedBlockHeight e then i + 1 else trustedLen
    selectLoop helper nextHeightToReceive lastAnticipatedBlockHeight (i + 1) (some e.2.height)
      skippedLen trustedLen rest

/-- Checks basic invariants and deals with repeated heights and deprecated epochs. Returns a range
of message bundles that are both new to us and not relying on an untrusted set of validators. -/
def selectMessageBundles (helper : CrossChainUpdateHelper) (nextHeightToReceive : Nat)
    (lastAnticipatedBlockHeight : Option Nat) (bundles : List (Nat × MessageBundle)) :
    Except WorkerError (List MessageBundle) := do
  let (skippedLen, trustedLen) ←
    helper.selectLoop nextHeightToReceive lastAnticipatedBlockHeight 0 none 0 0 bundles
  return if skippedLen < trustedLen
    then ((bundles.take trustedLen).drop skippedLen).map Prod.snd
    else []

end CrossChainUpdateHelper

namespace ChainStateView

variable (context : ChainContext)

/-- Processes the received messages in certificates. Returns whether there are new outbox
entries. -/
def receiveMessageBundles (c : ChainStateView) (origin : Origin) (localTime : Nat)
    (previousHeight : Option Nat) :
    List MessageBundle → Except ChainError (ChainStateView × Bool)
  | [] => .ok (c, false)
  | bundle :: bundles => do
    let addToReceivedLog := decide (previousHeight ≠ some bundle.height)
    let (c, newOutboxEntries) ←
      c.receiveMessageBundle context origin bundle localTime addToReceivedLog
    let (c, moreOutboxEntries) ←
      c.receiveMessageBundles origin localTime (some bundle.height) bundles
    return (c, newOutboxEntries || moreOutboxEntries)

/-- What a cross-chain update leads to: the chain that is saved, the last height that has been
received and whether there are new outbox entries. -/
structure CrossChainUpdate where
  chain : ChainStateView
  lastUpdatedHeight : Nat
  newOutboxEntries : Bool
deriving DecidableEq

/-- Updates the chain's inboxes, receiving messages from a cross-chain update. If this returns
`none`, or fails, then the chain is not saved. -/
def processCrossChainUpdate (config : ChainWorkerConfig) (c : ChainStateView) (origin : Origin)
    (bundles : List (Nat × MessageBundle)) (localTime : Nat) :
    Except WorkerError (Option CrossChainUpdate) := do
  -- Only process certificates with relevant heights and epochs.
  let nextHeightToReceive ← (c.nextBlockHeightToReceive origin).mapError .chainError
  let bundles ← (CrossChainUpdateHelper.new config c).selectMessageBundles nextHeightToReceive
    (c.lastAnticipatedBlockHeight origin) bundles
  match bundles.getLast? with
  | none => return none
  | some lastBundle =>
    let (c, newOutboxEntries) ←
      (c.receiveMessageBundles context origin localTime none bundles).mapError .chainError
    if !config.allowInactiveChains && !c.isActive then
      -- Refuse to create a chain state if the chain is still inactive by now.
      return none
    else return some ⟨c, lastBundle.height, newOutboxEntries⟩

def afterCrossChainUpdate (c : ChainStateView) :
    Except WorkerError (Option CrossChainUpdate) → ChainStateView
  | .ok (some update) => update.chain
  | _ => c

end ChainStateView

end Linera
