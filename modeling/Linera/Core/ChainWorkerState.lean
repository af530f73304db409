import Linera.Chain.Execution
import Linera.Core.CrossChain

/-!
# The state of a chain worker

The requests with which the worker of a chain follows the other validators: confirmed
blocks, cross-chain updates and their confirmations. A request works on the view of
the chain; what it does not save is rolled back. The flag that the chain is known to
be active is not part of the view.

Everything that a request takes from outside of the worker is in its `Environment`:
the clock, the answers of the storage, and whether the storage takes the batch in
which the changes are saved.
-/

namespace Linera

/-! ## Blobs of a block -/

def Operation.publishedBlobIds : Operation → List BlobId
  | .system (.publishDataBlob blobHash) => [⟨.data, blobHash⟩]
  | .system (.publishBytecode bytecodeId) =>
    [⟨.contractBytecode, bytecodeId.contractBlobHash⟩,
      ⟨.serviceBytecode, bytecodeId.serviceBlobHash⟩]
  | _ => []

def Block.publishedBlobIds (b : Block) : BTreeSet BlobId :=
  .ofList ((b.operations.flatMap Operation.publishedBlobIds).map fun blobId => (blobId, ()))

def OracleResponse.blobId? : OracleResponse → Option BlobId
  | .blob blobId => some blobId
  | _ => none

namespace BlockExecutionOutcome

def oracleBlobIds (outcome : BlockExecutionOutcome) : List BlobId :=
  outcome.oracleResponses.flatten.filterMap OracleResponse.blobId?

end BlockExecutionOutcome

def ExecutedBlock.requiredBlobIds (b : ExecutedBlock) : BTreeSet BlobId :=
  .ofList ((b.outcome.oracleBlobIds ++ b.block.publishedBlobIds.keys).map fun blobId =>
    (blobId, ()))

def ChainTipState.isFirstBlock (t : ChainTipState) : Bool := t.nextBlockHeight == 0

/-! ## Storage -/

/-- The storage of a chain. The entries of a log are stored one by one. -/
structure StoredChain where
  chain : ChainStateView
  /-- The entries of the confirmed log that were never written, though it is long enough. -/
  missing : List Nat
deriving DecidableEq

namespace StoredChain

def confirmedEntry (s : StoredChain) (index : Nat) : Option CryptoHash :=
  if index ∈ s.missing then none else s.chain.confirmedLog[index]?

/-- A register is written if it has changed from what the view shows without staged changes. The
source writes it whenever an update is staged. This differs after a failed save, if the update is
the value that the view already shows: then the source repairs the storage, and the model does
not. -/
def register {α : Type} [DecidableEq α] (stored shown current : α) : α :=
  if current = shown then stored else current

/-- Writes the batch with the changes from `shown` to `current`. Registers and logs rely on what
the view takes for the state of the storage; maps and collections are read from storage. The
confirmed log only grows, so that what is staged of it is what `current` has beyond `shown`. -/
def write (s : StoredChain) (shown current : ChainStateView) : StoredChain where
  chain :=
    let stored := s.chain.executionState.system
    let system := shown.executionState.system
    { current with
      executionState := { current.executionState with
        system :=
          let s := current.executionState.system
          { s with
            description := register stored.description system.description s.description
            epoch := register stored.epoch system.epoch s.epoch
            adminId := register stored.adminId system.adminId s.adminId
            committees := register stored.committees system.committees s.committees
            ownership := register stored.ownership system.ownership s.ownership
            balance := register stored.balance system.balance s.balance
            timestamp := register stored.timestamp system.timestamp s.timestamp
            closed := register stored.closed system.closed s.closed
            applicationPermissions := register stored.applicationPermissions
              system.applicationPermissions s.applicationPermissions } }
      executionStateHash :=
        register s.chain.executionStateHash shown.executionStateHash current.executionStateHash
      tipState := register s.chain.tipState shown.tipState current.tipState
      manager := register s.chain.manager shown.manager current.manager
      outboxCounters := register s.chain.outboxCounters shown.outboxCounters current.outboxCounters }
  missing := s.missing ++ List.range' s.chain.confirmedLog.length
    (shown.confirmedLog.length - s.chain.confirmedLog.length)

end StoredChain

/-- What the view shows after a failed write. Flushing the view has replaced its picture of the
registers, logs and queues, and rolling it back does not undo that. -/
def ChainStateView.afterFailedWrite (shown current : ChainStateView) : ChainStateView :=
  let system := shown.executionState.system
  { current with
    executionState :=
      { system := { current.executionState.system with
          subscriptions := system.subscriptions
          balances := system.balances
          registry := system.registry
          usedBlobs := system.usedBlobs }
        users := shown.executionState.users }
    inboxes := shown.inboxes
    removedUnskippableBundles := shown.removedUnskippableBundles
    outboxes := shown.outboxes
    channels := shown.channels }

/-- What a request takes from outside of the worker. -/
structure Environment extends ChainContext where
  /-- The clock, when it is read first. -/
  startTime : Nat
  /-- The clock, when it is read last. -/
  localTime : Nat
  readBlobs : List BlobId → Option (List (Option Blob))
  /-- Whether the storage takes these blobs and this certificate. -/
  writeBlobsAndCertificate : List Blob → ConfirmedBlockCertificate → Bool
  /-- Whether the storage takes these states of blobs. -/
  maybeWriteBlobStates : List BlobId → ConfirmedBlockCertificate → Bool → Bool
  /-- Loads pending cross-chain requests. -/
  createNetworkActions : ChainStateView → Except WorkerError Unit
  /-- Whether the storage takes the batch of a save. -/
  writeBatch : Bool

/-- The answer of a library function that may fail. -/
def orError {α : Type} (error : WorkerError) : Option α → Except WorkerError α
  | some answer => .ok answer
  | none => .error error

namespace ChainStateView

variable (env : Environment) (c : ChainStateView)

def ensureIsActive : Except WorkerError Unit :=
  ensure c.isActive (.chainError (.inactiveChain env.chainId))

/-- `current_committee().expect("chain is active")`. -/
def expectCommittee : Except WorkerError (Nat × Committee) :=
  match c.executionState.system.currentCommittee with
  | some epochAndCommittee => .ok epochAndCommittee
  | none => .error .panicked

/-- Takes the required ones out of a list of blobs. -/
def takeBlobs (blobIds : BTreeSet BlobId) (foundBlobs : BTreeMap BlobId Blob) :
    List Blob → BTreeSet BlobId × BTreeMap BlobId Blob
  | [] => (blobIds, foundBlobs)
  | blob :: blobs =>
    if blobIds.containsKey blob.id then
      takeBlobs (blobIds.remove blob.id) (foundBlobs.insert blob.id blob) blobs
    else takeBlobs blobIds foundBlobs blobs

def addBlobs (foundBlobs : BTreeMap BlobId Blob) :
    List (BlobId × Option Blob) → BTreeMap BlobId Blob
  | [] => foundBlobs
  | (blobId, some blob) :: blobs => addBlobs (foundBlobs.insert blobId blob) blobs
  | (_, none) :: blobs => addBlobs foundBlobs blobs

/-- Returns the blobs required by the given executed block. The ones that are not passed in are
read from the chain manager or from storage. -/
def getRequiredBlobs (executedBlock : ExecutedBlock) (blobs : List Blob) :
    Except WorkerError (BTreeMap BlobId Blob) := do
  let pending := c.manager.proposed.toList.flatMap fun proposal => proposal.blobs
  let (blobIds, foundBlobs) := takeBlobs executedBlock.requiredBlobIds .empty (pending ++ blobs)
  let locked := blobIds.keys.map fun blobId => (blobId, c.manager.lockedBlobs.get blobId)
  let foundBlobs := addBlobs foundBlobs locked
  let missingBlobIds := (locked.filter fun e => e.2.isNone).map Prod.fst
  let blobsFromStorage ← orError .viewError (env.readBlobs missingBlobIds)
  let fromStorage := missingBlobIds.zip blobsFromStorage
  let notFoundBlobIds := (fromStorage.filter fun e => e.2.isNone).map Prod.fst
  ensure (notFoundBlobIds = []) (.blobsNotFound notFoundBlobIds)
  return addBlobs foundBlobs fromStorage

end ChainStateView

def checkBlockEpoch (chainEpoch : Nat) (block : Block) : Except WorkerError Unit :=
  ensure (block.epoch = chainEpoch) (.invalidEpoch block.chainId chainEpoch block.epoch)

namespace ChainStateView

variable (env : Environment) (c : ChainStateView)

/-! ## Certificates -/

/-- If this is the first block of a chain that is not active, and it begins with the message that
opens the chain, the chain is initialized with that message. -/
def initializeBeforeCheck (block : Block) : Except WorkerError ChainStateView :=
  if c.tipState.isFirstBlock ∧ !c.isActive then
    match block.startsWithOpenChainMessage with
    | none => .ok c
    | some (incomingBundle, postedMessage, config) =>
      let messageId : MessageId :=
        ⟨incomingBundle.origin.sender, incomingBundle.bundle.height, postedMessage.index⟩
      (c.executeInitMessage env.toChainContext messageId config incomingBundle.bundle.timestamp
        env.startTime).mapError .ofChainError
  else .ok c

variable (certificate : ConfirmedBlockCertificate)

/-- Writes the blobs of a confirmed block and its certificate, if all blobs are known, and the
states of the blobs. -/
def writeConfirmedBlobs : Except WorkerError Unit := do
  let executedBlock := certificate.value.executedBlock
  let blobIds := executedBlock.requiredBlobIds.keys
  match c.getRequiredBlobs env executedBlock [] with
  | .ok blobs =>
    ensure (env.writeBlobsAndCertificate blobs.values certificate) .viewError
    ensure (env.maybeWriteBlobStates blobIds certificate true) .viewError
  | .error error =>
    ensure (env.maybeWriteBlobStates blobIds certificate false) .viewError
    throw error

/-- Advances the tip to the next block height. The counters are `u32`. -/
def advanceTip : Except WorkerError ChainStateView := do
  let executedBlock := certificate.value.executedBlock
  let hash := certificate.hash env.primitives
  let nextBlockHeight ←
    (BlockHeight.tryAddOne c.tipState.nextBlockHeight).mapError .arithmeticError
  let add counter length := (counter + length) % 2 ^ 32
  let tip := c.tipState
  return { c with
    tipState := {
      blockHash := some hash
      nextBlockHeight
      numIncomingBundles := add tip.numIncomingBundles executedBlock.block.incomingBundles.length
      numOperations := add tip.numOperations executedBlock.block.operations.length
      numOutgoingMessages := add tip.numOutgoingMessages executedBlock.outcome.messages.length }
    confirmedLog := c.confirmedLog ++ [hash] }

/-- Applies a confirmed block at the tip of a chain that is known to be active. Returns the chain
to save. -/
def applyConfirmedBlock : Except WorkerError ChainStateView := do
  let executedBlock := certificate.value.executedBlock
  let block := executedBlock.block
  -- Verify the certificate.
  let (epoch, committee) ← c.expectCommittee
  checkBlockEpoch epoch block
  (certificate.check env.primitives committee).mapError .ofChainError
  -- This should always be true for valid certificates.
  ensure (c.tipState.blockHash = block.previousBlockHash) .invalidBlockChaining
  c.writeConfirmedBlobs env certificate
  -- Execute the block and update inboxes.
  let c ← (c.removeBundlesFromInboxes env.toChainContext block).mapError .ofChainError
  let execution ← (c.executeBlock env.toChainContext block env.localTime
    (some executedBlock.outcome.oracleResponses)).mapError .ofChainError
  -- We should always agree on the messages and state hash.
  ensure (executedBlock.outcome = execution.outcome)
    (.incorrectOutcome execution.outcome executedBlock.outcome)
  -- Advance to next block height.
  let c ← execution.chain.advanceTip env certificate
  env.createNetworkActions c
  return c

end ChainStateView

/-! ## The worker -/

structure ChainWorkerState where
  /-- What the view of the chain shows if nothing is staged. -/
  chain : ChainStateView
  stored : StoredChain
  knowsChainIsActive : Bool
deriving DecidableEq

namespace ChainWorkerState

def load (chain : ChainStateView) : ChainWorkerState := ⟨chain, ⟨chain, []⟩, false⟩

variable (env : Environment) (w : ChainWorkerState)

/-- Ends a request: saves the chain if there is one to save, and rolls back all other changes. -/
def finish :
    Except WorkerError (Option ChainStateView) → Except WorkerError Unit × ChainWorkerState
  | .error error => (.error error, w)
  | .ok none => (.ok (), w)
  | .ok (some chain) =>
    if env.writeBatch then (.ok (), { w with chain, stored := w.stored.write w.chain chain })
    else (.error .viewError, { w with chain := w.chain.afterFailedWrite chain })

/-- Ensures that the chain is active, where `chain` is the view with the staged changes, and
continues with a request that knows it. -/
def whenActive {α : Type} (chain : ChainStateView)
    (next : ChainWorkerState → Except WorkerError α × ChainWorkerState) :
    Except WorkerError α × ChainWorkerState :=
  if w.knowsChainIsActive then next w
  else
    match chain.ensureIsActive env with
    | .error error => (.error error, w)
    | .ok () => next { w with knowsChainIsActive := true }

def processConfirmedBlock (certificate : ConfirmedBlockCertificate) :
    Except WorkerError Unit × ChainWorkerState :=
  let block := certificate.value.executedBlock.block
  let tip := w.chain.tipState
  -- Check that the chain is ready for this confirmation.
  if tip.nextBlockHeight < block.height then
    (.error (.missingEarlierBlocks tip.nextBlockHeight), w)
  else if block.height < tip.nextBlockHeight then
    -- Block was already confirmed.
    (env.createNetworkActions w.chain, w)
  else
    -- This sets the committee and then checks that committee's signatures.
    match w.chain.initializeBeforeCheck env block with
    | .error error => (.error error, w)
    | .ok chain => w.whenActive env chain fun w =>
      w.finish env (some <$> chain.applyConfirmedBlock env certificate)

end ChainWorkerState

end Linera
