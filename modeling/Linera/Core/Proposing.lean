import Linera.Chain.Rounds
import Linera.Core.ChainWorkerState

/-!
# Proposing the pending block

The client reads from the chain info in which round it may propose, and builds its proposal. The
manager has its own rules for which proposals it takes, and there are four conditions among them
that the client does not look at.
-/

namespace Linera

def BlockExecutionOutcome.hasOracleResponses (outcome : BlockExecutionOutcome) : Bool :=
  outcome.oracleResponses.any fun responses => !responses.isEmpty

namespace ChainManager

variable (prims : Primitives)

/-- The leader who is allowed to propose a block in the given round, or `none` if every owner is
allowed to propose. -/
def roundLeader (m : ChainManager) : Round → Option Owner
  | .singleLeader r => do
    let index ← m.roundLeaderIndex prims r
    m.ownership.owners.keys[index]?
  | .validator r => do
    let index ← m.fallbackRoundLeaderIndex prims r
    m.fallbackOwners.keys[index]?
  | .fast | .multiLeader _ => none

/-! ## The manager of a node -/

variable (keyPair : Option KeyPair)

/-- One step of the manager of any node: a client's own node has no key pair to vote with. -/
def handle (m : ChainManager) : Validator.Event → Option ChainManager
  | .proposal proposal executedBlock localTime blobs =>
    if m.checkProposedBlock proposal = .ok .accept then
      some (m.createVote prims proposal executedBlock keyPair localTime blobs).1
    else none
  | .validatedBlock certificate localTime blobs =>
    if m.checkValidatedBlock prims certificate = .ok .accept then
      some (m.createFinalVote prims certificate keyPair localTime blobs)
    else none
  | .timeout certificate localTime => some (m.handleTimeoutCertificate certificate localTime)
  | .voteTimeout chainId height epoch localTime =>
    some (m.voteTimeout prims chainId height epoch keyPair localTime).1
  | .voteFallback chainId height epoch =>
    some (m.voteFallback prims chainId height epoch keyPair).1

variable {prims keyPair}

/-- **One step** keeps the manager in the latest round. -/
theorem UpToDate.handle {m m' : ChainManager} (hm : m.UpToDate) {event : Validator.Event}
    (h : m.handle prims keyPair event = some m') : m'.UpToDate := by
  cases event with
  | proposal proposal executedBlock t blobs =>
    rw [ChainManager.handle] at h
    split at h
    · next hcheck =>
      cases h
      have hacc := acceptable_of_checkProposedBlock hcheck
      exact (createVote_updated hm hacc executedBlock keyPair t blobs).upToDate
    · cases h
  | validatedBlock certificate t blobs =>
    rw [ChainManager.handle] at h
    split at h
    · next hcheck =>
      cases h
      by_cases hround : keyPair.isSome ∧ certificate.round < m.currentRound
      · -- A validator does not lock a block of an earlier round.
        rw [createFinalVote, if_pos hround]
        exact hm
      · have hlt := locked_lt_of_checkValidatedBlock prims hcheck
        exact (createFinalVote_updated hm hlt hround t blobs).upToDate
    · cases h
  | timeout certificate t =>
    cases h
    exact (handleTimeoutCertificate_moves hm certificate t).2
  | voteTimeout chainId height epoch t =>
    cases h
    obtain ⟨vote, heq⟩ := voteTimeout_eq prims m chainId height epoch keyPair t
    rw [heq]
    exact hm
  | voteFallback chainId height epoch =>
    cases h
    obtain ⟨vote, heq⟩ := voteFallback_eq prims m chainId height epoch keyPair
    rw [heq]
    exact hm

theorem upToDate_of_run {ownership : ChainOwnership} {seed localTime : Nat}
    {fallbackOwners : List (PublicKey × Nat)} {m₀ m : ChainManager}
    (hnew : ChainManager.new prims ownership seed localTime fallbackOwners = .ok m₀)
    {events : List Validator.Event} (hrun : Run.run (handle prims keyPair) m₀ events = some m) :
    m.UpToDate :=
  Run.invariant (P := UpToDate) (fun _ _ _ hm h => hm.handle h)
    (Validator.inRound_new hnew).upToDate hrun

end ChainManager

namespace Proposing

/-! ## The client -/

/-- What a client that proposes reads of the information about a chain's manager. -/
structure ChainManagerInfo where
  ownership : ChainOwnership
  requestedProposed : Option BlockProposal
  requestedLocked : Option ValidatedBlockCertificate
  currentRound : Round
  /-- The current leader, who is allowed to propose the next block. -/
  leader : Option Owner
  /-- The timestamp when the current round times out. -/
  roundTimeout : Option Nat

structure ChainInfo where
  manager : ChainManagerInfo
  nextBlockHeight : Nat

structure RoundTimeout where
  timestamp : Nat
  currentRound : Round
  nextBlockHeight : Nat
deriving DecidableEq

/-- A client with a key, and a block that it would like to propose. -/
structure Client where
  keyPair : KeyPair
  pendingBlock : Option Block
  stageBlockExecution : Block → Except String BlockExecutionOutcome
  readLocalBlobs : BTreeSet BlobId → Except String (List Blob)
  /-- `Signature::new`. -/
  sign : ProposalContent → KeyPair → Signature

/-- What `process_pending_block_without_prepare` goes on with. -/
inductive Attempt where
  | finalizeLockedBlock (info : ChainInfo)
  | nothingToDo
  | waitForTimeout (timeout : RoundTimeout)
  | propose (proposal : BlockProposal)

variable (prims : Primitives)

namespace ChainManagerInfo

/-- `ChainManagerInfo::from`, with the values that `add_values` adds. -/
def ofManager (m : ChainManager) : ChainManagerInfo where
  ownership := m.ownership
  requestedProposed := m.proposed
  requestedLocked := m.locked
  currentRound := m.currentRound
  leader := m.roundLeader prims m.currentRound
  roundTimeout := m.roundTimeout

variable (manager : ChainManagerInfo)

/-- Whether the `identity` is allowed to propose a block in `round`. -/
def canPropose (identity : Owner) : Round → Bool
  | .fast => manager.ownership.superOwners.containsKey identity
  | .multiLeader _ => true
  | .singleLeader _ | .validator _ => manager.leader == some identity

def hasLockedBlockInCurrentRound : Bool :=
  manager.requestedLocked.any fun certificate => certificate.round = manager.currentRound

/-- Whether we cannot propose the block in the current round: there is another proposal, or the
round is fast and the block uses oracles. -/
def conflict (executedBlock : ExecutedBlock) : Bool :=
  (manager.requestedProposed.any fun proposal =>
    proposal.content.round = manager.currentRound ∧
      proposal.content.block ≠ executedBlock.block) ||
  (manager.currentRound.isFast && executedBlock.outcome.hasOracleResponses)

/-- The current round, or if there is a conflict the next one, if it can be started without a
timeout. -/
def newRound (executedBlock : ExecutedBlock) : Option Round :=
  if !manager.conflict executedBlock then some manager.currentRound
  else (manager.ownership.nextRound manager.currentRound).filter
    fun _ => manager.currentRound.isMultiLeader || manager.currentRound.isFast

end ChainManagerInfo

/-- The timeout of the current round, or the error if it does not time out. -/
def ChainInfo.waitOr (info : ChainInfo) (error : String) : Except String (Round ⊕ RoundTimeout) :=
  match info.manager.roundTimeout with
  | some timestamp => .ok (.inr ⟨timestamp, info.manager.currentRound, info.nextBlockHeight⟩)
  | none => .error error

/-- A round in which we can propose a new block or the given one, if possible. -/
def roundForNewProposal (info : ChainInfo) (identity : Owner) (executedBlock : ExecutedBlock) :
    Except String (Round ⊕ RoundTimeout) :=
  match info.manager.newRound executedBlock with
  | none => info.waitOr "Conflicting proposal in the current round"
  | some round =>
    if info.manager.canPropose identity round then .ok (.inl round)
    else info.waitOr "Not a leader in the current round"

namespace Client

def identity (client : Client) : Owner := prims.owner client.keyPair.publicKey

/-- `BlockProposal::new_initial`. -/
def newInitial (client : Client) (round : Round) (block : Block) (blobs : List Blob) :
    BlockProposal :=
  let content : ProposalContent := ⟨block, round, none⟩
  ⟨content, client.identity prims, client.sign content client.keyPair, blobs, none⟩

/-- `BlockProposal::new_retry`. -/
def newRetry (client : Client) (round : Round) (certificate : ValidatedBlockCertificate)
    (blobs : List Blob) : BlockProposal :=
  let executedBlock := certificate.value.executedBlock
  let content : ProposalContent := ⟨executedBlock.block, round, some executedBlock.outcome⟩
  ⟨content, client.identity prims, client.sign content client.keyPair, blobs,
    some (certificate.liteCertificate prims)⟩

/-- The block to propose: the highest validated one, or else that of the fast round, which counts
as locked, too, or else our own pending one. -/
def selectBlock (client : Client) (manager : ChainManagerInfo) :
    Except String (Option ExecutedBlock) :=
  match manager.requestedLocked with
  | some certificate => .ok (some certificate.value.executedBlock)
  | none =>
    match (manager.requestedProposed.filter fun proposal => proposal.content.round.isFast).map
        (fun proposal => proposal.content.block) <|> client.pendingBlock with
    | some block => (client.stageBlockExecution block).map fun outcome => some ⟨block, outcome⟩
    | none => .ok none

def buildProposal (client : Client) (manager : ChainManagerInfo) (executedBlock : ExecutedBlock)
    (round : Round) (blobs : List Blob) : BlockProposal :=
  match manager.requestedLocked with
  | some certificate => client.newRetry prims round certificate blobs
  | none => client.newInitial prims round executedBlock.block blobs

/-- Processes the last pending block, up to the point where the proposal is sent. -/
def processPendingBlockWithoutPrepare (client : Client) (info : ChainInfo) :
    Except String Attempt :=
  -- If there is a validated block in the current round, finalize it.
  if info.manager.hasLockedBlockInCurrentRound then .ok (.finalizeLockedBlock info)
  else
    client.selectBlock info.manager >>= fun
    | none => .ok .nothingToDo
    | some executedBlock =>
      roundForNewProposal info (client.identity prims) executedBlock >>= fun
      | .inr timeout => .ok (.waitForTimeout timeout)
      | .inl round =>
        (client.readLocalBlobs executedBlock.block.publishedBlobIds).map fun blobs =>
          .propose (client.buildProposal prims info.manager executedBlock round blobs)

end Client

/-! ## What the client builds -/

section built

variable (m : ChainManager) (client : Client)

/-- What is known of a proposal that the client builds from what it is told about the manager. -/
structure Built (proposal : BlockProposal) : Prop where
  owner : proposal.owner = client.identity prims
  certificate : proposal.validatedBlockCertificate =
    m.locked.map (GenericCertificate.liteCertificate prims)
  locked_ne : ∀ locked ∈ m.locked, locked.round ≠ m.currentRound
  round : proposal.content.round = m.currentRound ∨
    ∃ n, proposal.content.round = .multiLeader n ∧ m.currentRound < .multiLeader n
  canPropose : (ChainManagerInfo.ofManager prims m).canPropose (client.identity prims)
    proposal.content.round = true
  fast_block : m.locked = none → ∀ old ∈ m.proposed, old.content.round = .fast →
    old.content.block = proposal.content.block

variable {prims m client}

variable {executedBlock : ExecutedBlock}

/-- Only a round without a leader is left without a timeout, and only for another one. -/
theorem newRound_cases {r : Round} {identity : Owner}
    (h : (ChainManagerInfo.ofManager prims m).newRound executedBlock = some r)
    (hcan : (ChainManagerInfo.ofManager prims m).canPropose identity r = true) :
    r = m.currentRound ∨ ∃ n, r = .multiLeader n ∧ m.currentRound < .multiLeader n := by
  rw [ChainManagerInfo.newRound] at h
  split at h
  · exact .inl (Option.some.inj h).symm
  · obtain ⟨hnext, hkind⟩ := Option.filter_eq_some_iff.mp h
    have hlt : m.currentRound < r := ChainOwnership.lt_nextRound hnext
    -- The info has the leader of the current round, which has none.
    have hleader : m.roundLeader prims m.currentRound = none := by
      have hkind : (m.currentRound.isMultiLeader || m.currentRound.isFast) = true := hkind
      cases hcurrent : m.currentRound <;> rw [hcurrent] at hkind <;> first | rfl | cases hkind
    -- So the new round cannot be one that needs a leader.
    cases r with
    | fast => exact absurd hlt (not_lt.mpr (Round.fast_le _))
    | multiLeader n => exact .inr ⟨n, rfl, hlt⟩
    | singleLeader n | validator n =>
      have hcan : (m.roundLeader prims m.currentRound == some identity) = true := hcan
      rw [hleader] at hcan
      cases hcan

theorem of_roundForNewProposal {info : ChainInfo} {identity : Owner} {r : Round}
    (h : roundForNewProposal info identity executedBlock = .ok (.inl r)) :
    info.manager.newRound executedBlock = some r ∧ info.manager.canPropose identity r = true := by
  have hwait : ∀ error, info.waitOr error ≠ .ok (.inl r) := by
    intro error heq
    rw [ChainInfo.waitOr] at heq
    split at heq <;> cases heq
  rw [roundForNewProposal] at h
  split at h
  · exact absurd h (hwait _)
  · next round hnew =>
    split at h
    · next hcan =>
      cases h
      exact ⟨hnew, hcan⟩
    · exact absurd h (hwait _)

/-- If nothing is locked but a fast block has been proposed, then that one is selected. -/
theorem selectBlock_fast (hlocked : m.locked = none)
    (h : client.selectBlock (.ofManager prims m) = .ok (some executedBlock)) {old : BlockProposal}
    (hold : old ∈ m.proposed) (hfast : old.content.round = .fast) :
    old.content.block = executedBlock.block := by
  have hproposed : m.proposed = some old := hold
  simp only [Client.selectBlock, ChainManagerInfo.ofManager, hlocked, hproposed,
    Option.filter_some, hfast, Round.isFast, if_true, Option.map_some] at h
  obtain ⟨outcome, -, heq⟩ := Except.map_eq_ok.mp h
  cases heq
  rfl

theorem built_of_propose {nextBlockHeight : Nat} {proposal : BlockProposal}
    (h : client.processPendingBlockWithoutPrepare prims
      ⟨.ofManager prims m, nextBlockHeight⟩ = .ok (.propose proposal)) :
    Built prims m client proposal := by
  rw [Client.processPendingBlockWithoutPrepare] at h
  split at h
  · cases h
  · next hcurrent =>
    obtain ⟨selected, hselected, h⟩ := Except.bind_eq_ok.mp h
    rcases selected with - | executedBlock
    · cases h
    obtain ⟨choice, hchoice, h⟩ := Except.bind_eq_ok.mp h
    rcases choice with round | timeout
    case inr => cases h
    obtain ⟨hnew, hcan⟩ := of_roundForNewProposal hchoice
    obtain ⟨blobs, -, heq⟩ := Except.map_eq_ok.mp h
    have hcases := newRound_cases hnew hcan
    have hne : ∀ locked ∈ m.locked, locked.round ≠ m.currentRound := by
      intro locked hmem hround
      exact hcurrent ((Option.any_eq_true _ _).mpr ⟨locked, hmem, decide_eq_true hround⟩)
    cases heq
    rw [Client.buildProposal]
    -- A locked block makes the proposal a retry.
    cases hlocked : m.locked with
    | none =>
      have hrequested : (ChainManagerInfo.ofManager prims m).requestedLocked = none := hlocked
      simp only [hrequested]
      exact ⟨rfl, by rw [hlocked]; rfl, hne, hcases, hcan,
        fun _ old hold hfast => selectBlock_fast hlocked hselected hold hfast⟩
    | some certificate =>
      have hrequested : (ChainManagerInfo.ofManager prims m).requestedLocked = some certificate :=
        hlocked
      simp only [hrequested]
      exact ⟨rfl, by rw [hlocked]; rfl, hne, hcases, hcan,
        fun hnone => absurd (hlocked.symm.trans hnone) (Option.some_ne_none _)⟩

end built

/-! ## What the manager says to it -/

section accepted

variable {prims} {m : ChainManager} {client : Client} {proposal : BlockProposal}

theorem leaderKey_isSome {owners : BTreeMap Owner (PublicKey × Nat)} {index : Nat} {owner : Owner}
    (h : owners.keys[index]? = some owner) :
    (ChainManager.leaderKey owners index owner).isSome := by
  rw [BTreeMap.keys, List.getElem?_map] at h
  obtain ⟨⟨leader, publicKey, weight⟩, hentry, rfl⟩ := Option.map_eq_some_iff.mp h
  simp only [ChainManager.leaderKey, hentry, if_true, Option.isSome_some]

theorem Built.verifyOwner (hbuilt : Built prims m client proposal)
    (howner : (m.ownership.verifyOwner (client.identity prims)).isSome) :
    (m.verifyOwner prims proposal).isSome := by
  have hcan := hbuilt.canPropose
  rw [ChainOwnership.verifyOwner] at howner
  rw [ChainManager.verifyOwner, hbuilt.owner]
  cases hsuper : m.ownership.superOwners.get (client.identity prims) with
  | some publicKey => rfl
  | none =>
    rw [hsuper] at howner
    rcases hbuilt.round with hround | ⟨n, hround, -⟩
    · rw [hround] at hcan ⊢
      -- In the current round, the leader in the info is the one that the manager computes.
      cases hcurrent : m.currentRound with
      | fast =>
        rw [hcurrent] at hcan
        have hcan : (m.ownership.superOwners.get (client.identity prims)).isSome := hcan
        rw [hsuper] at hcan
        cases hcan
      | multiLeader n => exact howner
      | singleLeader n | validator n =>
        rw [hcurrent] at hcan
        have hleader : m.roundLeader prims m.currentRound = some (client.identity prims) :=
          eq_of_beq hcan
        rw [hcurrent] at hleader
        obtain ⟨index, hindex, hleader⟩ := Option.bind_eq_some_iff.mp hleader
        simp only [hindex, Option.bind_eq_bind, Option.bind_some]
        exact leaderKey_isSome hleader
    · rw [hround]
      exact howner

/-- What it takes for a proposal that the client has built to be accepted. -/
structure Suitable (m : ChainManager) (proposal : BlockProposal) : Prop where
  height : proposal.content.block.height < BlockHeight.max
  fast : m.currentRound = .fast → m.isSuper proposal.owner
  /-- The round that follows the one of the locked block has been reached. -/
  locked : ∀ locked ∈ m.locked, ∃ nextRound,
    m.ownership.nextRound locked.round = some nextRound ∧ nextRound ≤ proposal.content.round
  /-- A proposal that is known in the round is the same one, as a new block or as a retry. -/
  proposed : ∀ old ∈ m.proposed, old.content.round = proposal.content.round →
    old.content = proposal.content

section

variable (hbuilt : Built prims m client proposal)

include hbuilt

theorem Built.currentRound_le : m.currentRound ≤ proposal.content.round := by
  rcases hbuilt.round with hround | ⟨n, hround, hlt⟩
  · exact hround.ge
  · exact hround ▸ hlt.le

/-- The client's proposal has the locked block's certificate. -/
theorem Built.checkLocked : m.checkLocked proposal = .ok () := by
  rw [ChainManager.checkLocked, hbuilt.certificate]
  cases m.locked with
  | none => rfl
  | some locked =>
    rw [Except.ensure_eq_ok]
    exact decide_eq_true (le_refl locked.round)

theorem Built.expectedRound_iff {expected : Round} :
    m.expectedRound proposal.validatedBlockCertificate = .ok expected ↔
      (m.locked = none ∧ expected = m.currentRound) ∨
      ∃ locked ∈ m.locked, ∃ nextRound, m.ownership.nextRound locked.round = some nextRound ∧
        expected = max nextRound m.currentRound := by
  rw [hbuilt.certificate]
  cases hlocked : m.locked with
  | none =>
    constructor
    · intro h
      exact .inl ⟨rfl, (Except.ok.inj h).symm⟩
    · rintro (⟨-, rfl⟩ | ⟨_, hmem, -⟩)
      · rfl
      · cases hmem
  | some locked =>
    have hround : (locked.liteCertificate prims).round = locked.round := rfl
    simp only [Option.map_some, ChainManager.expectedRound, hround, Option.mem_def,
      Option.some.injEq, reduceCtorEq, false_and, false_or, exists_eq_left']
    cases m.ownership.nextRound locked.round with
    | none =>
      constructor
      · intro h
        cases h
      · rintro ⟨_, hsome, -⟩
        cases hsome
    | some nextRound =>
      constructor
      · intro h
        exact ⟨nextRound, rfl, (Except.ok.inj h).symm⟩
      · rintro ⟨_, hsome, rfl⟩
        cases hsome
        rfl

/-- The round of the proposal is one that the manager takes, if it is not below the expected one
and the proposer may leave the fast round. -/
theorem Built.checkRound_iff {expected : Round} (hexpected : m.currentRound ≤ expected) :
    m.checkRound proposal expected = .ok () ↔
      expected ≤ proposal.content.round ∧ (expected = .fast → m.isSuper proposal.owner) := by
  rw [ChainManager.checkRound]
  split
  · next hfree =>
    rw [Except.ensure_eq_ok]
    refine ⟨fun hle => ⟨hle, fun hfast => ?_⟩, fun h => h.1⟩
    rcases hfree with hsuper | ⟨-, hnot⟩
    · exact hsuper
    · rw [hfast] at hnot
      cases hnot
  · next hstrict =>
    rw [Except.ensure_eq_ok]
    rw [not_or] at hstrict
    constructor
    · intro heq
      refine ⟨heq.le, fun hfast => ?_⟩
      -- In the fast round, the client only proposes as a super owner.
      have hcan := hbuilt.canPropose
      rw [← heq, hfast] at hcan
      rw [hbuilt.owner]
      exact hcan
    · rintro ⟨hle, hfast⟩
      rcases hbuilt.round with hround | ⟨n, hround, hlt⟩
      · exact le_antisymm hle (hround ▸ hexpected)
      · -- A multi-leader round comes before the first single-leader round.
        refine absurd ⟨?_, ?_⟩ hstrict.2
        · rw [hround, Round.le_iff]
          exact .inl (by decide : 1 < 2)
        · cases expected with
          | fast => exact absurd (hfast rfl) hstrict.1
          | multiLeader n | singleLeader n | validator n => rfl

end

theorem Built.round_accepted_iff (hm : m.UpToDate) (hbuilt : Built prims m client proposal) :
    (∃ expected, m.expectedRound proposal.validatedBlockCertificate = .ok expected ∧
      m.checkRound proposal expected = .ok ()) ↔
    (m.currentRound = .fast → m.isSuper proposal.owner) ∧
      ∀ locked ∈ m.locked, ∃ nextRound, m.ownership.nextRound locked.round = some nextRound ∧
        nextRound ≤ proposal.content.round := by
  constructor
  · rintro ⟨expected, hexpected, hcheck⟩
    rcases hbuilt.expectedRound_iff.mp hexpected with
      ⟨hnone, rfl⟩ | ⟨locked, hlocked, nextRound, hnext, rfl⟩
    · obtain ⟨-, hfast⟩ := (hbuilt.checkRound_iff (le_refl _)).mp hcheck
      refine ⟨hfast, fun locked hlocked => ?_⟩
      rw [hnone] at hlocked
      cases hlocked
    · obtain ⟨hle, -⟩ := (hbuilt.checkRound_iff (le_max_right _ _)).mp hcheck
      refine ⟨fun hfast => ?_, fun locked' hlocked' => ?_⟩
      · -- A locked block is of an earlier round, so that the round is not the fast one.
        have hround : locked.round ≤ m.currentRound :=
          (ChainManager.round_locked_le hlocked).trans hm.ge
        rw [hfast] at hround
        refine absurd ?_ (hbuilt.locked_ne locked hlocked)
        rw [hfast]
        exact le_antisymm hround (Round.fast_le _)
      · cases hlocked.symm.trans hlocked'
        exact ⟨nextRound, hnext, (le_max_left _ _).trans hle⟩
  · rintro ⟨hfast, hlocked⟩
    cases hnone : m.locked with
    | none =>
      refine ⟨m.currentRound, hbuilt.expectedRound_iff.mpr (.inl ⟨hnone, rfl⟩), ?_⟩
      exact (hbuilt.checkRound_iff (le_refl _)).mpr ⟨hbuilt.currentRound_le, hfast⟩
    | some locked =>
      obtain ⟨nextRound, hnext, hle⟩ := hlocked locked hnone
      refine ⟨max nextRound m.currentRound,
        hbuilt.expectedRound_iff.mpr (.inr ⟨locked, hnone, nextRound, hnext, rfl⟩), ?_⟩
      refine (hbuilt.checkRound_iff (le_max_right _ _)).mpr
        ⟨max_le hle hbuilt.currentRound_le, fun hmax => hfast ?_⟩
      exact le_antisymm (hmax ▸ le_max_right _ _) (Round.fast_le _)

/-- The old proposal is from the same round or an earlier one. In the same round it has to be the
same. -/
theorem Built.checkOldProposal_iff (hm : m.UpToDate) (hbuilt : Built prims m client proposal) :
    (∃ outcome, m.checkOldProposal proposal = .ok outcome) ↔
      ∀ old ∈ m.proposed, old.content.round = proposal.content.round →
        old.content = proposal.content := by
  rw [ChainManager.checkOldProposal]
  cases hproposed : m.proposed with
  | none =>
    refine iff_of_true ⟨.accept, rfl⟩ fun old hold => ?_
    cases hold
  | some old =>
    have hround : old.content.round ≤ proposal.content.round :=
      (ChainManager.round_proposed_le hproposed).trans (hm.ge.trans hbuilt.currentRound_le)
    simp only [Option.mem_def, Option.some.injEq, forall_eq']
    split
    · next hsame => exact iff_of_true ⟨.skip, rfl⟩ fun _ => hsame
    · next hother =>
      constructor
      · rintro ⟨outcome, h⟩ heq
        obtain ⟨_, hlt, -⟩ := Except.bind_eq_ok.mp h
        rw [Except.ensure_eq_ok] at hlt
        exact absurd heq hlt.ne
      · intro h
        have hlt : old.content.round < proposal.content.round :=
          lt_of_le_of_ne hround fun heq => hother (h heq)
        refine ⟨.accept, Except.bind_eq_ok.mpr ⟨(), Except.ensure_eq_ok.mpr hlt, ?_⟩⟩
        refine Except.bind_eq_ok.mpr ⟨(), Except.ensure_eq_ok.mpr ?_, rfl⟩
        -- Without a certificate, a fast block has been selected again.
        rintro ⟨hfast, hnone⟩
        rw [hbuilt.certificate, Option.isNone_map, Option.isNone_iff_eq_none] at hnone
        exact hbuilt.fast_block hnone old hproposed (Round.isFast_iff.mp hfast)

theorem Built.accepted_iff (hm : m.UpToDate) (hbuilt : Built prims m client proposal) :
    (∃ outcome, m.checkProposedBlock proposal = .ok outcome) ↔ Suitable m proposal := by
  constructor
  · rintro ⟨outcome, h⟩
    obtain ⟨_, hheight, h⟩ := Except.bind_eq_ok.mp h
    obtain ⟨expected, hexpected, h⟩ := Except.bind_eq_ok.mp h
    obtain ⟨_, hround, h⟩ := Except.bind_eq_ok.mp h
    obtain ⟨old, hold, -⟩ := Except.bind_eq_ok.mp h
    rw [Except.ensure_eq_ok] at hheight
    obtain ⟨hfast, hlocked⟩ := (hbuilt.round_accepted_iff hm).mp ⟨expected, hexpected, hround⟩
    exact ⟨hheight, hfast, hlocked, (hbuilt.checkOldProposal_iff hm).mp ⟨old, hold⟩⟩
  · intro h
    obtain ⟨expected, hexpected, hround⟩ := (hbuilt.round_accepted_iff hm).mpr ⟨h.fast, h.locked⟩
    obtain ⟨old, hold⟩ := (hbuilt.checkOldProposal_iff hm).mpr h.proposed
    -- The checks come in the order of the source.
    refine ⟨old, Except.bind_eq_ok.mpr ⟨(), Except.ensure_eq_ok.mpr h.height, ?_⟩⟩
    refine Except.bind_eq_ok.mpr ⟨expected, hexpected, ?_⟩
    refine Except.bind_eq_ok.mpr ⟨(), hround, ?_⟩
    refine Except.bind_eq_ok.mpr ⟨old, hold, ?_⟩
    cases old with
    | skip => rfl
    | accept => exact Except.bind_eq_ok.mpr ⟨(), hbuilt.checkLocked, rfl⟩

end accepted

/-- **What the client proposes.** In every state that the manager of a node can come to, an owner
of the chain who is told about that state is known to the manager as the proposer in the round of
the proposal that it builds. The manager takes the proposal exactly if it is suitable. -/
theorem proposal_accepted_iff {prims : Primitives} {ownership : ChainOwnership}
    {seed localTime : Nat} {fallbackOwners : List (PublicKey × Nat)} {m₀ m : ChainManager}
    (hnew : ChainManager.new prims ownership seed localTime fallbackOwners = .ok m₀)
    {keyPair : Option KeyPair} {events : List Validator.Event}
    (hrun : Run.run (ChainManager.handle prims keyPair) m₀ events = some m) {client : Client}
    (howner : (m.ownership.verifyOwner (client.identity prims)).isSome) {nextBlockHeight : Nat}
    {proposal : BlockProposal}
    (hpropose : client.processPendingBlockWithoutPrepare prims
      ⟨.ofManager prims m, nextBlockHeight⟩ = .ok (.propose proposal)) :
    (m.verifyOwner prims proposal).isSome ∧
      ((∃ outcome, m.checkProposedBlock proposal = .ok outcome) ↔ Suitable m proposal) := by
  have hbuilt := built_of_propose hpropose
  exact ⟨hbuilt.verifyOwner howner, hbuilt.accepted_iff (ChainManager.upToDate_of_run hnew hrun)⟩

/-! ## A chain with a super owner and a regular owner -/

/-- Either of them may propose in the two multi-leader rounds, and the super owner before that. -/
def superAndRegular : ChainOwnership where
  superOwners := .ofList [(⟨⟨1⟩⟩, ⟨1⟩)]
  owners := .ofList [(⟨⟨2⟩⟩, (⟨2⟩, 1))]
  multiLeaderRounds := 2
  timeoutConfig := .default

/-- The owner with the given key and an empty block, in whose execution the given oracles are
used. -/
def owner (key : Nat) (oracleResponses : List (List OracleResponse)) : Client where
  keyPair := ⟨⟨key⟩, key⟩
  pendingBlock := some (Validator.emptyBlock 0).block
  stageBlockExecution _ := .ok ⟨[], ⟨0⟩, oracleResponses, []⟩
  readLocalBlobs _ := .ok []
  sign _ keyPair := ⟨keyPair.secret⟩

/-- The owner's block as a new proposal in the first multi-leader round. -/
def ownerProposal (key : Nat) (oracleResponses : List (List OracleResponse)) : BlockProposal :=
  (owner key oracleResponses).newInitial Validator.simplePrimitives (.multiLeader 0)
    (Validator.emptyBlock 0).block []

/-- The super owner's block uses an oracle. The client proposes it in the first multi-leader round,
and the manager, which is in the fast round, takes it. -/
theorem proposal_accepted_super_owner :
    ∃ m, ChainManager.new Validator.simplePrimitives superAndRegular 0 0 [] = .ok m ∧
      m.currentRound = .fast ∧
      (∃ proposal, (owner 1 [[.blob ⟨.data, ⟨0⟩⟩]]).processPendingBlockWithoutPrepare
        Validator.simplePrimitives ⟨.ofManager Validator.simplePrimitives m, 0⟩ =
          .ok (.propose proposal) ∧ ∃ outcome, m.checkProposedBlock proposal = .ok outcome) := by
  refine ⟨_, rfl, rfl, ownerProposal 1 [[.blob ⟨.data, ⟨0⟩⟩]], rfl, ?_⟩
  refine (@proposal_accepted_iff _ superAndRegular 0 0 [] _ _ rfl none [] rfl
    (owner 1 [[.blob ⟨.data, ⟨0⟩⟩]]) (by decide) 0 _ rfl).2.mpr ?_
  exact ⟨by decide, fun _ => by decide, nofun, nofun⟩

/-- The regular owner's block uses an oracle. The client takes the first multi-leader round for one
that it may propose in, and the manager does not, as the fast round has not ended. -/
theorem oracle_block_proposed_too_early :
    ∃ m, ChainManager.new Validator.simplePrimitives superAndRegular 0 0 [] = .ok m ∧
      (m.ownership.verifyOwner
        ((owner 2 [[.blob ⟨.data, ⟨0⟩⟩]]).identity Validator.simplePrimitives)).isSome ∧
      ∃ proposal, (owner 2 [[.blob ⟨.data, ⟨0⟩⟩]]).processPendingBlockWithoutPrepare
          Validator.simplePrimitives ⟨.ofManager Validator.simplePrimitives m, 0⟩ =
            .ok (.propose proposal) ∧
        m.checkProposedBlock proposal = .error (.wrongRound .fast) :=
  ⟨_, rfl, by decide, ownerProposal 2 [[.blob ⟨.data, ⟨0⟩⟩]], rfl, by decide⟩

end Proposing

end Linera
