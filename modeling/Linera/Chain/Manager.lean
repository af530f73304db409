import Linera.Chain.Certificate

/-!
# The chain manager

The model of `ChainManager`: the consensus state of a validator for the next
block of a chain. It decides which proposals and certificates may be voted on
(`checkProposedBlock`, `checkValidatedBlock`), records the votes (`createVote`,
`createFinalVote`, `voteTimeout`, `voteFallback`), and keeps track of the current
round.

`acceptable_of_checkProposedBlock` and `locked_lt_of_checkValidatedBlock` say what
an accepted proposal or certificate has passed.
-/

namespace Linera

/-- The result of verifying a (valid) query. -/
inductive Outcome where
  | accept
  | skip
deriving DecidableEq

/-- The state of the certification process for a chain's next block. -/
structure ChainManager where
  ownership : ChainOwnership
  /-- The seed for the generator that determines the round leaders. -/
  seed : Nat
  /-- The weights of the distribution for choosing a round leader. -/
  distribution : Option (List Nat)
  /-- The weights of the distribution for choosing a fallback round leader. -/
  fallbackDistribution : Option (List Nat)
  /-- Highest-round authenticated block that we have received and checked. -/
  proposed : Option BlockProposal
  /-- Latest validated proposal that we have voted to confirm. -/
  locked : Option ValidatedBlockCertificate
  lockedBlobs : BTreeMap BlobId Blob
  /-- Latest leader timeout certificate we have received. -/
  timeout : Option TimeoutCertificate
  confirmedVote : Option (Vote ConfirmedBlock)
  validatedVote : Option (Vote ValidatedBlock)
  timeoutVote : Option (Vote Timeout)
  fallbackVote : Option (Vote Timeout)
  roundTimeout : Option Nat
  /-- The lowest round where we can still vote to validate or confirm a block. -/
  currentRound : Round
  /-- The owners that take over in fallback mode. -/
  fallbackOwners : BTreeMap Owner (PublicKey × Nat)
deriving DecidableEq

namespace ChainManager

/-- `ChainManager::default`. -/
def default : ChainManager :=
  ⟨.default, 0, none, none, none, none, .empty, none, none, none, none, none, none, .fast, .empty⟩

variable (prims : Primitives)

/-- The weights of a distribution over the owners, which a chain without owners does not have. -/
def ownersDistribution (owners : BTreeMap Owner (PublicKey × Nat)) :
    Except ChainError (Option (List Nat)) :=
  if !owners.isEmpty then do
    let weights := owners.values.map Prod.snd
    (prims.checkWeights weights).mapError .ownerWeightError
    return some weights
  else return none

/-- Creates a new `ChainManager`, and starts the first round. -/
def new (ownership : ChainOwnership) (seed localTime : Nat)
    (fallbackOwners : List (PublicKey × Nat)) : Except ChainError ChainManager := do
  let distribution ← ownersDistribution prims ownership.owners
  let fallbackOwners := BTreeMap.ofList <|
    fallbackOwners.map fun (publicKey, weight) => (prims.owner publicKey, (publicKey, weight))
  let fallbackDistribution ← ownersDistribution prims fallbackOwners
  let currentRound := ownership.firstRound
  let roundDuration := ownership.roundTimeout currentRound
  return {
    ownership, seed, distribution, fallbackDistribution
    proposed := none
    locked := none
    lockedBlobs := .empty
    timeout := none
    confirmedVote := none
    validatedVote := none
    timeoutVote := none
    fallbackVote := none
    roundTimeout := roundDuration.map (saturatingAdd u64Max localTime)
    currentRound, fallbackOwners }

def isSuper (m : ChainManager) (owner : Owner) : Bool := m.ownership.superOwners.containsKey owner

/-- The round that a proposal on top of the given certificate is expected in. -/
def expectedRound (m : ChainManager) : Option LiteCertificate → Except ChainError Round
  | none => .ok m.currentRound
  | some cert =>
    match m.ownership.nextRound cert.round with
    | some nextRound => .ok (max nextRound m.currentRound)
    | none => .error (.arithmeticError .overflow)

/-- In leader rotation mode, the round must equal the expected one exactly. Only the first
single-leader round can be entered at any time. -/
def checkRound (m : ChainManager) (proposal : BlockProposal) (expectedRound : Round) :
    Except ChainError Unit :=
  let newRound := proposal.content.round
  if m.isSuper proposal.owner ∨ (newRound ≤ .singleLeader 0 ∧ !expectedRound.isFast) then
    ensure (expectedRound ≤ newRound) (.insufficientRound expectedRound)
  else
    ensure (expectedRound = newRound) (.wrongRound expectedRound)

/-- Compares a proposal with the highest-round one we have voted for. -/
def checkOldProposal (m : ChainManager) (proposal : BlockProposal) : Except ChainError Outcome :=
  match m.proposed with
  | none => .ok .accept
  | some oldProposal =>
    let newRound := proposal.content.round
    let newBlock := proposal.content.block
    if oldProposal.content = proposal.content then
      .ok .skip  -- We already voted for this proposal; nothing to do.
    else do
      -- We already accepted a proposal in this round or in a higher round.
      ensure (newRound > oldProposal.content.round)
        (.insufficientRoundStrict oldProposal.content.round)
      -- Any proposal in the fast round is considered locked, because validators vote to
      -- confirm it immediately.
      ensure (oldProposal.content.round.isFast ∧ proposal.validatedBlockCertificate.isNone →
        oldProposal.content.block = newBlock) (.hasLockedBlock newBlock.height .fast)
      return .accept

/-- If we have a locked block, the proposal must contain a certificate that validates the
proposed block and is no older than the locked block. -/
def checkLocked (m : ChainManager) (proposal : BlockProposal) : Except ChainError Unit :=
  match m.locked with
  | none => .ok ()
  | some locked =>
    ensure (proposal.validatedBlockCertificate.any fun cert => locked.round ≤ cert.round)
      (.hasLockedBlock locked.value.executedBlock.block.height locked.round)

/-- Verifies the safety of a proposed block with respect to voting rules. -/
def checkProposedBlock (m : ChainManager) (proposal : BlockProposal) :
    Except ChainError Outcome := do
  -- When a block is certified, incrementing its height must succeed.
  ensure (proposal.content.block.height < BlockHeight.max) .invalidBlockHeight
  let expectedRound ← m.expectedRound proposal.validatedBlockCertificate
  m.checkRound proposal expectedRound
  match ← m.checkOldProposal proposal with
  | .skip => return .skip
  | .accept =>
    m.checkLocked proposal
    return .accept

/-- Checks if the current round has timed out, and signs a `Timeout`. -/
def voteTimeout (m : ChainManager) (chainId : ChainId) (height epoch : Nat)
    (keyPair : Option KeyPair) (localTime : Nat) : ChainManager × Bool :=
  match keyPair, m.roundTimeout with
  | none, _ => (m, false)  -- We are not a validator.
  | _, none => (m, false)  -- The current round does not time out.
  | some keyPair, some roundTimeout =>
    if localTime < roundTimeout ∨ m.ownership.owners.isEmpty then
      (m, false)  -- Round has not timed out yet, or there are no regular owners.
    else if m.timeoutVote.any fun vote => vote.round = m.currentRound then
      (m, false)  -- We already signed this timeout.
    else
      let value : Timeout := ⟨chainId, height, epoch⟩
      ({ m with timeoutVote := some (.new prims value m.currentRound keyPair) }, true)

/-- Signs a `Timeout` certificate to switch to fallback mode. -/
def voteFallback (m : ChainManager) (chainId : ChainId) (height epoch : Nat)
    (keyPair : Option KeyPair) : ChainManager × Bool :=
  match keyPair with
  | none => (m, false)  -- We are not a validator.
  | some keyPair =>
    if m.fallbackVote.isSome ∨ m.currentRound ≥ .validator 0 then
      (m, false)  -- We already signed this or are already in fallback mode.
    else
      let value : Timeout := ⟨chainId, height, epoch⟩
      let lastRegularRound := Round.singleLeader u32Max
      ({ m with fallbackVote := some (.new prims value lastRegularRound keyPair) }, true)

/-- Compares a validated block certificate with the one we are locked on. -/
def checkNewLock (m : ChainManager) (certificate : ValidatedBlockCertificate) :
    Except ChainError Outcome :=
  match m.locked with
  | none => .ok .accept
  | some locked =>
    if locked.hash prims = certificate.hash prims ∧ locked.round = certificate.round then
      .ok .skip
    else do
      ensure (certificate.round > locked.round) (.insufficientRoundStrict locked.round)
      return .accept

/-- Verifies that we can vote to confirm a validated block. -/
def checkValidatedBlock (m : ChainManager) (certificate : ValidatedBlockCertificate) :
    Except ChainError Outcome :=
  let newBlock := certificate.value.executedBlock.block
  let newRound := certificate.round
  if m.confirmedVote.any fun vote =>
      vote.value.executedBlock.block = newBlock ∧ vote.round = newRound then
    .ok .skip  -- We already voted to confirm this block.
  else
    match m.validatedVote with
    | none => m.checkNewLock prims certificate
    | some vote => do
      ensure (newRound ≥ vote.round) (.insufficientRound vote.round)
      -- The current round is not compared here; `createFinalVote` does.
      m.checkNewLock prims certificate

/-- The rounds that are known to have begun. -/
def knownRounds (m : ChainManager) : List Round :=
  (m.timeout.toList.map fun certificate =>
    (m.ownership.nextRound certificate.round).getD (.validator u32Max)) ++
  m.locked.toList.map (fun certificate => certificate.round) ++
  m.proposed.toList.map fun proposal => proposal.content.round

/-- Updates `currentRound` and `roundTimeout` if necessary. -/
def updateCurrentRound (m : ChainManager) (localTime : Nat) : ChainManager :=
  let currentRound := max (m.knownRounds.max?.getD .fast) m.ownership.firstRound
  if currentRound ≤ m.currentRound then m
  else
    let roundDuration := m.ownership.roundTimeout currentRound
    { m with
      roundTimeout := roundDuration.map (saturatingAdd u64Max localTime)
      currentRound }

/-- If the validated block certificate of a proposal is more recent, updates our locked block. -/
def updateLocked (m : ChainManager) (proposal : BlockProposal) (executedBlock : ExecutedBlock)
    (blobs : BTreeMap BlobId Blob) : ChainManager :=
  match proposal.validatedBlockCertificate with
  | none => m
  | some liteCert =>
    if m.locked.all fun locked => locked.round < liteCert.round then
      match liteCert.withValue prims (ValidatedBlock.mk executedBlock) with
      | some certificate => { m with locked := some certificate, lockedBlobs := blobs }
      | none => m
    else m

/-- Signs a vote to validate the proposed block, or to confirm it in the fast round. -/
def createVote (m : ChainManager) (proposal : BlockProposal) (executedBlock : ExecutedBlock)
    (keyPair : Option KeyPair) (localTime : Nat) (blobs : BTreeMap BlobId Blob) :
    ChainManager × Option (Vote ValidatedBlock ⊕ Vote ConfirmedBlock) :=
  let round := proposal.content.round
  let m := m.updateLocked prims proposal executedBlock blobs
  -- Record the proposed block, so it can be supplied to clients that request it.
  let m := { m with proposed := some proposal }.updateCurrentRound localTime
  match keyPair with
  | none => (m, none)
  | some keyPair =>
    -- If this is a fast block, vote to confirm. Otherwise vote to validate.
    if round.isFast then
      let vote := Vote.new prims (ConfirmedBlock.mk executedBlock) round keyPair
      ({ m with validatedVote := none, confirmedVote := some vote }, some (.inr vote))
    else
      let vote := Vote.new prims (ValidatedBlock.mk executedBlock) round keyPair
      ({ m with confirmedVote := none, validatedVote := some vote }, some (.inl vote))

def createFinalVote (m : ChainManager) (validated : ValidatedBlockCertificate)
    (keyPair : Option KeyPair) (localTime : Nat) (blobs : BTreeMap BlobId Blob) : ChainManager :=
  let round := validated.round
  -- Validators only change their locked block if the new one is included in a proposal in the
  -- current round, or it is itself in the current round.
  if keyPair.isSome ∧ round < m.currentRound then m
  else
    let confirmedBlock := ConfirmedBlock.mk validated.value.executedBlock
    let m := { m with locked := some validated, lockedBlobs := blobs }.updateCurrentRound localTime
    match keyPair with
    | none => m
    | some keyPair =>
      -- Ok to overwrite validation votes with confirmation votes at equal or higher round.
      { m with
        confirmedVote := some (.new prims confirmedBlock round keyPair)
        validatedVote := none }

/-- Updates the round number and timer if the timeout certificate is from a higher round than
any known certificate. -/
def handleTimeoutCertificate (m : ChainManager) (certificate : TimeoutCertificate)
    (localTime : Nat) : ChainManager :=
  if m.timeout.any fun known => known.round ≥ certificate.round then m
  else { m with timeout := some certificate }.updateCurrentRound localTime

/-- A leader's index, drawn from the distribution with a seed made of the round and the
manager's own seed. A `u32` that is rotated by 32 bits as a `u64` is shifted. -/
def leaderIndex (m : ChainManager) (distribution : Option (List Nat)) (round : Nat) : Option Nat :=
  distribution.map fun weights => prims.sampleIndex weights ((round * 2 ^ 32 + m.seed) % 2 ^ 64)

def roundLeaderIndex (m : ChainManager) (round : Nat) : Option Nat :=
  m.leaderIndex prims m.distribution round

def fallbackRoundLeaderIndex (m : ChainManager) (round : Nat) : Option Nat :=
  m.leaderIndex prims m.fallbackDistribution round

/-- The owner at an index of the map, if it is the given one. -/
def leaderKey (owners : BTreeMap Owner (PublicKey × Nat)) (index : Nat) (owner : Owner) :
    Option PublicKey :=
  match owners.entries[index]? with
  | some (leader, (publicKey, _)) => if leader = owner then some publicKey else none
  | none => none

/-- Returns the public key of the block proposal's signer, if they are a valid owner and allowed
to propose a block in the proposal's round. -/
def verifyOwner (m : ChainManager) (proposal : BlockProposal) : Option PublicKey :=
  match m.ownership.superOwners.get proposal.owner with
  | some publicKey => some publicKey
  | none =>
    match proposal.content.round with
    | .fast => none  -- Only super owners can propose in the first round.
    | .multiLeader _ =>
      -- Not in leader rotation mode; any owner is allowed to propose.
      (m.ownership.owners.get proposal.owner).map Prod.fst
    | .singleLeader r => do
      let index ← m.roundLeaderIndex prims r
      leaderKey m.ownership.owners index proposal.owner
    | .validator r => do
      let index ← m.fallbackRoundLeaderIndex prims r
      leaderKey m.fallbackOwners index proposal.owner

/-! ## What the checks establish -/

/-- Everything an accepted proposal has passed. -/
structure Acceptable (m : ChainManager) (proposal : BlockProposal) : Prop where
  currentRound_le : m.currentRound ≤ proposal.content.round
  certificate_lt : ∀ cert ∈ proposal.validatedBlockCertificate, cert.round < proposal.content.round
  proposed_lt : ∀ old ∈ m.proposed, old.content.round < proposal.content.round
  fast_block : ∀ old ∈ m.proposed, old.content.round = .fast →
    proposal.validatedBlockCertificate = none → old.content.block = proposal.content.block
  locked_le : ∀ locked ∈ m.locked,
    ∃ cert ∈ proposal.validatedBlockCertificate, locked.round ≤ cert.round

variable {m : ChainManager} {proposal : BlockProposal}

theorem expectedRound_spec {cert : Option LiteCertificate} {r : Round}
    (h : m.expectedRound cert = .ok r) : m.currentRound ≤ r ∧ ∀ c ∈ cert, c.round < r := by
  cases cert with
  | none =>
    cases h
    simp
  | some c =>
    simp only [expectedRound] at h
    split at h
    · next n hn =>
      cases h
      have hlt : c.round < max n m.currentRound :=
        lt_of_lt_of_le (ChainOwnership.lt_nextRound hn) (le_max_left _ _)
      simpa using hlt
    · cases h

theorem expectedRound_le_of_checkRound {r : Round} {u : Unit}
    (h : m.checkRound proposal r = .ok u) : r ≤ proposal.content.round := by
  simp only [checkRound] at h
  split at h
  · simpa using h
  · exact le_of_eq (by simpa using h)

theorem of_checkOldProposal (h : m.checkOldProposal proposal = .ok .accept) :
    ∀ old ∈ m.proposed, old.content.round < proposal.content.round ∧
      (old.content.round = .fast → proposal.validatedBlockCertificate = none →
        old.content.block = proposal.content.block) := by
  intro old hold
  rw [Option.mem_def] at hold
  simp only [checkOldProposal, hold] at h
  split at h
  · cases h
  · obtain ⟨_, hround, h⟩ := Except.bind_eq_ok.mp h
    obtain ⟨_, hblock, -⟩ := Except.bind_eq_ok.mp h
    rw [Except.ensure_eq_ok] at hround hblock
    exact ⟨hround, fun hfast hcert => hblock ⟨by rw [hfast]; rfl, by rw [hcert]; rfl⟩⟩

theorem of_checkLocked {u : Unit} (h : m.checkLocked proposal = .ok u) :
    ∀ locked ∈ m.locked, ∃ cert ∈ proposal.validatedBlockCertificate,
      locked.round ≤ cert.round := by
  intro locked hlocked
  rw [Option.mem_def] at hlocked
  simp only [checkLocked, hlocked, Except.ensure_eq_ok] at h
  obtain ⟨cert, hcert, hle⟩ := (Option.any_eq_true _ _).mp h
  exact ⟨cert, hcert, by simpa using hle⟩

theorem acceptable_of_checkProposedBlock (h : m.checkProposedBlock proposal = .ok .accept) :
    m.Acceptable proposal := by
  obtain ⟨_, -, h⟩ := Except.bind_eq_ok.mp h
  obtain ⟨expected, hexpected, h⟩ := Except.bind_eq_ok.mp h
  obtain ⟨_, hround, h⟩ := Except.bind_eq_ok.mp h
  obtain ⟨outcome, hold, h⟩ := Except.bind_eq_ok.mp h
  cases outcome with
  | skip => cases h
  | accept =>
    obtain ⟨_, hlocked, -⟩ := Except.bind_eq_ok.mp h
    obtain ⟨hcurrent, hcert⟩ := expectedRound_spec hexpected
    have hle := expectedRound_le_of_checkRound hround
    exact {
      currentRound_le := hcurrent.trans hle
      certificate_lt := fun cert hmem => (hcert cert hmem).trans_le hle
      proposed_lt := fun old hmem => (of_checkOldProposal hold old hmem).1
      fast_block := fun old hmem => (of_checkOldProposal hold old hmem).2
      locked_le := of_checkLocked hlocked }

/-- A certificate is only accepted if it is from a later round than the locked one. -/
theorem locked_lt_of_checkValidatedBlock {certificate : ValidatedBlockCertificate}
    (h : m.checkValidatedBlock prims certificate = .ok .accept) :
    ∀ locked ∈ m.locked, locked.round < certificate.round := by
  have hnew : m.checkNewLock prims certificate = .ok .accept := by
    simp only [checkValidatedBlock] at h
    split at h
    · cases h
    · split at h
      · exact h
      · obtain ⟨_, -, h⟩ := Except.bind_eq_ok.mp h
        exact h
  intro locked hlocked
  rw [Option.mem_def] at hlocked
  simp only [checkNewLock, hlocked] at hnew
  split at hnew
  · cases hnew
  · obtain ⟨_, hlt, -⟩ := Except.bind_eq_ok.mp hnew
    simpa using hlt

/-! ## What the updates do -/

@[simp] theorem updateCurrentRound_ownership (m : ChainManager) (t : Nat) :
    (m.updateCurrentRound t).ownership = m.ownership := by
  simp only [updateCurrentRound]
  split <;> rfl

@[simp] theorem updateCurrentRound_proposed (m : ChainManager) (t : Nat) :
    (m.updateCurrentRound t).proposed = m.proposed := by
  simp only [updateCurrentRound]
  split <;> rfl

@[simp] theorem updateCurrentRound_locked (m : ChainManager) (t : Nat) :
    (m.updateCurrentRound t).locked = m.locked := by
  simp only [updateCurrentRound]
  split <;> rfl

theorem le_updateCurrentRound (m : ChainManager) (t : Nat) :
    m.currentRound ≤ (m.updateCurrentRound t).currentRound := by
  simp only [updateCurrentRound]
  split
  · exact le_rfl
  · next h => exact (not_le.mp h).le

/-- The current round is at least each of the rounds it is computed from. -/
theorem le_updateCurrentRound_of_mem {r : Round} (t : Nat) (hr : r ∈ m.knownRounds) :
    r ≤ (m.updateCurrentRound t).currentRound := by
  have hle : r ≤ m.knownRounds.max?.getD .fast := by
    obtain ⟨a, ha⟩ := Option.isSome_iff_exists.mp (List.isSome_max?_of_mem hr)
    rw [ha]
    exact (List.max?_eq_some_iff.mp ha).2 r hr
  simp only [updateCurrentRound]
  split
  · next h => exact (hle.trans (le_max_left _ _)).trans h
  · exact hle.trans (le_max_left _ _)

variable {prims}

/-- After a proposal whose certificate is for the proposed block, the locked block is at least
as recent as that certificate. -/
theorem updateLocked_cases {executedBlock : ExecutedBlock} (blobs : BTreeMap BlobId Blob)
    (hcert : ∀ cert ∈ proposal.validatedBlockCertificate,
      (cert.withValue prims (ValidatedBlock.mk executedBlock)).isSome) :
    (m.updateLocked prims proposal executedBlock blobs = m ∧
      ∀ cert ∈ proposal.validatedBlockCertificate, ∃ l ∈ m.locked, cert.round ≤ l.round) ∨
    ∃ cert ∈ proposal.validatedBlockCertificate, (∀ l ∈ m.locked, l.round < cert.round) ∧
      m.updateLocked prims proposal executedBlock blobs = { m with
        locked := some (.new ⟨executedBlock⟩ cert.round cert.signatures)
        lockedBlobs := blobs } := by
  simp only [updateLocked]
  cases hp : proposal.validatedBlockCertificate with
  | none => simp
  | some cert =>
    obtain ⟨full, hfull⟩ := Option.isSome_iff_exists.mp (hcert cert hp)
    obtain ⟨-, rfl⟩ := LiteCertificate.withValue_eq_some.mp hfull
    simp only [Option.mem_some_iff, forall_eq', exists_eq_left']
    split
    · next hall =>
      rw [Option.all_eq_true] at hall
      exact .inr ⟨fun l hl => by simpa using hall l hl, by rw [hfull]⟩
    · next hall =>
      rw [Option.all_eq_true] at hall
      push Not at hall
      obtain ⟨l, hl, hlt⟩ := hall
      exact .inl ⟨rfl, l, hl, by simpa using hlt⟩

@[simp] theorem updateLocked_ownership (m : ChainManager) (proposal : BlockProposal)
    (executedBlock : ExecutedBlock) (blobs : BTreeMap BlobId Blob) :
    (m.updateLocked prims proposal executedBlock blobs).ownership = m.ownership := by
  simp only [updateLocked]
  repeat' split
  all_goals rfl

@[simp] theorem updateLocked_currentRound (m : ChainManager) (proposal : BlockProposal)
    (executedBlock : ExecutedBlock) (blobs : BTreeMap BlobId Blob) :
    (m.updateLocked prims proposal executedBlock blobs).currentRound = m.currentRound := by
  simp only [updateLocked]
  repeat' split
  all_goals rfl

variable (prims)

section createVote

variable (m : ChainManager) (proposal : BlockProposal) (executedBlock : ExecutedBlock)
  (keyPair : KeyPair) (localTime : Nat) (blobs : BTreeMap BlobId Blob)

@[simp] theorem createVote_proposed :
    (m.createVote prims proposal executedBlock (some keyPair) localTime blobs).1.proposed =
      some proposal := by
  simp only [createVote]
  split <;> simp

@[simp] theorem createVote_locked :
    (m.createVote prims proposal executedBlock (some keyPair) localTime blobs).1.locked =
      (m.updateLocked prims proposal executedBlock blobs).locked := by
  simp only [createVote]
  split <;> simp

theorem createVote_vote :
    (m.createVote prims proposal executedBlock (some keyPair) localTime blobs).2 =
      some (if proposal.content.round.isFast
        then .inr (.new prims ⟨executedBlock⟩ proposal.content.round keyPair)
        else .inl (.new prims ⟨executedBlock⟩ proposal.content.round keyPair)) := by
  simp only [createVote]
  split <;> rfl

end createVote

section createFinalVote

variable (m : ChainManager) (validated : ValidatedBlockCertificate) (keyPair : KeyPair)
  (localTime : Nat) (blobs : BTreeMap BlobId Blob)

variable {m validated} in
theorem createFinalVote_of_lt (h : validated.round < m.currentRound) :
    m.createFinalVote prims validated (some keyPair) localTime blobs = m := by
  simp [createFinalVote, h]

variable {m validated} in
theorem createFinalVote_of_le (h : m.currentRound ≤ validated.round) :
    let m' := m.createFinalVote prims validated (some keyPair) localTime blobs
    m'.ownership = m.ownership ∧ m'.proposed = m.proposed ∧ m'.locked = some validated ∧
      m'.confirmedVote =
        some (.new prims ⟨validated.value.executedBlock⟩ validated.round keyPair) ∧
      max m.currentRound validated.round ≤ m'.currentRound := by
  have hlt : ¬validated.round < m.currentRound := not_lt.mpr h
  simp only [createFinalVote, Option.isSome_some, true_and, hlt, if_false]
  refine ⟨by simp, by simp, by simp, max_le ?_ ?_⟩
  · exact le_updateCurrentRound { m with locked := some validated, lockedBlobs := blobs } localTime
  · exact le_updateCurrentRound_of_mem _ (by simp [knownRounds])

end createFinalVote

@[simp] theorem handleTimeoutCertificate_ownership (m : ChainManager)
    (certificate : TimeoutCertificate) (t : Nat) :
    (m.handleTimeoutCertificate certificate t).ownership = m.ownership := by
  simp only [handleTimeoutCertificate]
  split <;> simp

@[simp] theorem handleTimeoutCertificate_proposed (m : ChainManager)
    (certificate : TimeoutCertificate) (t : Nat) :
    (m.handleTimeoutCertificate certificate t).proposed = m.proposed := by
  simp only [handleTimeoutCertificate]
  split <;> simp

@[simp] theorem handleTimeoutCertificate_locked (m : ChainManager)
    (certificate : TimeoutCertificate) (t : Nat) :
    (m.handleTimeoutCertificate certificate t).locked = m.locked := by
  simp only [handleTimeoutCertificate]
  split <;> simp

theorem le_handleTimeoutCertificate_currentRound (m : ChainManager)
    (certificate : TimeoutCertificate) (t : Nat) :
    m.currentRound ≤ (m.handleTimeoutCertificate certificate t).currentRound := by
  simp only [handleTimeoutCertificate]
  split
  · exact le_rfl
  · exact le_updateCurrentRound { m with timeout := some certificate } t

/-- A vote for a timeout or for the fallback mode only touches the record of that vote. -/
theorem voteTimeout_eq (m : ChainManager) (chainId : ChainId) (height epoch : Nat)
    (keyPair : Option KeyPair) (t : Nat) :
    ∃ vote, (m.voteTimeout prims chainId height epoch keyPair t).1 =
      { m with timeoutVote := vote } := by
  simp only [voteTimeout]
  repeat' split
  all_goals exact ⟨_, rfl⟩

theorem voteFallback_eq (m : ChainManager) (chainId : ChainId) (height epoch : Nat)
    (keyPair : Option KeyPair) : ∃ vote, (m.voteFallback prims chainId height epoch keyPair).1 =
      { m with fallbackVote := vote } := by
  simp only [voteFallback]
  repeat' split
  all_goals exact ⟨_, rfl⟩

end ChainManager

end Linera
