import Linera.Chain.Manager
import Linera.Lib.Run

/-!
# The locking rule of one validator

A validator takes proposals, validated block certificates and timeouts one after
another, and votes. The rule that the protocol's safety rests on is
`LockingRule`: whoever has voted to confirm a block in some round only votes to
validate a different one in a later round on the strength of a validated block
certificate from the rounds between.

After a vote to confirm a validated block the manager holds the lock in `locked`
(`Locks`). After a vote in the fast round the lock is only implicit: it is the
proposal in `proposed`, which the next proposal replaces. `lockingRule_iff` says
that this is the one way in which the rule can be broken, and
`lockingRule_violated` is a run in which it happens.
-/

namespace Linera

/-- A vote of a validator on a block, with the proposal it was cast on if there was one. -/
inductive CastVote where
  | validate (vote : Vote ValidatedBlock) (proposal : BlockProposal)
  | confirm (vote : Vote ConfirmedBlock)
deriving DecidableEq

/-- A validator at one height of a chain: its manager, and the votes on blocks that it has cast,
in their order. -/
structure Validator where
  manager : ChainManager
  votes : List CastVote
deriving DecidableEq

namespace Validator

/-- What a validator handles. The executed block of a proposal and the blobs come from the
checks before `create_vote` and `create_final_vote`. -/
inductive Event where
  | proposal (proposal : BlockProposal) (executedBlock : ExecutedBlock) (localTime : Nat)
      (blobs : BTreeMap BlobId Blob)
  | validatedBlock (certificate : ValidatedBlockCertificate) (localTime : Nat)
      (blobs : BTreeMap BlobId Blob)
  | timeout (certificate : TimeoutCertificate) (localTime : Nat)
  | voteTimeout (chainId : ChainId) (height epoch localTime : Nat)
  | voteFallback (chainId : ChainId) (height epoch : Nat)

variable (prims : Primitives)

/-- The executed block is the proposed one, and an attached certificate is for it. -/
def Certifies (proposal : BlockProposal) (executedBlock : ExecutedBlock) : Prop :=
  executedBlock.block = proposal.content.block ∧
    ∀ cert ∈ proposal.validatedBlockCertificate,
      (cert.withValue prims (ValidatedBlock.mk executedBlock)).isSome

instance (proposal : BlockProposal) (executedBlock : ExecutedBlock) :
    Decidable (Certifies prims proposal executedBlock) :=
  inferInstanceAs (Decidable (_ ∧ ∀ cert ∈ proposal.validatedBlockCertificate, _))

/-- The vote that `create_vote` returns. -/
def ofCreateVote (proposal : BlockProposal) : Vote ValidatedBlock ⊕ Vote ConfirmedBlock → CastVote
  | .inl vote => .validate vote proposal
  | .inr vote => .confirm vote

variable (keyPair : KeyPair)

/-- One step of a validator: a proposal or certificate that passes its check is voted on. -/
def step (v : Validator) : Event → Option Validator
  | .proposal proposal executedBlock localTime blobs =>
    if v.manager.checkProposedBlock proposal = .ok .accept ∧
        Certifies prims proposal executedBlock then
      let (manager, vote) :=
        v.manager.createVote prims proposal executedBlock (some keyPair) localTime blobs
      some ⟨manager, v.votes ++ vote.toList.map (ofCreateVote proposal)⟩
    else none
  | .validatedBlock certificate localTime blobs =>
    if v.manager.checkValidatedBlock prims certificate = .ok .accept then
      let manager := v.manager.createFinalVote prims certificate (some keyPair) localTime blobs
      -- `createFinalVote` returns without a vote if the certificate is from an earlier round.
      if certificate.round < v.manager.currentRound then some ⟨manager, v.votes⟩
      else some ⟨manager, v.votes ++ manager.confirmedVote.toList.map .confirm⟩
    else none
  | .timeout certificate localTime =>
    some ⟨v.manager.handleTimeoutCertificate certificate localTime, v.votes⟩
  | .voteTimeout chainId height epoch localTime =>
    some ⟨(v.manager.voteTimeout prims chainId height epoch (some keyPair) localTime).1, v.votes⟩
  | .voteFallback chainId height epoch =>
    some ⟨(v.manager.voteFallback prims chainId height epoch (some keyPair)).1, v.votes⟩

/-- A vote to validate after a vote to confirm a different block, in the same or an earlier round
`s`, is on a proposal with a certificate for its own block, from a round between them. -/
def RespectsLock : CastVote → CastVote → Prop
  | .confirm confirmed, .validate validated proposal =>
    confirmed.value.executedBlock.block ≠ validated.value.executedBlock.block →
    confirmed.round ≤ validated.round →
      ∃ cert ∈ proposal.validatedBlockCertificate,
        (cert.withValue prims validated.value).isSome ∧
          confirmed.round ≤ cert.round ∧ cert.round < validated.round
  | _, _ => True

instance : DecidableRel (RespectsLock prims)
  | .confirm confirmed, .validate validated proposal =>
    inferInstanceAs (Decidable (_ → _ → ∃ cert ∈ proposal.validatedBlockCertificate,
      (cert.withValue prims validated.value).isSome ∧
        confirmed.round ≤ cert.round ∧ cert.round < validated.round))
  | .validate _ _, _ | .confirm _, .confirm _ => isTrue trivial

/-- The locking rule, for the votes of a validator in the order in which it cast them. -/
def LockingRule (votes : List CastVote) : Prop := votes.Pairwise (RespectsLock prims)

instance (votes : List CastVote) : Decidable (LockingRule prims votes) :=
  inferInstanceAs (Decidable (votes.Pairwise (RespectsLock prims)))

/-- A proposal without certificate that arrives when nothing is locked, and when another proposal
has taken the place of the fast one, is for the block that was confirmed in the fast round. -/
def FastLockKept (v : Validator) : Event → Prop
  | .proposal proposal _ _ _ =>
    proposal.validatedBlockCertificate = none → v.manager.locked = none →
    (∀ old ∈ v.manager.proposed, old.content.round ≠ .fast) →
      ∀ vote, .confirm vote ∈ v.votes → vote.round = .fast →
        vote.value.executedBlock.block = proposal.content.block
  | _ => True

/-! ## What one step does -/

/-- The vote that a proposal gets. -/
def voteOn (proposal : BlockProposal) (executedBlock : ExecutedBlock) : CastVote :=
  if proposal.content.round.isFast
  then .confirm (.new prims ⟨executedBlock⟩ proposal.content.round keyPair)
  else .validate (.new prims ⟨executedBlock⟩ proposal.content.round keyPair) proposal

/-- The manager's registers for blocks are as they were, and its round is no lower. -/
structure Unlocked (m m' : ChainManager) : Prop where
  ownership : m'.ownership = m.ownership
  proposed : m'.proposed = m.proposed
  locked : m'.locked = m.locked
  currentRound : m.currentRound ≤ m'.currentRound

variable {prims keyPair}

variable {v v' : Validator} {executedBlock : ExecutedBlock} {proposal : BlockProposal}

theorem step_proposal {t : Nat} {blobs : BTreeMap BlobId Blob}
    (h : v.step prims keyPair (.proposal proposal executedBlock t blobs) = some v') :
    v.manager.Acceptable proposal ∧ Certifies prims proposal executedBlock ∧
      v' = ⟨(v.manager.createVote prims proposal executedBlock (some keyPair) t blobs).1,
        v.votes ++ [voteOn prims keyPair proposal executedBlock]⟩ := by
  simp only [step] at h
  split at h
  · next hcheck =>
    cases h
    refine ⟨ChainManager.acceptable_of_checkProposedBlock hcheck.1, hcheck.2, ?_⟩
    rw [ChainManager.createVote_vote, voteOn]
    split <;> rfl
  · cases h

/-- Everything a step can do: vote on a proposal, vote to confirm a validated block, or change
nothing but the round. -/
theorem step_cases {event : Event} (h : v.step prims keyPair event = some v') :
    (∃ proposal executedBlock t blobs, event = .proposal proposal executedBlock t blobs ∧
      v.manager.Acceptable proposal ∧ Certifies prims proposal executedBlock ∧
      v' = ⟨(v.manager.createVote prims proposal executedBlock (some keyPair) t blobs).1,
        v.votes ++ [voteOn prims keyPair proposal executedBlock]⟩) ∨
    (∃ certificate t blobs, event = .validatedBlock certificate t blobs ∧
      (∀ l ∈ v.manager.locked, l.round < certificate.round) ∧
      v.manager.currentRound ≤ certificate.round ∧
      v' = ⟨v.manager.createFinalVote prims certificate (some keyPair) t blobs,
        v.votes ++ [.confirm (.new prims ⟨certificate.value.executedBlock⟩ certificate.round
          keyPair)]⟩) ∨
    (Unlocked v.manager v'.manager ∧ v'.votes = v.votes) := by
  cases event with
  | proposal proposal executedBlock t blobs =>
    exact .inl ⟨proposal, executedBlock, t, blobs, rfl, step_proposal h⟩
  | validatedBlock certificate t blobs =>
    simp only [step] at h
    split at h
    · next hcheck =>
      have hlt := ChainManager.locked_lt_of_checkValidatedBlock prims hcheck
      split at h
      · -- An older certificate leaves the manager as it is.
        next hround =>
        cases h
        rw [ChainManager.createFinalVote_of_lt _ _ _ _ hround]
        exact .inr (.inr ⟨⟨rfl, rfl, rfl, le_rfl⟩, rfl⟩)
      · next hround =>
        cases h
        have hle := not_lt.mp hround
        obtain ⟨-, -, -, hvote, -⟩ :=
          ChainManager.createFinalVote_of_le prims keyPair t blobs hle
        exact .inr (.inl ⟨certificate, t, blobs, rfl, hlt, hle, by rw [hvote]; rfl⟩)
    · cases h
  | timeout certificate t =>
    cases h
    exact .inr (.inr ⟨⟨by simp, by simp, by simp,
      ChainManager.le_handleTimeoutCertificate_currentRound _ _ _⟩, rfl⟩)
  | voteTimeout chainId height epoch t =>
    cases h
    obtain ⟨vote, heq⟩ :=
      ChainManager.voteTimeout_eq prims v.manager chainId height epoch (some keyPair) t
    exact .inr (.inr ⟨by rw [heq]; exact ⟨rfl, rfl, rfl, le_rfl⟩, rfl⟩)
  | voteFallback chainId height epoch =>
    cases h
    obtain ⟨vote, heq⟩ :=
      ChainManager.voteFallback_eq prims v.manager chainId height epoch (some keyPair)
    exact .inr (.inr ⟨by rw [heq]; exact ⟨rfl, rfl, rfl, le_rfl⟩, rfl⟩)

/-! ## The lock is kept -/

/-- The manager still holds the lock of a vote to confirm: in `locked`, or, after a vote in the
fast round, as the proposal of that round unless another one has replaced it. -/
def Locks (m : ChainManager) (vote : Vote ConfirmedBlock) : Prop :=
  (∃ l ∈ m.locked, vote.round ≤ l.round) ∨
    (vote.round = .fast ∧ m.locked = none ∧ ∃ old ∈ m.proposed,
      old.content.round = .fast → old.content.block = vote.value.executedBlock.block)

section

variable {m : ChainManager} {vote : Vote ConfirmedBlock} {proposal : BlockProposal}
  {executedBlock : ExecutedBlock}

theorem ne_fast_of_lt {r s : Round} (h : r < s) : s ≠ .fast := by
  rintro rfl
  exact absurd h (not_lt.mpr (Round.fast_le r))

theorem Locks.createVote (hlock : Locks m vote) (hacc : m.Acceptable proposal)
    (hcert : Certifies prims proposal executedBlock) (t : Nat) (blobs : BTreeMap BlobId Blob) :
    Locks (m.createVote prims proposal executedBlock (some keyPair) t blobs).1 vote := by
  simp only [Locks, ChainManager.createVote_locked, ChainManager.createVote_proposed]
  obtain ⟨heq, -⟩ | ⟨cert, -, hlt, heq⟩ := ChainManager.updateLocked_cases blobs hcert.2
  · rw [heq]
    obtain hlocked | ⟨hfast, hnone, old, hold, -⟩ := hlock
    · exact .inl hlocked
    · -- The new proposal is from a later round than the one it replaces.
      have hround := ne_fast_of_lt (hacc.proposed_lt old hold)
      exact .inr ⟨hfast, hnone, proposal, rfl, fun h => absurd h hround⟩
  · rw [heq]
    refine .inl ⟨_, rfl, ?_⟩
    obtain ⟨l, hl, hle⟩ | ⟨hfast, -⟩ := hlock
    · exact hle.trans (hlt l hl).le
    · rw [hfast]
      exact Round.fast_le _

theorem locks_fast_vote (hacc : m.Acceptable proposal)
    (hcert : Certifies prims proposal executedBlock) (hfast : proposal.content.round = .fast)
    (t : Nat) (blobs : BTreeMap BlobId Blob) :
    Locks (m.createVote prims proposal executedBlock (some keyPair) t blobs).1
      (.new prims ⟨executedBlock⟩ proposal.content.round keyPair) := by
  -- No certificate is from a round before the fast one, so there is none, and no lock.
  have hnone : proposal.validatedBlockCertificate = none :=
    Option.eq_none_iff_forall_not_mem.mpr
      fun cert hmem => ne_fast_of_lt (hacc.certificate_lt cert hmem) hfast
  have hlocked : m.locked = none := by
    refine Option.eq_none_iff_forall_not_mem.mpr fun l hl => ?_
    obtain ⟨cert, hmem, -⟩ := hacc.locked_le l hl
    rw [hnone] at hmem
    cases hmem
  refine .inr ⟨hfast, ?_, proposal, ?_, fun _ => hcert.1.symm⟩
  · simp [ChainManager.updateLocked, hnone, hlocked]
  · simp

theorem Locks.createFinalVote (hlock : Locks m vote) {certificate : ValidatedBlockCertificate}
    (hlt : ∀ l ∈ m.locked, l.round < certificate.round)
    (hle : m.currentRound ≤ certificate.round) (t : Nat) (blobs : BTreeMap BlobId Blob) :
    Locks (m.createFinalVote prims certificate (some keyPair) t blobs) vote := by
  obtain ⟨-, -, hlocked, -⟩ := ChainManager.createFinalVote_of_le prims keyPair t blobs hle
  refine .inl ⟨certificate, hlocked, ?_⟩
  obtain ⟨l, hl, hround⟩ | ⟨hfast, -⟩ := hlock
  · exact hround.trans (hlt l hl).le
  · rw [hfast]
    exact Round.fast_le _

end

/-- The manager holds the locks of all votes to confirm. -/
def HoldsLocks (v : Validator) : Prop := ∀ vote, .confirm vote ∈ v.votes → Locks v.manager vote

theorem HoldsLocks.step {event : Event} (hv : HoldsLocks v)
    (h : v.step prims keyPair event = some v') : HoldsLocks v' := by
  intro vote hmem
  obtain ⟨proposal, executedBlock, t, blobs, -, hacc, hcert, rfl⟩ |
    ⟨certificate, t, blobs, -, hlt, hle, rfl⟩ | ⟨hsame, hvotes⟩ := step_cases h
  · obtain hmem | hmem := List.mem_append.mp hmem
    · exact (hv vote hmem).createVote hacc hcert t blobs
    · rw [List.mem_singleton, voteOn] at hmem
      split at hmem
      · next hfast =>
        cases hmem
        exact locks_fast_vote hacc hcert (Round.isFast_iff.mp hfast) t blobs
      · cases hmem
  · obtain hmem | hmem := List.mem_append.mp hmem
    · exact (hv vote hmem).createFinalVote hlt hle t blobs
    · cases List.mem_singleton.mp hmem
      obtain ⟨-, -, hlocked, -⟩ := ChainManager.createFinalVote_of_le prims keyPair t blobs hle
      exact .inl ⟨certificate, hlocked, le_rfl⟩
  · rw [hvotes] at hmem
    simpa only [Locks, hsame.locked, hsame.proposed] using hv vote hmem

/-! ## The rule over a run -/

theorem respectsLock_voteOn {m : ChainManager} {vote : Vote ConfirmedBlock} (hlock : Locks m vote)
    (hacc : m.Acceptable proposal) (hcert : Certifies prims proposal executedBlock)
    (hkept : proposal.validatedBlockCertificate = none → m.locked = none →
      (∀ old ∈ m.proposed, old.content.round ≠ .fast) → vote.round = .fast →
        vote.value.executedBlock.block = proposal.content.block) :
    RespectsLock prims (.confirm vote) (voteOn prims keyPair proposal executedBlock) := by
  rw [voteOn]
  split
  · trivial
  · intro hne hle
    have hattached : ∀ cert ∈ proposal.validatedBlockCertificate, vote.round ≤ cert.round →
        ∃ cert ∈ proposal.validatedBlockCertificate,
          (cert.withValue prims (ValidatedBlock.mk executedBlock)).isSome ∧
            vote.round ≤ cert.round ∧ cert.round < proposal.content.round :=
      fun cert hmem hround =>
        ⟨cert, hmem, hcert.2 cert hmem, hround, hacc.certificate_lt cert hmem⟩
    obtain ⟨l, hl, hround⟩ | ⟨hfast, hnone, old, hold, hblock⟩ := hlock
    · obtain ⟨cert, hmem, hlocked⟩ := hacc.locked_le l hl
      exact hattached cert hmem (hround.trans hlocked)
    · cases hp : proposal.validatedBlockCertificate with
      | some cert =>
        rw [hp] at hattached
        exact hattached cert rfl (by rw [hfast]; exact Round.fast_le _)
      | none =>
        -- Without a certificate the block must be the one confirmed in the fast round: the
        -- manager checks this as long as it knows the fast proposal.
        refine absurd ?_ hne
        change _ = executedBlock.block
        rw [hcert.1]
        by_cases holdFast : old.content.round = .fast
        · rw [← hblock holdFast, hacc.fast_block old hold holdFast hp]
        · refine hkept hp hnone (fun old' hold' => ?_) hfast
          cases Option.mem_unique hold hold'
          exact holdFast

/-- A vote on a proposal keeps the rule exactly if the fast lock is kept. -/
theorem lockingRule_voteOn_iff {v : Validator} {t : Nat} {blobs : BTreeMap BlobId Blob}
    (hv : HoldsLocks v) (hacc : v.manager.Acceptable proposal)
    (hcert : Certifies prims proposal executedBlock) :
    LockingRule prims (v.votes ++ [voteOn prims keyPair proposal executedBlock]) ↔
      LockingRule prims v.votes ∧ FastLockKept v (.proposal proposal executedBlock t blobs) := by
  simp only [LockingRule, List.pairwise_append, List.pairwise_singleton, List.mem_singleton,
    forall_eq, true_and, FastLockKept]
  refine and_congr_right fun _ => ⟨fun h hnone hlocked hproposed vote hmem hfast => ?_,
    fun h vote hmem => ?_⟩
  · -- The fast proposal has been replaced, so this one is from a later round: a vote to
    -- validate, and not on the strength of a certificate.
    obtain ⟨l, hl, -⟩ | ⟨-, -, old, hold, -⟩ := hv vote hmem
    · rw [hlocked] at hl
      cases hl
    have hround := ne_fast_of_lt (hacc.proposed_lt old hold)
    have hrespects := h _ hmem
    rw [voteOn, if_neg (by simpa using hround)] at hrespects
    by_contra hne
    obtain ⟨cert, hcert', -⟩ := hrespects (by rw [← hcert.1] at hne; exact hne)
      (by rw [hfast]; exact Round.fast_le _)
    rw [hnone] at hcert'
    cases hcert'
  · cases vote with
    | validate => trivial
    | confirm vote =>
      exact respectsLock_voteOn (hv vote hmem) hacc hcert
        fun hnone hlocked hproposed => h hnone hlocked hproposed vote hmem

/-- A step keeps the rule exactly if it keeps the fast lock. -/
theorem lockingRule_step_iff {event : Event} (hv : HoldsLocks v)
    (h : v.step prims keyPair event = some v') :
    LockingRule prims v'.votes ↔ LockingRule prims v.votes ∧ FastLockKept v event := by
  cases event with
  | proposal proposal executedBlock t blobs =>
    obtain ⟨hacc, hcert, rfl⟩ := step_proposal h
    exact lockingRule_voteOn_iff hv hacc hcert
  | validatedBlock certificate t blobs =>
    obtain ⟨_, _, _, _, ⟨⟩, -⟩ | ⟨_, _, _, -, -, -, rfl⟩ | ⟨-, hvotes⟩ := step_cases h
    · simp [LockingRule, List.pairwise_append, FastLockKept, RespectsLock]
    · simp [hvotes, FastLockKept]
  | timeout | voteTimeout | voteFallback =>
    cases h
    simp [FastLockKept]

/-- The rule over a run from any state in which the locks are held. -/
theorem lockingRule_run_iff {events : List Event} (hv : HoldsLocks v)
    (hrun : Run.run (step prims keyPair) v events = some v') : LockingRule prims v'.votes ↔
      LockingRule prims v.votes ∧ Run.Along (step prims keyPair) FastLockKept v events := by
  induction events generalizing v with
  | nil =>
    cases hrun
    simp [Run.Along]
  | cons event events ih =>
    obtain ⟨u, hstep, hrest⟩ := Run.run_cons.mp hrun
    rw [ih (hv.step hstep) hrest, lockingRule_step_iff hv hstep, and_assoc]
    simp [Run.Along, hstep]

/-- **The locking rule.** In a run from any manager that has not voted yet, the rule holds if and
only if every proposal without certificate that comes after the fast proposal has been replaced,
while nothing is locked, is for the block confirmed in the fast round. -/
theorem lockingRule_iff {m : ChainManager} {events : List Event} {v : Validator}
    (hrun : Run.run (step prims keyPair) ⟨m, []⟩ events = some v) :
    LockingRule prims v.votes ↔ Run.Along (step prims keyPair) FastLockKept ⟨m, []⟩ events := by
  have hstart : HoldsLocks ⟨m, []⟩ := fun vote hmem => by cases hmem
  rw [lockingRule_run_iff hstart hrun]
  simp [LockingRule]

-- A chain with one super owner and two multi-leader rounds, and three proposals of that owner:
-- one in the fast round, and one in each multi-leader round.

/-- Library functions that are simple enough to compute with. -/
def simplePrimitives : Primitives where
  owner publicKey := ⟨⟨publicKey.value⟩⟩
  chainId
    | .root index => ⟨⟨2 * index⟩⟩
    | .child id => ⟨⟨2 * id.index + 1⟩⟩
  hashExecutedBlock executedBlock := ⟨executedBlock.block.timestamp⟩
  hashTimeout timeout := ⟨timeout.height⟩
  signVote _ keyPair := ⟨keyPair.secret⟩
  checkVote signature _ publicKey := signature.value == publicKey.value
  checkProposal signature _ publicKey := signature.value == publicKey.value
  checkWeights _ := .ok ()
  sampleIndex _ _ := 0

def superOwner : ChainOwnership where
  superOwners := .ofList [(⟨⟨1⟩⟩, ⟨1⟩)]
  owners := .empty
  multiLeaderRounds := 2
  timeoutConfig := .default

def emptyBlock (timestamp : Nat) : ExecutedBlock where
  block := ⟨⟨⟨0⟩⟩, 0, [], [], 0, timestamp, none, none⟩
  outcome := ⟨[], ⟨0⟩, [], []⟩

/-- The super owner proposes the block with the given timestamp. -/
def propose (round : Round) (timestamp : Nat) : Event :=
  .proposal ⟨⟨(emptyBlock timestamp).block, round, none⟩, ⟨⟨1⟩⟩, ⟨1⟩, [], none⟩
    (emptyBlock timestamp) 0 .empty

/-- Proposing the fast block again keeps the rule. -/
theorem lockingRule_iff_reproposal :
    ∃ m ∈ (ChainManager.new simplePrimitives superOwner 0 0 []).toOption,
      ∃ v ∈ Run.run (step simplePrimitives ⟨⟨7⟩, 7⟩) ⟨m, []⟩
        [propose .fast 0, propose (.multiLeader 0) 0],
      LockingRule simplePrimitives v.votes ∧
        Run.Along (step simplePrimitives ⟨⟨7⟩, 7⟩) FastLockKept ⟨m, []⟩
          [propose .fast 0, propose (.multiLeader 0) 0] := by
  obtain ⟨m, hm, v, hv, hrule⟩ : ∃ m ∈ (ChainManager.new simplePrimitives superOwner 0 0 []).toOption,
      ∃ v ∈ Run.run (step simplePrimitives ⟨⟨7⟩, 7⟩) ⟨m, []⟩
        [propose .fast 0, propose (.multiLeader 0) 0],
      LockingRule simplePrimitives v.votes := by decide
  exact ⟨m, hm, v, hv, hrule, (lockingRule_iff hv).mp hrule⟩

/-- After a second proposal of the fast block the validator votes for a different one, without any
certificate. -/
theorem lockingRule_violated :
    ∃ m ∈ (ChainManager.new simplePrimitives superOwner 0 0 []).toOption,
      ∃ v ∈ Run.run (step simplePrimitives ⟨⟨7⟩, 7⟩) ⟨m, []⟩
        [propose .fast 0, propose (.multiLeader 0) 0, propose (.multiLeader 1) 1],
      ¬LockingRule simplePrimitives v.votes := by
  decide

end Validator

end Linera
