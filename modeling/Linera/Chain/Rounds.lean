import Linera.Chain.Locking

/-!
# Rounds and votes never go back

The manager computes its round from three registers: the timeout certificate, the locked block
and the proposal. `updateCurrentRound` only ever raises it, and skips the update if the computed
round is not higher. That the round is nevertheless always *equal* to the computed one rests on
the registers themselves never going back (`ChainManager.Advances`), whatever the order in which
proposals and certificates arrive.
-/

namespace Linera

namespace ChainManager

def latestRound (m : ChainManager) : Round := m.knownRounds.foldr max m.ownership.firstRound

/-- The registers that rounds are computed from do not go back. -/
structure Advances (m m' : ChainManager) : Prop where
  ownership : m'.ownership = m.ownership
  timeout : ∀ c ∈ m.timeout, ∃ c' ∈ m'.timeout, c.round ≤ c'.round
  locked : ∀ l ∈ m.locked, ∃ l' ∈ m'.locked, l.round ≤ l'.round
  proposed : ∀ p ∈ m.proposed, ∃ p' ∈ m'.proposed, p.content.round ≤ p'.content.round

variable {m m' : ChainManager}

theorem foldr_max_le_iff {rounds : List Round} {first r : Round} :
    rounds.foldr max first ≤ r ↔ first ≤ r ∧ ∀ s ∈ rounds, s ≤ r := by
  induction rounds with
  | nil => simp
  | cons s rounds ih => simp [ih, and_left_comm]

theorem mem_knownRounds {r : Round} : r ∈ m.knownRounds ↔
    (∃ c ∈ m.timeout, (m.ownership.nextRound c.round).getD (.validator u32Max) = r) ∨
      (∃ l ∈ m.locked, l.round = r) ∨ ∃ p ∈ m.proposed, p.content.round = r := by
  simp [knownRounds]

theorem latestRound_le_iff {r : Round} :
    m.latestRound ≤ r ↔ m.ownership.firstRound ≤ r ∧ ∀ s ∈ m.knownRounds, s ≤ r :=
  foldr_max_le_iff

theorem firstRound_le_latestRound : m.ownership.firstRound ≤ m.latestRound :=
  (latestRound_le_iff.mp le_rfl).1

theorem le_latestRound {r : Round} (h : r ∈ m.knownRounds) : r ≤ m.latestRound :=
  (latestRound_le_iff.mp le_rfl).2 r h

theorem round_locked_le {l : ValidatedBlockCertificate} (hl : l ∈ m.locked) :
    l.round ≤ m.latestRound :=
  le_latestRound (mem_knownRounds.mpr (.inr (.inl ⟨l, hl, rfl⟩)))

theorem round_proposed_le {p : BlockProposal} (hp : p ∈ m.proposed) :
    p.content.round ≤ m.latestRound :=
  le_latestRound (mem_knownRounds.mpr (.inr (.inr ⟨p, hp, rfl⟩)))

variable {validated : ValidatedBlockCertificate} {proposal : BlockProposal} {r : ChainManager}

/-- With the timeout certificate of a manager in an earlier round, only a new lock or a new
proposal can lead beyond a round. -/
theorem latestRound_le {round : Round} (hlatest : m.latestRound ≤ round)
    (hownership : r.ownership = m.ownership) (htimeout : r.timeout = m.timeout)
    (hlocked : ∀ l ∈ r.locked, l.round ≤ round)
    (hproposed : ∀ p ∈ r.proposed, p.content.round ≤ round) : r.latestRound ≤ round := by
  refine latestRound_le_iff.mpr ⟨?_, fun s hs => ?_⟩
  · rw [hownership]
    exact firstRound_le_latestRound.trans hlatest
  · obtain ⟨c, hc, rfl⟩ | ⟨l, hl, rfl⟩ | ⟨p, hp, rfl⟩ := mem_knownRounds.mp hs
    · rw [htimeout] at hc
      rw [hownership]
      exact (le_latestRound (mem_knownRounds.mpr (.inl ⟨c, hc, rfl⟩))).trans hlatest
    · exact hlocked l hl
    · exact hproposed p hp

/-- The round that `updateCurrentRound` computes. -/
theorem max_knownRounds :
    max (m.knownRounds.max?.getD .fast) m.ownership.firstRound = m.latestRound := by
  refine eq_of_forall_ge_iff fun r => ?_
  rw [max_le_iff, latestRound_le_iff, and_comm]
  refine and_congr_right fun _ => ?_
  cases hmax : m.knownRounds.max? with
  | none =>
    rw [List.max?_eq_none_iff] at hmax
    simp [hmax, Round.fast_le]
  | some s =>
    obtain ⟨hmem, hle⟩ := List.max?_eq_some_iff.mp hmax
    exact ⟨fun h t ht => (hle t ht).trans h, fun h => h s hmem⟩

namespace Advances

theorem refl (m : ChainManager) : m.Advances m :=
  ⟨rfl, fun c hc => ⟨c, hc, le_rfl⟩, fun l hl => ⟨l, hl, le_rfl⟩, fun p hp => ⟨p, hp, le_rfl⟩⟩

/-- Registers that do not go back tell no lower round. -/
theorem latestRound_le (h : m.Advances m') : m.latestRound ≤ m'.latestRound := by
  refine latestRound_le_iff.mpr ⟨h.ownership ▸ firstRound_le_latestRound, fun r hr => ?_⟩
  obtain ⟨c, hc, rfl⟩ | ⟨l, hl, rfl⟩ | ⟨p, hp, rfl⟩ := mem_knownRounds.mp hr
  · obtain ⟨c', hc', hle⟩ := h.timeout c hc
    refine (m.ownership.nextRound_mono hle).trans (le_latestRound ?_)
    exact mem_knownRounds.mpr (.inl ⟨c', hc', by rw [h.ownership]⟩)
  · obtain ⟨l', hl', hle⟩ := h.locked l hl
    exact hle.trans (round_locked_le hl')
  · obtain ⟨p', hp', hle⟩ := h.proposed p hp
    exact hle.trans (round_proposed_le hp')

end Advances

/-! ## The updates -/

/-- The manager is in the round that its registers tell. -/
def UpToDate (m : ChainManager) : Prop := m.currentRound = m.latestRound

/-- `m'` holds the registers of `r`, and is in the round that they tell. -/
structure Updated (r m' : ChainManager) : Prop where
  ownership : m'.ownership = r.ownership
  timeout : m'.timeout = r.timeout
  locked : m'.locked = r.locked
  proposed : m'.proposed = r.proposed
  currentRound : m'.currentRound = r.latestRound

theorem updated_updateCurrentRound (h : r.currentRound ≤ r.latestRound) (t : Nat) :
    Updated r (r.updateCurrentRound t) := by
  simp only [updateCurrentRound, max_knownRounds]
  split
  · next hle => exact ⟨rfl, rfl, rfl, rfl, le_antisymm h hle⟩
  · exact ⟨rfl, rfl, rfl, rfl, rfl⟩

namespace Updated

variable {r : ChainManager}

theorem upToDate (h : Updated r m') : m'.UpToDate := by
  have hknown : m'.latestRound = r.latestRound := by
    simp only [latestRound, knownRounds, h.ownership, h.timeout, h.locked, h.proposed]
  rw [UpToDate, h.currentRound, hknown]

theorem advances (h : Updated r m') (hr : m.Advances r) : m.Advances m' where
  ownership := h.ownership.trans hr.ownership
  timeout := by rw [h.timeout]; exact hr.timeout
  locked := by rw [h.locked]; exact hr.locked
  proposed := by rw [h.proposed]; exact hr.proposed

end Updated

variable {prims : Primitives}

section updateLocked

variable (m) (proposal : BlockProposal) (executedBlock : ExecutedBlock)
  (blobs : BTreeMap BlobId Blob)

@[simp] theorem updateLocked_timeout :
    (m.updateLocked prims proposal executedBlock blobs).timeout = m.timeout := by
  simp only [updateLocked]
  repeat' split
  all_goals rfl

/-- The locked block is the old one, or that of the proposal's certificate if it is newer. -/
theorem updateLocked_locked :
    (m.updateLocked prims proposal executedBlock blobs).locked = m.locked ∨
      ∃ cert ∈ proposal.validatedBlockCertificate, (∀ l ∈ m.locked, l.round < cert.round) ∧
        ∃ l, (m.updateLocked prims proposal executedBlock blobs).locked = some l ∧
          l.round = cert.round := by
  simp only [updateLocked]
  split
  · exact .inl rfl
  · next cert hcert =>
    split
    · next hall =>
      rw [Option.all_eq_true] at hall
      split
      · next full hfull =>
        obtain ⟨-, rfl⟩ := LiteCertificate.withValue_eq_some.mp hfull
        exact .inr ⟨cert, hcert, fun l hl => by simpa using hall l hl, _, rfl, rfl⟩
      · exact .inl rfl
    · exact .inl rfl

end updateLocked

theorem advances_proposal (hacc : m.Acceptable proposal) (executedBlock : ExecutedBlock)
    (blobs : BTreeMap BlobId Blob) :
    m.Advances
      { m.updateLocked prims proposal executedBlock blobs with proposed := some proposal } where
  ownership := updateLocked_ownership ..
  timeout := by
    rw [updateLocked_timeout]
    exact (Advances.refl m).timeout
  locked := by
    obtain heq | ⟨cert, -, hlt, l', heq, hround⟩ :=
      @updateLocked_locked m prims proposal executedBlock blobs
    · rw [heq]
      exact (Advances.refl m).locked
    · rw [heq]
      exact fun l hl => ⟨l', rfl, hround ▸ (hlt l hl).le⟩
  proposed := fun p hp => ⟨proposal, rfl, (hacc.proposed_lt p hp).le⟩

theorem advances_validated (hlt : ∀ l ∈ m.locked, l.round < validated.round)
    (blobs : BTreeMap BlobId Blob) :
    m.Advances { m with locked := some validated, lockedBlobs := blobs } :=
  { Advances.refl m with locked := fun l hl => ⟨validated, rfl, (hlt l hl).le⟩ }

section upToDate

variable (hm : m.UpToDate)

include hm

theorem updated_of_advances (hr : m.Advances r) (hcurrent : r.currentRound = m.currentRound)
    (t : Nat) : Updated r (r.updateCurrentRound t) :=
  updated_updateCurrentRound (hcurrent.trans_le (hm.trans_le hr.latestRound_le)) t

/-- The round of an accepted proposal is the highest that is known from then on. -/
theorem latestRound_proposal (hacc : m.Acceptable proposal) (executedBlock : ExecutedBlock)
    (blobs : BTreeMap BlobId Blob) :
    latestRound { m.updateLocked prims proposal executedBlock blobs with
      proposed := some proposal } = proposal.content.round := by
  have hlatest : m.latestRound ≤ proposal.content.round := hm.symm.trans_le hacc.currentRound_le
  refine le_antisymm (latestRound_le hlatest (updateLocked_ownership ..)
    (updateLocked_timeout ..) (fun l hl => ?_) (fun p hp => ?_)) (round_proposed_le rfl)
  · obtain heq | ⟨cert, hcert, -, l', heq, hround⟩ :=
      @updateLocked_locked m prims proposal executedBlock blobs
    · exact (round_locked_le (heq ▸ hl)).trans hlatest
    · obtain rfl : l' = l := Option.some.inj (heq.symm.trans hl)
      exact hround ▸ (hacc.certificate_lt cert hcert).le
  · cases hp
    exact le_rfl

/-- The round of a validated block that is voted for is the highest that is known from then on. -/
theorem latestRound_validated (hle : m.currentRound ≤ validated.round)
    (blobs : BTreeMap BlobId Blob) :
    latestRound { m with locked := some validated, lockedBlobs := blobs } = validated.round := by
  have hlatest : m.latestRound ≤ validated.round := hm.symm.trans_le hle
  refine le_antisymm (latestRound_le hlatest rfl rfl (fun l hl => ?_)
    fun p hp => (@round_proposed_le m p hp).trans hlatest) (round_locked_le rfl)
  cases hl
  exact le_rfl

theorem createVote_updated (hacc : m.Acceptable proposal) (executedBlock : ExecutedBlock)
    (keyPair : Option KeyPair) (t : Nat) (blobs : BTreeMap BlobId Blob) :
    Updated { m.updateLocked prims proposal executedBlock blobs with proposed := some proposal }
      (m.createVote prims proposal executedBlock keyPair t blobs).1 := by
  have h := updated_of_advances hm (advances_proposal hacc executedBlock blobs)
    (@updateLocked_currentRound prims m proposal executedBlock blobs) t
  cases keyPair with
  | none => exact h
  | some keyPair =>
    simp only [createVote]
    split <;> exact ⟨h.ownership, h.timeout, h.locked, h.proposed, h.currentRound⟩

theorem createFinalVote_updated (hlt : ∀ l ∈ m.locked, l.round < validated.round)
    {keyPair : Option KeyPair} (hround : ¬(keyPair.isSome ∧ validated.round < m.currentRound))
    (t : Nat) (blobs : BTreeMap BlobId Blob) :
    Updated { m with locked := some validated, lockedBlobs := blobs }
      (m.createFinalVote prims validated keyPair t blobs) := by
  have h := updated_of_advances hm (advances_validated hlt blobs) rfl t
  rw [createFinalVote, if_neg hround]
  cases keyPair <;> exact ⟨h.ownership, h.timeout, h.locked, h.proposed, h.currentRound⟩

theorem handleTimeoutCertificate_moves (certificate : TimeoutCertificate) (t : Nat) :
    m.Advances (m.handleTimeoutCertificate certificate t) ∧
      (m.handleTimeoutCertificate certificate t).UpToDate := by
  simp only [handleTimeoutCertificate]
  split
  · exact ⟨.refl m, hm⟩
  · next hnew =>
    have hadvances : m.Advances { m with timeout := some certificate } :=
      { Advances.refl m with
        timeout := by
          intro c hc
          refine ⟨certificate, rfl, le_of_not_ge fun hge => hnew ?_⟩
          exact (Option.any_eq_true _ _).mpr ⟨c, hc, by simpa using hge⟩ }
    have h := updated_of_advances hm hadvances rfl t
    exact ⟨h.advances hadvances, h.upToDate⟩

end upToDate

end ChainManager

/-! ## Runs of a validator -/

def CastVote.round : CastVote → Round
  | .validate vote _ => vote.round
  | .confirm vote => vote.round

namespace Validator

variable (prims : Primitives) (keyPair : KeyPair)

/-- One step of a validator, also if the executed block or the certificate of a proposal is for
another block than the proposed one. -/
def call (v : Validator) : Event → Option Validator
  | .proposal proposal executedBlock localTime blobs =>
    if v.manager.checkProposedBlock proposal = .ok .accept then
      let (manager, vote) :=
        v.manager.createVote prims proposal executedBlock (some keyPair) localTime blobs
      some ⟨manager, v.votes ++ vote.toList.map (ofCreateVote proposal)⟩
    else none
  | event => v.step prims keyPair event

/-- From `v` to `v'` neither the round nor a register goes back, and a vote that is cast is in the
round of the manager, which is no earlier than that of any vote before. -/
structure Forward (v v' : Validator) : Prop where
  advances : v.manager.Advances v'.manager
  currentRound : v.manager.currentRound ≤ v'.manager.currentRound
  votes : v'.votes = v.votes ∨ ∃ vote, v'.votes = v.votes ++ [vote] ∧
    v.manager.currentRound ≤ vote.round ∧ vote.round = v'.manager.currentRound ∧
    ∀ earlier ∈ v.votes, earlier.round ≤ vote.round

/-- The manager is in the latest round it knows of, and has not voted in a later one. -/
structure InRound (v : Validator) : Prop where
  upToDate : v.manager.UpToDate
  votes : ∀ vote ∈ v.votes, vote.round ≤ v.manager.currentRound

variable {prims keyPair} {v v' : Validator}

/-- A step without a vote. -/
theorem InRound.silent (hv : InRound v) (hadvances : v.manager.Advances v'.manager)
    (hdate : v'.manager.UpToDate) (hvotes : v'.votes = v.votes) : Forward v v' ∧ InRound v' := by
  have hle : v.manager.currentRound ≤ v'.manager.currentRound :=
    hv.upToDate.trans_le (hadvances.latestRound_le.trans_eq hdate.symm)
  refine ⟨⟨hadvances, hle, .inl hvotes⟩, ⟨hdate, fun vote hmem => ?_⟩⟩
  exact (hv.votes vote (hvotes ▸ hmem)).trans hle

/-- A step with a vote in the round that the manager reaches. -/
theorem InRound.cast (hv : InRound v) (hadvances : v.manager.Advances v'.manager)
    (hdate : v'.manager.UpToDate) {vote : CastVote} (hvotes : v'.votes = v.votes ++ [vote])
    (hround : vote.round = v'.manager.currentRound) : Forward v v' ∧ InRound v' := by
  have hle : v.manager.currentRound ≤ v'.manager.currentRound :=
    hv.upToDate.trans_le (hadvances.latestRound_le.trans_eq hdate.symm)
  have hearlier : ∀ earlier ∈ v.votes, earlier.round ≤ v'.manager.currentRound :=
    fun earlier hmem => (hv.votes earlier hmem).trans hle
  refine ⟨⟨hadvances, hle, .inr ⟨vote, hvotes, hround ▸ hle, hround, hround ▸ hearlier⟩⟩,
    ⟨hdate, fun other hmem => ?_⟩⟩
  rw [hvotes, List.mem_append, List.mem_singleton] at hmem
  obtain hmem | rfl := hmem
  · exact hearlier other hmem
  · exact hround.le

theorem round_voteOn (proposal : BlockProposal) (executedBlock : ExecutedBlock) :
    (voteOn prims keyPair proposal executedBlock).round = proposal.content.round := by
  rw [voteOn]
  split <;> rfl

/-- **One step** goes forward, and keeps the manager in the latest round. -/
theorem InRound.call (hv : InRound v) {event : Event} (h : v.call prims keyPair event = some v') :
    Forward v v' ∧ InRound v' := by
  cases event with
  | proposal proposal executedBlock t blobs =>
    simp only [Validator.call] at h
    split at h
    · next hcheck =>
      cases h
      have hacc := ChainManager.acceptable_of_checkProposedBlock hcheck
      have hupdated : ChainManager.Updated _
          (v.manager.createVote prims proposal executedBlock (some keyPair) t blobs).1 :=
        ChainManager.createVote_updated hv.upToDate hacc executedBlock _ t blobs
      have hvote : ((v.manager.createVote prims proposal executedBlock (some keyPair) t
          blobs).2.toList.map (ofCreateVote proposal)) =
          [voteOn prims keyPair proposal executedBlock] := by
        rw [ChainManager.createVote_vote, voteOn]
        split <;> rfl
      refine hv.cast (hupdated.advances (ChainManager.advances_proposal hacc executedBlock blobs))
        hupdated.upToDate (congrArg (v.votes ++ ·) hvote) ?_
      rw [round_voteOn, hupdated.currentRound]
      exact (ChainManager.latestRound_proposal hv.upToDate hacc executedBlock blobs).symm
    · cases h
  | validatedBlock certificate t blobs =>
    simp only [Validator.call, step] at h
    split at h
    · next hcheck =>
      have hlt := ChainManager.locked_lt_of_checkValidatedBlock prims hcheck
      split at h
      · next hround =>
        cases h
        rw [ChainManager.createFinalVote_of_lt _ _ _ _ hround]
        exact hv.silent (.refl _) hv.upToDate rfl
      · next hround =>
        cases h
        have hle := not_lt.mp hround
        obtain ⟨-, -, -, hvote, -⟩ :=
          ChainManager.createFinalVote_of_le prims keyPair t blobs hle
        have hupdated : ChainManager.Updated _
            (v.manager.createFinalVote prims certificate (some keyPair) t blobs) :=
          ChainManager.createFinalVote_updated hv.upToDate hlt (fun h => hround h.2) t blobs
        refine hv.cast (hupdated.advances (ChainManager.advances_validated hlt blobs))
          hupdated.upToDate (by rw [hvote]; rfl) ?_
        rw [hupdated.currentRound]
        exact (ChainManager.latestRound_validated hv.upToDate hle blobs).symm
    · cases h
  | timeout certificate t =>
    cases h
    obtain ⟨hadvances, hdate⟩ :=
      ChainManager.handleTimeoutCertificate_moves hv.upToDate certificate t
    exact hv.silent hadvances hdate rfl
  | voteTimeout chainId height epoch t =>
    cases h
    obtain ⟨vote, heq⟩ :=
      ChainManager.voteTimeout_eq prims v.manager chainId height epoch (some keyPair) t
    rw [heq]
    have hupdated : ChainManager.Updated v.manager { v.manager with timeoutVote := vote } :=
      ⟨rfl, rfl, rfl, rfl, hv.upToDate⟩
    exact hv.silent (hupdated.advances (.refl _)) hupdated.upToDate rfl
  | voteFallback chainId height epoch =>
    cases h
    obtain ⟨vote, heq⟩ :=
      ChainManager.voteFallback_eq prims v.manager chainId height epoch (some keyPair)
    rw [heq]
    have hupdated : ChainManager.Updated v.manager { v.manager with fallbackVote := vote } :=
      ⟨rfl, rfl, rfl, rfl, hv.upToDate⟩
    exact hv.silent (hupdated.advances (.refl _)) hupdated.upToDate rfl

theorem inRound_new {ownership : ChainOwnership} {seed localTime : Nat}
    {fallbackOwners : List (PublicKey × Nat)} {m : ChainManager}
    (hm : ChainManager.new prims ownership seed localTime fallbackOwners = .ok m) :
    InRound ⟨m, []⟩ := by
  obtain ⟨_, -, hm⟩ := Except.bind_eq_ok.mp hm
  obtain ⟨_, -, hm⟩ := Except.bind_eq_ok.mp hm
  cases hm
  exact ⟨rfl, List.forall_mem_nil _⟩

/-- **Rounds and votes never go back.** In every state of a run the manager is in the highest
round that its registers tell, and no step leads back: neither in the current round, nor in the
rounds of the registers, nor with a vote. -/
theorem rounds_never_go_back {ownership : ChainOwnership} {seed localTime : Nat}
    {fallbackOwners : List (PublicKey × Nat)} {m : ChainManager}
    (hm : ChainManager.new prims ownership seed localTime fallbackOwners = .ok m)
    {events : List Event} (hrun : Run.run (call prims keyPair) ⟨m, []⟩ events = some v) :
    v.manager.currentRound = v.manager.latestRound ∧
      ∀ event v', v.call prims keyPair event = some v' → Forward v v' := by
  have hv : InRound v :=
    Run.invariant (P := InRound) (fun _ _ _ hv h => (hv.call h).2) (inRound_new hm) hrun
  exact ⟨hv.upToDate, fun event v' h => (hv.call h).1⟩

/-- Two owners, who may propose in three multi-leader rounds. -/
def twoOwners : ChainOwnership where
  superOwners := .empty
  owners := .ofList [(⟨⟨1⟩⟩, (⟨1⟩, 1)), (⟨⟨2⟩⟩, (⟨2⟩, 1))]
  multiLeaderRounds := 3
  timeoutConfig := .default

/-- A proposal in the second round, and then a certificate from the last one. -/
theorem rounds_never_go_back_multiLeader :
    ∃ m ∈ (ChainManager.new simplePrimitives twoOwners 0 0 []).toOption,
      ∃ v ∈ Run.run (call simplePrimitives ⟨⟨7⟩, 7⟩) ⟨m, []⟩
        [propose (.multiLeader 1) 0,
          .validatedBlock (.new ⟨emptyBlock 1⟩ (.multiLeader 2) []) 0 .empty],
      v.votes.map CastVote.round = [.multiLeader 1, .multiLeader 2] ∧
        v.manager.currentRound = v.manager.latestRound := by
  obtain ⟨m, hm, v, hv, hvotes⟩ :
      ∃ m ∈ (ChainManager.new simplePrimitives twoOwners 0 0 []).toOption,
        ∃ v ∈ Run.run (call simplePrimitives ⟨⟨7⟩, 7⟩) ⟨m, []⟩
          [propose (.multiLeader 1) 0,
            .validatedBlock (.new ⟨emptyBlock 1⟩ (.multiLeader 2) []) 0 .empty],
        v.votes.map CastVote.round = [.multiLeader 1, .multiLeader 2] := by decide +kernel
  exact ⟨m, hm, v, hv, hvotes, (rounds_never_go_back (Except.toOption_eq_some.mp hm) hv).1⟩

end Validator

end Linera
