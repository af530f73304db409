import Linera.Chain.Rounds
import Linera.Chain.SignatureAggregator

/-!
# Agreement

Each validator handles proposals and certificates in an order of its own. Faulty ones vote as they
like, but cannot sign for others: a certificate has the votes of honest validators only if they cast
them. After a vote to confirm a block, an honest validator is locked: the proposals it votes on have
a certificate from that round or a later one.

* `Validator.Honest` — how the votes of a validator follow each other.
* `confirmed_locks` — after a block is confirmed, no other one is validated.
* `agreement` — all certificates for confirmed blocks are for the same one.
-/

namespace Linera

open Validator SignatureAggregator

/-- What a vote signs. -/
def CastVote.signed (prims : Primitives) : CastVote → VoteValue
  | .validate vote _ => ⟨CertificateValue.hash prims vote.value, vote.round, .validated⟩
  | .confirm vote => ⟨CertificateValue.hash prims vote.value, vote.round, .confirmed⟩

variable (prims : Primitives) (committee : Committee) (faulty : Finset ValidatorName)
  (s : ValidatorName → Validator)

/-- The signatures pass the check of certificates, and the honest signers have cast their votes. -/
def Backed (value : VoteValue) (signatures : List (ValidatorName × Signature)) : Prop :=
  checkSignatures prims value.hash value.kind value.round signatures committee = .ok () ∧
    ∀ signature ∈ signatures, signature.1 ∉ faulty →
      ∃ vote ∈ (s signature.1).votes, vote.signed prims = value

/-- The certificates that `validate_block` and `process_validated_block` check are backed. -/
def Deliverable : Event → Prop
  | .proposal proposal _ _ _ => ∀ cert ∈ proposal.validatedBlockCertificate,
    Backed prims committee faulty s ⟨cert.value.valueHash, cert.round, cert.value.kind⟩
      cert.signatures
  | .validatedBlock certificate _ _ =>
    Backed prims committee faulty s ⟨certificate.hash prims, certificate.round, .validated⟩
      certificate.signatures
  | _ => True

instance (value : VoteValue) (signatures : List (ValidatorName × Signature)) :
    Decidable (Backed prims committee faulty s value signatures) := by
  unfold Backed
  infer_instance

instance : DecidablePred (Deliverable prims committee faulty s) := by
  intro event
  cases event <;> unfold Deliverable <;> infer_instance

def Certified (value : VoteValue) : Prop :=
  ∃ signatures, Backed prims committee faulty s value signatures

namespace Validator

/-- A state that a validator gets to from a new manager. -/
def Reached (ownership : ChainOwnership) (v : Validator) : Prop :=
  ∃ keyPair seed localTime fallbackOwners m events,
    ChainManager.new prims ownership seed localTime fallbackOwners = .ok m ∧
      Run.run (step prims keyPair) ⟨m, []⟩ events = some v ∧
      Run.Along (step prims keyPair) (fun _ => Deliverable prims committee faulty s) ⟨m, []⟩ events

/-- What a vote outside of the fast round was cast on. -/
def Justified : CastVote → Prop
  | .validate _ proposal => ∀ cert ∈ proposal.validatedBlockCertificate,
    Certified prims committee faulty s ⟨cert.value.valueHash, cert.round, cert.value.kind⟩
  | .confirm vote => vote.round ≠ .fast →
    Certified prims committee faulty s
      ⟨CertificateValue.hash prims vote.value, vote.round, .validated⟩

/-- What a vote after another one needs: a later round, or a certificate that the lock allows. -/
def Follows : CastVote → CastVote → Prop
  | .validate earlier _, .validate vote _ => earlier.round < vote.round
  | .confirm earlier, .validate vote proposal => earlier.round ≠ .fast →
    ∃ cert ∈ proposal.validatedBlockCertificate, (cert.withValue prims vote.value).isSome ∧
      earlier.round ≤ cert.round ∧ cert.round < vote.round
  | _, .confirm _ => True

structure Honest (v : Validator) : Prop where
  inRound : InRound v
  locks : HoldsLocks v
  proposed : ∀ vote proposal, .validate vote proposal ∈ v.votes →
    ∃ last ∈ v.manager.proposed, vote.round ≤ last.content.round
  follows : v.votes.Pairwise fun a b => a.round ≤ b.round ∧ Follows prims a b
  justified : ∀ vote ∈ v.votes, Justified prims committee faulty s vote

variable {prims committee faulty s} {keyPair : KeyPair} {v v' : Validator} {event : Event}

theorem call_of_step (h : v.step prims keyPair event = some v') :
    v.call prims keyPair event = some v' := by
  cases event with
  | proposal =>
    simp only [step] at h
    split at h
    · next hcheck =>
      rw [call, if_pos hcheck.1]
      exact h
    · cases h
  | _ => exact h

/-- A proposal is in a later round than the ones before, and has the certificate that a lock
demands. -/
theorem Honest.follows_voteOn (hv : Honest prims committee faulty s v) {proposal : BlockProposal}
    (hacc : v.manager.Acceptable proposal) {executedBlock : ExecutedBlock}
    (hcert : Certifies prims proposal executedBlock) {earlier : CastVote}
    (hmem : earlier ∈ v.votes) :
    Follows prims earlier (voteOn prims keyPair proposal executedBlock) := by
  rw [voteOn]
  split
  · cases earlier <;> trivial
  · cases earlier with
    | validate earlier other =>
      obtain ⟨last, hlast, hle⟩ := hv.proposed earlier other hmem
      exact hle.trans_lt (hacc.proposed_lt last hlast)
    | confirm earlier =>
      intro hslow
      obtain ⟨l, hl, hle⟩ | ⟨hfast, -⟩ := hv.locks earlier hmem
      · obtain ⟨cert, hmem, hlocked⟩ := hacc.locked_le l hl
        exact ⟨cert, hmem, hcert.2 cert hmem, hle.trans hlocked, hacc.certificate_lt cert hmem⟩
      · exact absurd hfast hslow

theorem Honest.step (hv : Honest prims committee faulty s v)
    (hevent : Deliverable prims committee faulty s event)
    (h : v.step prims keyPair event = some v') : Honest prims committee faulty s v' := by
  obtain ⟨-, hin⟩ := hv.inRound.call (call_of_step h)
  have hlocks := hv.locks.step h
  obtain ⟨proposal, executedBlock, t, blobs, rfl, hacc, hcert, rfl⟩ |
    ⟨certificate, t, blobs, rfl, -, hle, rfl⟩ | ⟨hsame, hvotes⟩ := step_cases h
  · -- A proposal is voted on, and becomes the last one.
    refine ⟨hin, hlocks, fun vote other hmem => ?_, ?_, ?_⟩
    · refine ⟨proposal, ChainManager.createVote_proposed .., ?_⟩
      obtain hmem | hmem := List.mem_append.mp hmem
      · obtain ⟨last, hlast, hle⟩ := hv.proposed vote other hmem
        exact hle.trans (hacc.proposed_lt last hlast).le
      · have hround := congrArg CastVote.round (List.mem_singleton.mp hmem)
        rw [round_voteOn] at hround
        exact hround.le
    · refine List.pairwise_append.mpr ⟨hv.follows, List.pairwise_singleton _ _, ?_⟩
      intro earlier hmem vote hvote
      rw [List.mem_singleton.mp hvote, round_voteOn]
      exact ⟨(hv.inRound.votes earlier hmem).trans hacc.currentRound_le,
        hv.follows_voteOn hacc hcert hmem⟩
    · refine List.forall_mem_append.mpr ⟨hv.justified, List.forall_mem_singleton.mpr ?_⟩
      rw [voteOn]
      split
      · next hfast => exact fun hslow => absurd (Round.isFast_iff.mp hfast) hslow
      · exact fun cert hmem => ⟨_, hevent cert hmem⟩
  · -- A certificate for a validated block, which is what justifies the vote to confirm.
    obtain ⟨-, hproposed, -⟩ := ChainManager.createFinalVote_of_le prims keyPair t blobs hle
    refine ⟨hin, hlocks, fun vote other hmem => ?_, ?_, ?_⟩
    · rw [hproposed]
      exact hv.proposed vote other ((List.mem_append.mp hmem).resolve_right (by simp))
    · refine List.pairwise_append.mpr ⟨hv.follows, List.pairwise_singleton _ _, ?_⟩
      intro earlier hmem vote hvote
      rw [List.mem_singleton.mp hvote]
      exact ⟨(hv.inRound.votes earlier hmem).trans hle, by cases earlier <;> trivial⟩
    · exact List.forall_mem_append.mpr
        ⟨hv.justified, List.forall_mem_singleton.mpr fun _ => ⟨_, hevent⟩⟩
  · refine ⟨hin, hlocks, ?_, ?_, ?_⟩
    · rw [hvotes, hsame.proposed]
      exact hv.proposed
    · rw [hvotes]
      exact hv.follows
    · rw [hvotes]
      exact hv.justified

theorem Honest.follows_or (hv : Honest prims committee faulty s v) {a b : CastVote}
    (ha : a ∈ v.votes) (hb : b ∈ v.votes) :
    (a.round ≤ b.round ∧ Follows prims a b) ∨ a = b ∨ b.round ≤ a.round ∧ Follows prims b a := by
  have hfollows := List.pairwise_iff_getElem.mp hv.follows
  obtain ⟨i, hi, rfl⟩ := List.getElem_of_mem ha
  obtain ⟨j, hj, rfl⟩ := List.getElem_of_mem hb
  obtain hlt | rfl | hlt := lt_trichotomy i j
  · exact .inl (hfollows i j hi hj hlt)
  · exact .inr (.inl rfl)
  · exact .inr (.inr (hfollows j i hj hi hlt))

theorem Reached.honest {ownership : ChainOwnership}
    (h : Reached prims committee faulty s ownership v) : Honest prims committee faulty s v := by
  obtain ⟨keyPair, _, _, _, m, events, hm, hrun, halong⟩ := h
  refine Run.invariant_along (fun v event v' hv hevent hstep => hv.step hevent hstep) ?_ halong hrun
  exact ⟨inRound_new hm, by simp [HoldsLocks], by simp, .nil, by simp⟩

/-- No vote has been cast before the first round. -/
structure Started (ownership : ChainOwnership) (v : Validator) : Prop where
  inRound : InRound v
  ownership_eq : v.manager.ownership = ownership
  votes : ∀ vote ∈ v.votes, ownership.firstRound ≤ vote.round

theorem Started.call {ownership : ChainOwnership} (hv : Started ownership v)
    (h : v.call prims keyPair event = some v') : Started ownership v' := by
  obtain ⟨hforward, hin⟩ := hv.inRound.call h
  refine ⟨hin, hforward.advances.ownership.trans hv.ownership_eq, ?_⟩
  obtain heq | ⟨vote, heq, hround, -⟩ := hforward.votes
  · rw [heq]
    exact hv.votes
  · -- The manager is in the latest round it knows of, and the first one is known.
    have hfirst : ownership.firstRound ≤ v.manager.currentRound :=
      hv.ownership_eq ▸
        ChainManager.firstRound_le_latestRound.trans_eq hv.inRound.upToDate.symm
    rw [heq]
    exact List.forall_mem_append.mpr
      ⟨hv.votes, List.forall_mem_singleton.mpr (hfirst.trans hround)⟩

/-- **No vote before the first round.** Every vote of a validator on a block is in the first round
of the chain or a later one. So without super owners none is in the fast round. -/
theorem firstRound_le_votes {ownership : ChainOwnership} {seed localTime : Nat}
    {fallbackOwners : List (PublicKey × Nat)} {m : ChainManager}
    (hm : ChainManager.new prims ownership seed localTime fallbackOwners = .ok m)
    {events : List Event} (hrun : Run.run (call prims keyPair) ⟨m, []⟩ events = some v)
    {vote : CastVote} (hvote : vote ∈ v.votes) :
    ownership.firstRound ≤ vote.round ∧ (ownership.superOwners.isEmpty → vote.round ≠ .fast) := by
  have hstart : m.ownership = ownership := by
    obtain ⟨_, -, hm⟩ := Except.bind_eq_ok.mp hm
    obtain ⟨_, -, hm⟩ := Except.bind_eq_ok.mp hm
    cases hm
    rfl
  have hv : Started ownership v := Run.invariant (fun _ _ _ hv h => hv.call h)
    ⟨inRound_new hm, hstart, List.forall_mem_nil _⟩ hrun
  refine ⟨hv.votes vote hvote, fun hnone hfast => ?_⟩
  have hfirst := le_antisymm ((hv.votes vote hvote).trans_eq hfast) (Round.fast_le _)
  rw [ChainOwnership.firstRound, hnone, if_neg (by decide)] at hfirst
  split_ifs at hfirst

theorem firstRound_le_votes_multiLeader :
    ∃ m ∈ (ChainManager.new simplePrimitives twoOwners 0 0 []).toOption,
      ∃ v ∈ Run.run (call simplePrimitives ⟨⟨7⟩, 7⟩) ⟨m, []⟩ [propose (.multiLeader 1) 0],
      ∃ vote ∈ v.votes, .multiLeader 0 ≤ vote.round ∧ vote.round ≠ .fast := by
  obtain ⟨m, hm, v, hv, vote, hvote, -⟩ :
      ∃ m ∈ (ChainManager.new simplePrimitives twoOwners 0 0 []).toOption,
        ∃ v ∈ Run.run (call simplePrimitives ⟨⟨7⟩, 7⟩) ⟨m, []⟩ [propose (.multiLeader 1) 0],
        ∃ vote ∈ v.votes, vote.round = .multiLeader 1 := by decide +kernel
  have hvotes := firstRound_le_votes (Except.toOption_eq_some.mp hm) hv hvote
  exact ⟨m, hm, v, hv, vote, hvote, hvotes.1, hvotes.2 rfl⟩

end Validator

/-- Few validators are faulty, by their weight, and all others are in states they can get to. -/
structure Operating (ownership : ChainOwnership) : Prop where
  bound : 2 * committee.votingRights < 2 ^ 64
  weight_lt : ∑ name ∈ faulty, committee.weight name < committee.validityThreshold
  reached : ∀ name ∉ faulty, Reached prims committee faulty s ownership (s name)

/-- No honest validator has voted in the fast round. -/
def NoFastVotes : Prop := ∀ name ∉ faulty, ∀ vote ∈ (s name).votes, vote.round ≠ .fast

variable {prims committee faulty s}

instance : WellFoundedLT Round :=
  ⟨InvImage.wf (fun r : Round => toLex (r.rank, r.number)) wellFounded_lt⟩

section agree

variable {ownership : ChainOwnership} (hs : Operating prims committee faulty s ownership)

include hs

/-- Two quorums weigh more than the committee and the faulty validators together. -/
theorem exists_honest_signer {value value' : VoteValue}
    (h : Certified prims committee faulty s value)
    (h' : Certified prims committee faulty s value') :
    ∃ name ∉ faulty, (∃ vote ∈ (s name).votes, vote.signed prims = value) ∧
      ∃ vote ∈ (s name).votes, vote.signed prims = value' := by
  have hsigners : ∀ {value : VoteValue}, Certified prims committee faulty s value →
      ∃ signers : Finset ValidatorName,
        committee.quorumThreshold ≤ ∑ name ∈ signers, committee.weight name ∧
        ∀ name ∈ signers, name ∉ faulty → ∃ vote ∈ (s name).votes, vote.signed prims = value := by
    rintro value ⟨signatures, hcheck, hcast⟩
    obtain ⟨hnodup, -, hquorum, -⟩ := checkSignatures_eq_ok.mp hcheck
    refine ⟨(signatures.map Prod.fst).toFinset, ?_, fun name hname => ?_⟩
    · rw [List.sum_toFinset _ hnodup, List.map_map]
      exact hquorum.trans (Nat.mod_le _ _)
    · obtain ⟨signature, hmem, rfl⟩ := List.mem_map.mp (List.mem_toFinset.mp hname)
      exact hcast signature hmem
  -- If only faulty validators had signed both, the signers would weigh too much together.
  obtain ⟨signers, hquorum, hcast⟩ := hsigners h
  obtain ⟨signers', hquorum', hcast'⟩ := hsigners h'
  by_contra! hnone
  have hboth : ∑ name ∈ signers ∪ signers', committee.weight name +
      ∑ name ∈ signers ∩ signers', committee.weight name = _ := Finset.sum_union_inter
  have hinter : ∑ name ∈ signers ∩ signers', committee.weight name ≤
      ∑ name ∈ faulty, committee.weight name := by
    refine Finset.sum_le_sum_of_subset fun name hname => ?_
    by_contra hhonest
    obtain ⟨hmem, hmem'⟩ := Finset.mem_inter.mp hname
    obtain ⟨vote, hvote, hsigned⟩ := hcast' name hmem' hhonest
    exact hnone name hhonest (hcast name hmem hhonest) vote hvote hsigned
  have hunion := committee.sum_weight_le (signers ∪ signers')
  have hfaulty := hs.weight_lt
  rw [Committee.quorumThreshold_eq hs.bound] at hquorum hquorum'
  rw [Committee.validityThreshold_eq hs.bound] at hfaulty
  omega

/-- In one round an honest validator validates one block only. -/
theorem validated_eq {hash hash' : CryptoHash} {round : Round}
    (h : Certified prims committee faulty s ⟨hash, round, .validated⟩)
    (h' : Certified prims committee faulty s ⟨hash', round, .validated⟩) : hash = hash' := by
  obtain ⟨name, hhonest, ⟨vote, hvote, hsigned⟩, vote', hvote', hsigned'⟩ :=
    exists_honest_signer hs h h'
  have hfollows := (hs.reached name hhonest).honest.follows_or hvote hvote'
  cases vote with
  | confirm => cases hsigned
  | validate cast proposal =>
    cases vote' with
    | confirm => cases hsigned'
    | validate cast' proposal' =>
      cases hsigned
      obtain ⟨hhash, hround, -⟩ := VoteValue.mk.inj hsigned'
      -- Votes to validate that follow each other are in different rounds.
      obtain ⟨-, hlt⟩ | heq | ⟨-, hlt⟩ := hfollows
      · exact absurd hround.symm hlt.ne
      · cases heq
        exact hhash
      · exact absurd hround hlt.ne

variable (hslow : NoFastVotes faulty s)

include hslow

/-- A block that a quorum votes to confirm has been validated in the same round. -/
theorem certified_validated {hash : CryptoHash} {round : Round}
    (h : Certified prims committee faulty s ⟨hash, round, .confirmed⟩) :
    Certified prims committee faulty s ⟨hash, round, .validated⟩ := by
  obtain ⟨name, hhonest, ⟨vote, hvote, hsigned⟩, -⟩ := exists_honest_signer hs h h
  cases vote with
  | validate => cases hsigned
  | confirm =>
    cases hsigned
    exact (hs.reached name hhonest).honest.justified _ hvote (hslow name hhonest _ hvote)

/-- The induction is on the round of the other block: its proposal came with a certificate from a
round before that one. -/
theorem certified_eq {hash hash' : CryptoHash} {round round' : Round}
    (h : Certified prims committee faulty s ⟨hash, round, .confirmed⟩) (hle : round ≤ round')
    (h' : Certified prims committee faulty s ⟨hash', round', .validated⟩) : hash = hash' := by
  induction round' using WellFoundedLT.induction with
  | ind round' ih =>
    obtain rfl | hlt := hle.eq_or_lt
    · exact validated_eq hs (certified_validated hs hslow h) h'
    · -- The lock demands a certificate from a round between them.
      obtain ⟨name, hhonest, ⟨vote, hvote, hsigned⟩, vote', hvote', hsigned'⟩ :=
        exists_honest_signer hs h h'
      have hv := (hs.reached name hhonest).honest
      have hfollows := hv.follows_or hvote hvote'
      cases vote with
      | validate => cases hsigned
      | confirm cast =>
        cases vote' with
        | confirm => cases hsigned'
        | validate cast' proposal =>
          cases hsigned
          cases hsigned'
          obtain ⟨-, hlock⟩ | heq | ⟨hback, -⟩ := hfollows
          · obtain ⟨cert, hmem, hvalue, hround, hround'⟩ := hlock (hslow name hhonest _ hvote)
            obtain ⟨full, hfull⟩ := Option.isSome_iff_exists.mp hvalue
            obtain ⟨hlite, -⟩ := LiteCertificate.withValue_eq_some.mp hfull
            have hcert := hv.justified _ hvote' cert hmem
            rw [hlite] at hcert
            exact ih cert.round hround' hround hcert
          · cases heq
          · exact absurd hback (not_le.mpr hlt)

end agree

/-! ## Certificates for blocks -/

def bothSign : List (ValidatorName × Signature) := [(⟨1⟩, ⟨1⟩), (⟨2⟩, ⟨2⟩)]

def signedBlock {T : Type} (value : T) (number : Nat) : GenericCertificate T :=
  ⟨value, .multiLeader number, bothSign⟩

/-- A block is confirmed in one round, and proposed again and confirmed in the next one. -/
def reproposal : List Event :=
  let validated := signedBlock (ValidatedBlock.mk (emptyBlock 5))
  [propose (.multiLeader 0) 5, .validatedBlock (validated 0) 0 .empty,
    .proposal ⟨⟨(emptyBlock 5).block, .multiLeader 1, some (emptyBlock 5).outcome⟩, ⟨⟨1⟩⟩, ⟨1⟩, [],
      (validated 0).liteCertificate simplePrimitives⟩ (emptyBlock 5) 0 .empty,
    .validatedBlock (validated 1) 0 .empty]

/-- All validators are honest, and have got to the same state. -/
theorem exists_reproposal : ∃ s, Operating simplePrimitives twoValidators ∅ s twoOwners ∧
    NoFastVotes ∅ s ∧ ∀ number < 2, ∀ kind ∈ [.validated, .confirmed],
      ∀ signatures ∈ [bothSign, bothSign.reverse], Backed simplePrimitives twoValidators ∅ s
        ⟨⟨5⟩, .multiLeader number, kind⟩ signatures := by
  obtain ⟨m, hm, v, hrun, halong, hslow, hbacked⟩ :
      ∃ m ∈ (ChainManager.new simplePrimitives twoOwners 0 0 []).toOption,
        ∃ v ∈ Run.run (step simplePrimitives ⟨⟨7⟩, 7⟩) ⟨m, []⟩ reproposal,
        Run.Along (step simplePrimitives ⟨⟨7⟩, 7⟩)
          (fun _ => Deliverable simplePrimitives twoValidators ∅ fun _ => v) ⟨m, []⟩ reproposal ∧
        (∀ vote ∈ v.votes, vote.round ≠ .fast) ∧
        ∀ number < 2, ∀ kind ∈ [.validated, .confirmed],
          ∀ signatures ∈ [bothSign, bothSign.reverse], Backed simplePrimitives twoValidators ∅
            (fun _ => v) ⟨⟨5⟩, .multiLeader number, kind⟩ signatures := by decide +kernel
  exact ⟨fun _ => v, ⟨by decide, by decide, fun _ _ =>
    ⟨_, _, _, _, m, _, Except.toOption_eq_some.mp hm, hrun, halong⟩⟩, fun _ _ => hslow, hbacked⟩

variable {ownership : ChainOwnership}

/-- **One block in each round.** All certificates for validated blocks of one round are for the
same block. -/
theorem validated_agreement (hs : Operating prims committee faulty s ownership)
    {c c' : ValidatedBlockCertificate} (hround : c.round = c'.round)
    (hc : Backed prims committee faulty s ⟨c.hash prims, c.round, .validated⟩ c.signatures)
    (hc' : Backed prims committee faulty s ⟨c'.hash prims, c'.round, .validated⟩ c'.signatures) :
    c.hash prims = c'.hash prims := by
  rw [hround] at hc
  exact validated_eq hs ⟨_, hc⟩ ⟨_, hc'⟩

theorem validated_agreement_reproposal :
    let c := signedBlock (ValidatedBlock.mk (emptyBlock 5)) 1
    c.hash simplePrimitives = { c with signatures := bothSign.reverse }.hash simplePrimitives := by
  obtain ⟨s, hs, -, hbacked⟩ := exists_reproposal
  replace hbacked := hbacked 1 (by decide) .validated (.head _)
  exact validated_agreement hs rfl (hbacked _ (.head _)) (hbacked _ (.tail _ (.head _)))

/-- **The lock.** After a block is confirmed, no other one is validated, in the same or a later
round. -/
theorem confirmed_locks (hs : Operating prims committee faulty s ownership)
    (hslow : NoFastVotes faulty s) {c : ConfirmedBlockCertificate} {c' : ValidatedBlockCertificate}
    (hround : c.round ≤ c'.round)
    (hc : Backed prims committee faulty s ⟨c.hash prims, c.round, .confirmed⟩ c.signatures)
    (hc' : Backed prims committee faulty s ⟨c'.hash prims, c'.round, .validated⟩ c'.signatures) :
    c.hash prims = c'.hash prims :=
  certified_eq hs hslow ⟨_, hc⟩ hround ⟨_, hc'⟩

theorem confirmed_locks_reproposal :
    (signedBlock (ConfirmedBlock.mk (emptyBlock 5)) 0).hash simplePrimitives =
      (signedBlock (ValidatedBlock.mk (emptyBlock 5)) 1).hash simplePrimitives := by
  obtain ⟨s, hs, hslow, hbacked⟩ := exists_reproposal
  exact confirmed_locks hs hslow (by decide)
    (hbacked 0 (by decide) _ (.tail _ (.head _)) _ (.head _))
    (hbacked 1 (by decide) _ (.head _) _ (.head _))

/-- **Agreement.** Whatever the validators of a committee are given, and in whatever order, all
certificates for confirmed blocks are for the same block, even those from different rounds. -/
theorem agreement (hs : Operating prims committee faulty s ownership)
    (hslow : NoFastVotes faulty s) {c c' : ConfirmedBlockCertificate}
    (hc : Backed prims committee faulty s ⟨c.hash prims, c.round, .confirmed⟩ c.signatures)
    (hc' : Backed prims committee faulty s ⟨c'.hash prims, c'.round, .confirmed⟩ c'.signatures) :
    c.hash prims = c'.hash prims := by
  obtain hle | hle := le_total c.round c'.round
  · exact certified_eq hs hslow ⟨_, hc⟩ hle (certified_validated hs hslow ⟨_, hc'⟩)
  · exact (certified_eq hs hslow ⟨_, hc'⟩ hle (certified_validated hs hslow ⟨_, hc⟩)).symm

theorem agreement_reproposal :
    let c := signedBlock (ConfirmedBlock.mk (emptyBlock 5))
    (c 0).hash simplePrimitives = (c 1).hash simplePrimitives := by
  obtain ⟨s, hs, hslow, hbacked⟩ := exists_reproposal
  exact agreement hs hslow (hbacked 0 (by decide) _ (.tail _ (.head _)) _ (.head _))
    (hbacked 1 (by decide) _ (.tail _ (.head _)) _ (.head _))

end Linera
