import Linera.Execution.Funds

/-!
# What system operations and messages do

The effect of each system operation and of each system message on the funds of
the chain and on the transaction, and the messages that it sends. The operations
and messages that move tokens, hand out message identifiers or change the owners
of the chain have their own case; the others leave all of this alone and send
only notices.
-/

namespace Linera

/-- A message that is about neither tokens nor the creation of chains or applications. -/
def SystemMessage.isNotice : SystemMessage → Bool
  | .credit .. | .withdraw .. | .openChain _ | .applicationCreated => false
  | _ => true

/-- Messages that are only notices, without grants. -/
def Notices (messages : List (RawOutgoingMessage SystemMessage Nat)) : Prop :=
  ∀ message ∈ messages, message.grant = 0 ∧ message.message.isNotice = true

theorem Notices.nil : Notices [] := List.forall_mem_nil _

theorem Notices.plain {destination : Destination} {kind : MessageKind} {message : SystemMessage}
    (h : message.isNotice = true) :
    Notices [SystemExecutionStateView.plainMessage destination kind message] := by
  intro m hm
  obtain rfl := List.mem_singleton.mp hm
  exact ⟨rfl, h⟩

/-- The message that a claim sends. -/
def withdrawMessage (owner : AccountOwner) (targetId : ChainId) (recipient : Recipient)
    (amount : Nat) : RawOutgoingMessage SystemMessage Nat :=
  ⟨.recipient targetId, true, 0, .simple, .withdraw owner amount recipient⟩

def openChainMessages (hashing : Hashing) (config : OpenChainConfig) (id : MessageId) :
    List (RawOutgoingMessage SystemMessage Nat) :=
  [SystemExecutionStateView.plainMessage (.recipient (hashing.chainId (.child id))) .protected
      (.openChain config),
    SystemExecutionStateView.plainMessage (.recipient config.adminId) .protected
      (.subscribe (hashing.chainId (.child id))
        (SystemExecutionStateView.adminSubscription config.adminId))]

/-- What an operation does to the funds and to the transaction, and the messages it sends. -/
def SystemOperation.Effect (hashing : Hashing) (context : OperationContext)
    (f f' : Funds) (t t' : TransactionTracker)
    (messages : List (RawOutgoingMessage SystemMessage Nat)) : SystemOperation → Prop
  | .openChain config =>
    Funds.Debited none config.balance f f' ∧
      t' = t ∧ messages = openChainMessages hashing config
        (t.nextMessageId context.chainId context.height)
  | .changeOwnership superOwners owners multiLeaderRounds timeoutConfig =>
    f' = { f with
      ownership := SystemExecutionStateView.newOwnership hashing superOwners owners
        multiLeaderRounds timeoutConfig } ∧
      t' = t ∧ messages = []
  | .transfer owner recipient amount =>
    f.MaySpend context.authenticatedSigner none (owner.map .user) ∧
      Funds.Debited (owner.map .user) amount f f' ∧ t' = t ∧
      messages = (SystemExecutionStateView.creditMessage (owner.map .user) amount recipient).toList
  | .claim owner targetId recipient amount =>
    context.authenticatedSigner = some owner ∧ f' = f ∧ t' = t ∧
      messages = [withdrawMessage (.user owner) targetId recipient amount]
  | .createApplication .. =>
    f' = f ∧ t.SameRecords t' ∧
      messages = [SystemExecutionStateView.plainMessage (.recipient context.chainId) .protected
        .applicationCreated]
  | _ => f' = f ∧ t.SameRecords t' ∧ Notices messages

/-- What a message does to the funds, and the messages it sends in turn. -/
def SystemMessage.Effect (isBouncing : Bool) (f f' : Funds)
    (messages : List (RawOutgoingMessage SystemMessage Nat)) : SystemMessage → Prop
  | .credit target amount source =>
    Funds.Credited (if isBouncing then source else target) amount f f' ∧ messages = []
  | .withdraw owner amount recipient =>
    Funds.Debited (some owner) amount f f' ∧
      messages = (SystemExecutionStateView.creditMessage (some owner) amount recipient).toList
  | _ => f' = f ∧ Notices messages

namespace SystemExecutionStateView

variable (s : SystemExecutionStateView)

theorem blobUsed_ensures (t : TransactionTracker) (blobId : BlobId) :
    (s.blobUsed t blobId).Ensures fun p => p.1.funds = s.funds ∧ t.SameRecords p.2 := by
  have hmark : (s.markBlobUsed blobId).1.funds = s.funds := by
    unfold markBlobUsed
    split <;> rfl
  unfold blobUsed
  split
  · next s' heq =>
    rw [heq] at hmark
    exact .ok ⟨hmark, .refl t⟩
  · next s' heq =>
    rw [heq] at hmark
    refine .bind (t.replayOracleResponse_ensures (.blob blobId)) fun p hp => ?_
    exact .ok ⟨hmark, hp⟩

theorem recordBytecodeBlobs_ensures (t : TransactionTracker) (blobIds : List BlobId) :
    (s.recordBytecodeBlobs t blobIds).Ensures fun p =>
      p.1.funds = s.funds ∧ t.SameRecords p.2 := by
  induction blobIds generalizing s t with
  | nil => exact .ok ⟨rfl, .refl t⟩
  | cons blobId blobIds ih =>
    refine .bind (s.blobUsed_ensures t blobId) ?_
    rintro ⟨s₁, t₁⟩ ⟨hfunds, hrecords⟩
    refine (ih s₁ t₁).mono fun p hp => ⟨hp.1.trans hfunds, hrecords.trans hp.2⟩

variable (blobs : BlobId → Option Bytes)

theorem createApplication_ensures (id : MessageId) (bytecodeId : BytecodeId) (parameters : Bytes)
    (required : List UserApplicationId) :
    (s.createApplication blobs id bytecodeId parameters required).Ensures fun p =>
      p.1.funds = s.funds ∧
        p.2.message = plainMessage (.recipient id.chainId) .protected .applicationCreated :=
  .bind_any fun _ => .bind_any fun _ => .ok ⟨rfl, rfl⟩

theorem registerApplications_ensures (t : TransactionTracker)
    (applications : List UserApplicationDescription) :
    (s.registerApplications blobs t applications).Ensures fun p =>
      p.1.funds = s.funds ∧ t.SameRecords p.2 := by
  induction applications generalizing s t with
  | nil => exact .ok ⟨rfl, .refl t⟩
  | cons application applications ih =>
    refine .bind (.bind_any fun _ => s.recordBytecodeBlobs_ensures t _) ?_
    rintro ⟨s₁, t₁⟩ ⟨hfunds, hrecords⟩
    refine .bind_any fun registry => ?_
    exact (ih { s₁ with registry } t₁).mono fun p hp => ⟨hp.1.trans hfunds, hrecords.trans hp.2⟩

theorem executeAdminOperation_ensures (operation : AdminOperation) :
    (s.executeAdminOperation operation).Ensures fun p =>
      p.1.funds = s.funds ∧ Notices [p.2] := by
  cases operation with
  | createCommittee epoch committee =>
    exact .bind_any fun _ => .guard fun _ => .ok ⟨rfl, .plain rfl⟩
  | removeCommittee epoch => exact .guard fun _ => .ok ⟨rfl, .plain rfl⟩

theorem closeChain_notices (id : ChainId) : Notices (s.closeChain id).2 := by
  intro message hmessage
  obtain ⟨subscription, -, rfl⟩ := List.mem_map.mp hmessage
  exact ⟨rfl, rfl⟩

theorem operationEffect_ensures (hashing : Hashing) (blobs : BlobId → Option Bytes)
    (context : OperationContext) (t : TransactionTracker) (operation : SystemOperation) :
    (s.operationEffect hashing blobs context t operation).Ensures fun p =>
      operation.Effect hashing context s.funds p.1.funds t p.2.1 p.2.2.1 := by
  cases operation with
  | openChain config =>
    refine .bind (s.openChain_ensures hashing config _) ?_
    rintro ⟨s', messages⟩ ⟨hdebit, hmessages⟩
    exact .ok ⟨hdebit, rfl, hmessages⟩
  | changeOwnership superOwners owners multiLeaderRounds timeoutConfig => exact .ok ⟨rfl, rfl, rfl⟩
  | changeApplicationPermissions | publishBytecode | publishDataBlob =>
    exact .ok ⟨rfl, .refl t, .nil⟩
  | closeChain => exact .ok ⟨rfl, .refl t, s.closeChain_notices _⟩
  | transfer owner recipient amount =>
    refine .bind (s.transfer_ensures _ none _ recipient amount) ?_
    rintro ⟨s', message⟩ ⟨hmay, -, hdebit, hmessage⟩
    exact .ok ⟨hmay, hdebit, rfl, congrArg Option.toList hmessage⟩
  | claim owner targetId recipient amount =>
    refine .bind (claim_ensures _ none (.user owner) targetId recipient amount s.funds) ?_
    rintro message ⟨hmay, rfl⟩
    exact .ok ⟨hmay, rfl, rfl, rfl⟩
  | admin operation =>
    refine .guard fun _ => .bind (s.executeAdminOperation_ensures operation) ?_
    rintro ⟨s', message⟩ ⟨hfunds, hnotices⟩
    exact .ok ⟨hfunds, .refl t, hnotices⟩
  | subscribe chainId channel =>
    exact .guard fun _ => .guard fun _ => .guard fun _ => .ok ⟨rfl, .refl t, .plain rfl⟩
  | unsubscribe chainId channel => exact .guard fun _ => .ok ⟨rfl, .refl t, .plain rfl⟩
  | createApplication bytecodeId parameters argument required =>
    refine .bind (s.createApplication_ensures blobs _ bytecodeId parameters required) ?_
    rintro ⟨s', result⟩ ⟨hfunds, hmessage⟩
    refine .bind (s'.recordBytecodeBlobs_ensures _ _) ?_
    rintro ⟨s'', t'⟩ ⟨hfunds', hrecords⟩
    exact .ok ⟨hfunds'.trans hfunds, hrecords, congrArg ([·]) hmessage⟩
  | requestApplication chainId applicationId => exact .ok ⟨rfl, .refl t, .plain rfl⟩
  | readBlob blobId =>
    refine .bind_any fun _ => .bind (s.blobUsed_ensures t blobId) ?_
    rintro ⟨s', t'⟩ ⟨hfunds, hrecords⟩
    exact .ok ⟨hfunds, hrecords, .nil⟩

theorem credited (receiver : Option AccountOwner) (amount : Nat) :
    Funds.Credited receiver amount s.funds (match receiver with
      | none => { s with balance := Amount.saturatingAdd s.balance amount }
      | some owner => { s with
          balances := s.balances.insert owner
            (Amount.saturatingAdd ((s.balances.get owner).getD 0) amount) }).funds := by
  have hle : ∀ balance, Amount.saturatingAdd balance amount ≤ balance + amount := fun balance =>
    Nat.min_le_left _ _
  cases receiver with
  | none =>
    refine ⟨rfl, ?_, rfl, fun other hother => ?_⟩
    · have := hle s.balance
      simp only [Funds.total, funds]
      omega
    · cases other with
      | none => exact absurd rfl hother
      | some owner => rfl
  | some owner =>
    have htotal := s.funds.total_insert owner
      (Amount.saturatingAdd ((s.balances.get owner).getD 0) amount)
    refine ⟨rfl, ?_, ?_, fun other hother => ?_⟩
    · have hbound := hle ((s.balances.get owner).getD 0)
      simp only [Funds.balanceOf, funds] at htotal ⊢
      omega
    · exact (s.funds.balanceOf_insert owner _ _).trans (if_pos rfl)
    · exact (s.funds.balanceOf_insert owner _ _).trans (if_neg hother)

theorem messageEffect_ensures (context : MessageContext) (t : TransactionTracker)
    (message : SystemMessage) : (s.messageEffect blobs context t message).Ensures fun p =>
      message.Effect context.isBouncing s.funds p.1.funds p.2.2 ∧ t.SameRecords p.2.1 := by
  cases message with
  | credit target amount source =>
    have hcredit := s.credited (if context.isBouncing then source else target) amount
    simp only [messageEffect]
    split
    · next h =>
      rw [h] at hcredit
      exact .ok ⟨⟨h ▸ hcredit, rfl⟩, .refl t⟩
    · next owner h =>
      rw [h] at hcredit
      exact .ok ⟨⟨h ▸ hcredit, rfl⟩, .refl t⟩
  | withdraw owner amount recipient =>
    refine .bind (s.debit_ensures (some owner) amount) fun s' hdebit => ?_
    exact .ok ⟨⟨hdebit, rfl⟩, .refl t⟩
  | createCommittee epoch committee =>
    refine .bind_any fun next => .guard fun _ => ?_
    split
    · exact .ok ⟨⟨rfl, .nil⟩, .refl t⟩
    · exact .ok ⟨⟨rfl, .nil⟩, .refl t⟩
  | removeCommittee | subscribe | unsubscribe | openChain | applicationCreated =>
    exact .ok ⟨⟨rfl, .nil⟩, .refl t⟩
  | registerApplications applications =>
    refine .bind (s.registerApplications_ensures blobs t applications) ?_
    rintro ⟨s', t'⟩ ⟨hfunds, hrecords⟩
    exact .ok ⟨⟨hfunds, .nil⟩, hrecords⟩
  | requestApplication applicationId =>
    exact .bind_any fun _ => .ok ⟨⟨rfl, .plain rfl⟩, .refl t⟩

/-- An operation has its effect, and its messages are added to the transaction. -/
theorem executeOperation_ensures (hashing : Hashing) (blobs : BlobId → Option Bytes)
    (context : OperationContext) (operation : SystemOperation) (t : TransactionTracker) :
    (s.executeOperation hashing blobs context operation t).Ensures fun p => ∃ t₁ messages,
      operation.Effect hashing context s.funds p.1.funds t t₁ messages ∧
        t₁.addOutcome (.system ⟨context.authenticatedSigner, context.refundGrantTo, messages,
          [], [], []⟩) = .ok p.2.1 := by
  refine .bind (s.operationEffect_ensures hashing blobs context t operation) ?_
  rintro ⟨s', t₁, messages, newApplication⟩ heffect
  refine .bind (P := fun t₂ => t₁.addOutcome _ = .ok t₂)
    (fun _ h => Except.mapError_eq_ok.mp h) fun t₂ hadd => .ok ?_
  exact ⟨t₁, messages, heffect, hadd⟩

theorem executeMessage_ensures (context : MessageContext) (message : SystemMessage)
    (t : TransactionTracker) :
    (s.executeMessage blobs context message t).Ensures fun p => ∃ messages,
      message.Effect context.isBouncing s.funds p.1.funds messages ∧ t.SameRecords p.2.1 ∧
        p.2.2 = ⟨none, none, messages, [], [], []⟩ := by
  refine .bind (s.messageEffect_ensures blobs context t message) ?_
  rintro ⟨s', t₁, messages⟩ ⟨heffect, hrecords⟩
  exact .ok ⟨messages, heffect, hrecords, rfl⟩

end SystemExecutionStateView

end Linera
