import Linera.Chain.DataTypes

/-!
# The indices of outgoing messages

The outgoing messages of a block are nested: each transaction has its own list. Three functions
compute with positions in the flattened list: the one that bundles the messages for a recipient,
the one that finds a message by its ID, and the one that finds the ID of a message of an
operation. They agree, as long as the index of a transaction fits into 32 bits.
-/

namespace Linera

/-- A message with a direct destination is for its recipient, through the direct medium. -/
theorem OutgoingMessage.hasDestination_recipient {m : OutgoingMessage} {id : ChainId}
    (h : m.destination = .recipient id) (medium : Medium) (recipient : ChainId) :
    m.hasDestination medium recipient = true ↔ medium = .direct ∧ recipient = id := by
  unfold hasDestination
  rw [h]
  cases medium with
  | direct =>
    rw [beq_iff_eq, and_iff_right rfl]
    exact eq_comm
  | channel channel => simp

/-- A message to a channel is for every recipient, through the medium of the channel. -/
theorem OutgoingMessage.hasDestination_subscribers {m : OutgoingMessage} {name : ChannelName}
    (h : m.destination = .subscribers name) (medium : Medium) (recipient : ChainId) :
    m.hasDestination medium recipient = true ↔
      medium = .channel ⟨m.message.applicationId, name⟩ := by
  unfold hasDestination
  rw [h]
  cases medium with
  | direct => simp
  | channel channel =>
    obtain ⟨applicationId, name'⟩ := channel
    simp

namespace ExecutedBlock

def messageId (b : ExecutedBlock) (index : Nat) : MessageId :=
  ⟨b.block.chainId, b.block.height, index⟩

/-- The loop of `message_by_id`. -/
def messageByIndex : List (List OutgoingMessage) → Nat → Option OutgoingMessage
  | [], _ => none
  | messages :: rest, index =>
    match messages[index]? with
    | some message => some message
    | none => messageByIndex rest (index - messages.length)

def messageById (b : ExecutedBlock) (id : MessageId) : Option OutgoingMessage :=
  if b.block.chainId ≠ id.chainId ∨ b.block.height ≠ id.height then none
  else messageByIndex b.outcome.messages id.index

/-- The ID of a message that was created by an operation, or `none` if there is no such operation or
message. -/
def messageIdForOperation (b : ExecutedBlock) (operationIndex messageIndex : Nat) :
    Option MessageId := do
  let transactionIndex := b.block.incomingBundles.length + operationIndex
  guard (transactionIndex < 2 ^ 64)
  let messages ← b.outcome.messages[transactionIndex]?
  guard (messages.length < 2 ^ 32)
  guard (messageIndex < messages.length)
  let firstMessageIndex := ((b.outcome.messages.take transactionIndex).map List.length).sum
  guard (firstMessageIndex < 2 ^ 32)
  let index := firstMessageIndex + messageIndex
  guard (index < 2 ^ 32)
  return b.messageId index

/-- The messages in bundles, each with the index of its transaction. -/
def posted (bundles : List (Nat × MessageBundle)) : List (Nat × PostedMessage) :=
  bundles.flatMap fun e => e.2.messages.map fun message => (e.2.transactionIndex, message)

/-- The outgoing messages, each with the index of its transaction. -/
def tagged (transactionIndex : Nat) (messages : List (List OutgoingMessage)) :
    List (Nat × OutgoingMessage) :=
  (messages.zipIdx transactionIndex).flatMap fun e => e.1.map fun message => (e.2, message)

theorem tagged_cons (transactionIndex : Nat) (txnMessages : List OutgoingMessage)
    (rest : List (List OutgoingMessage)) : tagged transactionIndex (txnMessages :: rest) =
      txnMessages.map (fun message => (transactionIndex, message)) ++
        tagged (transactionIndex + 1) rest := by
  rw [tagged, List.zipIdx_cons, List.flatMap_cons, tagged]

theorem tagged_map_snd (transactionIndex : Nat) (messages : List (List OutgoingMessage)) :
    (tagged transactionIndex messages).map Prod.snd = messages.flatten := by
  induction messages generalizing transactionIndex with
  | nil => rfl
  | cons txnMessages rest ih =>
    rw [tagged_cons, List.map_append, ih, List.map_map, List.flatten_cons]
    congr 1
    exact List.map_id' txnMessages

def position (messages : List (List OutgoingMessage)) (transaction message : Nat) : Nat :=
  ((messages.take transaction).map List.length).sum + message

variable {messages : List (List OutgoingMessage)}

theorem getElem?_tagged {k j : Nat} {txnMessages : List OutgoingMessage} {message : OutgoingMessage}
    (hk : messages[k]? = some txnMessages) (hj : txnMessages[j]? = some message) (transactionIndex : Nat) :
    (tagged transactionIndex messages)[position messages k j]? =
      some (transactionIndex + k, message) := by
  induction messages generalizing transactionIndex k with
  | nil => simp at hk
  | cons first rest ih =>
    rw [tagged_cons]
    cases k with
    | zero =>
      obtain rfl : first = txnMessages := by simpa using hk
      have hlt : j < first.length := (List.getElem?_eq_some_iff.mp hj).1
      rw [position, List.take_zero, List.map_nil, List.sum_nil, Nat.zero_add,
        List.getElem?_append_left (by simpa using hlt), List.getElem?_map, hj]
      rfl
    | succ k =>
      -- The transactions before the message's own one are skipped, one by one.
      have hposition : position (first :: rest) (k + 1) j = first.length + position rest k j := by
        rw [position, List.take_succ_cons, List.map_cons, List.sum_cons, position, Nat.add_assoc]
      rw [hposition, List.getElem?_append_right (by simp), List.length_map,
        Nat.add_sub_cancel_left, ih (by simpa using hk)]
      congr 2
      omega

variable (b : ExecutedBlock) (medium : Medium) (recipient : ChainId) (certificateHash : CryptoHash)

/-- The bundles for a recipient hold the messages for it, with their positions. -/
theorem posted_bundlesFrom {transactionIndex index : Nat}
    (htransactions : transactionIndex + messages.length ≤ 2 ^ 32)
    (hmessages : index + messages.flatten.length ≤ 2 ^ 32) :
    posted (b.bundlesFrom medium recipient certificateHash transactionIndex index messages) =
      (((tagged transactionIndex messages).zipIdx index).filter fun e =>
        e.1.2.hasDestination medium recipient).map fun e => (e.1.1, e.1.2.intoPosted e.2) := by
  induction messages generalizing transactionIndex index with
  | nil => rfl
  | cons txnMessages rest ih =>
    rw [List.length_cons] at htransactions
    rw [List.flatten_cons, List.length_append] at hmessages
    have ih := @ih (transactionIndex + 1) (index + txnMessages.length) (by omega) (by omega)
    have hhead : (((txnMessages.zipIdx index).filter fun e =>
        e.1.hasDestination medium recipient).map fun e =>
          (transactionIndex % 2 ^ 32, e.1.intoPosted (e.2 % 2 ^ 32))) =
        ((((txnMessages.map fun message => (transactionIndex, message)).zipIdx index).filter fun e =>
          e.1.2.hasDestination medium recipient).map fun e => (e.1.1, e.1.2.intoPosted e.2)) := by
      rw [List.zipIdx_map, List.filter_map, List.map_map]
      refine List.map_congr_left fun e he => ?_
      -- The counters have not wrapped yet.
      have hlt := List.snd_lt_add_of_mem_zipIdx (List.mem_filter.mp he).1
      simp only [Function.comp_apply, Prod.map_fst, Prod.map_snd, id_eq]
      rw [Nat.mod_eq_of_lt (by omega), Nat.mod_eq_of_lt (by omega)]
    rw [tagged_cons, List.zipIdx_append, List.filter_append, List.map_append, List.length_map,
      ← ih, ← hhead]
    simp only [bundlesFrom]
    -- A transaction without messages for the recipient has no bundle.
    split
    · next hnone =>
      rw [List.map_eq_nil_iff] at hnone
      rw [hnone]
      rfl
    · rw [posted, List.flatMap_cons, ← posted, List.map_map]
      rfl

theorem bundlesFrom_increasing {transactionIndex index : Nat}
    (htransactions : transactionIndex + messages.length ≤ 2 ^ 32) :
    (∀ e ∈ b.bundlesFrom medium recipient certificateHash transactionIndex index messages,
      e.2.messages ≠ [] ∧ transactionIndex ≤ e.2.transactionIndex) ∧
    (b.bundlesFrom medium recipient certificateHash transactionIndex index messages).Pairwise
      fun e e' => e.2.transactionIndex < e'.2.transactionIndex := by
  induction messages generalizing transactionIndex index with
  | nil => exact ⟨nofun, .nil⟩
  | cons txnMessages rest ih =>
    rw [List.length_cons] at htransactions
    obtain ⟨hbounds, hincreasing⟩ :=
      @ih (transactionIndex + 1) (index + txnMessages.length) (by omega)
    simp only [bundlesFrom]
    split
    · refine ⟨fun e he => ?_, hincreasing⟩
      obtain ⟨hne, hle⟩ := hbounds e he
      exact ⟨hne, by omega⟩
    · next hne =>
      -- As long as the index does not wrap, the later bundles have greater ones.
      have hmod : transactionIndex % 2 ^ 32 = transactionIndex := Nat.mod_eq_of_lt (by omega)
      rw [List.forall_mem_cons, List.pairwise_cons]
      refine ⟨⟨⟨hne, hmod.ge⟩, fun e he => ?_⟩, fun e he => ?_, hincreasing⟩
      · obtain ⟨hne, hle⟩ := hbounds e he
        exact ⟨hne, by omega⟩
      · have hle := (hbounds e he).2
        show transactionIndex % 2 ^ 32 < e.2.transactionIndex
        omega

/-- What is at position `i` occurs once among the elements with their positions. -/
theorem filter_zipIdx_of_getElem? {α : Type} {l : List α} {i : Nat} {a : α} (h : l[i]? = some a)
    (n : Nat) : (l.zipIdx n).filter (fun e => decide (e.2 = n + i)) = [(a, n + i)] := by
  induction l generalizing n i with
  | nil => simp at h
  | cons first rest ih =>
    rw [List.zipIdx_cons]
    cases i with
    | zero =>
      obtain rfl : first = a := by simpa using h
      rw [List.filter_cons_of_pos (by simp), List.filter_eq_nil_iff.mpr]
      · rfl
      · intro e he
        have hle := List.le_snd_of_mem_zipIdx he
        simp only [decide_eq_true_eq]
        omega
    | succ i =>
      rw [List.filter_cons_of_neg (by simp)]
      have := ih (by simpa using h) (n + 1)
      rwa [Nat.add_right_comm n 1 i] at this

theorem messageByIndex_eq (messages : List (List OutgoingMessage)) (index : Nat) :
    messageByIndex messages index = messages.flatten[index]? := by
  induction messages generalizing index with
  | nil => rfl
  | cons txnMessages rest ih =>
    rw [messageByIndex, List.flatten_cons, List.getElem?_append]
    split
    · next message hmessage =>
      rw [if_pos (List.getElem?_eq_some_iff.mp hmessage).1, hmessage]
    · next hnone =>
      -- The subtraction of the source does not underflow: the index is beyond this transaction.
      have hle := List.getElem?_eq_none_iff.mp hnone
      rw [if_neg (by omega), ih]

/-- The functions that compute indices of outgoing messages agree. -/
structure IndicesAgree (b : ExecutedBlock) (certificateHash : CryptoHash) : Prop where
  /-- A message occurs once in the bundles for its destinations, in the one of its transaction, and
  it does not occur in others. -/
  once : ∀ k j txnMessages message, b.outcome.messages[k]? = some txnMessages →
    txnMessages[j]? = some message → ∀ medium recipient,
      (posted (b.messageBundlesFor medium recipient certificateHash)).filter
        (fun e => decide (e.2.index = position b.outcome.messages k j)) =
      if message.hasDestination medium recipient
      then [(k, message.intoPosted (position b.outcome.messages k j))] else []
  /-- The destination of a direct message is its recipient, the ones of a channel message are all
  subscribers of the channel. -/
  destinations : ∀ message ∈ b.outcome.messages.flatten, ∀ medium recipient,
    message.hasDestination medium recipient = true ↔ match message.destination with
      | .recipient id => medium = .direct ∧ recipient = id
      | .subscribers name => medium = .channel ⟨message.message.applicationId, name⟩
  bundles_ne_nil : ∀ medium recipient,
    ∀ e ∈ b.messageBundlesFor medium recipient certificateHash, e.2.messages ≠ []
  increasing : ∀ medium recipient,
    (b.messageBundlesFor medium recipient certificateHash).Pairwise
      fun e e' => e.2.transactionIndex < e'.2.transactionIndex
  /-- The index of a message in a bundle is its position, and `message_by_id` finds it there. -/
  found : ∀ medium recipient, ∀ e ∈ b.messageBundlesFor medium recipient certificateHash,
    ∀ p ∈ e.2.messages, ∃ message, b.outcome.messages.flatten[p.index]? = some message ∧
      b.messageById (b.messageId p.index) = some message ∧ p = message.intoPosted p.index
  forOperation : ∀ i j, b.messageIdForOperation i j =
    ((b.outcome.messages[b.block.incomingBundles.length + i]?).bind fun messages =>
      messages[j]?).map fun _ =>
        b.messageId (position b.outcome.messages (b.block.incomingBundles.length + i) j)

theorem messageIdForOperation_eq {b : ExecutedBlock}
    (hmessages : b.outcome.messages.flatten.length < 2 ^ 31)
    (htransactions : b.outcome.messages.length ≤ 2 ^ 32) (i j : Nat) : b.messageIdForOperation i j =
      ((b.outcome.messages[b.block.incomingBundles.length + i]?).bind fun messages =>
        messages[j]?).map fun _ =>
          b.messageId (position b.outcome.messages (b.block.incomingBundles.length + i) j) := by
  unfold messageIdForOperation
  cases hk : b.outcome.messages[b.block.incomingBundles.length + i]? with
  | none => simp [hk]
  | some messages =>
    have hlt := (List.getElem?_eq_some_iff.mp hk).1
    cases hj : messages[j]? with
    | none =>
      have hle := List.getElem?_eq_none_iff.mp hj
      simp [hk, Nat.not_lt.mpr hle]
    | some message =>
      have hlt' := (List.getElem?_eq_some_iff.mp hj).1
      -- The message is in the flattened list, so none of the sums overflows.
      have hposition : position b.outcome.messages (b.block.incomingBundles.length + i) j <
          2 ^ 31 := by
        have hmem := getElem?_tagged hk hj 0
        have := (List.getElem?_eq_some_iff.mp hmem).1
        rw [← List.length_map Prod.snd, tagged_map_snd] at this
        omega
      have hlength : messages.length ≤ b.outcome.messages.flatten.length :=
        (List.sublist_flatten_of_mem (List.mem_of_getElem? hk)).length_le
      unfold position at hposition ⊢
      simp only [guard, hk, hj, Option.bind_eq_bind, Option.bind_some]
      rw [if_pos (by omega), if_pos (by omega), if_pos hlt', if_pos (by omega), if_pos (by omega)]
      rfl

/-- In a block with fewer than 2³¹ messages and at most 2³² transactions, the indices agree. -/
theorem indices_agree {b : ExecutedBlock}
    (hmessages : b.outcome.messages.flatten.length < 2 ^ 31)
    (htransactions : b.outcome.messages.length ≤ 2 ^ 32) (certificateHash : CryptoHash) :
    b.IndicesAgree certificateHash := by
  have hposted := fun medium recipient => @posted_bundlesFrom b.outcome.messages b medium recipient
    certificateHash 0 0 (by omega) (by omega)
  refine ⟨?_, ?_, ?_, ?_, ?_, messageIdForOperation_eq hmessages htransactions⟩
  · intro k j txnMessages message hk hj medium recipient
    have hget := getElem?_tagged hk hj 0
    have honce := filter_zipIdx_of_getElem? hget 0
    rw [Nat.zero_add, Nat.zero_add] at honce
    rw [messageBundlesFor, hposted, List.filter_map, List.filter_comm]
    have hsame : ((fun e : Nat × PostedMessage =>
        decide (e.2.index = position b.outcome.messages k j)) ∘
        fun e : (Nat × OutgoingMessage) × Nat => (e.1.1, e.1.2.intoPosted e.2)) =
        fun e => decide (e.2 = position b.outcome.messages k j) := rfl
    rw [hsame, honce, List.filter_singleton]
    cases message.hasDestination medium recipient <;> rfl
  · intro message _ medium recipient
    cases hdestination : message.destination with
    | recipient id => exact message.hasDestination_recipient hdestination medium recipient
    | subscribers name => exact message.hasDestination_subscribers hdestination medium recipient
  · intro medium recipient e he
    exact ((b.bundlesFrom_increasing medium recipient certificateHash (by omega)).1 e he).1
  · intro medium recipient
    exact (b.bundlesFrom_increasing medium recipient certificateHash (by omega)).2
  · intro medium recipient e he p hp
    have hmem : (e.2.transactionIndex, p) ∈
        posted (b.messageBundlesFor medium recipient certificateHash) :=
      List.mem_flatMap.mpr ⟨e, he, List.mem_map.mpr ⟨p, hp, rfl⟩⟩
    rw [messageBundlesFor, hposted, List.mem_map] at hmem
    obtain ⟨⟨⟨k, message⟩, index⟩, hmem, heq⟩ := hmem
    obtain ⟨-, rfl⟩ := Prod.ext_iff.mp heq
    have hget := List.mem_zipIdx_iff_getElem?.mp (List.mem_filter.mp hmem).1
    have hflatten : b.outcome.messages.flatten[index]? = some message := by
      rw [← tagged_map_snd 0, List.getElem?_map, hget]
      rfl
    refine ⟨message, hflatten, ?_, rfl⟩
    rw [messageById, if_neg (by simp [messageId]), messageByIndex_eq]
    exact hflatten

/-- A block of chain 0 whose transactions have sent the given messages. -/
def sending (messages : List (List OutgoingMessage)) : ExecutedBlock where
  block := ⟨⟨⟨0⟩⟩, 0, [], [], 0, 0, none, none⟩
  outcome := ⟨messages, ⟨0⟩, [], []⟩

/-- A message to chain 1. -/
def sentMessage : OutgoingMessage :=
  ⟨.recipient ⟨⟨1⟩⟩, none, 0, none, .simple, .user ⟨⟨⟨0⟩, ⟨0⟩⟩, ⟨⟨⟨0⟩⟩, 0, 0⟩⟩ []⟩

theorem indices_agree_sent : (sending [[], [sentMessage, sentMessage]]).IndicesAgree ⟨0⟩ :=
  indices_agree (by decide) (by decide) ⟨0⟩

theorem bundlesFrom_replicate_nil (transactionIndex index n : Nat)
    (messages : List (List OutgoingMessage)) :
    b.bundlesFrom medium recipient certificateHash transactionIndex index
        (List.replicate n [] ++ messages) =
      b.bundlesFrom medium recipient certificateHash (transactionIndex + n) index messages := by
  induction n generalizing transactionIndex with
  | zero => rfl
  | succ n ih =>
    rw [List.replicate_succ, List.cons_append, ← Nat.add_comm 1 n, ← Nat.add_assoc]
    exact ih (transactionIndex + 1)

/-- The bundles of a block of which only the first and the last transaction send a message. -/
theorem messageBundlesFor_first_last (n : Nat) :
    (sending ([sentMessage] :: (List.replicate n [] ++ [[sentMessage]]))).messageBundlesFor .direct
      ⟨⟨1⟩⟩ ⟨0⟩ =
      [(0, ⟨0, 0, ⟨0⟩, 0, [sentMessage.intoPosted 0]⟩),
        (0, ⟨0, 0, ⟨0⟩, (0 + 1 + n) % 2 ^ 32, [sentMessage.intoPosted 1]⟩)] := by
  have hfirst : (sending ([sentMessage] :: (List.replicate n [] ++ [[sentMessage]]))).bundlesFrom
      .direct ⟨⟨1⟩⟩ ⟨0⟩ 0 0 ([sentMessage] :: (List.replicate n [] ++ [[sentMessage]])) =
      (0, ⟨0, 0, ⟨0⟩, 0, [sentMessage.intoPosted 0]⟩) ::
        (sending ([sentMessage] :: (List.replicate n [] ++ [[sentMessage]]))).bundlesFrom
          .direct ⟨⟨1⟩⟩ ⟨0⟩ (0 + 1) 1 (List.replicate n [] ++ [[sentMessage]]) := rfl
  rw [messageBundlesFor]
  refine hfirst.trans ?_
  rw [bundlesFrom_replicate_nil]
  rfl

/-- The first and the last of 2³² + 1 transactions send a message: both bundles have index 0. -/
theorem transaction_index_wraps : ∃ b : ExecutedBlock,
    b.outcome.messages.flatten.length < 2 ^ 31 ∧ ¬b.IndicesAgree ⟨0⟩ := by
  refine ⟨sending ([sentMessage] :: (List.replicate (2 ^ 32 - 1) [] ++ [[sentMessage]])), ?_, ?_⟩
  · rw [sending, List.flatten_cons, List.flatten_append, List.flatten_replicate_nil]
    decide
  · intro h
    have hincreasing := h.increasing .direct ⟨⟨1⟩⟩
    rw [messageBundlesFor_first_last] at hincreasing
    simp at hincreasing

end ExecutedBlock

end Linera
