import Linera.Chain.Outbox
import Linera.Chain.Transactions
import Linera.Execution.Limits
import Linera.Lib.Bcs
import Mathlib.Data.Nat.Log

/-!
# The size of executed blocks

The committee bounds the size of executed blocks. While a block is executed its size is tracked:
the size of an empty block, then the size of each bundle, operation and result as it comes up, and
the bytes that the lengths of the growing sequences need.

* `executeTransaction_tracks` — what one transaction adds to the tracked size.
* `executeBlock_within_limit_iff` — the serialized block has what is tracked, and what is not: the
  hash of an authenticated signer, the hash of the previous block, and a byte for each length that
  the tracker rounds down.
* `extensions_tracked_iff` — what is tracked for the length of a sequence that grows step by step
  is exact only if the bits of its final length fill their groups of seven.
-/

namespace Linera

/-- The bytes that the tracker counts for the length of a sequence. -/
def trackedLengthSize (n : Nat) : Nat := max (ResourceController.bitLength n / 7) 1

/-- The bytes of a length as a ULEB128 number: each has seven bits, so `n` bytes are enough. -/
def lengthSize (n : Nat) : Nat := (Bcs.ulebDigits n n).length

theorem trackedLengthSize_mono {m n : Nat} (h : m ≤ n) :
    trackedLengthSize m ≤ trackedLengthSize n := by
  have hbits : ResourceController.bitLength m ≤ ResourceController.bitLength n := by
    unfold ResourceController.bitLength
    split
    · exact Nat.zero_le _
    · next hm =>
      rw [if_neg (by omega)]
      rw [Nat.log2_eq_log_two, Nat.log2_eq_log_two]
      exact Nat.succ_le_succ (Nat.log_mono_right h)
  have := Nat.div_le_div_right (c := 7) hbits
  unfold trackedLengthSize
  omega

/-- The bytes of a length as a ULEB128 number. A `usize` has at most ten groups of seven bits. -/
def uleb128Size (n : Nat) : Nat := (Bcs.ulebDigits 9 n).length

/-- The loop of `get_uleb128_size`: the exponent counts the powers of 128 up to the length. There
is no result if the next power overflows a `usize`, which happens before the rounds run out. -/
def getUleb128SizeLoop (len : Nat) : Nat → Nat → Nat → Option Nat
  | 0, _, _ => none
  | rounds + 1, power, expo =>
    if len ≥ power then
      if power * 128 < 2 ^ 64 then getUleb128SizeLoop len rounds (power * 128) (expo + 1) else none
    else some expo

/-- `get_uleb128_size`. -/
def getUleb128Size (len : Nat) : Option Nat := getUleb128SizeLoop len 9 128 1

/-! ## Bits and groups of seven bits -/

open ResourceController (bitLength)

theorem bitLength_le_iff {n k : Nat} : bitLength n ≤ k ↔ n < 2 ^ k := by
  unfold bitLength
  split
  · next hn => simp [hn]
  · next hn => rw [Nat.succ_le_iff, Nat.log2_lt hn]

theorem bitLength_div_128 (n : Nat) : bitLength (n / 128) = bitLength n - 7 := by
  refine eq_of_forall_ge_iff fun k => ?_
  rw [tsub_le_iff_right, bitLength_le_iff, bitLength_le_iff,
    Nat.div_lt_iff_lt_mul (by decide), Nat.pow_add]

/-- ULEB128 rounds the groups of seven bits up. -/
theorem length_ulebDigits {more n : Nat} (hn : n < 128 ^ (more + 1)) :
    (Bcs.ulebDigits more n).length = max ((bitLength n + 6) / 7) 1 := by
  have hsmall : ∀ {n}, n < 128 → max ((bitLength n + 6) / 7) 1 = 1 := by
    intro n hn
    have hbits : bitLength n ≤ 7 := bitLength_le_iff.mpr hn
    omega
  induction more generalizing n with
  | zero => rw [hsmall hn, Bcs.ulebDigits, List.length_singleton]
  | succ more ih =>
    rw [Bcs.ulebDigits]
    split
    · next hlt => rw [hsmall hlt, List.length_singleton]
    · next hlt =>
      have hbits : ¬bitLength n ≤ 7 := fun h => hlt (bitLength_le_iff.mp h)
      rw [List.length_cons, ih (Nat.div_lt_of_lt_mul (Nat.pow_succ' ▸ hn)), bitLength_div_128]
      omega

theorem uleb128Size_eq {n : Nat} (hn : n < 2 ^ 64) :
    uleb128Size n = max ((bitLength n + 6) / 7) 1 :=
  length_ulebDigits (hn.trans (by norm_num))

theorem trackedLengthSize_le (n : Nat) : trackedLengthSize n ≤ lengthSize n := by
  have hn : n < 128 ^ (n + 1) :=
    (Nat.lt_pow_self (by decide)).trans (Nat.pow_lt_pow_succ (by decide))
  rw [lengthSize, length_ulebDigits hn, trackedLengthSize]
  omega

/-- The tracker rounds down instead. -/
theorem trackedLengthSize_eq_iff {n : Nat} (hn : n < 2 ^ 64) :
    trackedLengthSize n = uleb128Size n ↔ n < 128 ∨ 7 ∣ bitLength n := by
  have hsmall : n < 2 ^ 7 ↔ bitLength n ≤ 7 := bitLength_le_iff.symm
  rw [uleb128Size_eq hn, trackedLengthSize, show n < 128 ↔ _ from hsmall]
  omega

/-- The loop has an invariant: `power` is 128 to the `expo`, and the length has more groups than
the powers before it. -/
theorem getUleb128SizeLoop_eq {len rounds expo : Nat} (hrounds : rounds + expo = 9)
    (hlen : expo = 0 ∨ 7 * expo < bitLength len) :
    getUleb128SizeLoop len rounds (128 ^ (expo + 1)) (expo + 1) =
      if len < 2 ^ 63 then some (max ((bitLength len + 6) / 7) 1) else none := by
  have hfits : len < 2 ^ 63 ↔ bitLength len ≤ 63 := bitLength_le_iff.symm
  have hpower : ∀ k, len < 128 ^ k ↔ bitLength len ≤ 7 * k := fun k => by
    rw [bitLength_le_iff, Nat.pow_mul]
  induction rounds generalizing expo with
  | zero => rw [getUleb128SizeLoop, if_neg (by omega)]
  | succ rounds ih =>
    rw [getUleb128SizeLoop]
    split
    · next hge =>
      rw [ge_iff_le, ← not_lt, hpower, not_le] at hge
      split
      · rw [← Nat.pow_succ]
        exact ih (by omega) (.inr hge)
      · next hoverflow =>
        -- Only the ninth power times 128 is too large.
        rw [← Nat.pow_succ, show 128 = 2 ^ 7 from rfl, ← Nat.pow_mul,
          Nat.pow_lt_pow_iff_right (by decide)] at hoverflow
        rw [if_neg (by omega)]
    · next hlt =>
      rw [ge_iff_le, not_le, hpower] at hlt
      rw [if_pos (by omega)]
      congr 1
      omega

/-- The other computation of the size is right, as far as it does not overflow. -/
theorem getUleb128Size_eq (n : Nat) :
    getUleb128Size n = if n < 2 ^ 63 then some (uleb128Size n) else none := by
  refine (getUleb128SizeLoop_eq rfl (.inl rfl)).trans ?_
  split
  · next hn => rw [uleb128Size_eq (hn.trans (by norm_num))]
  · rfl

namespace ResourceController

variable {A : Type} (c : ResourceController A)

/-- The tracked size is within its bound. -/
def WithinLimit (c : ResourceController A) : Prop := c.limits.2 ≤ c.limits.1

theorem trackExecutedBlockSize_tracks (size : Nat) :
    (c.trackExecutedBlockSize size).Ensures fun c' =>
      c'.limits = (c.limits.1, c.limits.2 + size) ∧ c'.WithinLimit := by
  unfold trackExecutedBlockSize checkedAdd
  split
  · exact .error
  · next total htotal =>
    split at htotal
    · cases htotal
      exact .guard fun hle => .ok ⟨rfl, hle⟩
    · cases htotal

theorem trackExecutedBlockSizeSequenceExtension_tracks (oldLen delta : Nat) :
    (c.trackExecutedBlockSizeSequenceExtension oldLen delta).Ensures fun c' =>
      c'.limits = (c.limits.1, c.limits.2 +
        (trackedLengthSize (oldLen + delta) - trackedLengthSize oldLen)) ∧
      (c.WithinLimit → c'.WithinLimit) := by
  unfold trackExecutedBlockSizeSequenceExtension
  split
  · next hdelta =>
    rw [hdelta, Nat.add_zero, Nat.sub_self]
    exact .ok ⟨rfl, id⟩
  · dsimp only
    split
    · exact (c.trackExecutedBlockSize_tracks _).mono fun c' h => ⟨h.1, fun _ => h.2⟩
    · next hle =>
      have hsame : trackedLengthSize (oldLen + delta) - trackedLengthSize oldLen = 0 :=
        Nat.sub_eq_zero_of_le (Nat.not_lt.mp hle)
      rw [hsame]
      exact .ok ⟨rfl, id⟩

/-- The calls for a sequence of extensions, the first of which finds `oldLen` elements. -/
def trackExtensions (c : ResourceController A) (oldLen : Nat) :
    List Nat → Except ExecutionError (ResourceController A)
  | [] => .ok c
  | delta :: deltas => do
    let c ← c.trackExecutedBlockSizeSequenceExtension oldLen delta
    c.trackExtensions (oldLen + delta) deltas

/-- The sum over the extensions telescopes. -/
theorem trackExtensions_tracks (oldLen : Nat) (deltas : List Nat) :
    (c.trackExtensions oldLen deltas).Ensures fun c' =>
      c'.limits = (c.limits.1, c.limits.2 +
        (trackedLengthSize (oldLen + deltas.sum) - trackedLengthSize oldLen)) := by
  induction deltas generalizing c oldLen with
  | nil =>
    refine .ok ?_
    rw [List.sum_nil, Nat.add_zero, Nat.sub_self]
    rfl
  | cons delta deltas ih =>
    refine .bind (c.trackExecutedBlockSizeSequenceExtension_tracks oldLen delta) fun c₁ h₁ => ?_
    refine (ih c₁ (oldLen + delta)).mono fun c₂ h₂ => ?_
    have hfirst : trackedLengthSize oldLen ≤ trackedLengthSize (oldLen + delta) :=
      trackedLengthSize_mono (Nat.le_add_right _ _)
    have hrest : trackedLengthSize (oldLen + delta) ≤
        trackedLengthSize (oldLen + delta + deltas.sum) :=
      trackedLengthSize_mono (Nat.le_add_right _ _)
    rw [h₂, h₁.1, List.sum_cons, ← Nat.add_assoc oldLen]
    refine Prod.ext rfl ?_
    simp only
    omega

/-- **What is tracked for a growing sequence** is the size of its final length exactly if that
has one byte, or bits that fill their groups of seven. -/
theorem extensions_tracked_iff {c' : ResourceController A} (deltas : List Nat)
    (hfinal : deltas.sum < 2 ^ 64) (h : c.trackExtensions 0 deltas = .ok c') :
    c'.tracker.executedBlockSize = c.tracker.executedBlockSize +
        (uleb128Size deltas.sum - uleb128Size 0) ↔
      deltas.sum < 128 ∨ 7 ∣ bitLength deltas.sum := by
  have htotal : c'.tracker.executedBlockSize = c.tracker.executedBlockSize +
      (trackedLengthSize (0 + deltas.sum) - trackedLengthSize 0) :=
    congrArg Prod.snd (c.trackExtensions_tracks 0 deltas c' h)
  have hzero : trackedLengthSize 0 = 1 ∧ uleb128Size 0 = 1 := ⟨rfl, rfl⟩
  have htracked : 1 ≤ trackedLengthSize deltas.sum := Nat.le_max_right _ _
  have hsize : 1 ≤ uleb128Size deltas.sum := by
    rw [uleb128Size_eq hfinal]
    exact Nat.le_max_right _ _
  rw [← trackedLengthSize_eq_iff hfinal, htotal, Nat.zero_add, hzero.1, hzero.2]
  omega

/-- A controller without a bound on the size that matters here. -/
def roomy : ResourceController Unit :=
  ⟨{ ResourceControlPolicy.default with maximumExecutedBlockSize := 1000 }, .default, ()⟩

/-- A length of 14 bits takes two bytes, and one of them is added. -/
theorem extensions_tracked_14_bits : ∃ c', roomy.trackExtensions 0 [100, 9900] = .ok c' ∧
    c'.tracker.executedBlockSize =
      roomy.tracker.executedBlockSize + (uleb128Size 10000 - uleb128Size 0) :=
  ⟨_, rfl, (roomy.extensions_tracked_iff [100, 9900] (by decide) rfl).mpr (.inr (by decide))⟩

/-- A length of 8 bits takes two bytes as well, but nothing is added. -/
theorem extension_to_8_bits_untracked :
    (roomy.trackExtensions 0 [100, 28]).toOption.map (·.tracker.executedBlockSize) =
      some roomy.tracker.executedBlockSize ∧
    uleb128Size 128 - uleb128Size 0 = 1 := by
  decide

/-- The size of the results of a transaction is tracked in four steps, of which three extend a
sequence by one. -/
theorem trackResults_tracks (size n : Nat) : (do
      let c ← c.trackExecutedBlockSize size
      let c ← c.trackExecutedBlockSizeSequenceExtension n 1
      let c ← c.trackExecutedBlockSizeSequenceExtension n 1
      c.trackExecutedBlockSizeSequenceExtension n 1).Ensures fun c' =>
    c'.limits = (c.limits.1, c.limits.2 + size +
      3 * (trackedLengthSize (n + 1) - trackedLengthSize n)) ∧ c'.WithinLimit := by
  refine .bind (c.trackExecutedBlockSize_tracks size) fun c₁ h₁ => ?_
  refine .bind (c₁.trackExecutedBlockSizeSequenceExtension_tracks n 1) fun c₂ h₂ => ?_
  refine .bind (c₂.trackExecutedBlockSizeSequenceExtension_tracks n 1) fun c₃ h₃ => ?_
  refine (c₃.trackExecutedBlockSizeSequenceExtension_tracks n 1).mono fun c₄ h₄ => ?_
  refine ⟨?_, h₄.2 (h₃.2 (h₂.2 h₁.2))⟩
  rw [h₄.1, h₃.1, h₂.1, h₁.1]
  refine Prod.ext rfl ?_
  simp only
  omega

end ResourceController

namespace ChainContext

variable (context : ChainContext)

/-- The serialized size of a bundle or an operation. -/
def transactionSize : Transaction → Nat
  | .receiveMessages bundle => context.bundleSize bundle
  | .executeOperation operation => context.operationSize operation

def allResultsSize (oracleResponses : List (List OracleResponse))
    (messages : List (List OutgoingMessage)) (events : List (List EventRecord)) : Nat :=
  ((oracleResponses.zip (messages.zip events)).map fun results =>
    context.resultsSize results.1 results.2.1 results.2.2).sum

/-- The BCS-serialized size of an executed block: its fields one after the other, with a byte or a
length in front of the ones that are optional or sequences. -/
def serializedSize (b : ExecutedBlock) : Nat :=
  -- The block: chain ID, epoch, bundles, operations, height, timestamp, signer, previous hash.
  32 + 4 +
    (lengthSize b.block.incomingBundles.length +
      (b.block.incomingBundles.map context.bundleSize).sum) +
    (lengthSize b.block.operations.length + (b.block.operations.map context.operationSize).sum) +
    8 + 8 + (if b.block.authenticatedSigner.isSome then 1 + 32 else 1) +
    (if b.block.previousBlockHash.isSome then 1 + 32 else 1) +
    -- The outcome: messages, state hash, oracle responses, events.
    lengthSize b.outcome.messages.length + 32 + lengthSize b.outcome.oracleResponses.length +
    lengthSize b.outcome.events.length +
    context.allResultsSize b.outcome.oracleResponses b.outcome.messages b.outcome.events

end ChainContext

/-- The size of an empty block is right. -/
example (context : ChainContext) (id : ChainId) (hash : CryptoHash) :
    context.serializedSize ⟨⟨id, 0, [], [], 0, 0, none, none⟩, ⟨[], hash, [], []⟩⟩ =
      emptyExecutedBlockSize := rfl

namespace Block

/-- What the tracker leaves out. -/
def untracked (b : Block) : Nat :=
  let transactions := b.incomingBundles.length + b.operations.length
  (if b.authenticatedSigner.isSome then 32 else 0) + (if b.previousBlockHash.isSome then 32 else 0) +
    (lengthSize b.incomingBundles.length - trackedLengthSize b.incomingBundles.length) +
    (lengthSize b.operations.length - trackedLengthSize b.operations.length) +
    3 * (lengthSize transactions - trackedLengthSize transactions)

end Block

namespace ChainStateView

variable (context : ChainContext) (c : ChainStateView)

variable (controller : ResourceController (Option Owner))

theorem pay_limits
    {f : ResourceController Sources → Except ExecutionError (ResourceController Sources)}
    (hf : ∀ c, (f c).Ensures fun c' => c'.limits = c.limits) :
    (c.pay controller f).Ensures fun p => p.2.limits = controller.limits := by
  refine .bind ?_ fun _ h => .ok h
  exact .bind (controller.withStateAndGrant_limits _ _ hf) fun _ h => .ok h

variable (block : Block)

theorem executeMessageInBlock_limits (localTime txnIndex : Nat) (bundle : IncomingBundle)
    (messageId : MessageId) (message : PostedMessage) (t : TransactionTracker)
    (controller : ResourceController (Option Owner)) :
    (c.executeMessageInBlock context block localTime txnIndex bundle messageId message t
      controller).Ensures fun p => p.2.2.limits = controller.limits := by
  unfold executeMessageInBlock
  cases bundle.action with
  | accept =>
    refine .guard fun _ => .bind (.mapError
      (ExecutionStateView.executeMessage_limits _ _ _ _ _ _ _ _ _)) ?_
    rintro ⟨executionState, grantLeft, t', controller'⟩ h
    dsimp only
    split
    · split
      · exact .bind_any fun _ => .ok h
      · exact .ok h
    · exact .ok h
  | reject =>
    refine .guard fun _ => ?_
    split
    · exact .bind_any fun _ => .ok rfl
    · split
      · split
        · exact .error
        · exact .bind_any fun _ => .ok rfl
      · exact .ok rfl

theorem executeMessages_limits (localTime txnIndex : Nat) (bundle : IncomingBundle)
    (t : TransactionTracker) (controller : ResourceController (Option Owner))
    (messages : List (MessageId × PostedMessage)) :
    (c.executeMessages context block localTime txnIndex bundle t controller messages).Ensures
      fun p => p.2.2.limits = controller.limits := by
  induction messages generalizing c t controller with
  | nil => exact .ok rfl
  | cons message messages ih =>
    obtain ⟨messageId, message⟩ := message
    refine .bind (c.executeMessageInBlock_limits context _ _ _ _ _ _ _ _) ?_
    rintro ⟨c₁, t₁, controller₁⟩ h₁
    exact (ih c₁ t₁ controller₁).mono fun p h => h.trans h₁

/-- The transaction itself adds its own size. -/
theorem executeTransactionBody_tracks (localTime txnIndex : Nat) (t : TransactionTracker)
    (controller : ResourceController (Option Owner)) (transaction : Transaction) :
    (c.executeTransactionBody context block localTime txnIndex t controller transaction).Ensures
      fun p => p.2.2.limits =
        (controller.limits.1, controller.limits.2 + context.transactionSize transaction) ∧
        p.2.2.WithinLimit := by
  cases transaction with
  | receiveMessages bundle =>
    -- Executing the messages costs fees, but it does not count towards the size.
    refine .bind (.mapError (controller.trackExecutedBlockSize_tracks _)) fun c₁ h₁ => ?_
    refine (c.executeMessages_limits context _ _ _ _ _ _ _).mono fun p h => ?_
    unfold ResourceController.WithinLimit
    rw [h]
    exact h₁
  | executeOperation operation =>
    refine .bind (.mapError (controller.trackExecutedBlockSize_tracks _)) fun c₁ h₁ => ?_
    refine .bind (.mapError (ExecutionStateView.executeOperation_limits _ _ _ _ _ _ _ _)) ?_
    rintro ⟨executionState, t', c₂⟩ h₂
    refine .bind (.mapError (pay_limits _ c₂ fun c' => c'.trackOperation_limits _)) ?_
    rintro ⟨chain, c₃⟩ h₃
    have h : c₃.limits = c₁.limits := h₃.trans h₂
    refine .ok ?_
    unfold ResourceController.WithinLimit
    rw [h]
    exact h₁

theorem trackMessages_limits (messages : List OutgoingMessage) :
    (c.trackMessages controller messages).Ensures fun p => p.2.limits = controller.limits := by
  induction messages generalizing c controller with
  | nil => exact .ok rfl
  | cons message messages ih =>
    refine .bind (c.pay_limits controller fun c' => c'.trackMessage_limits _) ?_
    rintro ⟨c₁, controller₁⟩ h₁
    exact (ih c₁ controller₁).mono fun p h => h.trans h₁

end ChainStateView

namespace BlockProgress

variable (context : ChainContext)

/-- What the tracker has counted after the given transactions of a block. -/
structure Tracks (start : Nat × Nat) (done : List Transaction) (p : BlockProgress) : Prop where
  oracleResponses : p.oracleResponses.length = done.length
  messages : p.messages.length = done.length
  events : p.events.length = done.length
  limits : p.controller.limits = (start.1, start.2 + (done.map context.transactionSize).sum +
    context.allResultsSize p.oracleResponses p.messages p.events +
    3 * (trackedLengthSize done.length - 1))
  within : p.controller.WithinLimit

theorem allResultsSize_concat {oracleResponses : List (List OracleResponse)}
    {messages : List (List OutgoingMessage)} {events : List (List EventRecord)}
    (hmessages : messages.length = oracleResponses.length)
    (hevents : events.length = oracleResponses.length) (responses : List OracleResponse)
    (sent : List OutgoingMessage) (emitted : List EventRecord) :
    context.allResultsSize (oracleResponses ++ [responses]) (messages ++ [sent])
        (events ++ [emitted]) =
      context.allResultsSize oracleResponses messages events +
        context.resultsSize responses sent emitted := by
  have hlength : messages.length = events.length := hmessages.trans hevents.symm
  unfold ChainContext.allResultsSize
  rw [List.zip_append hlength, List.zip_append (by rw [List.length_zip]; omega), List.map_append,
    List.sum_append]
  rfl

theorem executeTransaction_tracks {start : Nat × Nat} {done : List Transaction}
    {p : BlockProgress} (h : p.Tracks context start done) (block : Block)
    (localTime txnIndex : Nat) (transaction : Transaction) :
    (p.executeTransaction context block localTime txnIndex transaction).Ensures
      (Tracks context start (done ++ [transaction])) := by
  refine .bind_any ?_
  rintro ⟨responses, replaying⟩
  refine .bind (p.chain.executeTransactionBody_tracks context block localTime txnIndex _ _ _) ?_
  rintro ⟨c₁, t₁, controller₁⟩ ⟨h₁, hwithin₁⟩
  refine .bind_any fun t₂ => .bind_any ?_
  rintro ⟨outcomes, oracleResponses, nextMessageIndex⟩
  refine .bind_any ?_
  rintro ⟨c₂, messages, events⟩
  -- Whether or not the messages are paid for, the results are tracked in the same way.
  have hdone : ∀ controller₂ : ResourceController (Option Owner),
      controller₂.limits = controller₁.limits → (do
        let c ← controller₂.trackExecutedBlockSize
          (context.resultsSize oracleResponses messages events)
        let c ← c.trackExecutedBlockSizeSequenceExtension p.oracleResponses.length 1
        let c ← c.trackExecutedBlockSizeSequenceExtension p.messages.length 1
        c.trackExecutedBlockSizeSequenceExtension p.events.length 1).Ensures fun c =>
      ∀ p' : BlockProgress, p'.controller = c →
        p'.oracleResponses = p.oracleResponses ++ [oracleResponses] →
        p'.messages = p.messages ++ [messages] → p'.events = p.events ++ [events] →
        p'.Tracks context start (done ++ [transaction]) := by
    intro controller₂ h₂
    rw [h.oracleResponses, h.messages, h.events]
    refine (controller₂.trackResults_tracks _ done.length).mono ?_
    rintro c ⟨hlimits, hwithin⟩ p' rfl hresponses hmessages hevents
    refine ⟨?_, ?_, ?_, ?_, hwithin⟩
    · rw [hresponses, List.length_append, h.oracleResponses, List.length_append]
      rfl
    · rw [hmessages, List.length_append, h.messages, List.length_append]
      rfl
    · rw [hevents, List.length_append, h.events, List.length_append]
      rfl
    · -- The three sequences have the same length, so each is counted alike.
      have hsize := allResultsSize_concat context (h.messages.trans h.oracleResponses.symm)
        (h.events.trans h.oracleResponses.symm) oracleResponses messages events
      have hmono := trackedLengthSize_mono (Nat.le_add_right done.length 1)
      have hpos : 1 ≤ trackedLengthSize done.length := Nat.le_max_right _ _
      rw [hlimits, h₂, h₁, h.limits, hresponses, hmessages, hevents, hsize, List.map_append,
        List.sum_append, List.length_append]
      refine Prod.ext rfl ?_
      simp only [List.map_cons, List.map_nil, List.sum_cons, List.sum_nil, List.length_cons,
        List.length_nil, Nat.zero_add]
      omega
  simp only
  split
  · refine .bind (.mapError (c₂.trackMessages_limits controller₁ messages)) ?_
    rintro ⟨c₃, controller₂⟩ h₂
    refine .bind (.mapError (hdone controller₂ h₂)) fun c hc => ?_
    exact .ok (hc _ rfl rfl rfl rfl)
  · rw [Except.pure_eq, Except.ok_bind]
    refine .bind (.mapError (hdone controller₁ rfl)) fun c hc => ?_
    exact .ok (hc _ rfl rfl rfl rfl)

end BlockProgress

namespace ChainStateView

variable (context : ChainContext)

/-- The tracker starts with the size of an empty block, and the lengths of the block's own
sequences. -/
theorem startController_tracks (policy : ResourceControlPolicy) (block : Block) :
    (startController policy block).Ensures fun controller =>
      controller.limits = (policy.maximumExecutedBlockSize, emptyExecutedBlockSize +
        (trackedLengthSize block.incomingBundles.length - 1) +
        (trackedLengthSize block.operations.length - 1)) ∧ controller.WithinLimit := by
  -- The empty block counts one byte for each of the two lengths.
  have hzero : trackedLengthSize 0 = 1 := rfl
  refine .bind (ResourceController.trackExecutedBlockSize_tracks _ _) fun c₁ h₁ => ?_
  refine .bind (c₁.trackExecutedBlockSizeSequenceExtension_tracks _ _) fun c₂ h₂ => ?_
  refine (c₂.trackExecutedBlockSizeSequenceExtension_tracks _ _).mono fun c₃ h₃ => ?_
  refine ⟨?_, h₃.2 (h₂.2 h₁.2)⟩
  rw [h₃.1, h₂.1, h₁.1, hzero, Nat.zero_add, Nat.zero_add]
  refine Prod.ext rfl ?_
  show ResourceTracker.default.executedBlockSize + emptyExecutedBlockSize + _ + _ = _
  rw [show ResourceTracker.default.executedBlockSize = 0 from rfl, Nat.zero_add]

theorem startBlock_tracks (c : ChainStateView) (block : Block) (localTime : Nat)
    (responses : Option (List (List OracleResponse))) :
    (c.startBlock context block localTime responses).Ensures fun p =>
      p.Tracks context (p.controller.policy.maximumExecutedBlockSize, emptyExecutedBlockSize +
        (trackedLengthSize block.incomingBundles.length - 1) +
        (trackedLengthSize block.operations.length - 1)) [] := by
  refine .guard fun _ => .bind_any fun c₁ => .guard fun _ => ?_
  split
  · exact .error
  · refine .bind (.mapError (startController_tracks _ block)) fun controller h => ?_
    refine .guard fun _ => .bind_any fun _ => .ok ⟨rfl, rfl, rfl, ?_, h.2⟩
    refine Prod.ext rfl ?_
    exact (Prod.ext_iff.mp h.1).2

theorem transactionSize_sum (block : Block) : (block.transactions.map context.transactionSize).sum =
      (block.incomingBundles.map context.bundleSize).sum +
        (block.operations.map context.operationSize).sum := by
  rw [Block.transactions, List.map_append, List.sum_append, List.map_map, List.map_map]
  rfl

/-- A block that is executed under a bound on its size: its serialized size is what the tracker has
counted, which is within the bound, and what it leaves out. So the bound holds exactly if what is
left out fits into the rest of it, and always if nothing is left out. -/
theorem executeBlock_within_limit_iff {c : ChainStateView} {block : Block} {localTime : Nat}
    {responses : Option (List (List OracleResponse))} {e : BlockExecution}
    (h : c.executeBlock context block localTime responses = .ok e) :
    ∃ p p', c.startBlock context block localTime responses = .ok p ∧
      p.executeTransactions context block localTime 0 block.transactions = .ok p' ∧
      let limit := p.controller.policy.maximumExecutedBlockSize
      let tracked := p'.controller.tracker.executedBlockSize
      let size := context.serializedSize ⟨block, e.outcome⟩
      size = tracked + block.untracked ∧ (size ≤ limit ↔ block.untracked ≤ limit - tracked) ∧
        (block.untracked = 0 → size ≤ limit) := by
  obtain ⟨p, hp, h⟩ := Except.bind_eq_ok.mp h
  obtain ⟨p', hp', h⟩ := Except.bind_eq_ok.mp h
  have hstart := c.startBlock_tracks context block localTime responses p hp
  -- The invariant speaks about the transactions that are already done.
  have hdone := BlockProgress.executeTransactions_ensures context block localTime
    (I := fun rest p' => ∃ done, done ++ rest = block.transactions ∧ p'.Tracks context
      (p.controller.policy.maximumExecutedBlockSize, emptyExecutedBlockSize +
        (trackedLengthSize block.incomingBundles.length - 1) +
        (trackedLengthSize block.operations.length - 1)) done) block.transactions
    (by
      rintro txnIndex transaction rest p₁ ⟨done, hsplit, htracks⟩
      refine (BlockProgress.executeTransaction_tracks context htracks block localTime txnIndex
        transaction).mono fun p₂ h₂ => ⟨done ++ [transaction], ?_, h₂⟩
      rw [List.append_assoc]
      exact hsplit) 0 p ⟨[], rfl, hstart⟩
  obtain ⟨done, hsplit, htracks⟩ := hdone p' hp'
  obtain rfl : done = block.transactions := (List.append_nil done).symm.trans hsplit
  obtain ⟨stateHash, houtcome⟩ : ∃ stateHash,
      e.outcome = ⟨p'.messages, stateHash, p'.oracleResponses, p'.events⟩ := by
    have hfinish : (finishBlock context p' block localTime).Ensures fun e => ∃ stateHash,
        e.outcome = ⟨p'.messages, stateHash, p'.oracleResponses, p'.events⟩ :=
      .bind_any fun _ => .bind_any fun _ => .bind_any fun _ => .guard fun _ => .ok ⟨_, rfl⟩
    exact hfinish e h
  have hlength : block.transactions.length =
      block.incomingBundles.length + block.operations.length := by
    simp [Block.transactions]
  obtain ⟨hlimit, htracked⟩ := Prod.mk.inj htracks.limits
  have hwithin : p'.controller.tracker.executedBlockSize ≤
      p.controller.policy.maximumExecutedBlockSize := htracks.within.trans_eq hlimit
  have hsize : context.serializedSize ⟨block, e.outcome⟩ =
      p'.controller.tracker.executedBlockSize + block.untracked := by
    rw [htracked, transactionSize_sum, hlength, houtcome]
    simp only [ChainContext.serializedSize, htracks.messages, htracks.oracleResponses,
      htracks.events, hlength, Block.untracked, emptyExecutedBlockSize]
    have hpos : ∀ n, 1 ≤ trackedLengthSize n ∧ trackedLengthSize n ≤ lengthSize n := fun n =>
      ⟨Nat.le_max_right _ _, trackedLengthSize_le n⟩
    have h₁ := hpos block.incomingBundles.length
    have h₂ := hpos block.operations.length
    have h₃ := hpos (block.incomingBundles.length + block.operations.length)
    split <;> split <;> omega
  refine ⟨p, p', hp, hp', hsize, ?_⟩
  omega

/-- A chain on which executed blocks may have the given size. -/
def limitedChain (size : Nat) : ChainStateView :=
  activeChain.setSystem { activeChain.executionState.system with
    committees := .ofList [(0, ⟨.empty, { ResourceControlPolicy.default with
      maximumExecutedBlockSize := size }⟩)] }

/-- The block without transactions, with the given signer. -/
def emptyBlock (signer : Option Owner) : Block := ⟨⟨⟨0⟩⟩, 0, [], [], 0, 0, signer, none⟩

theorem executeBlock_within_limit_empty :
    ∃ e ∈ ((limitedChain 91).executeBlock simpleContext (emptyBlock none) 0 none).toOption,
      ∃ p ∈ ((limitedChain 91).startBlock simpleContext (emptyBlock none) 0 none).toOption,
        simpleContext.serializedSize ⟨emptyBlock none, e.outcome⟩ ≤
          p.controller.policy.maximumExecutedBlockSize := by
  obtain ⟨e, he, -⟩ : ∃ e ∈ ((limitedChain 91).executeBlock simpleContext (emptyBlock none) 0
      none).toOption, True := by decide
  obtain ⟨p, p', hp, -, -, -, hbound⟩ :=
    executeBlock_within_limit_iff simpleContext (Except.toOption_eq_some.mp he)
  exact ⟨e, he, p, Except.toOption_eq_some.mpr hp, hbound (by decide)⟩

/-- A bound of 91 bytes admits a signed block of 123 bytes. -/
theorem signed_block_exceeds_limit :
    ∃ e ∈ ((limitedChain 91).executeBlock simpleContext (emptyBlock (some ⟨⟨1⟩⟩)) 0
        none).toOption,
      ∃ p ∈ ((limitedChain 91).startBlock simpleContext (emptyBlock (some ⟨⟨1⟩⟩)) 0
          none).toOption,
        p.controller.policy.maximumExecutedBlockSize = 91 ∧
        simpleContext.serializedSize ⟨emptyBlock (some ⟨⟨1⟩⟩), e.outcome⟩ = 123 := by
  decide

end ChainStateView

end Linera
