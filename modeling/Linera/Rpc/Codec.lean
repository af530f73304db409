import Linera.Lib.LittleEndian

/-!
# Frames of the simple RPC protocol

A message is sent as a frame: the size of its payload in four bytes, and the payload,
which `bincode` makes and reads. The network hands over the bytes of the frames in
pieces of any size. After each piece the decoder takes as many frames as it can off
the front of its buffer.

What `bincode` does is given by a `Bincode`; that it reads back what it has written is
an assumption of the results.
-/

namespace Linera.Rpc

/-- `PREFIX_SIZE`: the size of the frame prefix that contains the payload size. -/
def prefixSize : Nat := 4

inductive Error where
  /-- "Failed to deserialize an incoming message" -/
  | deserialization
  /-- "Failed to serialize outgoing message" -/
  | serialization
  /-- "RpcMessage is too big to fit in a protocol frame" -/
  | messageTooBig (size : Nat)
deriving DecidableEq

/-- How messages are turned into bytes and back. -/
structure Bincode (RpcMessage : Type) where
  serialize : RpcMessage → Option Bytes
  deserialize : Bytes → Option RpcMessage

namespace Codec

variable {RpcMessage : Type} (bincode : Bincode RpcMessage)

/-- Appends a frame to the buffer. The second component is the buffer afterwards. -/
def encode (message : RpcMessage) (buffer : Bytes) : Except Error Unit × Bytes :=
  match bincode.serialize message with
  | none => (.error .serialization, buffer)
  | some payload =>
    -- The frame is written behind the buffer, at first with a size of zero.
    let frameBuffer := Bytes.ofLittleEndian 4 0 ++ payload
    let payloadSize := frameBuffer.length - prefixSize
    if payloadSize < 2 ^ 32 then
      (.ok (), buffer ++ (Bytes.ofLittleEndian 4 payloadSize ++ frameBuffer.drop 4))
    else (.error (.messageTooBig payloadSize), buffer)

/-- Takes a message off the front of the buffer, if there is a complete one. -/
def decode (buffer : Bytes) : Except Error (Option RpcMessage) × Bytes :=
  if buffer.length < prefixSize then (.ok none, buffer)
  else
    let payloadSize := Bytes.littleEndian (buffer.take 4)
    let frameSize := prefixSize + payloadSize
    if buffer.length < frameSize then (.ok none, buffer)
    else
      let buffer := buffer.drop prefixSize
      match bincode.deserialize (buffer.take payloadSize) with
      | none => (.error .deserialization, buffer.drop payloadSize)
      | some message => (.ok (some message), buffer.drop payloadSize)

/-! ## Streams -/

def encodeAll : List RpcMessage → Bytes → Except Error Bytes
  | [], buffer => .ok buffer
  | message :: messages, buffer =>
    match encode bincode message buffer with
    | (.ok (), buffer) => encodeAll messages buffer
    | (.error error, _) => .error error

/-- Calls `decode` until there is no complete message left. The result is `none` if a call fails, or
if the given number of calls does not suffice. -/
def drain : Nat → Bytes → Option (List RpcMessage × Bytes)
  | 0, _ => none
  | calls + 1, buffer =>
    match decode bincode buffer with
    | (.ok none, buffer) => some ([], buffer)
    | (.ok (some message), buffer) =>
      (drain calls buffer).map fun r => (message :: r.1, r.2)
    | (.error _, _) => none

/-- Delivers pieces to the decoder. -/
def deliver (calls : Nat) : Bytes → List Bytes → Option (List RpcMessage × Bytes)
  | buffer, [] => some ([], buffer)
  | buffer, piece :: pieces =>
    match drain bincode calls (buffer ++ piece) with
    | none => none
    | some (messages, buffer) =>
      (deliver calls buffer pieces).map fun r => (messages ++ r.1, r.2)

/-- A message whose payload fits in a frame. -/
def Fits (message : RpcMessage) : Prop :=
  ∃ payload, bincode.serialize message = some payload ∧ payload.length < 2 ^ 32

def frame (payload : Bytes) : Bytes := Bytes.ofLittleEndian 4 payload.length ++ payload

def stream (messages : List RpcMessage) : Bytes :=
  messages.flatMap fun message => (bincode.serialize message).elim [] frame

@[simp] theorem length_frame (payload : Bytes) : (frame payload).length = 4 + payload.length := by
  simp [frame]

variable {bincode} {message : RpcMessage} {messages : List RpcMessage} {payload : Bytes}

theorem stream_cons (h : bincode.serialize message = some payload) :
    stream bincode (message :: messages) = frame payload ++ stream bincode messages := by
  rw [stream, List.flatMap_cons, h]
  rfl

theorem encode_of_fits (h : bincode.serialize message = some payload)
    (hsize : payload.length < 2 ^ 32) (buffer : Bytes) :
    encode bincode message buffer = (.ok (), buffer ++ frame payload) := by
  have hpayload : (Bytes.ofLittleEndian 4 0 ++ payload).length - prefixSize = payload.length := by
    rw [List.length_append, Bytes.length_ofLittleEndian, prefixSize]
    omega
  have hdrop : (Bytes.ofLittleEndian 4 0 ++ payload).drop 4 = payload := rfl
  simp only [encode, h, hpayload, hsize, if_true, hdrop]
  rfl

theorem encodeAll_eq (hfits : ∀ message ∈ messages, Fits bincode message) (buffer : Bytes) :
    encodeAll bincode messages buffer = .ok (buffer ++ stream bincode messages) := by
  induction messages generalizing buffer with
  | nil => rw [encodeAll, stream, List.flatMap_nil, List.append_nil]
  | cons message messages ih =>
    obtain ⟨payload, hpayload, hsize⟩ := hfits message List.mem_cons_self
    rw [encodeAll, encode_of_fits hpayload hsize]
    dsimp only
    rw [ih fun m hm => hfits m (List.mem_cons_of_mem _ hm), stream_cons hpayload, List.append_assoc]

/-- A call that fails leaves the buffer as it was. -/
theorem encode_error {buffer : Bytes} {error : Error}
    (h : (encode bincode message buffer).1 = .error error) :
    (encode bincode message buffer).2 = buffer := by
  unfold encode at h ⊢
  split
  · rfl
  · next payload hpayload =>
    rw [hpayload] at h
    dsimp only at h ⊢
    split
    · next hsize =>
      rw [if_pos hsize] at h
      cases h
    · rfl

/-! ## Decoding a stream -/

/-- The decoder's view of a size. -/
theorem littleEndian_take_frame (hsize : payload.length < 2 ^ 32) (rest : Bytes) :
    Bytes.littleEndian ((frame payload ++ rest).take 4) = payload.length := by
  have htake : (frame payload ++ rest).take 4 = Bytes.ofLittleEndian 4 payload.length := by
    rw [frame, List.append_assoc, List.take_append_of_le_length (by simp), List.take_of_length_le
      (by simp)]
  rw [htake, Bytes.littleEndian_ofLittleEndian, Nat.mod_eq_of_lt (by simpa using hsize)]

/-- A complete frame is taken off. -/
theorem decode_frame (hsize : payload.length < 2 ^ 32)
    (hround : bincode.deserialize payload = some message) (rest : Bytes) :
    decode bincode (frame payload ++ rest) = (.ok (some message), rest) := by
  have hdrop : (frame payload ++ rest).drop prefixSize = payload ++ rest := rfl
  unfold decode
  rw [if_neg (by rw [List.length_append, length_frame, prefixSize]; omega)]
  dsimp only
  rw [littleEndian_take_frame hsize, if_neg (by
    rw [List.length_append, length_frame, prefixSize]; omega), hdrop, List.take_left, hround,
    List.drop_left]

theorem decode_partial (hsize : payload.length < 2 ^ 32) {buffer tail rest : Bytes}
    (hbuffer : buffer ++ tail = frame payload ++ rest)
    (hlt : buffer.length < (frame payload).length) : decode bincode buffer = (.ok none, buffer) := by
  unfold decode
  by_cases hprefix : buffer.length < prefixSize
  · rw [if_pos hprefix]
  · -- The size is there, and says that bytes are missing.
    have htake : buffer.take 4 = (frame payload ++ rest).take 4 := by
      have hfour : 4 ≤ buffer.length := Nat.le_of_not_lt hprefix
      rw [← hbuffer, List.take_append_of_le_length hfour]
    rw [if_neg hprefix]
    dsimp only
    rw [htake, littleEndian_take_frame hsize, if_pos (by rwa [length_frame] at hlt)]

/-- What the decoder does with the beginning of a stream: it takes the complete frames, and the
next frame is not complete. -/
theorem drain_spec (hround : ∀ message payload, bincode.serialize message = some payload →
      bincode.deserialize payload = some message)
    (hfits : ∀ message ∈ messages, Fits bincode message) {buffer tail : Bytes} {calls : Nat}
    (hbuffer : buffer ++ tail = stream bincode messages) (hcalls : buffer.length < calls) :
    ∃ done todo rest, messages = done ++ todo ∧ drain bincode calls buffer = some (done, rest) ∧
      rest ++ tail = stream bincode todo ∧ rest.length ≤ buffer.length ∧
      (rest = stream bincode todo → todo = []) := by
  induction messages generalizing buffer calls with
  | nil =>
    obtain ⟨rfl, rfl⟩ := List.append_eq_nil_iff.mp hbuffer
    obtain ⟨calls, rfl⟩ := Nat.exists_eq_succ_of_ne_zero (Nat.ne_of_gt hcalls)
    exact ⟨[], [], [], rfl, rfl, rfl, Nat.le_refl _, fun _ => rfl⟩
  | cons message messages ih =>
    obtain ⟨payload, hpayload, hsize⟩ := hfits message List.mem_cons_self
    have hfits' : ∀ m ∈ messages, Fits bincode m := fun m hm => hfits m (List.mem_cons_of_mem _ hm)
    obtain ⟨calls, rfl⟩ := Nat.exists_eq_succ_of_ne_zero (Nat.ne_of_gt (Nat.zero_lt_of_lt hcalls))
    rw [stream_cons hpayload] at hbuffer
    by_cases hlt : buffer.length < (frame payload).length
    · -- Nothing is taken, and the buffer waits for the next piece.
      refine ⟨[], message :: messages, buffer, rfl, ?_, ?_, Nat.le_refl _, fun heq => ?_⟩
      · rw [drain, decode_partial hsize hbuffer hlt]
      · rw [stream_cons hpayload, hbuffer]
      · rw [heq, stream_cons hpayload, List.length_append] at hlt
        omega
    · -- The first frame is complete.
      have hframe : frame payload <+: buffer ++ tail := hbuffer ▸ List.prefix_append _ _
      obtain ⟨buffer', rfl⟩ := List.prefix_of_prefix_length_le hframe (List.prefix_append _ _)
        (Nat.le_of_not_lt hlt)
      rw [List.append_assoc, List.append_cancel_left_eq] at hbuffer
      rw [List.length_append, length_frame] at hcalls
      have hcalls' : buffer'.length < calls := by omega
      obtain ⟨done, todo, rest, rfl, hdrain, hrest, hlength, hdone⟩ := ih hfits' hbuffer hcalls'
      refine ⟨message :: done, todo, rest, rfl, ?_, hrest, ?_, hdone⟩
      · rw [drain, decode_frame hsize (hround message payload hpayload)]
        dsimp only
        rw [hdrain]
        rfl
      · rw [List.length_append]
        omega

theorem deliver_spec (hround : ∀ message payload, bincode.serialize message = some payload →
      bincode.deserialize payload = some message)
    (hfits : ∀ message ∈ messages, Fits bincode message) {calls : Nat}
    (hcalls : (stream bincode messages).length < calls) {buffer : Bytes} {pieces : List Bytes}
    (hbuffer : buffer ++ pieces.flatten = stream bincode messages)
    (hdrained : buffer = stream bincode messages → messages = []) :
    deliver bincode calls buffer pieces = some (messages, []) := by
  induction pieces generalizing buffer messages with
  | nil =>
    -- No bytes are missing, so the decoder has already taken all messages.
    rw [List.flatten_nil, List.append_nil] at hbuffer
    obtain rfl := hdrained hbuffer
    rw [deliver, hbuffer]
    rfl
  | cons piece pieces ih =>
    rw [List.flatten_cons, ← List.append_assoc] at hbuffer
    have hlength := congrArg List.length hbuffer
    rw [List.length_append] at hlength
    have hpiece : (buffer ++ piece).length < calls := by omega
    obtain ⟨done, todo, rest, rfl, hdrain, hrest, -, hdone⟩ :=
      drain_spec hround hfits hbuffer hpiece
    have hstream : stream bincode (done ++ todo) = stream bincode done ++ stream bincode todo :=
      List.flatMap_append
    rw [hstream, List.length_append] at hcalls
    have htodo := ih (fun m hm => hfits m (List.mem_append_right _ hm)) (by omega) hrest hdone
    rw [deliver, hdrain]
    dsimp only
    rw [htodo]
    rfl

/-- **Framing survives any fragmentation.** The messages are encoded, and arrive in order from any
pieces that make up the bytes; nothing is left in the buffer. A message that cannot be encoded does
not change the buffer. -/
theorem frames_delivered
    (hround : ∀ message payload, bincode.serialize message = some payload →
      bincode.deserialize payload = some message)
    (hfits : ∀ message ∈ messages, Fits bincode message) :
    (∃ bytes, encodeAll bincode messages [] = .ok bytes ∧
      ∀ pieces, pieces.flatten = bytes → ∀ calls, bytes.length < calls →
        deliver bincode calls [] pieces = some (messages, [])) ∧
    ∀ message buffer error, (encode bincode message buffer).1 = .error error →
      (encode bincode message buffer).2 = buffer := by
  refine ⟨⟨stream bincode messages, encodeAll_eq hfits [], fun pieces hpieces calls hcalls => ?_⟩,
    fun message buffer error => encode_error⟩
  refine deliver_spec hround hfits hcalls hpieces fun hnil => ?_
  -- A frame is never empty.
  cases messages with
  | nil => rfl
  | cons message messages =>
    obtain ⟨payload, hpayload, -⟩ := hfits message List.mem_cons_self
    have hlength := congrArg List.length hnil
    rw [stream_cons hpayload, List.length_append, length_frame, List.length_nil] at hlength
    omega

/-- Messages that are their own payload, cut in the middle of a size and of a payload. -/
theorem frames_delivered_two :
    deliver (⟨some, some⟩ : Bincode Bytes) 100 [] [[2, 0], [0, 0, 7], [8, 1, 0, 0, 0, 9]] =
      some ([[7, 8], [9]], []) := by
  have hfits : ∀ message ∈ [[7, 8], [9]], Fits (⟨some, some⟩ : Bincode Bytes) message := by
    intro message hmessage
    refine ⟨message, rfl, ?_⟩
    rcases List.mem_cons.mp hmessage with rfl | hmessage
    · decide
    · rw [List.mem_singleton.mp hmessage]
      decide
  obtain ⟨⟨bytes, hbytes, hdeliver⟩, -⟩ :=
    frames_delivered (fun message payload h => congrArg some (Option.some.inj h).symm) hfits
  cases hbytes
  exact hdeliver _ (by decide) 100 (by decide)

end Codec

end Linera.Rpc
