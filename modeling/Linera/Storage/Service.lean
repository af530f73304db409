import Linera.Views.ValueSplitting

/-!
# The storage service

A server keeps a key-value store for its clients, and answers their requests. The channel between
them has a limit on the size of a message. So a client sends a batch in parts, and a large value
in chunks that the server puts together again. A large reply stays on the server as serialized
chunks, which the client fetches one by one.

What the client counts of a batch is not the size of the request: the key of an `Append` comes on
top of a chunk, and the namespace and the encoding come on top of every key. So a request can be
larger than the channel allows, although `MAX_PAYLOAD_SIZE` leaves some space.

* `requests_eq_ok`, `fetch_eq_ok` — however they are cut, a batch does to the store what its
  operations do, and a reply arrives as it was sent.
* `call_eq_ok`, `delivers_of_call` — a call acts as on a map of bytes exactly if the requests and a
  small reply are within the limit, and a large reply can be serialized.
-/

namespace Linera.StorageService

open Views

/-- The maximum key size is set to 1M rather arbitrarily. -/
def maxKeySize : Nat := 1000000

/-- The maximal size of a message, decreased to leave space for the rest of the message. -/
def maxPayloadSize : Nat := 4000000

/-- A gRPC channel, which delivers the messages up to a size. A chunk fits with its encoding. -/
structure Channel where
  maxMessageSize : Nat
  space : maxPayloadSize + 64 ≤ maxMessageSize

/-- The default limit of the `tonic` library. -/
def Channel.tonic : Channel := ⟨4194304, by decide⟩

/-- What makes a call of the client fail. -/
inductive ServiceStoreError where
  /-- "The key size must be at most 1 MB" -/
  | keyTooLong
  /-- The status of a message that is too large for the channel. -/
  | outOfRange
  /-- There is no pending read with this index. -/
  | notFound
  /-- "An error occurred during BCS serialization" -/
  | bcsError
  /-- The server has panicked. -/
  | serverPanicked
  /-- `unreachable!()` in the client. -/
  | unreachable
deriving DecidableEq

abbrev Result := Except ServiceStoreError

inductive Statement where
  | delete (key : Bytes)
  | put (key value : Bytes)
  /-- A chunk of a value. -/
  | append (key value : Bytes) (last : Bool)
  | deletePrefix (keyPrefix : Bytes)

/-- Cuts bytes into chunks that fit into a message. -/
def chunks (bytes : Bytes) : List Bytes :=
  ValueSplitting.chunks maxPayloadSize bytes.length bytes

/-- The cast of a `usize` to an `i32`. -/
def asI32 (n : Nat) : Int :=
  if n % 2 ^ 32 < 2 ^ 31 then (n % 2 ^ 32 : Nat) else (n % 2 ^ 32 : Nat) - 2 ^ 32

/-- Fails if a message of this size is not delivered. -/
def Channel.deliver (channel : Channel) (encodedLen : Nat) : Result Unit :=
  ensure (encodedLen ≤ channel.maxMessageSize) .outOfRange

/-! ## Sizes of messages

The messages are encoded with Protocol Buffers. All tags of their fields have one byte. -/

def varintLen (n : Nat) : Nat := (Bcs.ulebDigits 9 n).length

/-- A tag, a length and as many bytes. -/
def delimitedLen (length : Nat) : Nat := 1 + varintLen length + length

/-- A field of some bytes, which is left out if there are none. -/
def bytesLen (bytes : Bytes) : Nat := if bytes = [] then 0 else delimitedLen bytes.length

/-- A number, as 64 bits, which is left out if it is zero. -/
def intLen (n : Int) : Nat := if n = 0 then 0 else 1 + varintLen (n % 2 ^ 64).toNat

def repeatedLen (lengths : List Nat) : Nat := (lengths.map delimitedLen).sum

def keysLen (keys : List Bytes) : Nat := repeatedLen (keys.map List.length)

def keyValueLen (key value : Bytes) : Nat := bytesLen key + bytesLen value

def optValueLen (value : Option Bytes) : Nat := value.elim 0 fun bytes => delimitedLen bytes.length

def Statement.encodedLen : Statement → Nat
  | .delete key => delimitedLen key.length
  | .put key value => delimitedLen (keyValueLen key value)
  | .append key value last => delimitedLen (keyValueLen key value + if last then 2 else 0)
  | .deletePrefix keyPrefix => delimitedLen keyPrefix.length

def requestWriteBatchExtendedLen (statements : List Statement) : Nat :=
  repeatedLen (statements.map Statement.encodedLen)

/-! ## The server -/

structure PendingBigReads where
  index : Nat
  chunksByIndex : BTreeMap Nat (List Bytes)

structure ServiceStoreServer where
  store : KeyValueMap
  pendingBigPuts : BTreeMap Bytes Bytes
  pendingBigReads : PendingBigReads

namespace ServiceStoreServer

/-- Takes a statement into the batch, or a chunk into the pending puts. -/
def processStatement (acc : BTreeMap Bytes Bytes × List WriteOperation) :
    Statement → Result (BTreeMap Bytes Bytes × List WriteOperation)
  | .delete key => .ok (acc.1, acc.2 ++ [.delete key])
  | .put key value => .ok (acc.1, acc.2 ++ [.put key value])
  | .append key value last =>
    -- The chunks before this one are pending.
    let pendingBigPuts := match acc.1.get key with
      | none => acc.1.insert key value
      | some before => acc.1.insert key (before ++ value)
    if last then
      match pendingBigPuts.get key with
      | none => .error .serverPanicked
      | some value => .ok (pendingBigPuts.remove key, acc.2 ++ [.put key value])
    else .ok (pendingBigPuts, acc.2)
  | .deletePrefix keyPrefix => .ok (acc.1, acc.2 ++ [.deletePrefix keyPrefix])

variable (server : ServiceStoreServer)

def processWriteBatchExtended (statements : List Statement) : Result ServiceStoreServer := do
  let r ← statements.foldlM processStatement (server.pendingBigPuts, [])
  return { server with
    store := if r.2.isEmpty then server.store else Batch.apply ⟨r.2⟩ server.store
    pendingBigPuts := r.1 }

/-- The server with the chunks of a pending read. -/
def addPendingRead (bytes : Bytes) : ServiceStoreServer :=
  { server with pendingBigReads :=
    { index := (server.pendingBigReads.index + 1) % 2 ^ 64
      chunksByIndex := server.pendingBigReads.chunksByIndex.insert server.pendingBigReads.index
        (chunks bytes) } }

/-- Keeps a value in chunks. Returns the index and the number of the chunks. -/
def insertPendingRead {α : Type} (codec : Bcs.Codec α) (a : α) :
    Result (ServiceStoreServer × Nat × Int) :=
  match codec.write a with
  | none => .error .serverPanicked -- `unwrap`
  | some bytes => .ok (server.addPendingRead bytes, server.pendingBigReads.index,
      asI32 (chunks bytes).length)

/-- A reply that has the value itself, or says where its chunks are. -/
structure Reply (α : Type) where
  value : α
  messageIndex : Nat
  numChunks : Int

/-- What the replies to a kind of read do with a value. -/
structure ReplyKind (α : Type) where
  codec : Bcs.Codec α
  /-- The size by which the server decides whether it is sent at once. -/
  size : α → Nat
  /-- The size of its fields in the reply. -/
  encodedLen : α → Nat
  /-- What is in its place if it is kept in chunks. -/
  default : α
  encodedLen_default : encodedLen default = 0 := by rfl
  write_ne_nil : ∀ {a bytes}, codec.write a = some bytes → bytes ≠ []

def Reply.encodedLen {α : Type} (kind : ReplyKind α) (reply : Reply α) : Nat :=
  kind.encodedLen reply.value + intLen reply.messageIndex + intLen reply.numChunks

/-- What the replies to reads have in common: the value is sent at once if it is small. -/
def respond {α : Type} (kind : ReplyKind α) (a : α) : Result (ServiceStoreServer × Reply α) :=
  if kind.size a < maxPayloadSize then .ok (server, ⟨a, 0, 0⟩)
  else do
    let r ← server.insertPendingRead kind.codec a
    return (r.1, ⟨kind.default, r.2.1, r.2.2⟩)

theorem write_option_ne_nil {α : Type} {codec : Bcs.Codec α} {o : Option α} {bytes : Bytes}
    (h : (Bcs.Codec.option codec).write o = some bytes) : bytes ≠ [] := by
  cases o with
  | none =>
    cases h
    simp
  | some a =>
    obtain ⟨x, -, rfl⟩ := Option.map_eq_some_iff.mp h
    simp

theorem write_list_ne_nil {α : Type} {codec : Bcs.Codec α} {l : List α} {bytes : Bytes}
    (h : (Bcs.Codec.list codec).write l = some bytes) : bytes ≠ [] := by
  simp only [Bcs.Codec.list] at h
  split at h
  · obtain ⟨x, -, rfl⟩ := Option.map_eq_some_iff.mp h
    have huleb : ∀ more n, Bcs.ulebDigits more n ≠ [] := by
      intro more n
      cases more <;> simp only [Bcs.ulebDigits] <;> (try split) <;> simp
    simp [Bcs.uleb128, huleb]
  · cases h

def valueSize (value : Option Bytes) : Nat := value.elim 0 List.length

def replyReadValue : ReplyKind (Option Bytes) where
  codec := .option .bytes
  size := valueSize
  encodedLen := optValueLen
  default := none
  write_ne_nil := write_option_ne_nil

def replyReadMultiValues : ReplyKind (List (Option Bytes)) where
  codec := .list (.option .bytes)
  size values := (values.map valueSize).sum
  encodedLen values := repeatedLen (values.map optValueLen)
  default := []
  write_ne_nil := write_list_ne_nil

def replyFindKeysByPrefix : ReplyKind (List Bytes) where
  codec := .list .bytes
  size keys := (keys.map List.length).sum
  encodedLen := keysLen
  default := []
  write_ne_nil := write_list_ne_nil

def replyFindKeyValuesByPrefix : ReplyKind (List (Bytes × Bytes)) where
  codec := .list (.pair .bytes .bytes)
  size keyValues := (keyValues.map fun x => x.1.length + x.2.length).sum
  encodedLen keyValues := repeatedLen (keyValues.map fun x => keyValueLen x.1 x.2)
  default := []
  write_ne_nil := write_list_ne_nil

def processReadValue (key : Bytes) : Result (ServiceStoreServer × Reply (Option Bytes)) :=
  server.respond replyReadValue (server.store.get key)

def processReadMultiValues (keys : List Bytes) :
    Result (ServiceStoreServer × Reply (List (Option Bytes))) :=
  server.respond replyReadMultiValues (keys.map server.store.get)

def processFindKeysByPrefix (keyPrefix : Bytes) :
    Result (ServiceStoreServer × Reply (List Bytes)) :=
  server.respond replyFindKeysByPrefix (contentsUnder keyPrefix server.store).keys

def processFindKeyValuesByPrefix (keyPrefix : Bytes) :
    Result (ServiceStoreServer × Reply (List (Bytes × Bytes))) :=
  server.respond replyFindKeyValuesByPrefix (contentsUnder keyPrefix server.store).entries

def removePendingRead (messageIndex : Nat) : ServiceStoreServer :=
  { server with pendingBigReads :=
    { server.pendingBigReads with
      chunksByIndex := server.pendingBigReads.chunksByIndex.remove messageIndex } }

/-- Returns a chunk. Once the last one is taken, all are forgotten. -/
def processSpecificChunk (messageIndex index : Nat) : Result (ServiceStoreServer × Bytes) :=
  match server.pendingBigReads.chunksByIndex.get messageIndex with
  | none => .error .notFound
  | some entry =>
    match entry[index]? with
    | none => .error .serverPanicked
    | some chunk =>
      .ok (if entry.length = index + 1 then server.removePendingRead messageIndex else server,
        chunk)

end ServiceStoreServer

/-! ## The client -/

/-- A client, with the keys of its namespace under `namespaceKey` and its own ones under
`startKey`. -/
structure ServiceStoreClientInternal where
  channel : Channel
  namespaceKey : Bytes
  startKey : Bytes
  starts : namespaceKey <+: startKey

namespace ServiceStoreClientInternal

variable (client : ServiceStoreClientInternal) (server : ServiceStoreServer)

def rootKeyLen : Nat := client.startKey.length - client.namespaceKey.length

def getStatement : WriteOperation → Statement
  | .delete key => .delete (client.startKey ++ key)
  | .put key value => .put (client.startKey ++ key) value
  | .deletePrefix keyPrefix => .deletePrefix (client.startKey ++ keyPrefix)

/-- Submits the statements in one request. The reply to it is empty. -/
def submitStatements (statements : List Statement) : Result ServiceStoreServer :=
  if statements.isEmpty then .ok server
  else do
    client.channel.deliver (requestWriteBatchExtendedLen statements)
    server.processWriteBatchExtended statements

/-- The requests for the chunks of a value. -/
def appendRequests (fullKey : Bytes) : List Bytes → List (List Statement)
  | [] => []
  | value :: rest => [.append fullKey value rest.isEmpty] :: appendRequests fullKey rest

/-- The server, and what has not been sent yet. -/
structure WriteState where
  server : ServiceStoreServer
  statements : List Statement
  chunkSize : Nat

def valueLen : WriteOperation → Nat
  | .put _ value => value.length
  | .delete _ => 0
  | .deletePrefix _ => 0

def operationSize (operation : WriteOperation) : Nat :=
  operation.target.length + valueLen operation + client.rootKeyLen

/-- The body of the loop of `write_batch`. -/
def writeOperation (st : WriteState) (operation : WriteOperation) : Result WriteState := do
  let operationSize := client.operationSize operation
  ensure (operation.target.length ≤ maxKeySize) .keyTooLong
  if operationSize + st.chunkSize < maxPayloadSize then
    return ⟨st.server, st.statements ++ [client.getStatement operation],
      st.chunkSize + operationSize⟩
  else
    let server ← client.submitStatements st.server st.statements
    if operationSize > maxPayloadSize then
      -- One single operation is especially big. So split it in chunks.
      match operation with
      | .put key value =>
        let server ← (appendRequests (client.startKey ++ key) (chunks value)).foldlM
          client.submitStatements server
        return ⟨server, [], 0⟩
      | .delete _ => throw .unreachable
      | .deletePrefix _ => throw .unreachable
    else return ⟨server, [client.getStatement operation], operationSize⟩

def writeBatch (batch : Batch) : Result ServiceStoreServer :=
  if batch.operations.isEmpty then .ok server
  else do
    let st ← batch.operations.foldlM client.writeOperation ⟨server, [], 0⟩
    client.submitStatements st.server st.statements

/-- The loop of `read_entries`. -/
def readChunks (messageIndex : Nat) :
    Nat → Nat → ServiceStoreServer → Bytes → Result (ServiceStoreServer × Bytes)
  | 0, _, server, value => .ok (server, value)
  | more + 1, index, server, value => do
    client.channel.deliver (intLen messageIndex + intLen index)
    let r ← server.processSpecificChunk messageIndex index
    client.channel.deliver (bytesLen r.2)
    readChunks messageIndex more (index + 1) r.1 (value ++ r.2)

def readEntries {α : Type} (codec : Bcs.Codec α) (messageIndex : Nat) (numChunks : Int) :
    Result (ServiceStoreServer × α) := do
  let r ← client.readChunks messageIndex numChunks.toNat 0 server []
  match codec.fromBytes r.2 with
  | none => throw .bcsError
  | some a => return (r.1, a)

open ServiceStoreServer

/-- What the reads have in common: a request is sent, and the value is in the reply or is
fetched. -/
def fetch {α : Type} (kind : ReplyKind α) (encodedLen : Nat)
    (response : Result (ServiceStoreServer × Reply α)) : Result (ServiceStoreServer × α) := do
  client.channel.deliver encodedLen
  let r ← response
  client.channel.deliver (r.2.encodedLen kind)
  if r.2.numChunks = 0 then return (r.1, r.2.value)
  else client.readEntries r.1 kind.codec r.2.messageIndex r.2.numChunks

def readValueBytes (key : Bytes) : Result (ServiceStoreServer × Option Bytes) := do
  ensure (key.length ≤ maxKeySize) .keyTooLong
  let fullKey := client.startKey ++ key
  client.fetch replyReadValue (bytesLen fullKey) (server.processReadValue fullKey)

def readMultiValuesBytes (keys : List Bytes) :
    Result (ServiceStoreServer × List (Option Bytes)) := do
  ensure (∀ key ∈ keys, key.length ≤ maxKeySize) .keyTooLong
  let fullKeys := keys.map fun key => client.startKey ++ key
  client.fetch replyReadMultiValues (keysLen fullKeys) (server.processReadMultiValues fullKeys)

def findKeysByPrefix (keyPrefix : Bytes) : Result (ServiceStoreServer × List Bytes) := do
  ensure (keyPrefix.length ≤ maxKeySize) .keyTooLong
  let fullKeyPrefix := client.startKey ++ keyPrefix
  client.fetch replyFindKeysByPrefix (bytesLen fullKeyPrefix)
    (server.processFindKeysByPrefix fullKeyPrefix)

def findKeyValuesByPrefix (keyPrefix : Bytes) :
    Result (ServiceStoreServer × List (Bytes × Bytes)) := do
  ensure (keyPrefix.length ≤ maxKeySize) .keyTooLong
  let fullKeyPrefix := client.startKey ++ keyPrefix
  client.fetch replyFindKeyValuesByPrefix (bytesLen fullKeyPrefix)
    (server.processFindKeyValuesByPrefix fullKeyPrefix)

end ServiceStoreClientInternal

inductive Call where
  | writeBatch (batch : Batch)
  | readValueBytes (key : Bytes)
  | readMultiValuesBytes (keys : List Bytes)
  | findKeysByPrefix (keyPrefix : Bytes)
  | findKeyValuesByPrefix (keyPrefix : Bytes)

inductive Answer where
  | written
  | value (value : Option Bytes)
  | values (values : List (Option Bytes))
  | keys (keys : List Bytes)
  | keyValues (keyValues : List (Bytes × Bytes))

def ServiceStoreClientInternal.call (client : ServiceStoreClientInternal)
    (server : ServiceStoreServer) : Call → Result (ServiceStoreServer × Answer)
  | .writeBatch batch => do
    let server ← client.writeBatch server batch
    return (server, .written)
  | .readValueBytes key => Prod.map id .value <$> client.readValueBytes server key
  | .readMultiValuesBytes keys => Prod.map id .values <$> client.readMultiValuesBytes server keys
  | .findKeysByPrefix keyPrefix => Prod.map id .keys <$> client.findKeysByPrefix server keyPrefix
  | .findKeyValuesByPrefix keyPrefix =>
    Prod.map id .keyValues <$> client.findKeyValuesByPrefix server keyPrefix

/-! ## Abstract calls -/

/-- What a write does to a map of bytes. -/
def Call.update (m : KeyValueMap) : Call → KeyValueMap
  | .writeBatch batch => batch.apply m
  | _ => m

def Call.answer (m : KeyValueMap) : Call → Answer
  | .writeBatch _ => .written
  | .readValueBytes key => .value (m.get key)
  | .readMultiValuesBytes keys => .values (keys.map m.get)
  | .findKeysByPrefix keyPrefix => .keys (contentsUnder keyPrefix m).keys
  | .findKeyValuesByPrefix keyPrefix => .keyValues (contentsUnder keyPrefix m).entries

/-- The keys of the call are not too long. -/
def Call.KeysFit : Call → Prop
  | .writeBatch batch => ∀ op ∈ batch.operations, op.target.length ≤ maxKeySize
  | .readValueBytes key => key.length ≤ maxKeySize
  | .readMultiValuesBytes keys => ∀ key ∈ keys, key.length ≤ maxKeySize
  | .findKeysByPrefix keyPrefix => keyPrefix.length ≤ maxKeySize
  | .findKeyValuesByPrefix keyPrefix => keyPrefix.length ≤ maxKeySize

/-- What the client sees of the store: the entries under its start key. -/
def contents (client : ServiceStoreClientInternal) (server : ServiceStoreServer) : KeyValueMap :=
  contentsUnder client.startKey server.store

/-- No call is under way. -/
structure Idle (server : ServiceStoreServer) : Prop where
  puts : server.pendingBigPuts = .empty
  reads : server.pendingBigReads.chunksByIndex = .empty

/-- The calls of a client, one after the other, act as on a map of bytes: each of them answers what
the map answers, does to the contents what it does to the map, and leaves nothing pending. -/
def Transparent (client : ServiceStoreClientInternal) : ServiceStoreServer → List Call → Prop
  | _, [] => True
  | server, call :: rest => ∃ server',
    client.call server call = .ok (server', call.answer (contents client server)) ∧
      contents client server' = call.update (contents client server) ∧ Idle server' ∧
      Transparent client server' rest

/-! ## What is delivered -/

open ServiceStoreServer ServiceStoreClientInternal

namespace ServiceStoreClientInternal

variable (client : ServiceStoreClientInternal)

/-- The request with these statements is within the limit. -/
def Fits (statements : List Statement) : Prop :=
  requestWriteBatchExtendedLen statements ≤ client.channel.maxMessageSize

instance : DecidablePred client.Fits := fun _ => inferInstanceAs (Decidable (_ ≤ _))

/-- The requests for an operation that is sent in chunks. -/
def chunkRequests : WriteOperation → List (List Statement)
  | .put key value => appendRequests (client.startKey ++ key) (chunks value)
  | .delete _ => []
  | .deletePrefix _ => []

/-- The requests that a batch is cut into, given the statements that are not sent yet and their
size. Some of them may be empty, and are not sent. -/
def requests : List Statement → Nat → List WriteOperation → List (List Statement)
  | statements, _, [] => [statements]
  | statements, chunkSize, operation :: rest =>
    let operationSize := client.operationSize operation
    if operationSize + chunkSize < maxPayloadSize then
      requests (statements ++ [client.getStatement operation]) (chunkSize + operationSize) rest
    else if operationSize > maxPayloadSize then
      statements :: (client.chunkRequests operation ++ requests [] 0 rest)
    else statements :: requests [client.getStatement operation] operationSize rest

/-- The reply with a small value fits. A large value can be serialized, and its chunks can be
counted. -/
def Sendable {α : Type} (channel : Channel) (kind : ReplyKind α) (a : α) : Prop :=
  if kind.size a < maxPayloadSize then kind.encodedLen a ≤ channel.maxMessageSize
  else ∃ bytes, kind.codec.write a = some bytes ∧ (chunks bytes).length < 2 ^ 31

/-- The requests of a call fit, and its reply can be sent. -/
def Delivers (m : KeyValueMap) : Call → Prop
  | .writeBatch batch => ∀ statements ∈ client.requests [] 0 batch.operations,
      client.Fits statements
  | .readValueBytes key =>
    bytesLen (client.startKey ++ key) ≤ client.channel.maxMessageSize ∧
      Sendable client.channel replyReadValue (m.get key)
  | .readMultiValuesBytes keys =>
    keysLen (keys.map fun key => client.startKey ++ key) ≤ client.channel.maxMessageSize ∧
      Sendable client.channel replyReadMultiValues (keys.map m.get)
  | .findKeysByPrefix keyPrefix =>
    bytesLen (client.startKey ++ keyPrefix) ≤ client.channel.maxMessageSize ∧
      Sendable client.channel replyFindKeysByPrefix (contentsUnder keyPrefix m).keys
  | .findKeyValuesByPrefix keyPrefix =>
    bytesLen (client.startKey ++ keyPrefix) ≤ client.channel.maxMessageSize ∧
      Sendable client.channel replyFindKeyValuesByPrefix (contentsUnder keyPrefix m).entries

def DeliversAll : KeyValueMap → List Call → Prop
  | _, [] => True
  | m, call :: rest => client.Delivers m call ∧ DeliversAll (call.update m) rest

end ServiceStoreClientInternal

variable {client : ServiceStoreClientInternal} {server server' : ServiceStoreServer}

variable {operations : List WriteOperation} {statements : List Statement} {key value : Bytes}

theorem Channel.deliver_of {channel : Channel} {n : Nat} (h : n ≤ channel.maxMessageSize) :
    channel.deliver n = .ok () :=
  Except.ensure_of h _

theorem Channel.deliver_of_not {channel : Channel} {n : Nat} (h : ¬n ≤ channel.maxMessageSize) :
    channel.deliver n = .error .outOfRange :=
  Except.ensure_of_not h _

theorem length_ulebDigits_le (more n : Nat) : (Bcs.ulebDigits more n).length ≤ more + 1 := by
  induction more generalizing n with
  | zero => simp [Bcs.ulebDigits]
  | succ more ih =>
    rw [Bcs.ulebDigits]
    split
    · simp
    · simpa using ih (n / 128)

theorem delimitedLen_le (n : Nat) : delimitedLen n ≤ n + 11 := by
  have hvarint : varintLen n ≤ 10 := length_ulebDigits_le 9 n
  unfold delimitedLen
  omega

theorem bytesLen_le (bytes : Bytes) : bytesLen bytes ≤ bytes.length + 11 := by
  unfold bytesLen
  split
  · omega
  · exact delimitedLen_le bytes.length

theorem intLen_le (n : Int) : intLen n ≤ 11 := by
  have hvarint : varintLen (n % 2 ^ 64).toNat ≤ 10 := length_ulebDigits_le 9 _
  unfold intLen
  split <;> omega

/-! ## Writes -/

theorem flatten_chunks (bytes : Bytes) : (chunks bytes).flatten = bytes :=
  ValueSplitting.flatten_chunks (by decide) le_rfl

/-- The operation that the client's statement is for: its key is the full key. -/
def fullOperation (client : ServiceStoreClientInternal) : WriteOperation → WriteOperation
  | .delete key => .delete (client.startKey ++ key)
  | .put key value => .put (client.startKey ++ key) value
  | .deletePrefix keyPrefix => .deletePrefix (client.startKey ++ keyPrefix)

variable (acc : BTreeMap Bytes Bytes × List WriteOperation)

theorem processStatement_getStatement (operation : WriteOperation) :
    processStatement acc (client.getStatement operation) =
      .ok (acc.1, acc.2 ++ [fullOperation client operation]) := by
  cases operation <;> rfl

theorem foldlM_processStatement (client : ServiceStoreClientInternal)
    (acc : BTreeMap Bytes Bytes × List WriteOperation) (operations : List WriteOperation) :
    (operations.map client.getStatement).foldlM processStatement acc =
      .ok (acc.1, acc.2 ++ operations.map (fullOperation client)) := by
  induction operations generalizing acc with
  | nil => simp
  | cons operation rest ih =>
    rw [List.map_cons, List.foldlM_cons, processStatement_getStatement, Except.ok_bind, ih]
    simp

def ServiceStoreServer.write (server : ServiceStoreServer) (operations : List WriteOperation) :
    ServiceStoreServer :=
  { server with store := Batch.apply ⟨operations⟩ server.store }

theorem submitStatements_map (server : ServiceStoreServer)
    (hfits : client.Fits (operations.map client.getStatement)) :
    client.submitStatements server (operations.map client.getStatement) =
      .ok (server.write (operations.map (fullOperation client))) := by
  cases operations with
  | nil => rfl
  | cons operation rest =>
    have hfold := foldlM_processStatement client (server.pendingBigPuts, []) (operation :: rest)
    rw [submitStatements, if_neg (by simp), Channel.deliver_of hfits, Except.ok_bind,
      processWriteBatchExtended, hfold]
    rfl

theorem remove_insert {κ υ : Type} [LinearOrder κ] (pending : BTreeMap κ υ) (key : κ) (value : υ) :
    (pending.insert key value).remove key = pending.remove key := by
  refine BTreeMap.ext_get fun k => ?_
  rw [BTreeMap.get_remove, BTreeMap.get_remove, BTreeMap.get_insert]
  split <;> rfl

/-- One chunk: the server has it with the earlier ones, or puts them all under the key. -/
theorem processStatement_append (key value : Bytes) (last : Bool) :
    processStatement acc (.append key value last) = .ok (
      let whole := (acc.1.get key).getD [] ++ value
      if last then (acc.1.remove key, acc.2 ++ [.put key whole])
      else (acc.1.insert key whole, acc.2)) := by
  have hpending : (match acc.1.get key with
      | none => acc.1.insert key value
      | some before => acc.1.insert key (before ++ value)) =
      acc.1.insert key ((acc.1.get key).getD [] ++ value) := by
    cases acc.1.get key <;> rfl
  simp only [processStatement, hpending, BTreeMap.get_insert, if_true, remove_insert]
  cases last <;> rfl

theorem submitStatements_append (server : ServiceStoreServer) {last : Bool}
    (hfits : client.Fits [.append key value last]) :
    client.submitStatements server [.append key value last] = .ok (
      let whole := (server.pendingBigPuts.get key).getD [] ++ value
      if last then
        { server.write [.put key whole] with pendingBigPuts := server.pendingBigPuts.remove key }
      else { server with pendingBigPuts := server.pendingBigPuts.insert key whole }) := by
  rw [submitStatements, if_neg (by simp), Channel.deliver_of hfits, Except.ok_bind,
    processWriteBatchExtended, List.foldlM_cons, processStatement_append]
  cases last <;> rfl

/-- The chunks of a value: the server puts their whole under the key after the last one. -/
theorem foldlM_appendRequests {values : List Bytes} (hne : values ≠ [])
    (server : ServiceStoreServer)
    (hfits : ∀ statements ∈ appendRequests key values, client.Fits statements) :
    (appendRequests key values).foldlM client.submitStatements server = .ok
      { server.write [.put key ((server.pendingBigPuts.get key).getD [] ++ values.flatten)] with
        pendingBigPuts := server.pendingBigPuts.remove key } := by
  induction values generalizing server with
  | nil => exact absurd rfl hne
  | cons value rest ih =>
    obtain ⟨hfirst, hrest⟩ := List.forall_mem_cons.mp hfits
    rw [appendRequests, List.foldlM_cons, submitStatements_append _ hfirst, Except.ok_bind]
    cases rest with
    | nil => simp [appendRequests]
    | cons next rest =>
      rw [List.isEmpty_cons, if_neg Bool.false_ne_true, ih (by simp) _ hrest]
      simp [remove_insert, ServiceStoreServer.write, BTreeMap.get_insert, List.append_assoc]

theorem write_append (server : ServiceStoreServer) (ops ops' : List WriteOperation) :
    server.write (ops ++ ops') = (server.write ops).write ops' := by
  simp only [ServiceStoreServer.write, Batch.apply_append]

variable {bytes : Bytes} {α : Type} {codec : Bcs.Codec α}

theorem chunks_ne_nil (hne : bytes ≠ []) : chunks bytes ≠ [] := by
  intro h
  have hflatten := flatten_chunks bytes
  rw [h] at hflatten
  exact hne hflatten.symm

/-- A large value arrives as a whole. -/
theorem foldlM_appendRequests_chunks (server : ServiceStoreServer)
    (hidle : server.pendingBigPuts = .empty) (hne : value ≠ [])
    (hfits : ∀ statements ∈ appendRequests key (chunks value), client.Fits statements) :
    (appendRequests key (chunks value)).foldlM client.submitStatements server =
      .ok (server.write [.put key value]) := by
  rw [foldlM_appendRequests (chunks_ne_nil hne) _ hfits, flatten_chunks, hidle]
  have hremove : (BTreeMap.empty : BTreeMap Bytes Bytes).remove key = server.pendingBigPuts := by
    rw [hidle]
    exact BTreeMap.remove_eq_self rfl
  rw [hremove]
  rfl

/-- Two keys of at most a megabyte do not make an operation big, only a value does. -/
theorem exists_put_of_big {operation : WriteOperation} (hroot : client.rootKeyLen ≤ maxKeySize)
    (hkey : operation.target.length ≤ maxKeySize)
    (hbig : client.operationSize operation > maxPayloadSize) :
    ∃ key value, operation = .put key value ∧ value ≠ [] := by
  unfold maxKeySize at hroot hkey
  unfold operationSize maxPayloadSize at hbig
  cases operation with
  | put key value =>
    refine ⟨key, value, rfl, ?_⟩
    rintro rfl
    simp only [WriteOperation.target, valueLen, List.length_nil] at hkey hbig
    omega
  | delete | deletePrefix =>
    simp only [WriteOperation.target, valueLen] at hkey hbig
    omega

/-- The loop of `write_batch` submits the requests. -/
theorem foldlM_writeOperation (hroot : client.rootKeyLen ≤ maxKeySize)
    (hkeys : ∀ op ∈ operations, op.target.length ≤ maxKeySize) (server : ServiceStoreServer)
    (statements : List Statement) (chunkSize : Nat) : (do
        let st ← operations.foldlM client.writeOperation ⟨server, statements, chunkSize⟩
        client.submitStatements st.server st.statements) =
      (client.requests statements chunkSize operations).foldlM client.submitStatements server := by
  induction operations generalizing server statements chunkSize with
  | nil => simp [requests]
  | cons operation rest ih =>
    obtain ⟨hkey, hrest⟩ := List.forall_mem_cons.mp hkeys
    rw [List.foldlM_cons, bind_assoc, requests, writeOperation, Except.ensure_of hkey,
      Except.ok_bind]
    split
    · -- There is still room in the request.
      rw [Except.pure_eq, Except.ok_bind, ih hrest]
    · split
      · next hbig =>
        obtain ⟨key, value, rfl, -⟩ := exists_put_of_big hroot hkey hbig
        simp only [chunkRequests, List.foldlM_cons, List.foldlM_append, bind_assoc, Except.pure_eq,
          Except.ok_bind, ih hrest]
      · -- The operation is the first one of the next request.
        simp only [List.foldlM_cons, bind_assoc, Except.pure_eq, Except.ok_bind, ih hrest]

theorem writeBatch_eq_requests (hroot : client.rootKeyLen ≤ maxKeySize) {batch : Batch}
    (hkeys : ∀ op ∈ batch.operations, op.target.length ≤ maxKeySize) (server : ServiceStoreServer) :
    client.writeBatch server batch =
      (client.requests [] 0 batch.operations).foldlM client.submitStatements server := by
  rw [← foldlM_writeOperation hroot hkeys, writeBatch]
  split
  · next hempty =>
    rw [List.isEmpty_iff.mp hempty]
    rfl
  · rfl

/-- However it is cut, a batch does to the store what its operations do, one by one. The
operations that are held back come first. -/
theorem requests_eq_ok (hroot : client.rootKeyLen ≤ maxKeySize)
    (hkeys : ∀ op ∈ operations, op.target.length ≤ maxKeySize) (server : ServiceStoreServer)
    (hidle : server.pendingBigPuts = .empty) (held : List WriteOperation) {chunkSize : Nat}
    (hfits : ∀ statements ∈ client.requests (held.map client.getStatement) chunkSize operations,
      client.Fits statements) :
    (client.requests (held.map client.getStatement) chunkSize operations).foldlM
        client.submitStatements server =
      .ok (server.write ((held ++ operations).map (fullOperation client))) := by
  induction operations generalizing server held chunkSize with
  | nil =>
    rw [requests, List.foldlM_cons, submitStatements_map server (hfits _ (by simp [requests])),
      List.append_nil]
    rfl
  | cons operation rest ih =>
    obtain ⟨hkey, hrest⟩ := List.forall_mem_cons.mp hkeys
    have hheld : held ++ operation :: rest = (held ++ [operation]) ++ rest := by simp
    rw [requests] at hfits ⊢
    split
    · next hroom =>
      -- The operation is held back too.
      have hmap : held.map client.getStatement ++ [client.getStatement operation] =
          (held ++ [operation]).map client.getStatement := by simp
      rw [if_pos hroom, hmap] at hfits
      rw [hmap, ih hrest server hidle (held ++ [operation]) hfits, hheld]
    · next hroom =>
      rw [if_neg hroom] at hfits
      split
      · next hbig =>
        rw [if_pos hbig] at hfits
        obtain ⟨key, value, rfl, hne⟩ := exists_put_of_big hroot hkey hbig
        obtain ⟨hfirst, hfits⟩ := List.forall_mem_cons.mp hfits
        obtain ⟨hchunks, hfits⟩ := List.forall_mem_append.mp hfits
        have hvalue := foldlM_appendRequests_chunks
          (server.write (held.map (fullOperation client))) hidle hne hchunks
        rw [List.foldlM_cons, submitStatements_map server hfirst, Except.ok_bind,
          List.foldlM_append, chunkRequests, hvalue, Except.ok_bind]
        rw [← List.map_nil (f := client.getStatement)] at hfits ⊢
        rw [ih hrest ((server.write _).write _) hidle [] hfits, ← write_append, ← write_append]
        simp [fullOperation]
      · next hsmall =>
        rw [if_neg hsmall] at hfits
        obtain ⟨hfirst, hfits⟩ := List.forall_mem_cons.mp hfits
        rw [← List.map_singleton (f := client.getStatement)] at hfits ⊢
        rw [List.foldlM_cons, submitStatements_map server hfirst, Except.ok_bind,
          ih hrest (server.write _) hidle [operation] hfits, ← write_append]
        simp

theorem processStatement_ok (statement : Statement) :
    ∃ acc', processStatement acc statement = .ok acc' := by
  cases statement with
  | append key value last => exact ⟨_, processStatement_append acc key value last⟩
  | delete | put | deletePrefix => exact ⟨_, rfl⟩

/-- The server takes every request, so that only the channel makes it fail. -/
theorem submitStatements_cases (server : ServiceStoreServer) (statements : List Statement) :
    client.submitStatements server statements = .error .outOfRange ∨
      client.Fits statements ∧
        ∃ server', client.submitStatements server statements = .ok server' := by
  have hfold : ∀ (statements : List Statement) acc,
      ∃ acc', statements.foldlM processStatement acc = .ok acc' := by
    intro statements
    induction statements with
    | nil => exact fun acc => ⟨acc, rfl⟩
    | cons statement rest ih =>
      intro acc
      obtain ⟨acc₁, h₁⟩ := processStatement_ok acc statement
      obtain ⟨acc₂, h₂⟩ := ih acc₁
      exact ⟨acc₂, by rw [List.foldlM_cons, h₁, Except.ok_bind, h₂]⟩
  cases statements with
  | nil => exact .inr ⟨Nat.zero_le _, server, rfl⟩
  | cons statement rest =>
    rw [submitStatements, if_neg (by simp)]
    by_cases hfits : client.Fits (statement :: rest)
    · obtain ⟨acc, hacc⟩ := hfold (statement :: rest) (server.pendingBigPuts, [])
      rw [Channel.deliver_of hfits, Except.ok_bind, processWriteBatchExtended, hacc, Except.ok_bind]
      exact .inr ⟨hfits, _, rfl⟩
    · rw [Channel.deliver_of_not hfits]
      exact .inl rfl

/-- So a write either goes through, and all its requests fit, or fails at the channel. -/
theorem foldlM_submitStatements_cases (requests : List (List Statement))
    (server : ServiceStoreServer) :
    requests.foldlM client.submitStatements server = .error .outOfRange ∨
      (∀ statements ∈ requests, client.Fits statements) ∧
        ∃ server', requests.foldlM client.submitStatements server = .ok server' := by
  induction requests generalizing server with
  | nil => exact .inr ⟨by simp, server, rfl⟩
  | cons statements rest ih =>
    rw [List.foldlM_cons]
    obtain herror | ⟨hfits, server', hok⟩ := submitStatements_cases server statements
    · rw [herror]
      exact .inl rfl
    · rw [hok, Except.ok_bind]
      exact (ih server').imp_right fun h => ⟨List.forall_mem_cons.mpr ⟨hfits, h.1⟩, h.2⟩

theorem applyAt_fullOperation (operation : WriteOperation) (k : Bytes) (v : Option Bytes) :
    (fullOperation client operation).applyAt (client.startKey ++ k) v = operation.applyAt k v := by
  cases operation with
  | delete | put => simp [fullOperation, WriteOperation.applyAt]
  | deletePrefix keyPrefix =>
    simp only [fullOperation, WriteOperation.applyAt, List.prefix_append_right_inj]

/-- The client sees its operations under its own keys. -/
theorem contents_write (server : ServiceStoreServer) (operations : List WriteOperation) :
    contents client (server.write (operations.map (fullOperation client))) =
      Batch.apply ⟨operations⟩ (contents client server) := by
  refine BTreeMap.ext_get fun k => ?_
  simp only [contents, get_contentsUnder, ServiceStoreServer.write, Batch.get_apply]
  generalize server.store.get (client.startKey ++ k) = v
  induction operations generalizing v with
  | nil => rfl
  | cons operation rest ih =>
    rw [List.map_cons, Batch.applyAt_cons, Batch.applyAt_cons, applyAt_fullOperation, ih]

/-! ## Reads -/

theorem mem_chunks {chunk : Bytes} (h : chunk ∈ chunks bytes) :
    chunk ≠ [] ∧ chunk.length ≤ maxPayloadSize := by
  have hall : ∀ bound bytes, chunk ∈ ValueSplitting.chunks maxPayloadSize bound bytes →
      chunk ≠ [] ∧ chunk.length ≤ maxPayloadSize := by
    intro bound
    induction bound with
    | zero => simp [ValueSplitting.chunks]
    | succ bound ih =>
      intro bytes h
      rw [ValueSplitting.chunks] at h
      split at h
      · cases h
      · next hne =>
        obtain rfl | h := List.mem_cons.mp h
        · exact ⟨by simp [hne, maxPayloadSize], List.length_take_le ..⟩
        · exact ih _ h
  exact hall _ _ h

/-- Some of the chunks are fetched in order. After the last one, all are forgotten. -/
theorem readChunks_eq_ok (client : ServiceStoreClientInternal) {messageIndex : Nat}
    (hentry : server.pendingBigReads.chunksByIndex.get messageIndex = some (chunks bytes))
    (more index : Nat) (hlength : index + more ≤ (chunks bytes).length) (value : Bytes) :
    client.readChunks messageIndex more index server value =
      .ok (if index + more = (chunks bytes).length ∧ more ≠ 0 then
          server.removePendingRead messageIndex else server,
        value ++ (((chunks bytes).drop index).take more).flatten) := by
  induction more generalizing index value with
  | zero => simp [readChunks]
  | succ more ih =>
    have hlt : index < (chunks bytes).length := by omega
    have hspace := client.channel.space
    have hrequest : intLen messageIndex + intLen index ≤ client.channel.maxMessageSize := by
      have := intLen_le messageIndex
      have := intLen_le index
      omega
    have hreply : bytesLen (chunks bytes)[index] ≤ client.channel.maxMessageSize := by
      have := bytesLen_le (chunks bytes)[index]
      have := (mem_chunks (List.getElem_mem hlt)).2
      omega
    rw [readChunks, Channel.deliver_of hrequest, Except.ok_bind, processSpecificChunk, hentry]
    simp only [List.getElem?_eq_getElem hlt, Except.ok_bind, Channel.deliver_of hreply]
    rw [List.drop_eq_getElem_cons hlt, List.take_succ_cons, List.flatten_cons]
    by_cases hlast : (chunks bytes).length = index + 1
    · obtain rfl : more = 0 := by omega
      simp [readChunks, hlast]
    · have hcond : (index + 1 + more = (chunks bytes).length ∧ more ≠ 0) ↔
          (index + (more + 1) = (chunks bytes).length ∧ more + 1 ≠ 0) := by omega
      rw [if_neg hlast, ih (index + 1) (by omega), List.append_assoc]
      simp only [hcond]

theorem asI32_of_lt {n : Nat} (hn : n < 2 ^ 31) : asI32 n = n := by
  have hmod : n % 2 ^ 32 = n := Nat.mod_eq_of_lt (by omega)
  rw [asI32, hmod, if_pos hn]

theorem toNat_asI32_lt {n : Nat} (hn : 2 ^ 31 ≤ n) : (asI32 n).toNat < n := by
  have hmod := Nat.mod_le n (2 ^ 32)
  unfold asI32
  split <;> omega

theorem get_addPendingRead (server : ServiceStoreServer) (bytes : Bytes) :
    (server.addPendingRead bytes).pendingBigReads.chunksByIndex.get server.pendingBigReads.index =
      some (chunks bytes) := by
  rw [addPendingRead, BTreeMap.get_insert, if_pos rfl]

variable {kind : ReplyKind α} {a : α} {encodedLen : Nat}

/-- A large value stays on the server, and the client fetches as many chunks as the reply says. -/
theorem fetch_of_large (hlarge : ¬kind.size a < maxPayloadSize)
    (hwrite : kind.codec.write a = some bytes)
    (hrequest : encodedLen ≤ client.channel.maxMessageSize) :
    client.fetch kind encodedLen (server.respond kind a) =
      if asI32 (chunks bytes).length = 0 then .ok (server.addPendingRead bytes, kind.default)
      else client.readEntries (server.addPendingRead bytes) kind.codec server.pendingBigReads.index
        (asI32 (chunks bytes).length) := by
  have hreply : Reply.encodedLen kind ⟨kind.default, server.pendingBigReads.index,
      asI32 (chunks bytes).length⟩ ≤ client.channel.maxMessageSize := by
    have hspace := client.channel.space
    have hindex := intLen_le server.pendingBigReads.index
    have hchunks := intLen_le (asI32 (chunks bytes).length)
    simp only [Reply.encodedLen, kind.encodedLen_default]
    omega
  rw [fetch, Channel.deliver_of hrequest, Except.ok_bind, respond, if_neg hlarge, insertPendingRead,
    hwrite]
  simp only [Except.ok_bind, Except.pure_eq, Channel.deliver_of hreply]

/-- However it is cut, a reply arrives as it was sent. -/
theorem fetch_eq_ok (hidle : Idle server) (hrequest : encodedLen ≤ client.channel.maxMessageSize)
    (hsend : Sendable client.channel kind a) :
    ∃ server', client.fetch kind encodedLen (server.respond kind a) = .ok (server', a) ∧
      server'.store = server.store ∧ Idle server' := by
  unfold Sendable at hsend
  split at hsend
  · next hsmall =>
    refine ⟨server, ?_, rfl, hidle⟩
    have hreply : Reply.encodedLen kind ⟨a, 0, 0⟩ ≤ client.channel.maxMessageSize := hsend
    rw [fetch, Channel.deliver_of hrequest, respond, if_pos hsmall, Except.ok_bind, Except.ok_bind,
      Channel.deliver_of hreply]
    rfl
  · next hlarge =>
    obtain ⟨bytes, hwrite, hcount⟩ := hsend
    have hpos := List.length_pos_iff.mpr (chunks_ne_nil (kind.write_ne_nil hwrite))
    have hread := readChunks_eq_ok client (get_addPendingRead server bytes) (chunks bytes).length 0
      (by omega) []
    refine ⟨(server.addPendingRead bytes).removePendingRead server.pendingBigReads.index, ?_, rfl,
      hidle.puts, ?_⟩
    · rw [fetch_of_large hlarge hwrite hrequest, asI32_of_lt hcount, if_neg (by omega), readEntries,
        Int.toNat_natCast, hread, Except.ok_bind, if_pos (by omega), List.drop_zero,
        List.take_length, flatten_chunks, List.nil_append, kind.codec.fromBytes_of_write hwrite]
      rfl
    · -- After the last chunk there is no pending read left.
      change BTreeMap.remove (BTreeMap.insert _ _ _) _ = _
      rw [remove_insert, hidle.reads]
      exact BTreeMap.remove_eq_self rfl

/-- Other replies do not arrive, or leave chunks behind: the client does not ask for all of them if
their number is too large. -/
theorem sendable_of_fetch (hidle : Idle server')
    (h : client.fetch kind encodedLen (server.respond kind a) = .ok (server', a)) :
    encodedLen ≤ client.channel.maxMessageSize ∧ Sendable client.channel kind a := by
  have hrequest : encodedLen ≤ client.channel.maxMessageSize := by
    obtain ⟨_, hdeliver, -⟩ := Except.bind_eq_ok.mp h
    exact Except.ensure_eq_ok.mp hdeliver
  refine ⟨hrequest, ?_⟩
  unfold Sendable
  split
  · next hsmall =>
    rw [fetch, Channel.deliver_of hrequest, Except.ok_bind, respond, if_pos hsmall,
      Except.ok_bind] at h
    obtain ⟨_, hdeliver, -⟩ := Except.bind_eq_ok.mp h
    exact Except.ensure_eq_ok.mp hdeliver
  · next hlarge =>
    cases hwrite : kind.codec.write a with
    | none =>
      rw [fetch, Channel.deliver_of hrequest, respond, if_neg hlarge, insertPendingRead,
        hwrite] at h
      cases h
    | some bytes =>
      refine ⟨bytes, rfl, ?_⟩
      by_contra hcount
      have hentry := get_addPendingRead server bytes
      have hlt := toNat_asI32_lt (Nat.not_lt.mp hcount)
      have hread := readChunks_eq_ok client hentry _ 0 ((Nat.zero_add _).trans_le hlt.le) []
      rw [if_neg (by omega)] at hread
      rw [fetch_of_large hlarge hwrite hrequest, readEntries, hread, Except.ok_bind] at h
      obtain rfl : server.addPendingRead bytes = server' := by
        split at h
        · exact (Prod.mk.inj (Except.ok.inj h)).1
        · split at h
          · cases h
          · exact (Prod.mk.inj (Except.ok.inj h)).1
      rw [hidle.reads] at hentry
      cases hentry

/-! ## Calls -/

theorem contentsUnder_append (m : KeyValueMap) (root p : Bytes) :
    contentsUnder (root ++ p) m = contentsUnder p (contentsUnder root m) := by
  refine BTreeMap.ext_get fun k => ?_
  rw [get_contentsUnder, get_contentsUnder, get_contentsUnder, List.append_assoc]

theorem get_contents (key : Bytes) :
    (contents client server).get key = server.store.get (client.startKey ++ key) :=
  get_contentsUnder client.startKey server.store key

/-- What the calls have in common that read: they answer with a value of the contents, which is
sent as a reply. -/
theorem call_eq_fetch {call : Call} (hkeys : call.KeysFit)
    (hread : ∀ batch, call ≠ .writeBatch batch) :
    ∃ (α : Type) (kind : ReplyKind α) (encodedLen : Nat) (a : α) (f : α → Answer),
      f.Injective ∧ call.answer (contents client server) = f a ∧
      client.call server call =
        Prod.map id f <$> client.fetch kind encodedLen (server.respond kind a) ∧
      call.update (contents client server) = contents client server ∧
      (client.Delivers (contents client server) call ↔
        encodedLen ≤ client.channel.maxMessageSize ∧ Sendable client.channel kind a) := by
  cases call with
  | writeBatch batch => exact absurd rfl (hread batch)
  | readValueBytes key =>
    refine ⟨_, _, _, _, .value, fun _ _ => Answer.value.inj, rfl, ?_, rfl, Iff.rfl⟩
    rw [call, readValueBytes, Except.ensure_of (show key.length ≤ maxKeySize from hkeys),
      Except.ok_bind, get_contents]
    rfl
  | readMultiValuesBytes keys =>
    have hvalues : (keys.map fun key => client.startKey ++ key).map server.store.get =
        keys.map (contents client server).get := by
      rw [List.map_map]
      exact List.map_congr_left fun key _ => (get_contents key).symm
    refine ⟨_, _, _, _, .values, fun _ _ => Answer.values.inj, rfl, ?_, rfl, Iff.rfl⟩
    rw [call, readMultiValuesBytes,
      Except.ensure_of (show ∀ key ∈ keys, key.length ≤ maxKeySize from hkeys), Except.ok_bind]
    simp only [processReadMultiValues, hvalues]
  | findKeysByPrefix keyPrefix =>
    refine ⟨_, _, _, _, .keys, fun _ _ => Answer.keys.inj, rfl, ?_, rfl, Iff.rfl⟩
    rw [call, ServiceStoreClientInternal.findKeysByPrefix,
      Except.ensure_of (show keyPrefix.length ≤ maxKeySize from hkeys), Except.ok_bind, contents,
      ← contentsUnder_append]
    rfl
  | findKeyValuesByPrefix keyPrefix =>
    refine ⟨_, _, _, _, .keyValues, fun _ _ => Answer.keyValues.inj, rfl, ?_, rfl, Iff.rfl⟩
    rw [call, ServiceStoreClientInternal.findKeyValuesByPrefix,
      Except.ensure_of (show keyPrefix.length ≤ maxKeySize from hkeys), Except.ok_bind, contents,
      ← contentsUnder_append]
    rfl

/-- A call that is delivered acts as on a map of bytes. -/
theorem call_eq_ok (hroot : client.rootKeyLen ≤ maxKeySize) (hidle : Idle server) {call : Call}
    (hkeys : call.KeysFit) (hdelivers : client.Delivers (contents client server) call) :
    ∃ server', client.call server call = .ok (server', call.answer (contents client server)) ∧
      contents client server' = call.update (contents client server) ∧ Idle server' := by
  by_cases hwrite : ∃ batch, call = .writeBatch batch
  · obtain ⟨batch, rfl⟩ := hwrite
    refine ⟨_, ?_, contents_write server batch.operations, hidle.puts, hidle.reads⟩
    rw [ServiceStoreClientInternal.call, writeBatch_eq_requests hroot hkeys]
    exact congrArg (· >>= _) (requests_eq_ok hroot hkeys server hidle.puts [] hdelivers)
  · obtain ⟨α, kind, encodedLen, a, f, -, hanswer, hcall, hupdate, hiff⟩ :=
      call_eq_fetch hkeys (not_exists.mp hwrite)
    obtain ⟨hrequest, hsend⟩ := hiff.mp hdelivers
    obtain ⟨server', hread, hstore, hidle'⟩ := fetch_eq_ok hidle hrequest hsend
    refine ⟨server', ?_, ?_, hidle'⟩
    · rw [hcall, hread, hanswer]
      rfl
    · rw [hupdate, contents, contents, hstore]

/-- A call that answers as the map of bytes was delivered. -/
theorem delivers_of_call (hroot : client.rootKeyLen ≤ maxKeySize) {call : Call}
    (hkeys : call.KeysFit) (hidle : Idle server')
    (h : client.call server call = .ok (server', call.answer (contents client server))) :
    client.Delivers (contents client server) call := by
  by_cases hwrite : ∃ batch, call = .writeBatch batch
  · obtain ⟨batch, rfl⟩ := hwrite
    rw [ServiceStoreClientInternal.call, writeBatch_eq_requests hroot hkeys] at h
    obtain herror | hfits :=
      foldlM_submitStatements_cases (client.requests [] 0 batch.operations) server
    · rw [herror] at h
      cases h
    · exact hfits.1
  · obtain ⟨α, kind, encodedLen, a, f, hf, hanswer, hcall, -, hiff⟩ :=
      call_eq_fetch hkeys (not_exists.mp hwrite)
    rw [hcall, hanswer, Except.map_eq_ok] at h
    obtain ⟨⟨server₁, b⟩, hread, hb⟩ := h
    obtain ⟨rfl, hvalue⟩ := Prod.mk.inj hb
    obtain rfl := hf hvalue
    exact hiff.mpr (sendable_of_fetch hidle hread)

/-- **Chunking is transparent.** The calls of a client with short enough keys act as on a map of
bytes, if and only if every request and every small reply is within the limit of the channel, and
the large replies can be serialized. The client never meets its `unreachable!()`. -/
theorem chunking_transparent_iff (hroot : client.rootKeyLen ≤ maxKeySize) (hidle : Idle server)
    {calls : List Call} (hkeys : ∀ call ∈ calls, call.KeysFit) :
    (Transparent client server calls ↔ client.DeliversAll (contents client server) calls) ∧
      ∀ batch, .writeBatch batch ∈ calls → ∀ server',
        client.writeBatch server' batch ≠ .error .unreachable := by
  constructor
  · induction calls generalizing server with
    | nil => exact Iff.rfl
    | cons call rest ih =>
      obtain ⟨hkey, hkeys⟩ := List.forall_mem_cons.mp hkeys
      constructor
      · rintro ⟨server', hcall, hcontents, hidle', hrest⟩
        exact ⟨delivers_of_call hroot hkey hidle' hcall, hcontents ▸ (ih hidle' hkeys).mp hrest⟩
      · rintro ⟨hfirst, hrest⟩
        obtain ⟨server', hcall, hcontents, hidle'⟩ := call_eq_ok hroot hidle hkey hfirst
        exact ⟨server', hcall, hcontents, hidle', (ih hidle' hkeys).mpr (hcontents ▸ hrest)⟩
  · intro batch hmem server' h
    rw [writeBatch_eq_requests hroot (hkeys _ hmem)] at h
    obtain herror | ⟨-, server'', hok⟩ :=
      foldlM_submitStatements_cases (client.requests [] 0 batch.operations) server'
    · rw [herror] at h
      cases h
    · rw [hok] at h
      cases h

/-! ## Large values -/

theorem mem_appendRequests {values : List Bytes} (h : statements ∈ appendRequests key values) :
    ∃ value ∈ values, ∃ last, statements = [.append key value last] := by
  induction values with
  | nil => cases h
  | cons value rest ih =>
    obtain rfl | h := List.mem_cons.mp h
    · exact ⟨value, by simp, _, rfl⟩
    · obtain ⟨value', hmem, hvalue'⟩ := ih h
      exact ⟨value', by simp [hmem], hvalue'⟩

/-- The chunks of a value with a short key fit. -/
theorem fits_append (hkey : key.length + maxPayloadSize + 46 ≤ client.channel.maxMessageSize)
    (hvalue : value.length ≤ maxPayloadSize) (last : Bool) :
    client.Fits [.append key value last] := by
  have houter := delimitedLen_le (Statement.append key value last).encodedLen
  have hinner := delimitedLen_le (keyValueLen key value + if last then 2 else 0)
  have hkeyLen := bytesLen_le key
  have hvalueLen := bytesLen_le value
  have hlast : (if last then 2 else 0) ≤ 2 := by split <;> omega
  simp only [Fits, requestWriteBatchExtendedLen, repeatedLen, Statement.encodedLen, keyValueLen,
    List.map_cons, List.map_nil, List.sum_cons, List.sum_nil] at *
  omega

theorem requests_put (hvalue : maxPayloadSize < value.length) :
    client.requests [] 0 [.put key value] =
      [] :: (appendRequests (client.startKey ++ key) (chunks value) ++ [[]]) := by
  have hbig : client.operationSize (.put key value) > maxPayloadSize := by
    simp only [operationSize, WriteOperation.target, valueLen]
    omega
  rw [requests, if_neg (by omega), if_pos hbig]
  rfl

/-- A large value with a short key is delivered. -/
theorem delivers_put (m : KeyValueMap) (hvalue : maxPayloadSize < value.length)
    (hkey : (client.startKey ++ key).length + maxPayloadSize + 46 ≤ client.channel.maxMessageSize) :
    client.Delivers m (.writeBatch ⟨[.put key value]⟩) := by
  intro statements h
  simp only [requests_put hvalue, List.mem_cons, List.mem_append, List.not_mem_nil, or_false] at h
  obtain rfl | h | rfl := h
  · exact Nat.zero_le _
  · obtain ⟨chunk, hchunk, last, rfl⟩ := mem_appendRequests h
    exact fits_append hkey (mem_chunks hchunk).2 last
  · exact Nat.zero_le _

/-- A large value is not delivered if its key does not fit next to a chunk. -/
theorem writeBatch_of_long_key (hroot : client.rootKeyLen ≤ maxKeySize)
    (hkey : key.length ≤ maxKeySize) (hne : key ≠ []) (hvalue : maxPayloadSize < value.length)
    (hlong : client.channel.maxMessageSize < (client.startKey ++ key).length + maxPayloadSize)
    (server : ServiceStoreServer) :
    client.writeBatch server ⟨[.put key value]⟩ = .error .outOfRange := by
  rw [writeBatch_eq_requests hroot (by simpa [WriteOperation.target] using hkey)]
  refine (foldlM_submitStatements_cases _ server).resolve_right fun ⟨hfits, _⟩ => ?_
  obtain ⟨bound, hbound⟩ := Nat.exists_eq_succ_of_ne_zero (Nat.ne_of_gt (Nat.zero_lt_of_lt hvalue))
  have hvalueNe : value ≠ [] := by
    rintro rfl
    cases hbound
  -- The first chunk is a full one.
  have hchunks : chunks value = value.take maxPayloadSize ::
      ValueSplitting.chunks maxPayloadSize bound (value.drop maxPayloadSize) := by
    rw [chunks, hbound, ValueSplitting.chunks, if_neg hvalueNe]
  rw [requests_put hvalue, hchunks, appendRequests] at hfits
  have hfirst := hfits _ (List.mem_cons_of_mem _ List.mem_cons_self)
  have htake : (value.take maxPayloadSize).length = maxPayloadSize := by
    rw [List.length_take]
    omega
  have htakeNe := List.length_pos_iff.mp (htake ▸ (by decide : 0 < maxPayloadSize))
  have hkeyNe : client.startKey ++ key ≠ [] := by simp [hne]
  simp only [Fits, requestWriteBatchExtendedLen, repeatedLen, Statement.encodedLen, keyValueLen,
    bytesLen, if_neg htakeNe, if_neg hkeyNe, delimitedLen, List.map_cons, List.map_nil,
    List.sum_cons, List.sum_nil] at hfirst
  omega

/-- The chunks are full, the last one apart. -/
theorem mul_length_chunks_le (bytes : Bytes) :
    maxPayloadSize * (chunks bytes).length ≤ bytes.length + maxPayloadSize := by
  have hbound : ∀ bound bytes, maxPayloadSize *
      (ValueSplitting.chunks maxPayloadSize bound bytes).length ≤
        bytes.length + maxPayloadSize := by
    intro bound
    induction bound with
    | zero => simp [ValueSplitting.chunks]
    | succ bound ih =>
      intro bytes
      rw [ValueSplitting.chunks]
      split
      · simp
      · by_cases hlast : bytes.length ≤ maxPayloadSize
        · have hnil : bytes.drop maxPayloadSize = [] := List.drop_eq_nil_of_le hlast
          have hchunks : ValueSplitting.chunks maxPayloadSize bound [] = [] := by
            cases bound <;> simp [ValueSplitting.chunks]
          simp [hnil, hchunks]
        · have hrest := ih (bytes.drop maxPayloadSize)
          rw [List.length_drop] at hrest
          rw [List.length_cons, Nat.mul_succ]
          omega
  exact hbound bytes.length bytes

/-- The values that can be read are those of at most 2^31 - 1 bytes. -/
theorem sendable_value_iff (channel : Channel) (value : Bytes) :
    Sendable channel replyReadValue (some value) ↔ value.length ≤ Bcs.maxSequenceLength := by
  have hspace := channel.space
  have hlen : replyReadValue.encodedLen (some value) ≤ value.length + 11 :=
    delimitedLen_le value.length
  by_cases hsmall : replyReadValue.size (some value) < maxPayloadSize
  · rw [Sendable, if_pos hsmall]
    change value.length < maxPayloadSize at hsmall
    unfold Bcs.maxSequenceLength
    unfold maxPayloadSize at hsmall hspace
    omega
  rw [Sendable, if_neg hsmall]
  constructor
  · rintro ⟨bytes, hwrite, -⟩
    by_contra hlong
    simp [replyReadValue, Bcs.Codec.option, Bcs.Codec.bytes, hlong] at hwrite
  · intro hlength
    refine ⟨1 :: (Bcs.uleb128 value.length ++ value), ?_, ?_⟩
    · simp [replyReadValue, Bcs.Codec.option, Bcs.Codec.bytes, hlength]
    · have hcount := mul_length_chunks_le (1 :: (Bcs.uleb128 value.length ++ value))
      have huleb : (Bcs.uleb128 value.length).length ≤ 5 := length_ulebDigits_le 4 value.length
      rw [List.length_cons, List.length_append] at hcount
      unfold Bcs.maxSequenceLength at hlength
      unfold maxPayloadSize at hcount
      omega

section Example

/-- A client of the namespace `"n"` without a root key. -/
def exampleClient : ServiceStoreClientInternal :=
  ⟨.tonic, [0, 1, 110], [0, 1, 110], List.prefix_refl _⟩

def emptyServer : ServiceStoreServer := ⟨.empty, .empty, 0, .empty⟩

theorem idle_emptyServer : Idle emptyServer := ⟨rfl, rfl⟩

/-- A value of more than one chunk. -/
theorem chunking_transparent_large_value :
    Transparent exampleClient emptyServer [.writeBatch ⟨[.put [3] (List.replicate 5000000 7)]⟩,
      .readValueBytes [3], .readValueBytes [1]] := by
  have hall : ∀ large : Bytes, large.length = 5000000 → Transparent exampleClient emptyServer
      [.writeBatch ⟨[.put [3] large]⟩, .readValueBytes [3], .readValueBytes [1]] := by
    intro large hlength
    have hkeys : ∀ call ∈ [Call.writeBatch ⟨[.put [3] large]⟩, .readValueBytes [3],
        .readValueBytes [1]], call.KeysFit := by
      simp [Call.KeysFit, WriteOperation.target, maxKeySize]
    have hroot : exampleClient.rootKeyLen ≤ maxKeySize := by decide
    refine (chunking_transparent_iff hroot idle_emptyServer hkeys).1.mpr
      ⟨delivers_put _ (by rw [hlength]; decide) (by decide), ⟨by decide, ?_⟩, ⟨by decide, ?_⟩,
        trivial⟩
    · exact (sendable_value_iff _ large).mpr (by rw [hlength]; decide)
    · exact Nat.zero_le _
  exact hall _ List.length_replicate

/-- A value that is too long for the format makes the server panic when it is read. -/
theorem readValueBytes_of_too_long (hkey : key.length ≤ maxKeySize)
    (hget : (contents client server).get key = some value)
    (hrequest : bytesLen (client.startKey ++ key) ≤ client.channel.maxMessageSize)
    (hlong : Bcs.maxSequenceLength < value.length) :
    client.readValueBytes server key = .error .serverPanicked := by
  have hlarge : ¬replyReadValue.size (some value) < maxPayloadSize := by
    change ¬value.length < maxPayloadSize
    unfold Bcs.maxSequenceLength at hlong
    unfold maxPayloadSize
    omega
  have hwrite : replyReadValue.codec.write (some value) = none := by
    simp only [replyReadValue, Bcs.Codec.option, Bcs.Codec.bytes, if_neg (Nat.not_le.mpr hlong),
      Option.map_none]
  rw [readValueBytes, Except.ensure_of hkey, Except.ok_bind, fetch, Channel.deliver_of hrequest,
    Except.ok_bind, processReadValue, ← get_contents, hget, respond, if_neg hlarge,
    insertPendingRead, hwrite]
  rfl

/-- A value of two chunks cannot be written under a key of 300000 bytes. A value of 2^31 bytes is
written, and cannot be read. -/
theorem chunking_not_transparent :
    exampleClient.writeBatch emptyServer
        ⟨[.put (List.replicate 300000 0) (List.replicate 4000001 0)]⟩ = .error .outOfRange ∧
      let long : Bytes := List.replicate (2 ^ 31) 0
      ∃ server, exampleClient.writeBatch emptyServer ⟨[.put [1] long]⟩ = .ok server ∧
        (contents exampleClient server).get [1] = some long ∧
        exampleClient.readValueBytes server [1] = .error .serverPanicked := by
  have hkey : ∀ key value : Bytes, key.length = 300000 → value.length = 4000001 →
      exampleClient.writeBatch emptyServer ⟨[.put key value]⟩ = .error .outOfRange := by
    intro key value hkey hvalue
    have hne : key ≠ [] := by
      rintro rfl
      cases hkey
    refine writeBatch_of_long_key (by decide) (by rw [hkey]; decide) hne (by rw [hvalue]; decide) ?_
      emptyServer
    rw [List.length_append, hkey]
    decide
  refine ⟨hkey _ _ List.length_replicate List.length_replicate, ?_⟩
  intro long
  have hlength : long.length = 2 ^ 31 := List.length_replicate
  have hkeys : (Call.writeBatch ⟨[.put [1] long]⟩).KeysFit := by
    simp [Call.KeysFit, WriteOperation.target, maxKeySize]
  have hroot : exampleClient.rootKeyLen ≤ maxKeySize := by decide
  have hdelivers : exampleClient.Delivers .empty (.writeBatch ⟨[.put [1] long]⟩) :=
    delivers_put _ (by rw [hlength]; decide) (by decide)
  have hwrite := (writeBatch_eq_requests hroot hkeys emptyServer).trans
    (requests_eq_ok hroot hkeys emptyServer rfl [] hdelivers)
  have hget : (contents exampleClient (emptyServer.write
      ([.put [1] long].map (fullOperation exampleClient)))).get [1] = some long := by
    rw [contents_write, Batch.get_apply]
    rfl
  exact ⟨_, hwrite, hget, readValueBytes_of_too_long (by decide) hget (by decide)
    (by rw [hlength]; decide)⟩

end Example

end Linera.StorageService
