import Linera.Views.View

/-!
# Logs and queues

A log and a queue keep a picture of what is stored (the number of entries, the
range of indices), which `flush` updates together with the batch. Their entries
are always read from storage.
-/

namespace Linera.Views

/-! ## Entries with an index -/

section Entries

variable {α : Type} (codec : Bcs.Codec α) (baseKey : Bytes)

def indexKey (index : Nat) : Except ViewError Bytes :=
  deriveTagKey .u64 baseKey secondTag index

def readEntry (store : KeyValueMap) (index : Nat) : Except ViewError (Option α) := do
  fromBytesOption codec (store.get (← indexKey baseKey index))

/-- Reads the entries in the given range. -/
def readContext (store : KeyValueMap) (start stop : Nat) : Except ViewError (List α) := do
  let keys ← (List.range' start (stop - start)).mapM (indexKey baseKey)
  let entries ← keys.mapM fun key => fromBytesOption codec (store.get key)
  entries.mapM fun
    | some value => .ok value
    | none => .error .missingEntries

/-- Puts values at an index and the following ones. Returns the next index. -/
def putValues (index : Nat) : List α → Except ViewError (Nat × List WriteOperation)
  | [] => .ok (index, [])
  | value :: values => do
    let key ← indexKey baseKey index
    let bytes ← toBytes codec value
    let (stop, operations) ← putValues (index + 1) values
    return (stop, .put key bytes :: operations)

variable {baseKey}

theorem indexKey_scoped (index : Nat) :
    (indexKey baseKey index).Ensures fun key => baseTag baseKey secondTag <+: key := by
  intro key h
  obtain ⟨bytes, -, rfl⟩ := deriveTagKey_eq_ok.mp h
  exact ⟨bytes, by simp [baseTag, baseTagIndex]⟩

theorem putValues_scoped (index : Nat) (values : List α) :
    (putValues codec baseKey index values).Ensures fun r =>
      ∀ op ∈ r.2, baseTag baseKey secondTag <+: op.target := by
  induction values generalizing index with
  | nil => exact .ok (by simp)
  | cons value values ih =>
    refine .bind (indexKey_scoped index) fun key hkey => .bind_any fun bytes => ?_
    refine .bind (ih (index + 1)) ?_
    rintro ⟨stop, operations⟩ hops
    refine .ok fun op hop => ?_
    rcases List.mem_cons.mp hop with rfl | hop
    · exact hkey
    · exact hops op hop

end Entries

/-! ## Logs -/

structure LogView (α : Type) where
  baseKey : Bytes
  deleteStorageFirst : Bool
  storedCount : Nat
  newValues : List α

namespace LogView

variable {α : Type}

inductive Change (α : Type) where
  | push (value : α)
  | clear

def loaded (baseKey : Bytes) (storedCount : Nat) : LogView α := ⟨baseKey, false, storedCount, []⟩

def rollback (v : LogView α) : LogView α := loaded v.baseKey v.storedCount

def clear (v : LogView α) : LogView α := { v with deleteStorageFirst := true, newValues := [] }

def stage (v : LogView α) : Change α → LogView α
  | .push value => { v with newValues := v.newValues ++ [value] }
  | .clear => v.clear

/-- Reads the size of the log. -/
def count (v : LogView α) : Nat :=
  if v.deleteStorageFirst then v.newValues.length else v.storedCount + v.newValues.length

variable (codec : Bcs.Codec α)

def postLoad (baseKey : Bytes) : List (Option Bytes) → Except ViewError (LogView α)
  | [] => .error .postLoadValuesError
  | value :: _ => do
    return loaded baseKey (← fromBytesOptionOrDefault .u64 value)

/-- What a flush does to new values, once the deletion of old ones is in the batch. -/
def flushValues (v : LogView α) (storedCount : Nat) (deletion : List WriteOperation)
    (deleteView : Bool) : Except ViewError (LogView α × List WriteOperation × Bool) :=
  if v.newValues = [] then .ok (loaded v.baseKey storedCount, deletion, deleteView)
  else do
    let (storedCount, operations) ← putValues codec v.baseKey storedCount v.newValues
    let bytes ← toBytes .u64 storedCount
    return (loaded v.baseKey storedCount,
      deletion ++ operations ++ [.put (baseTag v.baseKey firstTag) bytes], false)

def flush (v : LogView α) : Except ViewError (LogView α × List WriteOperation × Bool) :=
  if v.deleteStorageFirst then v.flushValues codec 0 [.deletePrefix v.baseKey] true
  else v.flushValues codec v.storedCount [] false

/-- Reads the logged value with the given index (including staged ones). -/
def get (store : KeyValueMap) (v : LogView α) (index : Nat) : Except ViewError (Option α) :=
  if v.deleteStorageFirst then .ok v.newValues[index]?
  else if index < v.storedCount then readEntry codec v.baseKey store index
  else .ok v.newValues[index - v.storedCount]?

/-- Reads the logged values in the given range (including staged ones). -/
def read (store : KeyValueMap) (v : LogView α) (start : Nat) (stop : Option Nat) :
    Except ViewError (List α) :=
  let effectiveStoredCount := if v.deleteStorageFirst then 0 else v.storedCount
  let stop := min (stop.getD v.count) v.count
  if start ≥ stop then .ok []
  else if start < effectiveStoredCount then
    if stop ≤ effectiveStoredCount then readContext codec v.baseKey store start stop
    else do
      let values ← readContext codec v.baseKey store start effectiveStoredCount
      return values ++ v.newValues.take (stop - effectiveStoredCount)
  else
    .ok ((v.newValues.take (stop - effectiveStoredCount)).drop (start - effectiveStoredCount))

/-- The type of logs of values of type `α`. -/
def viewType : ViewType where
  State := LogView α
  Change := Change α
  baseKey := baseKey
  preLoad key := [baseTag key firstTag]
  postLoad := postLoad
  rollback := rollback
  flush := flush codec
  stage _ v change := .ok (v.stage change)

end LogView

/-! ## Queues -/

structure QueueView (α : Type) where
  baseKey : Bytes
  /-- The range of the stored indices. -/
  start : Nat
  stop : Nat
  frontDeleteCount : Nat
  deleteStorageFirst : Bool
  newBackValues : List α
  /-- Only stored values are deleted at the front. -/
  frontDeleteCount_le : frontDeleteCount ≤ stop - start

namespace QueueView

variable {α : Type}

inductive Change (α : Type) where
  | pushBack (value : α)
  | deleteFront
  /-- `iter_mut`, and what the caller does with the references. -/
  | iterMut (f : Nat → α → α)
  | clear

inductive Query where
  | count
  | front
  | back
  | readFront (count : Nat)
  | readBack (count : Nat)
  | elements

inductive Reply (α : Type) where
  | count (n : Nat)
  | value (value : Option α)
  | values (values : List α)

def loaded (baseKey : Bytes) (indices : Nat × Nat) : QueueView α :=
  ⟨baseKey, indices.1, indices.2, 0, false, [], Nat.zero_le _⟩

def rollback (v : QueueView α) : QueueView α := loaded v.baseKey (v.start, v.stop)

def clear (v : QueueView α) : QueueView α :=
  { v with deleteStorageFirst := true, newBackValues := [] }

def storedCount (v : QueueView α) : Nat :=
  if v.deleteStorageFirst then 0 else v.stop - v.start - v.frontDeleteCount

/-- Reads the size of the queue. -/
def count (v : QueueView α) : Nat := v.storedCount + v.newBackValues.length

def deleteFront (v : QueueView α) : QueueView α :=
  if h : v.storedCount > 0 then
    { v with
      frontDeleteCount := v.frontDeleteCount + 1
      frontDeleteCount_le := by
        unfold storedCount at h
        split at h <;> omega }
  else { v with newBackValues := v.newBackValues.tail }

variable (codec : Bcs.Codec α)

def postLoad (baseKey : Bytes) : List (Option Bytes) → Except ViewError (QueueView α)
  | [] => .error .postLoadValuesError
  | value :: _ => do
    return loaded baseKey (← fromBytesOptionOrDefault (Bcs.Codec.pair .u64 .u64) value)

def front (store : KeyValueMap) (v : QueueView α) : Except ViewError (Option α) :=
  if v.storedCount > 0 then readEntry codec v.baseKey store (v.stop - v.storedCount)
  else .ok v.newBackValues.head?

def back (store : KeyValueMap) (v : QueueView α) : Except ViewError (Option α) :=
  match v.newBackValues.getLast? with
  | some value => .ok (some value)
  | none =>
    if v.storedCount > 0 then readEntry codec v.baseKey store (v.stop - 1) else .ok none

/-- Reads the `count` next values in the queue (including staged ones). -/
def readFront (store : KeyValueMap) (v : QueueView α) (count : Nat) : Except ViewError (List α) :=
  let count := min count v.count
  if count = 0 then .ok []
  else if v.deleteStorageFirst then .ok (v.newBackValues.take count)
  else
    let start := v.stop - v.storedCount
    if count ≤ v.storedCount then readContext codec v.baseKey store start (start + count)
    else do
      let values ← readContext codec v.baseKey store start v.stop
      return values ++ v.newBackValues.take (count - v.storedCount)

/-- Reads the `count` last values in the queue (including staged ones). -/
def readBack (store : KeyValueMap) (v : QueueView α) (count : Nat) : Except ViewError (List α) :=
  let count := min count v.count
  let newBackLen := v.newBackValues.length
  if count = 0 then .ok []
  else if count ≤ newBackLen ∨ v.deleteStorageFirst then
    .ok (v.newBackValues.drop (newBackLen - count))
  else do
    let start := v.stop + newBackLen - count
    let values ← readContext codec v.baseKey store start v.stop
    return values ++ v.newBackValues

def elements (store : KeyValueMap) (v : QueueView α) : Except ViewError (List α) :=
  v.readFront codec store v.count

/-- Moves all values to memory. -/
def loadAll (store : KeyValueMap) (v : QueueView α) : Except ViewError (QueueView α) :=
  if v.deleteStorageFirst then .ok v
  else do
    let elements ← readContext codec v.baseKey store (v.stop - v.storedCount) v.stop
    return { v with newBackValues := elements ++ v.newBackValues, deleteStorageFirst := true }

def stage (store : KeyValueMap) (v : QueueView α) : Change α → Except ViewError (QueueView α)
  | .pushBack value => .ok { v with newBackValues := v.newBackValues ++ [value] }
  | .deleteFront => .ok v.deleteFront
  | .iterMut f => do
    let v ← v.loadAll codec store
    return { v with newBackValues := v.newBackValues.mapIdx f }
  | .clear => .ok v.clear

/-- The indices that stay, and the deletion of the others. -/
def flushFront (v : QueueView α) : Except ViewError ((Nat × Nat) × List WriteOperation) :=
  if v.storedCount = 0 then .ok ((0, 0), [.deletePrefix (baseTag v.baseKey secondTag)])
  else do
    let keys ← (List.range' v.start v.frontDeleteCount).mapM (indexKey v.baseKey)
    return ((v.start + v.frontDeleteCount, v.stop), keys.map .delete)

/-- The entry for the range of indices. A queue that is deleted has none. -/
def putIndices (v : QueueView α) (indices : Nat × Nat) : Except ViewError (List WriteOperation) :=
  if !v.deleteStorageFirst ∨ indices.1 < indices.2 then do
    return [.put (baseTag v.baseKey firstTag) (← toBytes (Bcs.Codec.pair .u64 .u64) indices)]
  else .ok []

def flush (v : QueueView α) : Except ViewError (QueueView α × List WriteOperation × Bool) := do
  let deletion := if v.deleteStorageFirst then [WriteOperation.deletePrefix v.baseKey] else []
  let (indices, frontOperations) ← v.flushFront
  let (stop, operations) ← putValues codec v.baseKey indices.2 v.newBackValues
  let indicesOperations ← v.putIndices (indices.1, stop)
  return (loaded v.baseKey (indices.1, stop),
    deletion ++ frontOperations ++ operations ++ indicesOperations,
    v.deleteStorageFirst && v.newBackValues.isEmpty)

def answer (store : KeyValueMap) (v : QueueView α) : Query → Except ViewError (Reply α)
  | .count => .ok (.count v.count)
  | .front => .value <$> v.front codec store
  | .back => .value <$> v.back codec store
  | .readFront count => .values <$> v.readFront codec store count
  | .readBack count => .values <$> v.readBack codec store count
  | .elements => .values <$> v.elements codec store

theorem mapM_indexKey_scoped (baseKey : Bytes) (indices : List Nat) :
    (indices.mapM (indexKey baseKey)).Ensures fun keys =>
      ∀ key ∈ keys, baseTag baseKey secondTag <+: key := by
  induction indices with
  | nil => exact .ok (by simp)
  | cons index indices ih =>
    rw [List.mapM_cons]
    refine .bind (indexKey_scoped index) fun key hkey => .bind ih fun keys hkeys => .ok ?_
    exact List.forall_mem_cons.mpr ⟨hkey, hkeys⟩

theorem flushFront_scoped (v : QueueView α) :
    v.flushFront.Ensures fun r => ∀ op ∈ r.2, baseTag v.baseKey secondTag <+: op.target := by
  unfold flushFront
  split
  · exact .ok (by simp [WriteOperation.target])
  · refine .bind (mapM_indexKey_scoped v.baseKey _) fun keys hkeys => .ok fun op hop => ?_
    obtain ⟨key, hkey, rfl⟩ := List.mem_map.mp hop
    exact hkeys key hkey

theorem putIndices_scoped (v : QueueView α) (indices : Nat × Nat) :
    (v.putIndices indices).Ensures fun ops =>
      ∀ op ∈ ops, baseTag v.baseKey firstTag <+: op.target := by
  unfold putIndices
  split
  · exact .bind_any fun bytes => .ok (by simp [WriteOperation.target])
  · exact .ok (by simp)

/-- The type of queues of values of type `α`. -/
def viewType : ViewType where
  State := QueueView α
  Change := Change α
  baseKey := baseKey
  preLoad key := [baseTag key firstTag]
  postLoad := postLoad
  rollback := rollback
  flush := flush codec
  stage := stage codec

end QueueView

end Linera.Views
