import Linera.Lib.Bcs
import Linera.Views.Batch
import Linera.Views.Merge

/-!
# The key-value store view

The view that holds the state of a user application: the entries in storage, the
deletions and updates staged over them, and a memoized hash. Storage is represented
by the entries under the view's index tag; the size accounting of the view is not
part of this model.

* `contents_applyOperation`, `contents_clear`, `contents_rollback`, `contents_save` —
  the operations of the view are those of a plain map.
* `hash_determines_contents_iff` — the hash determines the contents of two views
  exactly when no other division of the same bytes into keys and values is involved:
  the lengths of keys and values are not hashed.
-/

namespace Linera.Views

/-! ## Iterating over stored entries and updates -/

/-- The calls that `for_each_index_value` makes, in order; its loops are those of the other reads. -/
def forEachIndexValue (stored : KeyValueMap) (deletionSet : DeletionSet)
    (updates : BTreeMap Bytes (Update Bytes)) : List (Bytes × Bytes) :=
  visitOverlay id stored deletionSet updates

/-- **The iteration visits the current entries in order.** -/
theorem forEachIndexValue_spec (stored : KeyValueMap) (deletionSet : DeletionSet)
    (updates : BTreeMap Bytes (Update Bytes)) :
    SortedBy Prod.fst (forEachIndexValue stored deletionSet updates) ∧
      ∀ k v, (k, v) ∈ forEachIndexValue stored deletionSet updates ↔
        overlay stored deletionSet updates k = some v :=
  visitOverlay_spec id

/-- The plain map that the stored entries, staged deletions and updates stand for. -/
def currentContents (stored : KeyValueMap) (deletionSet : DeletionSet)
    (updates : BTreeMap Bytes (Update Bytes)) : KeyValueMap :=
  ⟨forEachIndexValue stored deletionSet updates, (forEachIndexValue_spec _ _ _).1⟩

variable (stored : KeyValueMap)

theorem get_currentContents (deletionSet : DeletionSet) (updates : BTreeMap Bytes (Update Bytes))
    (k : Bytes) : (currentContents stored deletionSet updates).get k =
      overlay stored deletionSet updates k := by
  refine Option.ext fun v => ?_
  rw [← BTreeMap.mem_entries_iff]
  exact (forEachIndexValue_spec stored deletionSet updates).2 k v

theorem currentContents_new : currentContents stored .new .empty = stored :=
  BTreeMap.ext_get fun k => by simp [get_currentContents, overlay]

theorem forEachIndexValue_new : forEachIndexValue stored .new .empty = stored.entries :=
  congrArg BTreeMap.entries (currentContents_new stored)

/-! ## The hash -/

/-- The bytes that `compute_hash` feeds to the hasher: keys and values in order, and then the
number of entries as a BCS-encoded `u32`. -/
def hashInput (entries : List (Bytes × Bytes)) : Bytes :=
  (entries.flatMap fun e => e.1 ++ e.2) ++ Bcs.u32 (entries.length % 2 ^ 32)

/-- How the hashed bytes are divided into keys and values. -/
def division (entries : List (Bytes × Bytes)) : List (Nat × Nat) :=
  entries.map fun e => (e.1.length, e.2.length)

/-- The same bytes with the same division are the same entries. -/
theorem eq_of_division_eq {l l' : List (Bytes × Bytes)} (hdivision : division l = division l')
    (hbytes : (l.flatMap fun e => e.1 ++ e.2) = l'.flatMap fun e => e.1 ++ e.2) : l = l' := by
  induction l generalizing l' with
  | nil =>
    cases l' with
    | nil => rfl
    | cons e' l' => simp [division] at hdivision
  | cons e l ih =>
    cases l' with
    | nil => simp [division] at hdivision
    | cons e' l' =>
      simp only [division, List.map_cons, List.cons.injEq, Prod.mk.injEq] at hdivision
      obtain ⟨⟨hkey, hvalue⟩, hdivision⟩ := hdivision
      simp only [List.flatMap_cons, List.append_assoc] at hbytes
      obtain ⟨hkey, hbytes⟩ := List.append_inj hbytes hkey
      obtain ⟨hvalue, hbytes⟩ := List.append_inj hbytes hvalue
      rw [Prod.ext hkey hvalue, ih hdivision hbytes]

theorem hashInput_eq_iff {l l' : List (Bytes × Bytes)} (hl : l.length < 2 ^ 32)
    (hl' : l'.length < 2 ^ 32) : hashInput l = hashInput l' ↔ l.length = l'.length ∧
      (l.flatMap fun e => e.1 ++ e.2) = l'.flatMap fun e => e.1 ++ e.2 := by
  unfold hashInput
  rw [Nat.mod_eq_of_lt hl, Nat.mod_eq_of_lt hl']
  constructor
  · intro h
    obtain ⟨hbytes, hcount⟩ := List.append_inj' h (by simp)
    exact ⟨Bcs.u32_injective hl hl' hcount, hbytes⟩
  · rintro ⟨hcount, hbytes⟩
    rw [hcount, hbytes]

/-- A key-value store view over a hasher `sha3`. The memoized hashes are those of what they
stand for. -/
structure KeyValueStoreView {η : Type} (sha3 : Bytes → η) where
  /-- `max_key_size` of the view's context. -/
  maxKeySize : Nat
  /-- The entries in storage, under the view's index tag. -/
  stored : KeyValueMap
  deletionSet : DeletionSet
  updates : BTreeMap Bytes (Update Bytes)
  storedHash : Option η
  hash? : Option η
  storedHash_fresh : ∀ h ∈ storedHash, h = sha3 (hashInput stored.entries)
  hash_fresh : ∀ h ∈ hash?, h = sha3 (hashInput (forEachIndexValue stored deletionSet updates))

inductive ViewError where
  | keyTooLong
  | bcsError
  | missingEntries
  | postLoadValuesError
deriving DecidableEq

namespace KeyValueStoreView

variable {η : Type} {sha3 : Bytes → η}

def contents (view : KeyValueStoreView sha3) : KeyValueMap :=
  currentContents view.stored view.deletionSet view.updates

variable (view : KeyValueStoreView sha3)

theorem get_contents (k : Bytes) :
    view.contents.get k = overlay view.stored view.deletionSet view.updates k :=
  get_currentContents _ _ _ k

def load (sha3 : Bytes → η) (maxKeySize : Nat) (stored : KeyValueMap) (storedHash : Option η)
    (hfresh : ∀ h ∈ storedHash, h = sha3 (hashInput stored.entries)) : KeyValueStoreView sha3 where
  maxKeySize := maxKeySize
  stored := stored
  deletionSet := .new
  updates := .empty
  storedHash := storedHash
  hash? := storedHash
  storedHash_fresh := hfresh
  hash_fresh := by rwa [forEachIndexValue_new]

/-- The view with other staged changes, and no memoized hash. -/
def stage (view : KeyValueStoreView sha3) (deletionSet : DeletionSet)
    (updates : BTreeMap Bytes (Update Bytes)) : KeyValueStoreView sha3 :=
  { view with
    deletionSet := deletionSet
    updates := updates
    hash? := none
    hash_fresh := by simp }

def rollback (view : KeyValueStoreView sha3) : KeyValueStoreView sha3 :=
  load sha3 view.maxKeySize view.stored view.storedHash view.storedHash_fresh

def clear (view : KeyValueStoreView sha3) : KeyValueStoreView sha3 :=
  view.stage view.deletionSet.clear .empty

/-- One operation of `write_batch`. -/
def applyOperation (view : KeyValueStoreView sha3) : WriteOperation → KeyValueStoreView sha3
  | .delete key =>
    -- a key under a deleted prefix needs no mark of its own
    if view.deletionSet.containsPrefixOf key then
      view.stage view.deletionSet (view.updates.remove key)
    else view.stage view.deletionSet (view.updates.insert key .removed)
  | .put key value => view.stage view.deletionSet (view.updates.insert key (.set value))
  | .deletePrefix keyPrefix =>
    view.stage (view.deletionSet.insertKeyPrefix keyPrefix)
      (view.updates.retain fun key _ => !inInterval keyPrefix key)

/-- The loop of `write_batch`. An operation that is refused leaves those before it in effect. -/
def applyOperations (view : KeyValueStoreView sha3) :
    List WriteOperation → KeyValueStoreView sha3 × Except ViewError Unit
  | [] => (view, .ok ())
  | op :: ops =>
    if op.target.length ≤ view.maxKeySize then (view.applyOperation op).applyOperations ops
    else (view, .error .keyTooLong)

def writeBatch (view : KeyValueStoreView sha3) (batch : Batch) :
    KeyValueStoreView sha3 × Except ViewError Unit :=
  (view.stage view.deletionSet view.updates).applyOperations batch.operations

/-- The operations that `flush` issues for the entries of the view. -/
def flushOperations (view : KeyValueStoreView sha3) : List WriteOperation :=
  if view.deletionSet.deleteStorageFirst then
    .deletePrefix [] :: (visitAll view.updates.entries).map fun e => .put e.1 e.2
  else
    view.deletionSet.deletedPrefixes.keys.map .deletePrefix ++
      view.updates.entries.map fun u => match u.2 with
        | .removed => .delete u.1
        | .set value => .put u.1 value

theorem applyAt_updates {updates : List (Bytes × Update Bytes)} (hu : SortedBy Prod.fst updates)
    (k : Bytes) (v : Option Bytes) : (Batch.applyAt k (updates.map fun u => match u.2 with
        | .removed => WriteOperation.delete u.1
        | .set value => .put u.1 value) v) =
      (BTreeMap.lookup k updates).elim v Update.value? := by
  rw [Batch.applyAt, List.foldl_map]
  refine BTreeMap.foldl_of_sorted id (fun u _ => u.value?) (fun v u => ?_) (fun v key u hk => ?_) hu v
  · cases u <;> exact if_pos rfl
  · cases u <;> exact if_neg hk

theorem applyAt_visitAll {updates : List (Bytes × Update Bytes)}
    (hu : SortedBy Prod.fst updates) (k : Bytes) (v : Option Bytes) :
    Batch.applyAt k ((visitAll updates).map fun e => .put e.1 e.2) v =
      ((BTreeMap.lookup k updates).bind Update.value?).or v := by
  rw [Batch.applyAt, List.foldl_map, visitAll, List.foldl_flatMap]
  refine (BTreeMap.foldl_of_sorted (k := k) id (fun u v => u.value?.or v) (fun v u => ?_)
    (fun v key u hk => ?_) hu v).trans ?_
  · cases u with
    | removed => rfl
    | set value => exact if_pos rfl
  · cases u with
    | removed => rfl
    | set value => exact if_neg hk
  · cases BTreeMap.lookup k updates <;> rfl

/-- What `flush` writes turns the stored entries into the contents. -/
theorem applyAt_flushOperations (k : Bytes) :
    Batch.applyAt k view.flushOperations (view.stored.get k) = view.contents.get k := by
  rw [get_contents, overlay, flushOperations]
  cases hall : view.deletionSet.deleteStorageFirst with
  | true =>
    rw [if_pos rfl, Batch.applyAt_cons, applyAt_visitAll view.updates.sorted]
    have hdeleted : view.deletionSet.containsPrefixOf k := by
      simp [DeletionSet.containsPrefixOf, hall]
    rw [if_pos hdeleted, BTreeMap.get.eq_def view.updates]
    cases BTreeMap.lookup k view.updates.entries <;> simp [WriteOperation.applyAt]
  | false =>
    rw [if_neg (by simp), Batch.applyAt_append, applyAt_updates view.updates.sorted,
      Batch.applyAt_deletePrefixes, BTreeMap.get]
    have hdeleted : view.deletionSet.containsPrefixOf k ↔
        ∃ p ∈ view.deletionSet.deletedPrefixes.keys, p <+: k := by
      simp [DeletionSet.containsPrefixOf_iff, hall]
    simp only [hdeleted]
    rfl

theorem apply_flushOperations : Batch.apply ⟨view.flushOperations⟩ view.stored = view.contents :=
  BTreeMap.ext_get fun k => by rw [Batch.get_apply, applyAt_flushOperations]

/-- Flushes the view and writes the batch. -/
def save (view : KeyValueStoreView sha3) : KeyValueStoreView sha3 :=
  load sha3 view.maxKeySize (Batch.apply ⟨view.flushOperations⟩ view.stored) view.hash? (by
    rw [apply_flushOperations]
    exact view.hash_fresh)

def computeHash (view : KeyValueStoreView sha3) : η :=
  sha3 (hashInput (forEachIndexValue view.stored view.deletionSet view.updates))

/-- The hash of the view, and the view with the hash memoized. -/
def hash (view : KeyValueStoreView sha3) : η × KeyValueStoreView sha3 :=
  match view.hash? with
  | some hash => (hash, view)
  | none =>
    (view.computeHash, { view with
      hash? := some view.computeHash
      hash_fresh := by rintro h ⟨⟩; rfl })

/-! ## The view as a plain map -/

theorem get_contents_stage (deletionSet : DeletionSet) (updates : BTreeMap Bytes (Update Bytes))
    (k : Bytes) : (view.stage deletionSet updates).contents.get k =
      overlay view.stored deletionSet updates k :=
  get_contents _ k

theorem contents_load (maxKeySize : Nat) (stored : KeyValueMap) (storedHash : Option η)
    (hfresh : ∀ h ∈ storedHash, h = sha3 (hashInput stored.entries)) :
    (load sha3 maxKeySize stored storedHash hfresh).contents = stored :=
  currentContents_new stored

theorem contents_rollback : view.rollback.contents = view.stored :=
  contents_load ..

theorem contents_clear : view.clear.contents = .empty :=
  BTreeMap.ext_get fun k => by simp [clear, get_contents_stage, overlay]

theorem contents_save : view.save.contents = view.contents :=
  (contents_load ..).trans view.apply_flushOperations

/-- An operation on the view is the operation on its contents. -/
theorem contents_applyOperation (op : WriteOperation) :
    (view.applyOperation op).contents = op.apply view.contents := by
  refine BTreeMap.ext_get fun k => ?_
  rw [WriteOperation.get_apply, get_contents view]
  cases op with
  | delete key =>
    have hstage : (view.applyOperation (.delete key)).contents.get k =
        overlay view.stored view.deletionSet (if view.deletionSet.containsPrefixOf key
          then view.updates.remove key else view.updates.insert key .removed) k := by
      rw [applyOperation]
      split <;> exact get_contents_stage ..
    exact hstage.trans (overlay_remove key k)
  | put key value => exact (get_contents_stage ..).trans (overlay_insert key k value)
  | deletePrefix p => exact (get_contents_stage ..).trans (overlay_removeByPrefix p k)

theorem hash_eq : view.hash.1 = sha3 (hashInput view.contents.entries) := by
  unfold hash
  split
  · next h heq => exact view.hash_fresh h heq
  · rfl

/-! ## What the hash says about the contents -/

/-- Equally many entries with the same concatenation of keys and values are divided alike into
keys and values. Nothing that is hashed fixes this division. -/
def DividedAlike (l l' : List (Bytes × Bytes)) : Prop :=
  l.length = l'.length → (l.flatMap fun e => e.1 ++ e.2) = (l'.flatMap fun e => e.1 ++ e.2) →
    division l = division l'

instance (l l' : List (Bytes × Bytes)) : Decidable (DividedAlike l l') :=
  inferInstanceAs (Decidable (_ → _ → _))

/-- **What the hash of a view binds.** Over a hasher without collisions on the bytes fed to it,
equal hashes mean equal contents exactly if the two contents are divided alike. -/
theorem hash_determines_contents_iff (v w : KeyValueStoreView sha3)
    (hsha3 : Set.InjOn sha3 {hashInput v.contents.entries, hashInput w.contents.entries})
    (hv : v.contents.entries.length < 2 ^ 32) (hw : w.contents.entries.length < 2 ^ 32) :
    (v.hash.1 = w.hash.1 → v.contents = w.contents) ↔
      DividedAlike v.contents.entries w.contents.entries := by
  have hhash : v.hash.1 = w.hash.1 ↔ v.contents.entries.length = w.contents.entries.length ∧
      (v.contents.entries.flatMap fun e => e.1 ++ e.2) =
        w.contents.entries.flatMap fun e => e.1 ++ e.2 := by
    rw [hash_eq, hash_eq, ← hashInput_eq_iff hv hw]
    exact hsha3.eq_iff (by simp) (by simp)
  rw [hhash]
  constructor
  · intro h hcount hbytes
    rw [h ⟨hcount, hbytes⟩]
  · rintro h ⟨hcount, hbytes⟩
    exact BTreeMap.ext (eq_of_division_eq (h hcount hbytes) hbytes)

def singleEntry (key value : Bytes) : KeyValueStoreView (id : Bytes → Bytes) :=
  ((load id 1024 .empty none (by simp)).writeBatch ⟨[.put key value]⟩).1

theorem hash_determines_contents_singleEntry :
    DividedAlike (singleEntry [0] [1]).contents.entries (singleEntry [0] [2]).contents.entries ∧
      ((singleEntry [0] [1]).hash.1 = (singleEntry [0] [2]).hash.1 →
        (singleEntry [0] [1]).contents = (singleEntry [0] [2]).contents) :=
  ⟨by decide, (hash_determines_contents_iff _ _ (Function.injective_id.injOn) (by decide)
    (by decide)).mpr (by decide)⟩

/-- The entry `[0] ↦ [1]` and the entry `[0, 1] ↦ []` hash alike. -/
theorem hash_collision_of_moved_boundary :
    (singleEntry [0] [1]).hash.1 = (singleEntry [0, 1] []).hash.1 ∧
      (singleEntry [0] [1]).contents ≠ (singleEntry [0, 1] []).contents := by
  decide

end KeyValueStoreView

end Linera.Views
