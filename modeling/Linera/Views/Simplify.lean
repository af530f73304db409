import Linera.Views.Batch

/-!
# Simplification of batches

The batches that a database is given: prefix deletions, deletions and insertions
without conflicts between them, so that their order does not matter. A `Batch` is
turned into one by `simplify`, and by expanding prefix deletions that the database
does not support or that collide with insertions; the expansion reads the store.

* `Batch.recordedAt_simplification`, `UnorderedBatch.applyAt_expanded` — a simplified batch
  means the same as the original, and so does what it is expanded to.
* `Noncolliding.applyAt_eq_of_mem_iff` — operations that do not collide may be applied
  in any order, and more than once.
-/

namespace Linera.Views

/-- Unordered list of deletions and insertions. -/
structure SimpleUnorderedBatch where
  deletions : List Bytes
  insertions : List (Bytes × Bytes)
deriving DecidableEq

/-- Unordered list of deletions, with prefix deletions, and insertions. -/
structure UnorderedBatch where
  keyPrefixDeletions : List Bytes
  simpleUnorderedBatch : SimpleUnorderedBatch
deriving DecidableEq

/-- The write operations of the batch. A database may execute them in another order. -/
def SimpleUnorderedBatch.operations (batch : SimpleUnorderedBatch) : List WriteOperation :=
  batch.deletions.map .delete ++ batch.insertions.map fun e => .put e.1 e.2

@[inherit_doc SimpleUnorderedBatch.operations]
def UnorderedBatch.operations (batch : UnorderedBatch) : List WriteOperation :=
  batch.keyPrefixDeletions.map .deletePrefix ++ batch.simpleUnorderedBatch.operations

/-! ## Simplification -/

/-- Whether the last of the prefixes up to `key` is a prefix of `key`. -/
def isPrefixMatched (keyPrefixSet : BTreeSet Bytes) (key : Bytes) : Bool :=
  match (keyPrefixSet.keys.filter (· ≤ key)).getLast? with
  | some value => value.isPrefixOf key
  | none => false

/-- The state of the loop of `simplify`. No prefix in the set covers another one. -/
structure Simplification where
  deleteAndInsertMap : BTreeMap Bytes (Option Bytes)
  deletePrefixSet : BTreeSet Bytes
  prefixFree : PrefixFree deletePrefixSet.keys

theorem isPrefixMatched_iff {prefixes : BTreeSet Bytes} (hmin : PrefixFree prefixes.keys)
    (key : Bytes) : isPrefixMatched prefixes key ↔ ∃ p ∈ prefixes.keys, p <+: key := by
  rw [exists_isPrefix_iff_getLast? hmin (prefixes.pairwise_keys.filter (· ≤ key))
    (by simp), isPrefixMatched]
  cases (prefixes.keys.filter (· ≤ key)).getLast? <;> simp

/-- Adds a prefix to the set, unless a prefix of the set covers it. -/
def simplifyPrefix (keyPrefixSet : BTreeSet Bytes) (keyPrefix : Bytes) : BTreeSet Bytes :=
  if isPrefixMatched keyPrefixSet keyPrefix then keyPrefixSet
  else BTreeMap.insert (keyPrefixSet.retain fun key _ => !inInterval keyPrefix key) keyPrefix ()

theorem simplifyPrefix_eq {prefixes : BTreeSet Bytes} (hmin : PrefixFree prefixes.keys)
    (keyPrefix : Bytes) : simplifyPrefix prefixes keyPrefix = insertKeyPrefix prefixes keyPrefix := by
  have : isPrefixMatched prefixes keyPrefix = containsPrefixOf prefixes keyPrefix := by
    rw [Bool.eq_iff_iff, isPrefixMatched_iff hmin, containsPrefixOf_iff hmin]
  rw [simplifyPrefix, insertKeyPrefix, this]

namespace Simplification

def new : Simplification := ⟨.empty, .empty, prefixFree_empty⟩

/-- One round of the loop. -/
def step (s : Simplification) : WriteOperation → Simplification
  | .delete key =>
    -- a value inserted under a deleted prefix is taken back
    if isPrefixMatched s.deletePrefixSet key then
      { s with deleteAndInsertMap := s.deleteAndInsertMap.remove key }
    else { s with deleteAndInsertMap := s.deleteAndInsertMap.insert key none }
  | .put key value =>
    { s with deleteAndInsertMap := s.deleteAndInsertMap.insert key (some value) }
  | .deletePrefix keyPrefix =>
    ⟨s.deleteAndInsertMap.retain fun key _ => !inInterval keyPrefix key,
      simplifyPrefix s.deletePrefixSet keyPrefix, by
        rw [simplifyPrefix_eq s.prefixFree]
        exact prefixFree_insertKeyPrefix s.prefixFree keyPrefix⟩

end Simplification

/-- What the recorded deletions and insertions make of the value under `k`. -/
def recordedAt (deleteAndInsertMap : BTreeMap Bytes (Option Bytes))
    (deletePrefixSet : BTreeSet Bytes) (k : Bytes) (v : Option Bytes) : Option Bytes :=
  (deleteAndInsertMap.get k).getD (if isPrefixMatched deletePrefixSet k then none else v)

theorem Simplification.recordedAt_step (s : Simplification) (op : WriteOperation) (k : Bytes)
    (v : Option Bytes) : recordedAt (s.step op).deleteAndInsertMap (s.step op).deletePrefixSet k v =
      op.applyAt k (recordedAt s.deleteAndInsertMap s.deletePrefixSet k v) := by
  cases op with
  | delete key =>
    rw [step]
    split
    · next hmatched =>
      change recordedAt (s.deleteAndInsertMap.remove key) s.deletePrefixSet k v = _
      rw [recordedAt, BTreeMap.get_remove]
      by_cases hk : k = key
      · subst hk
        simp [hmatched, WriteOperation.applyAt]
      · simp [hk, WriteOperation.applyAt, recordedAt]
    · change recordedAt (s.deleteAndInsertMap.insert key none) s.deletePrefixSet k v = _
      rw [recordedAt, BTreeMap.get_insert]
      by_cases hk : k = key <;> simp [hk, WriteOperation.applyAt, recordedAt]
  | put key value =>
    change recordedAt (s.deleteAndInsertMap.insert key (some value)) s.deletePrefixSet k v = _
    rw [recordedAt, BTreeMap.get_insert]
    by_cases hk : k = key <;> simp [hk, WriteOperation.applyAt, recordedAt]
  | deletePrefix p =>
    have hmatched : isPrefixMatched (simplifyPrefix s.deletePrefixSet p) k ↔
        isPrefixMatched s.deletePrefixSet k ∨ p <+: k := by
      rw [simplifyPrefix_eq s.prefixFree, isPrefixMatched_iff (prefixFree_insertKeyPrefix s.prefixFree p),
        isPrefixMatched_iff s.prefixFree]
      exact exists_isPrefix_insertKeyPrefix s.prefixFree p k
    change recordedAt (s.deleteAndInsertMap.retain fun key _ => !inInterval p key)
      (simplifyPrefix s.deletePrefixSet p) k v = _
    rw [recordedAt, BTreeMap.get_retain]
    simp only [hmatched, WriteOperation.applyAt, recordedAt]
    by_cases hk : p <+: k
    · have : inInterval p k = true := inInterval_iff.mpr hk
      cases s.deleteAndInsertMap.get k <;> simp [hk, this, Option.filter]
    · have : inInterval p k = false := by
        rw [← Bool.not_eq_true, inInterval_iff]
        exact hk
      cases s.deleteAndInsertMap.get k <;> simp [hk, this, Option.filter]

/-- The state of `simplify` after all operations. -/
def Batch.simplification (batch : Batch) : Simplification :=
  batch.operations.foldl Simplification.step .new

theorem Batch.recordedAt_simplification (batch : Batch) (k : Bytes) (v : Option Bytes) :
    recordedAt batch.simplification.deleteAndInsertMap batch.simplification.deletePrefixSet k v =
      Batch.applyAt k batch.operations v := by
  obtain ⟨ops⟩ := batch
  induction ops using List.reverseRecOn with
  | nil => simp [simplification, Simplification.new, recordedAt, isPrefixMatched, BTreeMap.keys,
      BTreeMap.empty, BTreeMap.get, BTreeMap.lookup]
  | append_singleton ops op ih =>
    rw [Batch.applyAt_append, Batch.applyAt_cons, Batch.applyAt_nil, ← ih, simplification,
      List.foldl_concat, Simplification.recordedAt_step]
    rfl

/-- Removes redundant and conflicting operations from a batch. -/
def Batch.simplify (batch : Batch) : UnorderedBatch :=
  { keyPrefixDeletions := batch.simplification.deletePrefixSet.keys
    simpleUnorderedBatch :=
      { deletions := batch.simplification.deleteAndInsertMap.entries.filterMap fun e =>
          if e.2.isNone then some e.1 else none
        insertions := batch.simplification.deleteAndInsertMap.entries.filterMap fun e =>
          e.2.map fun value => (e.1, value) } }

variable {store : KeyValueMap} {batch : Batch}

theorem Batch.mem_deletions_simplify {k : Bytes} :
    k ∈ batch.simplify.simpleUnorderedBatch.deletions ↔
      batch.simplification.deleteAndInsertMap.get k = some none := by
  rw [← BTreeMap.mem_entries_iff]
  simp only [simplify, List.mem_filterMap, Option.ite_none_right_eq_some, Option.some.injEq,
    Option.isNone_iff_eq_none]
  constructor
  · rintro ⟨⟨key, value⟩, hmem, rfl, rfl⟩
    exact hmem
  · exact fun h => ⟨_, h, rfl, rfl⟩

theorem Batch.mem_insertions_simplify {k x : Bytes} :
    (k, x) ∈ batch.simplify.simpleUnorderedBatch.insertions ↔
      batch.simplification.deleteAndInsertMap.get k = some (some x) := by
  rw [← BTreeMap.mem_entries_iff]
  simp only [simplify, List.mem_filterMap, Option.map_eq_some_iff, Prod.mk.injEq]
  constructor
  · rintro ⟨⟨key, value⟩, hmem, v, rfl, rfl, rfl⟩
    exact hmem
  · exact fun h => ⟨_, h, x, rfl, rfl, rfl⟩

/-! ## Operations that do not collide -/

/-- Nothing else concerns a key that is put. -/
def Noncolliding (ops : List WriteOperation) : Prop :=
  ∀ k x, .put k x ∈ ops → ∀ op ∈ ops, op.Touches k → op = .put k x

section Noncolliding

variable {ops ops' : List WriteOperation} {k x : Bytes} {v : Option Bytes}

theorem Batch.applyAt_none_of_no_put (hno : ∀ x, .put k x ∉ ops) : applyAt k ops none = none := by
  induction ops with
  | nil => rfl
  | cons op ops ih =>
    have hop : op.applyAt k none = none := by
      cases op with
      | put key value =>
        have : k ≠ key := fun h => hno value (by simp [h])
        simp [WriteOperation.applyAt, this]
      | delete | deletePrefix => simp [WriteOperation.applyAt]
    rw [applyAt_cons, hop]
    exact ih fun x hx => hno x (by simp [hx])

theorem Batch.applyAt_of_no_put (hno : ∀ x, .put k x ∉ ops) :
    applyAt k ops v = if ∃ op ∈ ops, op.Touches k then none else v := by
  split
  · next h => rw [applyAt_of_touches h v none, applyAt_none_of_no_put hno]
  · next h => exact applyAt_of_not_touches (fun op hop ht => h ⟨op, hop, ht⟩) v

/-- Operations that do not collide may be applied in any order, and more than once. -/
theorem Noncolliding.applyAt_eq_of_mem_iff (h : Noncolliding ops)
    (hmem : ∀ op, op ∈ ops' ↔ op ∈ ops) (k : Bytes) (v : Option Bytes) :
    Batch.applyAt k ops' v = Batch.applyAt k ops v := by
  by_cases hput : ∃ x, .put k x ∈ ops
  · obtain ⟨x, hx⟩ := hput
    rw [Batch.applyAt_of_put hx (h k x hx), Batch.applyAt_of_put ((hmem _).mpr hx) fun op hop =>
      h k x hx op ((hmem op).mp hop)]
  · push Not at hput
    rw [Batch.applyAt_of_no_put hput, Batch.applyAt_of_no_put fun x hx => hput x ((hmem _).mp hx)]
    simp only [hmem]

end Noncolliding

section Simplified

variable {batch : Batch} {ops : List WriteOperation}

theorem SimpleUnorderedBatch.mem_operations {simple : SimpleUnorderedBatch} {op : WriteOperation} :
    op ∈ simple.operations ↔ (∃ k ∈ simple.deletions, op = .delete k) ∨
      ∃ k x, (k, x) ∈ simple.insertions ∧ op = .put k x := by
  simp only [operations, List.mem_append, List.mem_map, Prod.exists, @eq_comm _ op]

/-- The deletions and insertions of a simplified batch, in any order, leave under a key what was
recorded for it. -/
theorem Batch.applyAt_simplify_simple
    (hmem : ∀ op, op ∈ ops ↔ op ∈ batch.simplify.simpleUnorderedBatch.operations) (k : Bytes)
    (v : Option Bytes) :
    applyAt k ops v = (batch.simplification.deleteAndInsertMap.get k).getD v := by
  simp only [SimpleUnorderedBatch.mem_operations] at hmem
  have hput : ∀ x, .put k x ∈ ops ↔
      batch.simplification.deleteAndInsertMap.get k = some (some x) := by
    intro x
    simp [hmem, mem_insertions_simplify]
  have htouches : ∀ op ∈ ops, op.Touches k → op = .delete k ∧
      batch.simplification.deleteAndInsertMap.get k = some none ∨ ∃ x, op = .put k x ∧
        batch.simplification.deleteAndInsertMap.get k = some (some x) := by
    intro op hop htouch
    obtain ⟨key, hkey, rfl⟩ | ⟨key, x, hkey, rfl⟩ := (hmem op).mp hop
    · obtain rfl : k = key := htouch
      exact .inl ⟨rfl, mem_deletions_simplify.mp hkey⟩
    · obtain rfl : k = key := htouch
      exact .inr ⟨x, rfl, mem_insertions_simplify.mp hkey⟩
  match hget : batch.simplification.deleteAndInsertMap.get k with
  | some (some x) =>
    refine applyAt_of_put ((hput x).mpr hget) fun op hop htouch => ?_
    obtain ⟨-, hnone⟩ | ⟨y, rfl, hy⟩ := htouches op hop htouch
    · rw [hget] at hnone
      cases hnone
    · rw [hget] at hy
      cases hy
      rfl
  | some none =>
    rw [applyAt_of_no_put fun x hx => by rw [hput, hget] at hx; cases hx]
    exact if_pos ⟨.delete k, (hmem _).mpr (.inl ⟨k, mem_deletions_simplify.mpr hget, rfl⟩), rfl⟩
  | none =>
    refine applyAt_of_not_touches (fun op hop htouch => ?_) v
    obtain ⟨-, hsome⟩ | ⟨x, -, hsome⟩ := htouches op hop htouch
    · rw [hget] at hsome
      cases hsome
    · rw [hget] at hsome
      cases hsome

/-- A simplified batch means the same as the original, if the prefix deletions come first. -/
theorem Batch.applyAt_simplify {prefixes : List Bytes}
    (hprefixes : ∀ p, p ∈ prefixes ↔ p ∈ batch.simplify.keyPrefixDeletions)
    (hmem : ∀ op, op ∈ ops ↔ op ∈ batch.simplify.simpleUnorderedBatch.operations) (k : Bytes)
    (v : Option Bytes) :
    applyAt k (prefixes.map .deletePrefix ++ ops) v = applyAt k batch.operations v := by
  rw [applyAt_append, applyAt_simplify_simple hmem, applyAt_deletePrefixes,
    ← recordedAt_simplification, recordedAt]
  simp only [isPrefixMatched_iff batch.simplification.prefixFree, hprefixes]
  rfl

end Simplified

/-! ## Expanding prefix deletions -/

def findKeysByPrefix (store : KeyValueMap) (keyPrefix : Bytes) : List Bytes :=
  (contentsUnder keyPrefix store).keys

theorem mem_findKeysByPrefix {p k : Bytes} :
    k ∈ findKeysByPrefix store p ↔ (store.get (p ++ k)).isSome := by
  rw [findKeysByPrefix, BTreeMap.mem_keys_iff, get_contentsUnder]

namespace UnorderedBatch

/-- The keys that stand for a prefix deletion: those found in the store that are not inserted. -/
def expandedKeys (store : KeyValueMap) (batch : UnorderedBatch) (keyPrefix : Bytes) : List Bytes :=
  ((findKeysByPrefix store keyPrefix).map (keyPrefix ++ ·)).filter fun key =>
    key ∉ batch.simpleUnorderedBatch.insertions.map Prod.fst

/-- Replaces the selected prefix deletions by deletions of the keys found in the store. -/
def expandPrefixes (store : KeyValueMap) (selected : Bytes → Bool) (batch : UnorderedBatch) :
    UnorderedBatch :=
  { keyPrefixDeletions := batch.keyPrefixDeletions.filter fun p => !selected p
    simpleUnorderedBatch :=
      { deletions := batch.simpleUnorderedBatch.deletions ++
          (batch.keyPrefixDeletions.filter selected).flatMap (batch.expandedKeys store)
        insertions := batch.simpleUnorderedBatch.insertions } }

def expandDeletePrefixes (store : KeyValueMap) (batch : UnorderedBatch) : SimpleUnorderedBatch :=
  (batch.expandPrefixes store fun _ => true).simpleUnorderedBatch

def collides (batch : UnorderedBatch) (keyPrefix : Bytes) : Bool :=
  batch.simpleUnorderedBatch.insertions.any fun e => inInterval keyPrefix e.1

def expandCollidingPrefixDeletions (store : KeyValueMap) (batch : UnorderedBatch) :
    UnorderedBatch :=
  batch.expandPrefixes store batch.collides

theorem mem_expandedKeys {batch : UnorderedBatch} {p k : Bytes} : k ∈ batch.expandedKeys store p ↔
      p <+: k ∧ (store.get k).isSome ∧ ∀ x, (k, x) ∉ batch.simpleUnorderedBatch.insertions := by
  simp only [expandedKeys, List.mem_filter, List.mem_map, mem_findKeysByPrefix, decide_eq_true_eq,
    not_exists, not_and]
  constructor
  · rintro ⟨⟨short, hsome, rfl⟩, hnot⟩
    exact ⟨List.prefix_append .., hsome, fun x hx => hnot _ hx rfl⟩
  · rintro ⟨⟨short, rfl⟩, hsome, hnot⟩
    refine ⟨⟨short, hsome, rfl⟩, ?_⟩
    rintro ⟨key, x⟩ hx rfl
    exact hnot x hx

theorem mem_operations {batch : UnorderedBatch} {op : WriteOperation} :
    op ∈ batch.operations ↔ (∃ p ∈ batch.keyPrefixDeletions, op = .deletePrefix p) ∨
      (∃ k ∈ batch.simpleUnorderedBatch.deletions, op = .delete k) ∨
      ∃ k x, (k, x) ∈ batch.simpleUnorderedBatch.insertions ∧ op = .put k x := by
  simp only [operations, SimpleUnorderedBatch.operations, List.mem_append, List.mem_map,
    Prod.exists, @eq_comm _ op]

section Expansion

variable {store : KeyValueMap} {selected : Bytes → Bool} {batch : Batch}

/-- The operations of the batch, with prefix deletions selected for expansion. -/
abbrev expanded (store : KeyValueMap) (selected : Bytes → Bool) (batch : Batch) :
    List WriteOperation :=
  (batch.simplify.expandPrefixes store selected).operations

theorem put_mem_expanded {k x : Bytes} : .put k x ∈ expanded store selected batch ↔
    batch.simplification.deleteAndInsertMap.get k = some (some x) := by
  simp [mem_operations, expandPrefixes, Batch.mem_insertions_simplify]

theorem delete_mem_expanded {k : Bytes} : .delete k ∈ expanded store selected batch ↔
    batch.simplification.deleteAndInsertMap.get k = some none ∨
      ∃ p ∈ batch.simplification.deletePrefixSet.keys, selected p ∧ p <+: k ∧
        (store.get k).isSome ∧
        ∀ x, batch.simplification.deleteAndInsertMap.get k ≠ some (some x) := by
  simp only [mem_operations, expandPrefixes, reduceCtorEq, and_false, exists_false,
    or_false, false_or, List.mem_append, Batch.mem_deletions_simplify, List.mem_flatMap,
    List.mem_filter, mem_expandedKeys, Batch.mem_insertions_simplify, WriteOperation.delete.injEq,
    exists_eq_right']
  simp only [Batch.simplify, and_assoc]

theorem deletePrefix_mem_expanded {p : Bytes} : .deletePrefix p ∈ expanded store selected batch ↔
    p ∈ batch.simplification.deletePrefixSet.keys ∧ selected p = false := by
  simp [mem_operations, expandPrefixes, Batch.simplify]

/-- Every prefix deletion that is kept covers no inserted key. -/
def SelectsCollisions (selected : Bytes → Bool) (batch : Batch) : Prop :=
  ∀ p, selected p = false → ∀ k x,
    batch.simplification.deleteAndInsertMap.get k = some (some x) → ¬p <+: k

theorem noncolliding_expanded (hsel : SelectsCollisions selected batch) :
    Noncolliding (expanded store selected batch) := by
  intro k x hput op hop htouch
  rw [put_mem_expanded] at hput
  cases op with
  | put key value =>
    obtain rfl : k = key := htouch
    rw [put_mem_expanded, hput] at hop
    simpa using hop.symm
  | delete key =>
    obtain rfl : k = key := htouch
    rw [delete_mem_expanded, hput] at hop
    simp at hop
  | deletePrefix p =>
    rw [deletePrefix_mem_expanded] at hop
    exact absurd htouch (hsel p hop.2 k x hput)

/-- What is done to a key that the batch itself neither deletes nor puts. -/
theorem touched_expanded_iff {k : Bytes}
    (hget : batch.simplification.deleteAndInsertMap.get k = none) :
    (∃ op ∈ expanded store selected batch, op.Touches k) ↔
      ∃ p ∈ batch.simplification.deletePrefixSet.keys, p <+: k ∧
        (selected p = true → (store.get k).isSome) := by
  constructor
  · rintro ⟨op, hop, htouch⟩
    cases op with
    | put key value =>
      obtain rfl : k = key := htouch
      rw [put_mem_expanded, hget] at hop
      cases hop
    | delete key =>
      obtain rfl : k = key := htouch
      rw [delete_mem_expanded, hget] at hop
      obtain ⟨p, hp, -, hpk, hsome, -⟩ := hop.resolve_left (by simp)
      exact ⟨p, hp, hpk, fun _ => hsome⟩
    | deletePrefix p =>
      obtain ⟨hp, hsel⟩ := deletePrefix_mem_expanded.mp hop
      exact ⟨p, hp, htouch, fun h => by simp [hsel] at h⟩
  · rintro ⟨p, hp, hpk, hsome⟩
    cases hsel : selected p with
    | true =>
      exact ⟨.delete k, delete_mem_expanded.mpr
        (.inr ⟨p, hp, hsel, hpk, hsome hsel, by simp [hget]⟩), rfl⟩
    | false => exact ⟨.deletePrefix p, deletePrefix_mem_expanded.mpr ⟨hp, hsel⟩, hpk⟩

/-- **Expanding prefix deletions preserves the meaning of a batch** on the store that it was
expanded for. -/
theorem applyAt_expanded (hsel : SelectsCollisions selected batch) (k : Bytes) :
    Batch.applyAt k (expanded store selected batch) (store.get k) =
      Batch.applyAt k batch.operations (store.get k) := by
  have hput : ∀ x, .put k x ∈ expanded store selected batch ↔ _ := fun _ => put_mem_expanded
  rw [← batch.recordedAt_simplification k, recordedAt]
  match hget : batch.simplification.deleteAndInsertMap.get k with
  | some (some x) =>
    rw [Batch.applyAt_of_put ((hput x).mpr hget)
      (noncolliding_expanded hsel k x ((hput x).mpr hget))]
    rfl
  | some none =>
    rw [Batch.applyAt_of_no_put fun x hx => by simp [hget] at hput; exact hput x hx]
    exact if_pos ⟨.delete k, delete_mem_expanded.mpr (.inl hget), rfl⟩
  | none =>
    rw [Batch.applyAt_of_no_put fun x hx => by simp [hget] at hput; exact hput x hx]
    simp only [Option.getD_none, touched_expanded_iff hget,
      isPrefixMatched_iff batch.simplification.prefixFree]
    -- a key that is not in the store needs no deletion
    cases store.get k <;> simp

end Expansion

theorem selectsCollisions_all (batch : Batch) : SelectsCollisions (fun _ => true) batch :=
  fun _ h => by simp at h

theorem selectsCollisions_collides (batch : Batch) :
    SelectsCollisions batch.simplify.collides batch := by
  intro p hp k x hget hpk
  have : batch.simplify.collides p = true :=
    List.any_eq_true.mpr ⟨(k, x), Batch.mem_insertions_simplify.mpr hget, inInterval_iff.mpr hpk⟩
  simp [this] at hp

/-- Without prefix deletions, the two kinds of batches have the same operations. -/
theorem operations_expandDeletePrefixes (store : KeyValueMap) (batch : Batch) :
    (batch.simplify.expandDeletePrefixes store).operations =
      expanded store (fun _ => true) batch := by
  simp [expanded, expandDeletePrefixes, operations, expandPrefixes]

end UnorderedBatch

/-- A batch of operations that do not collide means the same in any order. -/
theorem Noncolliding.apply_eq_of_perm {ops ops' : List WriteOperation} (h : Noncolliding ops)
    (hperm : ops'.Perm ops) (store : KeyValueMap) :
    Batch.apply ⟨ops'⟩ store = Batch.apply ⟨ops⟩ store := by
  refine BTreeMap.ext_get fun k => ?_
  rw [Batch.get_apply, Batch.get_apply]
  exact h.applyAt_eq_of_mem_iff (fun op => hperm.mem_iff) k _

/-- Expanded for a store, a batch means the same there in any order. -/
theorem UnorderedBatch.apply_expanded_of_perm {selected : Bytes → Bool}
    (hsel : SelectsCollisions selected batch) {ops : List WriteOperation}
    (hperm : ops.Perm (expanded store selected batch)) :
    Batch.apply ⟨ops⟩ store = batch.apply store := by
  rw [(noncolliding_expanded hsel).apply_eq_of_perm hperm]
  refine BTreeMap.ext_get fun k => ?_
  rw [Batch.get_apply, Batch.get_apply]
  exact applyAt_expanded hsel k

/-- **Simplified batches mean the same as the original.** The prefix deletions come first; after
the expansion of the prefix deletions, for the store that the batch is written to, the operations
may come in any order. -/
theorem Batch.simplify_equivalent (batch : Batch) (store : KeyValueMap) :
    (∀ (prefixes : List Bytes) (ops : List WriteOperation),
        prefixes.Perm batch.simplify.keyPrefixDeletions →
        ops.Perm batch.simplify.simpleUnorderedBatch.operations →
        Batch.apply ⟨prefixes.map .deletePrefix ++ ops⟩ store = batch.apply store) ∧
      (∀ ops : List WriteOperation, ops.Perm (batch.simplify.expandDeletePrefixes store).operations →
        Batch.apply ⟨ops⟩ store = batch.apply store) ∧
      ∀ ops : List WriteOperation,
        ops.Perm (batch.simplify.expandCollidingPrefixDeletions store).operations →
        Batch.apply ⟨ops⟩ store = batch.apply store := by
  refine ⟨?_, ?_, ?_⟩
  · intro prefixes ops hprefixes hops
    refine BTreeMap.ext_get fun k => ?_
    rw [Batch.get_apply, Batch.get_apply]
    exact applyAt_simplify (fun p => hprefixes.mem_iff) (fun op => hops.mem_iff) k _
  · intro ops hops
    rw [UnorderedBatch.operations_expandDeletePrefixes] at hops
    exact UnorderedBatch.apply_expanded_of_perm (UnorderedBatch.selectsCollisions_all batch) hops
  · intro ops hops
    exact UnorderedBatch.apply_expanded_of_perm (UnorderedBatch.selectsCollisions_collides batch)
      hops

end Linera.Views
