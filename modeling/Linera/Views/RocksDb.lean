import Linera.Lib.Except
import Linera.Views.Batch

/-!
# The RocksDB store

The model of `RocksDbStoreExecutor`: all views of one executor live under its root
key in a database of byte keys. RocksDB itself (its ordered contents, iterators
and write batches) is the list of its entries and operations on it.

`write_batch_internal` treats a prefix deletion without an upper bound specially,
because RocksDB cannot delete a range without an end. `writeBatchInternal_spec` says
what a batch really does to each key, and `actsSequentially_iff` when that is what
the operations of the batch do one by one.
-/

namespace Linera.Views

inductive RocksDbStoreInternalError where
  | keyTooLong
deriving DecidableEq

def maxKeySize : Nat := 8388208

def checkKeySize (key : Bytes) : Except RocksDbStoreInternalError Unit :=
  ensure (key.length ≤ maxKeySize) .keyTooLong

/-- An operation of a RocksDB write batch. A range includes its start and excludes its end. -/
inductive DbWrite where
  | put (key value : Bytes)
  | delete (key : Bytes)
  | deleteRange (first last : Bytes)

namespace DbWrite

def apply : DbWrite → KeyValueMap → KeyValueMap
  | .put key value, db => db.insert key value
  | .delete key, db => db.remove key
  | .deleteRange first last, db => db.retain fun key _ => !(first ≤ key && key < last)

/-- What becomes of the value under `k`. -/
def applyAt (k : Bytes) : DbWrite → Option Bytes → Option Bytes
  | .put key value, v => if k = key then some value else v
  | .delete key, v => if k = key then none else v
  | .deleteRange first last, v => if first ≤ k ∧ k < last then none else v

theorem get_apply (w : DbWrite) (db : KeyValueMap) (k : Bytes) :
    (w.apply db).get k = w.applyAt k (db.get k) := by
  cases w with
  | put key value => exact BTreeMap.get_insert db key k value
  | delete key => exact BTreeMap.get_remove db key k
  | deleteRange first last =>
    rw [apply, applyAt, BTreeMap.get_retain]
    by_cases hk : first ≤ k ∧ k < last
    · cases db.get k <;> simp [hk, Option.filter]
    · cases db.get k <;> simp [hk, Option.filter]

end DbWrite

/-- The writes of a batch, applied in order. -/
def dbWrite (db : KeyValueMap) (writes : List DbWrite) : KeyValueMap :=
  writes.foldl (fun db w => w.apply db) db

theorem get_dbWrite (db : KeyValueMap) (writes : List DbWrite) (k : Bytes) :
    (dbWrite db writes).get k = writes.foldl (fun v w => w.applyAt k v) (db.get k) := by
  unfold dbWrite
  induction writes generalizing db with
  | nil => rfl
  | cons w writes ih => rw [List.foldl_cons, List.foldl_cons, ih, DbWrite.get_apply]

structure RocksDbStoreExecutor where
  db : KeyValueMap
  rootKey : Bytes

namespace RocksDbStoreExecutor

/-- The keys with the given prefix, with the prefix stripped. The iterator is moved to the first
key at or above the prefix, and read on as long as the keys have it. -/
def findKeysByPrefixInternal (e : RocksDbStoreExecutor) (keyPrefix : Bytes) :
    Except RocksDbStoreInternalError (List Bytes) := do
  checkKeySize keyPrefix
  let fullPrefix := e.rootKey ++ keyPrefix
  let found := (e.db.entries.dropWhile fun entry => entry.1 < fullPrefix).takeWhile
    fun entry => fullPrefix.isPrefixOf entry.1
  return found.map fun entry => entry.1.drop fullPrefix.length

/-- The keys of all prefix deletions without an upper bound, in full. -/
def unboundedKeys (e : RocksDbStoreExecutor) :
    List WriteOperation → Except RocksDbStoreInternalError (List Bytes)
  | [] => .ok []
  | .deletePrefix keyPrefix :: ops =>
    if getUpperBoundOption keyPrefix = none then do
      let shortKeys ← e.findKeysByPrefixInternal keyPrefix
      let keys ← e.unboundedKeys ops
      return shortKeys.map (fun shortKey => e.rootKey ++ keyPrefix ++ shortKey) ++ keys
    else e.unboundedKeys ops
  | _ :: ops => e.unboundedKeys ops

def innerWrites (e : RocksDbStoreExecutor) : WriteOperation → List DbWrite
  | .delete key => [.delete (e.rootKey ++ key)]
  | .put key value => [.put (e.rootKey ++ key) value]
  | .deletePrefix keyPrefix =>
    match getUpperBoundOption keyPrefix with
    | some upperBound => [.deleteRange (e.rootKey ++ keyPrefix) (e.rootKey ++ upperBound)]
    | none => []

/-- Returns the contents of the database after the batch. -/
def writeBatchInternal (e : RocksDbStoreExecutor) (batch : Batch) :
    Except RocksDbStoreInternalError KeyValueMap := do
  let keys ← e.unboundedKeys batch.operations
  let operations := batch.operations ++ keys.map WriteOperation.delete
  let innerBatch ← operations.mapM fun op => do
    checkKeySize op.target
    pure (e.innerWrites op)
  return dbWrite e.db innerBatch.flatten

/-- The contents of the executor's part of the database, with the root key stripped. -/
def contents (e : RocksDbStoreExecutor) : KeyValueMap := contentsUnder e.rootKey e.db

/-! ## What a batch does to a key -/

variable {e : RocksDbStoreExecutor}

theorem mem_findKeysByPrefixInternal {p : Bytes} {found : List Bytes}
    (h : e.findKeysByPrefixInternal p = .ok found) {s : Bytes} :
    s ∈ found ↔ (e.contents.get (p ++ s)).isSome := by
  simp only [findKeysByPrefixInternal, scan_eq_filter _ e.db.sorted, Except.bind_eq_ok,
    Except.pure_eq, Except.ok.injEq] at h
  obtain ⟨-, -, rfl⟩ := h
  rw [contents, get_contentsUnder, ← List.append_assoc, Option.isSome_iff_exists]
  simp only [List.mem_map, List.mem_filter, Prod.exists, ← BTreeMap.mem_entries_iff]
  constructor
  · rintro ⟨key, v, ⟨hmem, hkey⟩, rfl⟩
    obtain ⟨t, rfl⟩ : e.rootKey ++ p <+: key := by simpa using hkey
    exact ⟨v, by simpa using hmem⟩
  · rintro ⟨v, hmem⟩
    exact ⟨_, v, ⟨hmem, by simp⟩, by simp⟩

/-- The key `x`, which the store holds, falls under a prefix deletion of the batch that has no
upper bound. -/
def Swept (e : RocksDbStoreExecutor) (ops : List WriteOperation) (x : Bytes) : Prop :=
  (e.contents.get x).isSome ∧
    ∃ p, .deletePrefix p ∈ ops ∧ getUpperBoundOption p = none ∧ p <+: x

/-- The first loop finds the swept keys, and puts the root key in front of them. -/
theorem unboundedKeys_spec {ops : List WriteOperation}
    (hsize : ∀ op ∈ ops, op.target.length ≤ maxKeySize) : ∃ keys, e.unboundedKeys ops = .ok keys ∧
      ∀ k, k ∈ keys ↔ ∃ x, e.Swept ops x ∧ k = e.rootKey ++ x := by
  induction ops with
  | nil => exact ⟨[], rfl, by simp [Swept]⟩
  | cons op ops ih =>
    obtain ⟨keys, hkeys, hmem⟩ := ih fun op' h => hsize op' (by simp [h])
    have hother : (∀ p, op = .deletePrefix p → getUpperBoundOption p ≠ none) →
        ∀ x, e.Swept (op :: ops) x ↔ e.Swept ops x := by
      intro hop x
      refine and_congr_right fun _ => exists_congr fun p => ?_
      constructor
      · rintro ⟨hp, hnone, hx⟩
        rcases List.mem_cons.mp hp with hp | hp
        · exact absurd hnone (hop p hp.symm)
        · exact ⟨hp, hnone, hx⟩
      · rintro ⟨hp, hnone, hx⟩
        exact ⟨List.mem_cons_of_mem _ hp, hnone, hx⟩
    cases op with
    | delete key => exact ⟨keys, hkeys, by simpa [hother] using hmem⟩
    | put key value => exact ⟨keys, hkeys, by simpa [hother] using hmem⟩
    | deletePrefix p =>
      by_cases hp : getUpperBoundOption p = none
      · obtain ⟨found, hfound⟩ : ∃ found, e.findKeysByPrefixInternal p = .ok found := by
          have hlen : p.length ≤ maxKeySize := hsize (.deletePrefix p) (by simp)
          simp [findKeysByPrefixInternal, checkKeySize, Except.ensure_of hlen]
        refine ⟨found.map (fun s => e.rootKey ++ p ++ s) ++ keys,
          by simp [unboundedKeys, hp, hfound, hkeys], fun k => ?_⟩
        rw [List.mem_append, hmem, List.mem_map]
        constructor
        · rintro (⟨s, hs, rfl⟩ | ⟨x, ⟨hx, q, hq⟩, rfl⟩)
          · exact ⟨p ++ s, ⟨(mem_findKeysByPrefixInternal hfound).mp hs, p, by simp [hp]⟩,
              by simp⟩
          · exact ⟨x, ⟨hx, q, List.mem_cons_of_mem _ hq.1, hq.2⟩, rfl⟩
        · rintro ⟨x, ⟨hx, q, hq, hnone, hqx⟩, rfl⟩
          rcases List.mem_cons.mp hq with hq | hq
          · obtain rfl : q = p := by simpa using hq
            obtain ⟨s, rfl⟩ := hqx
            exact .inl ⟨s, (mem_findKeysByPrefixInternal hfound).mpr hx, by simp⟩
          · exact .inr ⟨x, ⟨hx, q, hq, hnone, hqx⟩, rfl⟩
      · refine ⟨keys, by simp [unboundedKeys, hp, hkeys], fun k => ?_⟩
        rw [hmem]
        simp only [hother fun q hq => by simp_all]

/-- The operation is not a prefix deletion without an upper bound. -/
def isBounded : WriteOperation → Bool
  | .deletePrefix p => (getUpperBoundOption p).isSome
  | _ => true

/-- The inner batch does to a key under the root key what the bounded operations do to the
stripped key. -/
theorem foldl_innerWrites (e : RocksDbStoreExecutor) (ops : List WriteOperation) (k : Bytes)
    (v : Option Bytes) :
    (ops.map e.innerWrites).flatten.foldl (fun v w => w.applyAt (e.rootKey ++ k) v) v =
      Batch.applyAt k (ops.filter isBounded) v := by
  induction ops generalizing v with
  | nil => rfl
  | cons op ops ih =>
    rw [List.map_cons, List.flatten_cons, List.foldl_append, ih]
    cases op with
    | delete key => simp [innerWrites, DbWrite.applyAt, List.filter_cons, isBounded, WriteOperation.applyAt]
    | put key value => simp [innerWrites, DbWrite.applyAt, List.filter_cons, isBounded, WriteOperation.applyAt]
    | deletePrefix p =>
      cases hp : getUpperBoundOption p with
      | none => simp [innerWrites, hp, isBounded]
      | some u =>
        have hrange : (e.rootKey ++ p ≤ e.rootKey ++ k ∧ e.rootKey ++ k < e.rootKey ++ u) ↔
            p <+: k := by
          rw [isPrefix_iff_of_upperBound hp, Bytes.append_le_append_left_iff,
            Bytes.append_lt_append_left_iff]
        simp [innerWrites, hp, isBounded, DbWrite.applyAt, WriteOperation.applyAt, hrange]

/-- The inner batch leaves the keys outside the root key alone. -/
theorem foldl_innerWrites_outside (e : RocksDbStoreExecutor) (ops : List WriteOperation)
    {k : Bytes} (hk : ¬e.rootKey <+: k) (v : Option Bytes) :
    (ops.map e.innerWrites).flatten.foldl (fun v w => w.applyAt k v) v = v := by
  have hne : ∀ key, k ≠ e.rootKey ++ key := fun key h => hk (h ▸ List.prefix_append _ _)
  induction ops with
  | nil => rfl
  | cons op ops ih =>
    rw [List.map_cons, List.flatten_cons, List.foldl_append]
    cases op with
    | delete key => simpa [innerWrites, DbWrite.applyAt, hne] using ih
    | put key value => simpa [innerWrites, DbWrite.applyAt, hne] using ih
    | deletePrefix p =>
      cases hp : getUpperBoundOption p with
      | none => simpa [innerWrites, hp] using ih
      | some u =>
        have hrange : ¬(e.rootKey ++ p ≤ k ∧ k < e.rootKey ++ u) := by
          rw [← isPrefix_iff_of_upperBound (getUpperBoundOption_append e.rootKey hp)]
          exact fun h => hk ((List.prefix_append _ _).trans h)
        simpa [innerWrites, hp, DbWrite.applyAt, hrange] using ih

/-- A batch is written if the swept keys are short enough when the root key stands in front of
them. Under the root key, what is left is what the bounded operations leave, less the swept
keys with the root key in front of them. -/
theorem writeBatchInternal_spec {batch : Batch}
    (hsize : ∀ op ∈ batch.operations, op.target.length ≤ maxKeySize) :
    ((∃ db, e.writeBatchInternal batch = .ok db) ↔
      ∀ x, e.Swept batch.operations x → (e.rootKey ++ x).length ≤ maxKeySize) ∧
    ∀ db, e.writeBatchInternal batch = .ok db →
      (∀ k, (∃ x, e.Swept batch.operations x ∧ k = e.rootKey ++ x) →
        db.get (e.rootKey ++ k) = none) ∧
      (∀ k, (¬∃ x, e.Swept batch.operations x ∧ k = e.rootKey ++ x) →
        db.get (e.rootKey ++ k) =
          Batch.applyAt k (batch.operations.filter isBounded) (e.contents.get k)) ∧
      ∀ k, ¬e.rootKey <+: k → db.get k = e.db.get k := by
  obtain ⟨keys, hkeys, hmem⟩ := unboundedKeys_spec (e := e) hsize
  have hok : ∀ db, e.writeBatchInternal batch = .ok db ↔
      (∀ k ∈ keys, k.length ≤ maxKeySize) ∧
        db = dbWrite e.db ((batch.operations ++ keys.map WriteOperation.delete).map e.innerWrites).flatten := by
    intro db
    simp only [writeBatchInternal, hkeys, Except.ok_bind, Except.bind_eq_ok,
      Except.mapM_check_eq_ok]
    simp only [Except.pure_eq, Except.ok.injEq, checkKeySize, Except.ensure_eq_ok]
    constructor
    · rintro ⟨writes, ⟨hlen, rfl⟩, rfl⟩
      exact ⟨fun k hk => hlen (.delete k) (by simp [hk]), rfl⟩
    · rintro ⟨hlen, rfl⟩
      refine ⟨_, ⟨fun op hop => ?_, rfl⟩, rfl⟩
      rcases List.mem_append.mp hop with hop | hop
      · exact hsize op hop
      · obtain ⟨k, hk, rfl⟩ := List.mem_map.mp hop
        exact hlen k hk
  have hdeletes : ∀ k v, Batch.applyAt k ((keys.map WriteOperation.delete).filter isBounded) v =
      if k ∈ keys then none else v := by
    intro k v
    have hall : (keys.map WriteOperation.delete).filter isBounded =
        keys.map WriteOperation.delete := by
      simp [List.filter_eq_self, isBounded]
    rw [hall, Batch.applyAt_deletes]
  refine ⟨⟨?_, fun hlen => ?_⟩, fun db hdb => ?_⟩
  · rintro ⟨db, hdb⟩ x hx
    exact ((hok db).mp hdb).1 _ ((hmem _).mpr ⟨x, hx, rfl⟩)
  · refine ⟨_, (hok _).mpr ⟨fun k hk => ?_, rfl⟩⟩
    obtain ⟨x, hx, rfl⟩ := (hmem k).mp hk
    exact hlen x hx
  · obtain ⟨-, rfl⟩ := (hok db).mp hdb
    have hinside : ∀ k, (dbWrite e.db
        ((batch.operations ++ keys.map WriteOperation.delete).map e.innerWrites).flatten).get (e.rootKey ++ k) =
        if k ∈ keys then none
        else Batch.applyAt k (batch.operations.filter isBounded) (e.contents.get k) := by
      intro k
      rw [get_dbWrite, foldl_innerWrites, List.filter_append, Batch.applyAt_append, hdeletes,
        contents, get_contentsUnder]
    refine ⟨fun k hk => ?_, fun k hk => ?_, fun k hk => ?_⟩
    · rw [hinside, if_pos ((hmem k).mpr hk)]
    · rw [hinside, if_neg fun h => hk ((hmem k).mp h)]
    · rw [get_dbWrite, foldl_innerWrites_outside e _ hk]

/-! ## When a batch acts like its operations -/

/-- Without a later bounded operation on the key, an absent key stays absent. -/
theorem applyAt_none_of_unbounded {k : Bytes} {ops : List WriteOperation}
    (h : ¬∃ op ∈ ops, op.Touches k ∧ isBounded op) : Batch.applyAt k ops none = none := by
  induction ops with
  | nil => rfl
  | cons op ops ih =>
    have hop : op.applyAt k none = none := by
      by_cases htouch : op.Touches k
      · cases op with
        | delete key => simp [WriteOperation.applyAt]
        | deletePrefix p => simp [WriteOperation.applyAt]
        | put key value => exact absurd ⟨_, by simp, htouch, rfl⟩ h
      · exact WriteOperation.applyAt_of_not_touches htouch none
    rw [Batch.applyAt_cons, hop]
    refine ih ?_
    rintro ⟨op', hmem, h'⟩
    exact h ⟨op', by simp [hmem], h'⟩

/-- Leaving out the prefix deletions without an upper bound makes no difference to the key `k`
if and only if whatever such a deletion would remove is written again, or deleted by another
operation, later on. -/
theorem applyAt_filter_isBounded_iff (k : Bytes) (ops : List WriteOperation) (v : Option Bytes) :
    Batch.applyAt k (ops.filter isBounded) v = Batch.applyAt k ops v ↔
      ∀ pre p post, ops = pre ++ .deletePrefix p :: post → getUpperBoundOption p = none →
        p <+: k → Batch.applyAt k pre v ≠ none → ∃ op ∈ post, op.Touches k ∧ isBounded op := by
  induction ops generalizing v with
  | nil => simp
  | cons op ops ih =>
    -- The condition at the positions behind `op`.
    have htail : (∀ pre p post, op :: ops = op :: pre ++ .deletePrefix p :: post →
        getUpperBoundOption p = none → p <+: k → Batch.applyAt k (op :: pre) v ≠ none →
          ∃ op ∈ post, op.Touches k ∧ isBounded op) ↔
        Batch.applyAt k (ops.filter isBounded) (op.applyAt k v) =
          Batch.applyAt k ops (op.applyAt k v) := by
      rw [ih (op.applyAt k v)]
      simp
    by_cases hop : isBounded op
    · rw [List.filter_cons_of_pos hop, Batch.applyAt_cons, Batch.applyAt_cons, ← htail]
      constructor
      · intro h pre p post heq hp
        cases pre with
        | nil =>
          obtain ⟨rfl, -⟩ := List.cons.inj heq
          simp [isBounded, hp] at hop
        | cons op' pre =>
          obtain ⟨rfl, -⟩ := List.cons.inj heq
          exact h pre p post heq hp
      · exact fun h pre => h (op :: pre)
    · obtain ⟨p, rfl, hp⟩ : ∃ p, op = .deletePrefix p ∧ getUpperBoundOption p = none := by
        cases op <;> simp_all [isBounded]
      rw [List.filter_cons_of_neg hop, Batch.applyAt_cons]
      have hsplit : (∀ pre q post, .deletePrefix p :: ops = pre ++ .deletePrefix q :: post →
          getUpperBoundOption q = none → q <+: k → Batch.applyAt k pre v ≠ none →
            ∃ op ∈ post, op.Touches k ∧ isBounded op) ↔
          (p <+: k → v ≠ none → ∃ op ∈ ops, op.Touches k ∧ isBounded op) ∧
          Batch.applyAt k (ops.filter isBounded) ((WriteOperation.deletePrefix p).applyAt k v) =
            Batch.applyAt k ops ((WriteOperation.deletePrefix p).applyAt k v) := by
        rw [← htail]
        constructor
        · exact fun h => ⟨h [] p ops rfl hp, fun pre => h (.deletePrefix p :: pre)⟩
        · rintro ⟨hhead, h⟩ pre q post heq hq
          cases pre with
          | nil =>
            obtain ⟨hpq, rfl⟩ := List.cons.inj heq
            obtain rfl : p = q := by simpa using hpq
            exact hhead
          | cons op' pre =>
            obtain ⟨rfl, -⟩ := List.cons.inj heq
            exact h pre q post heq hq
      rw [hsplit]
      by_cases hpk : p <+: k
      · simp only [WriteOperation.applyAt, hpk, if_true, true_imp_iff]
        cases v with
        | none => simp
        | some x =>
          by_cases hlater : ∃ op ∈ ops, op.Touches k ∧ isBounded op
          · -- A later bounded operation decides, whatever was there before.
            have htouch : ∃ op ∈ ops.filter isBounded, op.Touches k := by
              obtain ⟨op, hmem, ht, hb⟩ := hlater
              exact ⟨op, List.mem_filter.mpr ⟨hmem, hb⟩, ht⟩
            rw [Batch.applyAt_of_touches htouch (some x) none]
            simp [hlater]
          · -- Nothing but such deletions comes later: the value stays, but should not.
            have hstays : Batch.applyAt k (ops.filter isBounded) (some x) = some x :=
              Batch.applyAt_of_not_touches (fun op hmem ht =>
                hlater ⟨op, (List.mem_filter.mp hmem).1, ht, (List.mem_filter.mp hmem).2⟩) _
            simp [hstays, applyAt_none_of_unbounded hlater, hlater]
      · simp [WriteOperation.applyAt, hpk]

/-- After the batch, the executor's part of the database is what the operations of the batch
make of it one by one, and the rest is unchanged. -/
def ActsSequentially (e : RocksDbStoreExecutor) (batch : Batch) : Prop :=
  ∃ db, e.writeBatchInternal batch = .ok db ∧
    contentsUnder e.rootKey db = batch.apply e.contents ∧
    ∀ k, ¬e.rootKey <+: k → db.get k = e.db.get k

/-- No prefix deletion without an upper bound does harm. The key that the code deletes for a
swept key is not too long, and it is absent after the batch anyway; and any other key that such
a deletion finds in the store is written again, or deleted by a bounded operation, later in the
batch. -/
def UnboundedDeletionsHarmless (e : RocksDbStoreExecutor) (ops : List WriteOperation) : Prop :=
  (∀ x, e.Swept ops x → (e.rootKey ++ x).length ≤ maxKeySize ∧
    Batch.applyAt (e.rootKey ++ x) ops (e.contents.get (e.rootKey ++ x)) = none) ∧
  ∀ pre p post, ops = pre ++ .deletePrefix p :: post → getUpperBoundOption p = none →
    ∀ k, p <+: k → (¬∃ x, e.Swept ops x ∧ k = e.rootKey ++ x) →
      Batch.applyAt k pre (e.contents.get k) ≠ none → ∃ op ∈ post, op.Touches k ∧ isBounded op

/-- **When a RocksDB batch acts like sequential writes.** For keys within the size limit, this
is the case exactly if the prefix deletions without an upper bound do no harm. -/
theorem actsSequentially_iff {e : RocksDbStoreExecutor} {batch : Batch}
    (hsize : ∀ op ∈ batch.operations, op.target.length ≤ maxKeySize) :
    e.ActsSequentially batch ↔ e.UnboundedDeletionsHarmless batch.operations := by
  obtain ⟨hwritten, hdb⟩ := writeBatchInternal_spec (e := e) hsize
  have hcontents : ∀ db, contentsUnder e.rootKey db = batch.apply e.contents ↔
      ∀ k, db.get (e.rootKey ++ k) = Batch.applyAt k batch.operations (e.contents.get k) := by
    intro db
    constructor
    · intro h k
      rw [← get_contentsUnder, h, Batch.get_apply]
    · intro h
      refine BTreeMap.ext_get fun k => ?_
      rw [get_contentsUnder, h, Batch.get_apply]
  constructor
  · rintro ⟨db, hrun, heq, -⟩
    obtain ⟨hswept, hother, -⟩ := hdb db hrun
    rw [hcontents] at heq
    refine ⟨fun x hx => ⟨hwritten.mp ⟨db, hrun⟩ x hx, ?_⟩, fun pre p post hops hp k hpk hk => ?_⟩
    · rw [← heq, hswept _ ⟨x, hx, rfl⟩]
    · have hsame := (hother k hk).symm.trans (heq k)
      exact (applyAt_filter_isBounded_iff k _ _).mp hsame pre p post hops hp hpk
  · rintro ⟨hswept', hother'⟩
    obtain ⟨db, hrun⟩ := hwritten.mpr fun x hx => (hswept' x hx).1
    obtain ⟨hswept, hother, houtside⟩ := hdb db hrun
    refine ⟨db, hrun, (hcontents db).mpr fun k => ?_, houtside⟩
    by_cases hk : ∃ x, e.Swept batch.operations x ∧ k = e.rootKey ++ x
    · rw [hswept k hk]
      obtain ⟨x, hx, rfl⟩ := hk
      exact (hswept' x hx).2.symm
    · rw [hother k hk, applyAt_filter_isBounded_iff]
      exact fun pre p post hops hp hpk => hother' pre p post hops hp k hpk hk

/-- A prefix deletion with an upper bound, under a root key. -/
theorem actsSequentially_bounded_deletion :
    (⟨(.empty : KeyValueMap).insert [1, 5] [7], [1]⟩ : RocksDbStoreExecutor).ActsSequentially
      ⟨[.put [5, 1] [8], .deletePrefix [5]]⟩ := by
  refine (actsSequentially_iff (by decide)).mpr ⟨?_, ?_⟩
  · rintro x ⟨-, p, hp, hnone, -⟩
    obtain rfl : p = [5] := by simpa using hp
    exact absurd hnone (by decide)
  · intro pre p post hops hnone
    have hp : .deletePrefix p ∈ pre ++ .deletePrefix p :: post := by simp
    rw [← hops] at hp
    obtain rfl : p = [5] := by simpa using hp
    exact absurd hnone (by decide)

/-- Clearing everything under a root key leaves the old keys in the store: the deletions that
replace the empty prefix carry the root key twice. -/
theorem clear_under_rootKey_not_sequential :
    ¬(⟨(.empty : KeyValueMap).insert [1, 5] [7], [1]⟩ : RocksDbStoreExecutor).ActsSequentially
      ⟨[.deletePrefix []]⟩ := by
  rintro ⟨db, hrun, heq, -⟩
  have hdb : db = (.empty : KeyValueMap).insert [1, 5] [7] := by
    have : (⟨(.empty : KeyValueMap).insert [1, 5] [7], [1]⟩ :
        RocksDbStoreExecutor).writeBatchInternal ⟨[.deletePrefix []]⟩ =
          .ok ((.empty : KeyValueMap).insert [1, 5] [7]) := by decide
    rw [this] at hrun
    exact (Except.ok.inj hrun).symm
  subst hdb
  exact absurd (congrArg (fun m => BTreeMap.get m [5]) heq) (by decide)

end RocksDbStoreExecutor

end Linera.Views
