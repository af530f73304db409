import Linera.Views.Common

/-!
# Batches of write operations

A batch is a list of write operations on a key-value store. `Batch.apply` is what
a batch means: its operations one by one, in order. `Batch.get_apply` says what
becomes of one key, and it is the lemma through which the stores are compared
with this meaning.
-/

namespace Linera.Views

/-- A write operation as requested by a view when it needs to persist staged changes. -/
inductive WriteOperation where
  | delete (key : Bytes)
  | deletePrefix (keyPrefix : Bytes)
  | put (key value : Bytes)
deriving DecidableEq

namespace WriteOperation

/-- The key or the key prefix of the operation. -/
def target : WriteOperation → Bytes
  | .delete key => key
  | .deletePrefix keyPrefix => keyPrefix
  | .put key _ => key

/-- Performs the operation on the contents of a store. -/
def apply : WriteOperation → KeyValueMap → KeyValueMap
  | .delete key, m => m.remove key
  | .deletePrefix keyPrefix, m => m.retain fun key _ => !keyPrefix.isPrefixOf key
  | .put key value, m => m.insert key value

/-- What becomes of the value under `k`. -/
def applyAt (k : Bytes) : WriteOperation → Option Bytes → Option Bytes
  | .delete key, v => if k = key then none else v
  | .deletePrefix keyPrefix, v => if keyPrefix <+: k then none else v
  | .put key value, v => if k = key then some value else v

/-- Whether the operation concerns the key `k`. -/
def Touches (k : Bytes) : WriteOperation → Prop
  | .delete key => k = key
  | .deletePrefix keyPrefix => keyPrefix <+: k
  | .put key _ => k = key

instance (k : Bytes) : DecidablePred (Touches k)
  | .delete key => inferInstanceAs (Decidable (k = key))
  | .deletePrefix keyPrefix => inferInstanceAs (Decidable (keyPrefix <+: k))
  | .put key _ => inferInstanceAs (Decidable (k = key))

theorem get_apply (op : WriteOperation) (m : KeyValueMap) (k : Bytes) :
    (op.apply m).get k = op.applyAt k (m.get k) := by
  cases op with
  | delete key => exact BTreeMap.get_remove m key k
  | deletePrefix p =>
    rw [apply, applyAt, BTreeMap.get_retain]
    by_cases hp : p <+: k
    · cases m.get k <;> simp [hp, Option.filter]
    · cases m.get k <;> simp [hp, Option.filter]
  | put key value => exact BTreeMap.get_insert m key k value

theorem applyAt_of_not_touches {op : WriteOperation} {k : Bytes} (h : ¬op.Touches k)
    (v : Option Bytes) : op.applyAt k v = v := by
  cases op <;> simp_all [applyAt, Touches]

/-- What an operation leaves under a key that it concerns does not depend on what was there. -/
theorem applyAt_of_touches {op : WriteOperation} {k : Bytes} (h : op.Touches k)
    (v v' : Option Bytes) : op.applyAt k v = op.applyAt k v' := by
  cases op <;> simp_all [applyAt, Touches]

end WriteOperation

/-- A batch of write operations. -/
structure Batch where
  operations : List WriteOperation
deriving DecidableEq

namespace Batch

/-- Performs the operations in order on the contents of a store. -/
def apply (batch : Batch) (m : KeyValueMap) : KeyValueMap :=
  batch.operations.foldl (fun m op => op.apply m) m

/-- What becomes of the value under `k`. -/
def applyAt (k : Bytes) (ops : List WriteOperation) (v : Option Bytes) : Option Bytes :=
  ops.foldl (fun v op => op.applyAt k v) v

variable (k : Bytes)

@[simp] theorem applyAt_nil (v : Option Bytes) : applyAt k [] v = v := rfl

@[simp] theorem applyAt_cons (op : WriteOperation) (ops : List WriteOperation) (v : Option Bytes) :
    applyAt k (op :: ops) v = applyAt k ops (op.applyAt k v) := rfl

theorem applyAt_append (ops ops' : List WriteOperation) (v : Option Bytes) :
    applyAt k (ops ++ ops') v = applyAt k ops' (applyAt k ops v) :=
  List.foldl_append

theorem apply_append (ops ops' : List WriteOperation) (m : KeyValueMap) :
    apply ⟨ops ++ ops'⟩ m = apply ⟨ops'⟩ (apply ⟨ops⟩ m) :=
  List.foldl_append

theorem get_apply (batch : Batch) (m : KeyValueMap) (k : Bytes) :
    (batch.apply m).get k = applyAt k batch.operations (m.get k) := by
  obtain ⟨ops⟩ := batch
  simp only [apply]
  induction ops generalizing m with
  | nil => rfl
  | cons op ops ih => rw [List.foldl_cons, ih, applyAt_cons, WriteOperation.get_apply]

variable {ops : List WriteOperation}

theorem applyAt_of_not_touches {k : Bytes}
    (h : ∀ op ∈ ops, ¬op.Touches k) (v : Option Bytes) : applyAt k ops v = v := by
  induction ops generalizing v with
  | nil => rfl
  | cons op ops ih =>
    rw [applyAt_cons, WriteOperation.applyAt_of_not_touches (h op (by simp))]
    exact ih (fun op' h' => h op' (by simp [h'])) v

/-- What a batch leaves under a key that it concerns does not depend on what was there. -/
theorem applyAt_of_touches {k : Bytes}
    (h : ∃ op ∈ ops, op.Touches k) (v v' : Option Bytes) : applyAt k ops v = applyAt k ops v' := by
  induction ops generalizing v v' with
  | nil => simp at h
  | cons op ops ih =>
    rw [applyAt_cons, applyAt_cons]
    by_cases hop : op.Touches k
    · rw [WriteOperation.applyAt_of_touches hop v v']
    · refine ih ?_ _ _
      obtain ⟨op', hmem, h'⟩ := h
      rcases List.mem_cons.mp hmem with rfl | hmem
      · exact absurd h' hop
      · exact ⟨op', hmem, h'⟩

/-- What a batch leaves under a key that only one put concerns. -/
theorem applyAt_of_put {k x : Bytes} {v : Option Bytes} (hmem : .put k x ∈ ops)
    (honly : ∀ op ∈ ops, op.Touches k → op = .put k x) : applyAt k ops v = some x := by
  induction ops generalizing v with
  | nil => simp at hmem
  | cons op ops ih =>
    rw [applyAt_cons]
    by_cases hlater : .put k x ∈ ops
    · exact ih hlater fun op' h' => honly op' (by simp [h'])
    · obtain rfl : op = .put k x := by
        rcases List.mem_cons.mp hmem with h | h
        · exact h.symm
        · exact absurd h hlater
      have hrest : ∀ op' ∈ ops, ¬op'.Touches k := fun op' h' ht =>
        hlater (honly op' (List.mem_cons_of_mem _ h') ht ▸ h')
      rw [applyAt_of_not_touches hrest]
      simp [WriteOperation.applyAt]

theorem applyAt_deletes (keys : List Bytes) (v : Option Bytes) :
    applyAt k (keys.map .delete) v = if k ∈ keys then none else v := by
  induction keys generalizing v with
  | nil => rfl
  | cons key keys ih =>
    rw [List.map_cons, applyAt_cons, ih]
    by_cases hk : k = key <;> simp [WriteOperation.applyAt, hk]

theorem applyAt_deletePrefixes (prefixes : List Bytes) (v : Option Bytes) :
    applyAt k (prefixes.map .deletePrefix) v = if ∃ p ∈ prefixes, p <+: k then none else v := by
  induction prefixes generalizing v with
  | nil => simp
  | cons p prefixes ih =>
    rw [List.map_cons, applyAt_cons, ih]
    by_cases hp : p <+: k <;> simp [WriteOperation.applyAt, hp]

end Batch

end Linera.Views
