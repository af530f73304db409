import Linera.Views.ValueSplitting

/-!
# Point reads of the value-splitting store

Reads of single keys do not need the keys to be prefix-free: a segment key determines its
key and its index, so a segment is never taken for one of another key, and left-over
segments of longer values are behind the count that is stored with the value
(`point_reads_transparent`).
-/

namespace Linera.Views.ValueSplitting

def containsKey (inner : KeyValueMap) (key : Bytes) : Bool :=
  (inner.get (key ++ [0, 0, 0, 0])).isSome

def containsKeys (inner : KeyValueMap) (keys : List Bytes) : List Bool :=
  (keys.map fun key => key ++ [0, 0, 0, 0]).map fun bigKey => (inner.get bigKey).isSome

/-- Why a read of several keys has no result: an error, or an `unwrap` that panics. -/
inductive ReadFailure where
  | error (error : ValueSplittingError)
  | panicked

/-- What the first loop of `read_multi_values_bytes` collects. -/
structure FirstSegments where
  bigValues : List (Option Bytes)
  keysAdd : List Bytes
  nBlocks : List Nat

def readFirstSegments (inner : KeyValueMap) : List Bytes → Except ValueSplittingError FirstSegments
  | [] => .ok ⟨[], [], []⟩
  | key :: keys =>
    match inner.get (key ++ [0, 0, 0, 0]) with
    | none => do
      let rest ← readFirstSegments inner keys
      return ⟨none :: rest.bigValues, rest.keysAdd, 0 :: rest.nBlocks⟩
    | some value => do
      let count ← readCountFromValue value
      let rest ← readFirstSegments inner keys
      return ⟨some (value.drop 4) :: rest.bigValues,
        (List.range' 1 (count - 1)).map (getSegmentKey key) ++ rest.keysAdd, count :: rest.nBlocks⟩

/-- Takes the next `count` segments, or panics if one of them is missing. -/
def nextSegments : Nat → List (Option Bytes) → Except ReadFailure (Bytes × List (Option Bytes))
  | 0, segments => .ok ([], segments)
  | count + 1, some segment :: segments => do
    let others ← nextSegments count segments
    return (segment ++ others.1, others.2)
  | _ + 1, _ => .error .panicked

/-- The second loop: each value is extended by as many segments as its count says. -/
def extendValues : List (Option Bytes) → List Nat → List (Option Bytes) →
    Except ReadFailure (List (Option Bytes))
  | some value :: values, count :: counts, segments => do
    let others ← nextSegments (count - 1) segments
    return some (value ++ others.1) :: (← extendValues values counts others.2)
  | none :: values, _ :: counts, segments => do
    return none :: (← extendValues values counts segments)
  | _, _, _ => .ok []

def readMultiValuesBytes (inner : KeyValueMap) (keys : List Bytes) :
    Except ReadFailure (List (Option Bytes)) := do
  let first ← (readFirstSegments inner keys).mapError .error
  if first.keysAdd.isEmpty then return first.bigValues
  else extendValues first.bigValues first.nBlocks (first.keysAdd.map inner.get)

variable {inner plain : KeyValueMap}

theorem isSome_get_of_represents (h : Represents inner plain) (k : Bytes) :
    (inner.get (k ++ [0, 0, 0, 0])).isSome = (plain.get k).isSome := by
  rw [← getSegmentKey_zero]
  cases hk : plain.get k with
  | none => rw [h.absent k hk]
  | some value =>
    obtain ⟨first, others, -, hstored⟩ := h.present k value hk
    rw [hstored.first]
    rfl

theorem nextSegments_append (others : List Bytes) (rest : List (Option Bytes)) :
    nextSegments others.length (others.map some ++ rest) = .ok (others.flatten, rest) := by
  induction others with
  | nil => rfl
  | cons segment others ih =>
    simp only [List.length_cons, List.map_cons, List.cons_append, nextSegments, ih, Except.ok_bind]
    rfl

/-- The segments of a value are read with the keys that are made from its count. -/
theorem StoredIn.map_get {k first : Bytes} {others : List Bytes}
    (h : StoredIn inner k first others) :
    ((List.range' 1 others.length).map (getSegmentKey k)).map inner.get = others.map some := by
  refine List.ext_getElem? fun i => ?_
  by_cases hi : i < others.length
  · have hget := h.others i others[i] (List.getElem?_eq_getElem hi)
    simp [hi, Nat.add_comm 1 i, hget]
  · simp [hi]

/-- What the first loop collects lets the second one complete the values. -/
theorem readFirstSegments_of_represents (h : Represents inner plain) (ks : List Bytes) :
    ∃ first, readFirstSegments inner ks = .ok first ∧
      (first.keysAdd = [] → first.bigValues = ks.map plain.get) ∧
      extendValues first.bigValues first.nBlocks (first.keysAdd.map inner.get) =
        .ok (ks.map plain.get) := by
  induction ks with
  | nil => exact ⟨_, rfl, fun _ => rfl, rfl⟩
  | cons k ks ih =>
    obtain ⟨rest, hrest, hnone, hextend⟩ := ih
    rw [readFirstSegments, ← getSegmentKey_zero]
    cases hk : plain.get k with
    | none =>
      rw [h.absent k hk]
      simp only [hrest, Except.ok_bind]
      refine ⟨_, rfl, fun hempty => ?_, ?_⟩
      · rw [List.map_cons, hk, ← hnone hempty]
      · rw [extendValues, hextend, Except.ok_bind, List.map_cons, hk]
        rfl
    | some value =>
      obtain ⟨first, others, rfl, hstored⟩ := h.present k value hk
      rw [hstored.first]
      simp only [readCountFromValue_initial hstored.count_lt, hrest, Except.ok_bind, drop_initial,
        Nat.add_sub_cancel]
      refine ⟨_, rfl, fun hempty => ?_, ?_⟩
      · obtain ⟨hothers, hkeys⟩ := List.append_eq_nil_iff.mp hempty
        obtain rfl : others = [] := by simpa using hothers
        rw [List.map_cons, hk, ← hnone hkeys, List.flatten_nil, List.append_nil]
      · rw [List.map_append, hstored.map_get, extendValues, Nat.add_sub_cancel, nextSegments_append,
          Except.ok_bind, hextend, Except.ok_bind, List.map_cons, hk]
        rfl

theorem readMultiValuesBytes_of_represents (h : Represents inner plain) (ks : List Bytes) :
    readMultiValuesBytes inner ks = .ok (ks.map plain.get) := by
  obtain ⟨first, hfirst, hnone, hextend⟩ := readFirstSegments_of_represents h ks
  rw [readMultiValuesBytes, hfirst]
  simp only [Except.mapError_ok, Except.ok_bind]
  split
  · next hempty => rw [← hnone (List.isEmpty_iff.mp hempty)]; rfl
  · exact hextend

/-- An operation on a single key, with a value of less than 2³² segments. -/
def PointWrite (maxValueSize : Nat) : WriteOperation → Prop
  | .delete _ => True
  | .put _ value => (segments maxValueSize value).2.length + 1 < 2 ^ 32
  | .deletePrefix _ => False

instance (maxValueSize : Nat) : DecidablePred (PointWrite maxValueSize)
  | .delete _ => inferInstanceAs (Decidable True)
  | .put _ _ => inferInstanceAs (Decidable (_ < _))
  | .deletePrefix _ => inferInstanceAs (Decidable False)

/-- **Reads of single keys are transparent for all keys.** After any batches of puts and deletes,
the reads of one key and of several keys, with repetitions, return what the plain map holds. -/
theorem point_reads_transparent {maxValueSize : Nat} (hmax : 4 ≤ maxValueSize)
    {batches : List Batch}
    (hwrites : ∀ batch ∈ batches, ∀ op ∈ batch.operations, PointWrite maxValueSize op) :
    let inner := batches.foldl (writeBatch maxValueSize) .empty
    let plain : KeyValueMap := batches.foldl (fun m batch => batch.apply m) .empty
    (∀ k, readValueBytes inner k = .ok (plain.get k)) ∧
      (∀ k, containsKey inner k = (plain.get k).isSome) ∧
      (∀ ks, containsKeys inner ks = ks.map fun k => (plain.get k).isSome) ∧
      ∀ ks, readMultiValuesBytes inner ks = .ok (ks.map plain.get) := by
  intro inner plain
  have hall : ∀ ops : List WriteOperation, (∀ op ∈ ops, PointWrite maxValueSize op) →
      ∀ inner, SplittableAll maxValueSize inner ops := by
    intro ops
    induction ops with
    | nil => exact fun _ _ => trivial
    | cons op ops ih =>
      intro hops inner
      obtain ⟨hop, hops⟩ := List.forall_mem_cons.mp hops
      refine ⟨?_, ih hops _⟩
      cases op with
      | delete key => trivial
      | put key value => exact hop
      | deletePrefix p => exact hop.elim
  have hrep : Represents inner plain :=
    represents_writeBatches hmax (hall _ (List.forall_mem_flatMap.mpr hwrites) _)
  refine ⟨readValueBytes_of_represents hrep, isSome_get_of_represents hrep, fun ks => ?_,
    readMultiValuesBytes_of_represents hrep⟩
  rw [containsKeys, List.map_map]
  exact List.map_congr_left fun k _ => isSome_get_of_represents hrep k

/-- A key that extends another one by the bytes of a segment index, after a long value was
replaced by a short one. -/
theorem point_reads_transparent_extended_key :
    readMultiValuesBytes ([⟨[.put [1] (List.replicate 15 9)]⟩, ⟨[.put [1, 0, 0, 0, 1] [7]]⟩,
      ⟨[.put [1] [8]]⟩].foldl (writeBatch 10) .empty) [[1], [1, 0, 0, 0, 1], [1]] =
        .ok [some [8], some [7], some [8]] :=
  ((point_reads_transparent (by decide) (by decide)).2.2.2 _).trans rfl

end Linera.Views.ValueSplitting
