import Linera.Lib.Bcs
import Linera.Lib.Except
import Linera.Views.Batch

/-!
# The value-splitting store

Stores values of any size in a store that limits them: a value is cut into segments,
and the segment `i` of the value under `key` is stored under `key` followed by the four
bytes of `i`. The first segment carries the number of segments. Old segments are left
behind when a value is deleted or replaced by a smaller one.

Single values are read in any case. Prefixes must not reach into the index of a segment, and
reading all values with a prefix relies on the segments of a value lying next to each other. The
design of the views demands this, since the keys are to be prefix-free.

* `Represents` — when the inner store holds a plain map in segments.
* `represents_apply` — the operations of a batch keep the representation.
* `findKeysByPrefix_iff`, `findKeyValuesByPrefix_eq`, `deletePrefix_iff` — when scanning the inner
  store finds the keys and values of the plain map, and when a deletion acts as on it.
* `splitting_transparent` — prefix reads and prefix deletions after any batches.
-/

namespace Linera.Views

namespace ValueSplitting

inductive ValueSplittingError where
  | tooShortKey
  | missingSegment
  | noCountAvailable
deriving DecidableEq

/-- A `u32` whose order is the order of the bytes: the BCS bytes reversed. -/
def orderedU32 (n : Nat) : Bytes := (Bcs.u32 n).reverse

def readOrderedU32 (bytes : Bytes) : Nat :=
  match Bcs.readU32 bytes.reverse with
  | some (n, _) => n
  | none => 0

def getSegmentKey (key : Bytes) (index : Nat) : Bytes := key ++ orderedU32 index

def getInitialCountFirstChunk (count : Nat) (firstChunk : Bytes) : Bytes :=
  orderedU32 count ++ firstChunk

def readCountFromValue (value : Bytes) : Except ValueSplittingError Nat :=
  if value.length < 4 then .error .noCountAvailable else .ok (readOrderedU32 (value.take 4))

def readIndexFromKey (key : Bytes) : Except ValueSplittingError Nat :=
  if key.length < 4 then .error .tooShortKey
  else .ok (readOrderedU32 (key.drop (key.length - 4)))

/-- Cuts a byte string into chunks of `size` bytes, given a bound on their number. -/
def chunks (size : Nat) : Nat → Bytes → List Bytes
  | 0, _ => []
  | bound + 1, bytes =>
    if bytes = [] then [] else bytes.take size :: chunks size bound (bytes.drop size)

def segments (maxValueSize : Nat) (value : Bytes) : Bytes × List Bytes :=
  if value.length ≤ maxValueSize - 4 then (value, [])
  else
    let remainder := value.drop (maxValueSize - 4)
    (value.take (maxValueSize - 4), chunks maxValueSize remainder.length remainder)

def splitOperation (maxValueSize : Nat) : WriteOperation → List WriteOperation
  | .delete key => [.delete (key ++ [0, 0, 0, 0])]
  | .put key value =>
    let (first, others) := segments maxValueSize value
    (others.mapIdx fun i chunk => .put (getSegmentKey key (i + 1)) chunk) ++
      [.put (getSegmentKey key 0) (getInitialCountFirstChunk (others.length + 1) first)]
  | .deletePrefix keyPrefix => [.deletePrefix keyPrefix]

def writeBatch (maxValueSize : Nat) (inner : KeyValueMap) (batch : Batch) : KeyValueMap :=
  Batch.apply ⟨batch.operations.flatMap (splitOperation maxValueSize)⟩ inner

/-- The loop of `read_value_bytes` over the segments from `index` on. -/
def readSegments (inner : KeyValueMap) (key : Bytes) :
    (index count : Nat) → Except ValueSplittingError Bytes
  | _, 0 => .ok []
  | index, count + 1 =>
    match inner.get (getSegmentKey key index) with
    | none => .error .missingSegment
    | some segment => do
      let others ← readSegments inner key (index + 1) count
      return segment ++ others

def readValueBytes (inner : KeyValueMap) (key : Bytes) :
    Except ValueSplittingError (Option Bytes) :=
  match inner.get (key ++ [0, 0, 0, 0]) with
  | none => .ok none
  | some value => do
    let count ← readCountFromValue value
    let others ← readSegments inner key 1 (count - 1)
    return some (value.drop 4 ++ others)

/-- The loop of `find_keys_by_prefix`. -/
def collectKeys : List Bytes → Except ValueSplittingError (List Bytes)
  | [] => .ok []
  | bigKey :: rest => do
    let index ← readIndexFromKey bigKey
    let keys ← collectKeys rest
    return if index = 0 then bigKey.take (bigKey.length - 4) :: keys else keys

def findKeysByPrefix (inner : KeyValueMap) (keyPrefix : Bytes) :
    Except ValueSplittingError (List Bytes) :=
  collectKeys (contentsUnder keyPrefix inner).keys

/-- A value of which some segments have been read. -/
structure Partial where
  key : Bytes
  bigValue : Bytes
  idx : Nat
  count : Nat

/-- The two nested loops of `find_key_values_by_prefix`: in the inner one, a value is being
read. -/
def collectKeyValues : Option Partial → List (Bytes × Bytes) →
    Except ValueSplittingError (List (Bytes × Bytes))
  | none, [] => .ok []
  | some _, [] => .error .missingSegment
  | none, (bigKey, value) :: rest => do
    let index ← readIndexFromKey bigKey
    -- a leftover segment from an earlier value
    if index ≠ 0 then collectKeyValues none rest
    else
      let key := bigKey.take (bigKey.length - 4)
      let count ← readCountFromValue value
      if 1 < count then collectKeyValues (some ⟨key, value.drop 4, 1, count⟩) rest
      else
        let keyValues ← collectKeyValues none rest
        return (key, value.drop 4) :: keyValues
  | some p, (bigKey, value) :: rest => do
    let index ← readIndexFromKey bigKey
    if index = p.idx ∧ p.key <+: bigKey ∧ bigKey.length = p.key.length + 4 then
      let bigValue := p.bigValue ++ value
      if p.idx + 1 < p.count then
        collectKeyValues (some { p with bigValue := bigValue, idx := p.idx + 1 }) rest
      else
        let keyValues ← collectKeyValues none rest
        return (p.key, bigValue) :: keyValues
    else throw .missingSegment

def findKeyValuesByPrefix (inner : KeyValueMap) (keyPrefix : Bytes) :
    Except ValueSplittingError (List (Bytes × Bytes)) :=
  collectKeyValues none (contentsUnder keyPrefix inner).entries

/-! ## Segment keys -/

@[simp] theorem length_orderedU32 (n : Nat) : (orderedU32 n).length = 4 := rfl

theorem readOrderedU32_orderedU32 {n : Nat} (hn : n < 2 ^ 32) :
    readOrderedU32 (orderedU32 n) = n := by
  have := Bcs.readU32_u32 hn []
  rw [List.append_nil] at this
  rw [readOrderedU32, orderedU32, List.reverse_reverse, this]

theorem orderedU32_injective {m n : Nat} (hm : m < 2 ^ 32) (hn : n < 2 ^ 32)
    (h : orderedU32 m = orderedU32 n) : m = n := by
  rw [← readOrderedU32_orderedU32 hm, h, readOrderedU32_orderedU32 hn]

theorem orderedU32_lt {m n : Nat} (hn : n < 2 ^ 32) (h : m < n) : orderedU32 m < orderedU32 n := by
  simp only [orderedU32, Bcs.u32, List.reverse_cons, List.reverse_nil, List.nil_append,
    List.cons_append, List.cons_lt_cons_iff, UInt8.lt_iff_toNat_lt, ← UInt8.toNat_inj,
    UInt8.toNat_ofNat', List.not_lt_nil, and_false, or_false]
  have hm₂ : m / 256 ^ 2 = m / 256 / 256 := by omega
  have hn₂ : n / 256 ^ 2 = n / 256 / 256 := by omega
  have hm₃ : m / 256 ^ 3 = m / 256 / 256 / 256 := by omega
  have hn₃ : n / 256 ^ 3 = n / 256 / 256 / 256 := by omega
  rw [hm₂, hn₂, hm₃, hn₃]
  -- the numbers differ in the last byte, or already before it
  have hdigit : ∀ {a b : Nat}, a < b → a / 256 < b / 256 ∨ a / 256 = b / 256 ∧ a % 256 < b % 256 := by
    intro a b hab
    omega
  rcases hdigit h with h₁ | ⟨h₁, h⟩
  · rcases hdigit h₁ with h₂ | ⟨h₂, h⟩
    · rcases hdigit h₂ with h₃ | ⟨h₃, h⟩
      · exact .inl (by omega)
      · exact .inr ⟨by rw [h₃], .inl h⟩
    · exact .inr ⟨by rw [h₂], .inr ⟨by rw [h₂], .inl h⟩⟩
  · exact .inr ⟨by rw [h₁], .inr ⟨by rw [h₁], .inr ⟨by rw [h₁], h⟩⟩⟩

theorem getSegmentKey_zero (key : Bytes) : getSegmentKey key 0 = key ++ [0, 0, 0, 0] := rfl

variable {maxValueSize : Nat} {i : Nat} {k k' : Bytes}

theorem getSegmentKey_inj {i j : Nat} (hi : i < 2 ^ 32) (hj : j < 2 ^ 32) :
    getSegmentKey k i = getSegmentKey k' j ↔ k = k' ∧ i = j := by
  constructor
  · intro h
    obtain ⟨hk, hij⟩ := List.append_inj' h (by simp)
    exact ⟨hk, orderedU32_injective hi hj hij⟩
  · rintro ⟨rfl, rfl⟩
    rfl

@[simp] theorem length_getSegmentKey (k : Bytes) (i : Nat) :
    (getSegmentKey k i).length = k.length + 4 := by
  simp [getSegmentKey]

def indexOf (segmentKey : Bytes) : Nat := readOrderedU32 (segmentKey.drop (segmentKey.length - 4))

theorem indexOf_getSegmentKey {k : Bytes} (hi : i < 2 ^ 32) : indexOf (getSegmentKey k i) = i := by
  rw [indexOf, length_getSegmentKey, getSegmentKey, Nat.add_sub_cancel, List.drop_left,
    readOrderedU32_orderedU32 hi]

theorem readIndexFromKey_eq_ok {b : Bytes} :
    readIndexFromKey b = .ok i ↔ 4 ≤ b.length ∧ indexOf b = i := by
  rw [readIndexFromKey]
  split
  · next h => exact ⟨fun h => (nomatch h), fun h' => absurd h'.1 (not_le.mpr h)⟩
  · next h => rw [Except.ok.injEq, and_iff_right (not_lt.mp h), indexOf]

theorem readIndexFromKey_getSegmentKey {k : Bytes} (hi : i < 2 ^ 32) :
    readIndexFromKey (getSegmentKey k i) = .ok i :=
  readIndexFromKey_eq_ok.mpr ⟨by simp, indexOf_getSegmentKey hi⟩

/-- The key to whose value a segment belongs. -/
def keyOf (segmentKey : Bytes) : Bytes := segmentKey.take (segmentKey.length - 4)

theorem take_getSegmentKey (k : Bytes) (i : Nat) :
    (getSegmentKey k i).take ((getSegmentKey k i).length - 4) = k := by
  simp [getSegmentKey]

theorem keyOf_getSegmentKey (k : Bytes) (i : Nat) : keyOf (getSegmentKey k i) = k :=
  take_getSegmentKey k i

/-- A prefix that ends before the index is a prefix of the key. -/
theorem isPrefix_of_length_le {p : Bytes} (h : p <+: getSegmentKey k i)
    (hle : p.length + 4 ≤ (getSegmentKey k i).length) : p <+: k := by
  rw [length_getSegmentKey] at hle
  exact List.prefix_of_prefix_length_le h (List.prefix_append ..) (by omega)

theorem readCountFromValue_initial {count : Nat} (hcount : count < 2 ^ 32) (first : Bytes) :
    readCountFromValue (getInitialCountFirstChunk count first) = .ok count := by
  have htake : (getInitialCountFirstChunk count first).take 4 = orderedU32 count := by
    rw [getInitialCountFirstChunk, ← length_orderedU32 count, List.take_left]
  rw [readCountFromValue, htake, readOrderedU32_orderedU32 hcount, if_neg]
  simp [getInitialCountFirstChunk]

theorem drop_initial (count : Nat) (first : Bytes) :
    (getInitialCountFirstChunk count first).drop 4 = first := by
  rw [getInitialCountFirstChunk, ← length_orderedU32 count, List.drop_left]

theorem zeros_lt {n : Nat} {bytes : Bytes} (h : n < bytes.length) : List.replicate n 0 < bytes := by
  induction n generalizing bytes with
  | zero =>
    cases bytes with
    | nil => cases h
    | cons b bytes => exact List.nil_lt_cons b bytes
  | succ n ih =>
    cases bytes with
    | nil => cases h
    | cons b bytes =>
      rw [List.replicate_succ, List.cons_lt_cons_iff]
      have hrest := ih (Nat.lt_of_succ_lt_succ h)
      obtain hb | hb := (show (0 : UInt8) ≤ b from UInt8.zero_le).lt_or_eq
      · exact .inl hb
      · exact .inr ⟨hb, hrest⟩

/-- The first segments are in the order of the keys. -/
theorem getSegmentKey_zero_lt_iff : getSegmentKey k 0 < getSegmentKey k' 0 ↔ k < k' := by
  have hmono : StrictMono fun k => getSegmentKey k 0 := by
    intro k k' hlt
    by_cases hprefix : k <+: k'
    · obtain ⟨rest, rfl⟩ := hprefix
      dsimp only
      rw [getSegmentKey_zero, getSegmentKey, List.append_assoc, Bytes.append_lt_append_left_iff]
      have hrest : rest ≠ [] := by
        rintro rfl
        exact hlt.ne (List.append_nil k).symm
      refine zeros_lt (n := 4) ?_
      have := List.length_pos_iff.mpr hrest
      rw [List.length_append, length_orderedU32]
      omega
    · exact Bytes.append_lt_append_of_lt hlt hprefix _ _
  exact hmono.lt_iff_lt

/-! ## Segments of values -/

theorem flatten_chunks {size : Nat} (hsize : 0 < size) {bound : Nat} {bytes : Bytes}
    (hbound : bytes.length ≤ bound) : (chunks size bound bytes).flatten = bytes := by
  induction bound generalizing bytes with
  | zero => simp [chunks, List.length_eq_zero_iff.mp (Nat.le_zero.mp hbound)]
  | succ bound ih =>
    rw [chunks]
    split
    · next h => simp [h]
    · next h =>
      have hpos := List.length_pos_iff.mpr h
      rw [List.flatten_cons, ih (by rw [List.length_drop]; omega), List.take_append_drop]

theorem segments_append (hmax : 4 ≤ maxValueSize) (value : Bytes) :
    (segments maxValueSize value).1 ++ (segments maxValueSize value).2.flatten = value := by
  rw [segments]
  split
  · simp
  · rw [flatten_chunks (by omega) le_rfl, List.take_append_drop]

/-- The value under `k` is stored in these segments. -/
structure StoredIn (inner : KeyValueMap) (k first : Bytes) (others : List Bytes) : Prop where
  count_lt : others.length + 1 < 2 ^ 32
  first : inner.get (getSegmentKey k 0) =
    some (getInitialCountFirstChunk (others.length + 1) first)
  others : ∀ i segment, others[i]? = some segment →
    inner.get (getSegmentKey k (i + 1)) = some segment

/-- The inner store holds the plain map in segments; some segments may be left over. -/
structure Represents (inner plain : KeyValueMap) : Prop where
  form : ∀ b value, inner.get b = some value → ∃ k i, i < 2 ^ 32 ∧ b = getSegmentKey k i
  absent : ∀ k, plain.get k = none → inner.get (getSegmentKey k 0) = none
  present : ∀ k value, plain.get k = some value → ∃ first others, value = first ++ others.flatten ∧
    StoredIn inner k first others

section Represents

variable {inner plain : KeyValueMap} {others : List Bytes} {first key value : Bytes}

theorem StoredIn.index_lt (h : StoredIn inner k first others) (hi : i ≤ others.length) :
    i < 2 ^ 32 :=
  (Nat.lt_succ_of_le hi).trans h.count_lt

theorem StoredIn.exists_get (h : StoredIn inner k first others) (hi : i ≤ others.length) :
    ∃ segment, inner.get (getSegmentKey k i) = some segment := by
  cases i with
  | zero => exact ⟨_, h.first⟩
  | succ i => exact ⟨_, h.others i others[i] (List.getElem?_eq_getElem hi)⟩

/-- A change of the inner store that spares the segments of a key spares its value. -/
theorem StoredIn.congr {inner' : KeyValueMap} (h : StoredIn inner k first others)
    (hsame : ∀ i ≤ others.length, ∀ segment, inner.get (getSegmentKey k i) = some segment →
      inner'.get (getSegmentKey k i) = some segment) :
    StoredIn inner' k first others :=
  ⟨h.count_lt, hsame 0 (Nat.zero_le _) _ h.first, fun i segment hi =>
    hsame (i + 1) (List.getElem?_eq_some_iff.mp hi).1 _ (h.others i segment hi)⟩

/-- The number of segments of the value under a key. -/
def segmentCount (inner : KeyValueMap) (key : Bytes) : Nat :=
  ((inner.get (getSegmentKey key 0)).bind fun value => (readCountFromValue value).toOption).getD 0

/-- The stored segments that belong to values; the other ones are left over. -/
def liveSegments (inner : KeyValueMap) : List Bytes :=
  inner.keys.filter fun b => indexOf b < segmentCount inner (keyOf b)

theorem StoredIn.segmentCount_eq (h : StoredIn inner k first others) :
    segmentCount inner k = others.length + 1 := by
  rw [segmentCount, h.first, Option.bind_some, readCountFromValue_initial h.count_lt]
  rfl

theorem Represents.mem_liveSegments (h : Represents inner plain) {b : Bytes} :
    b ∈ liveSegments inner ↔ ∃ k first others i, StoredIn inner k first others ∧
      i ≤ others.length ∧ b = getSegmentKey k i := by
  rw [liveSegments, List.mem_filter, decide_eq_true_eq, BTreeMap.mem_keys_iff]
  constructor
  · rintro ⟨hb, hlt⟩
    obtain ⟨value, hvalue⟩ := Option.isSome_iff_exists.mp hb
    obtain ⟨k, i, hi, rfl⟩ := h.form _ _ hvalue
    rw [indexOf_getSegmentKey hi, keyOf_getSegmentKey] at hlt
    cases hk : plain.get k with
    | none =>
      rw [segmentCount, h.absent k hk] at hlt
      exact absurd hlt (Nat.not_lt_zero _)
    | some v =>
      obtain ⟨first, others, -, hstored⟩ := h.present k v hk
      rw [hstored.segmentCount_eq] at hlt
      exact ⟨k, first, others, i, hstored, Nat.le_of_lt_succ hlt, rfl⟩
  · rintro ⟨k, first, others, i, hstored, hi, rfl⟩
    obtain ⟨segment, hsegment⟩ := hstored.exists_get hi
    rw [indexOf_getSegmentKey (hstored.index_lt hi), keyOf_getSegmentKey, hstored.segmentCount_eq,
      hsegment]
    exact ⟨rfl, Nat.lt_succ_of_le hi⟩

/-- The prefix selects the segments of whole keys: it does not reach into the index of one. -/
def SelectsKeys (segmentKeys : List Bytes) (p : Bytes) : Prop :=
  ∀ b ∈ segmentKeys, p <+: b → p.length + 4 ≤ b.length

instance (segmentKeys : List Bytes) : DecidablePred (SelectsKeys segmentKeys) := fun p =>
  inferInstanceAs (Decidable (∀ b ∈ segmentKeys, p <+: b → p.length + 4 ≤ b.length))

/-- What an operation needs so that splitting does not confuse it: a value has less than 2³²
segments, and a prefix that is deleted selects whole keys, as far as values are concerned. -/
def Splittable (maxValueSize : Nat) (inner : KeyValueMap) : WriteOperation → Prop
  | .delete _ => True
  | .put _ value => (segments maxValueSize value).2.length + 1 < 2 ^ 32
  | .deletePrefix keyPrefix => SelectsKeys (liveSegments inner) keyPrefix

instance (maxValueSize : Nat) (inner : KeyValueMap) : DecidablePred (Splittable maxValueSize inner)
  | .delete _ => inferInstanceAs (Decidable True)
  | .put _ _ => inferInstanceAs (Decidable (_ < _))
  | .deletePrefix p => inferInstanceAs (Decidable (SelectsKeys (liveSegments inner) p))

/-- Every operation is splittable on the store that the ones before it leave. -/
def SplittableAll (maxValueSize : Nat) : KeyValueMap → List WriteOperation → Prop
  | _, [] => True
  | inner, op :: ops => Splittable maxValueSize inner op ∧
      SplittableAll maxValueSize (Batch.apply ⟨splitOperation maxValueSize op⟩ inner) ops

instance decidableSplittableAll (maxValueSize : Nat) : (inner : KeyValueMap) →
    (ops : List WriteOperation) → Decidable (SplittableAll maxValueSize inner ops)
  | _, [] => .isTrue trivial
  | inner, op :: ops =>
    have := decidableSplittableAll maxValueSize
      (Batch.apply ⟨splitOperation maxValueSize op⟩ inner) ops
    inferInstanceAs (Decidable (_ ∧ _))

theorem represents_delete (h : Represents inner plain) (key : Bytes) :
    Represents (inner.remove (getSegmentKey key 0)) (plain.remove key) := by
  have hother : ∀ {k i}, i < 2 ^ 32 → k ≠ key →
      (inner.remove (getSegmentKey key 0)).get (getSegmentKey k i) =
        inner.get (getSegmentKey k i) := fun {k i} hi hk => by
    rw [BTreeMap.get_remove, if_neg]
    exact fun heq => hk ((getSegmentKey_inj hi (by decide)).mp heq).1
  refine ⟨fun b value hb => ?_, fun k hk => ?_, fun k value hk => ?_⟩
  · rw [BTreeMap.get_remove] at hb
    split at hb
    · cases hb
    · exact h.form b value hb
  · by_cases hkey : k = key
    · subst hkey
      rw [BTreeMap.get_remove, if_pos rfl]
    · rw [hother (by decide) hkey]
      rw [BTreeMap.get_remove, if_neg hkey] at hk
      exact h.absent k hk
  · rw [BTreeMap.get_remove] at hk
    split at hk
    · cases hk
    · next hkey =>
      obtain ⟨first, others, hvalue, hstored⟩ := h.present k value hk
      exact ⟨first, others, hvalue, hstored.congr fun i hi _ h =>
        (hother (hstored.index_lt hi) hkey).trans h⟩

theorem represents_deletePrefix (h : Represents inner plain) {p : Bytes}
    (hp : SelectsKeys (liveSegments inner) p) :
    Represents ((WriteOperation.deletePrefix p).apply inner)
      ((WriteOperation.deletePrefix p).apply plain) := by
  refine ⟨fun b value hb => ?_, fun k hk => ?_, fun k value hk => ?_⟩
  all_goals rw [WriteOperation.get_apply, WriteOperation.applyAt] at *
  · split at hb
    · cases hb
    · exact h.form b value hb
  · by_cases hpk : p <+: k
    · exact if_pos (hpk.trans (List.prefix_append ..))
    · rw [if_neg hpk] at hk
      rw [h.absent k hk, ite_self]
  · split at hk
    · cases hk
    · next hpk =>
      obtain ⟨first, others, hvalue, hstored⟩ := h.present k value hk
      refine ⟨first, others, hvalue, hstored.congr fun i hi segment hsegment => ?_⟩
      rw [WriteOperation.get_apply, WriteOperation.applyAt, if_neg]
      · exact hsegment
      · intro hprefix
        have hlive := h.mem_liveSegments.mpr ⟨k, first, others, i, hstored, hi, rfl⟩
        exact hpk (isPrefix_of_length_le hprefix (hp _ hlive hprefix))

/-- The segment `j` of a value, as it is stored. -/
def segment? (first : Bytes) (others : List Bytes) : Nat → Option Bytes
  | 0 => some (getInitialCountFirstChunk (others.length + 1) first)
  | i + 1 => others[i]?

theorem mem_splitOperation_put {op : WriteOperation} :
    op ∈ splitOperation maxValueSize (.put key value) ↔ ∃ j x,
      segment? (segments maxValueSize value).1 (segments maxValueSize value).2 j = some x ∧
        op = .put (getSegmentKey key j) x := by
  generalize hsegments : segments maxValueSize value = s
  obtain ⟨first, others⟩ := s
  simp only [splitOperation, hsegments, List.mem_append, List.mem_mapIdx, List.mem_singleton]
  constructor
  · rintro (⟨i, hi, rfl⟩ | rfl)
    · exact ⟨i + 1, others[i], by simp [segment?, hi], rfl⟩
    · exact ⟨0, _, rfl, rfl⟩
  · rintro ⟨j, x, hj, rfl⟩
    cases j with
    | zero =>
      cases hj
      exact .inr rfl
    | succ i =>
      obtain ⟨hi, rfl⟩ := List.getElem?_eq_some_iff.mp hj
      exact .inl ⟨i, hi, rfl⟩

theorem segment?_lt {x : Bytes} {j : Nat} (hj : segment? first others j = some x) :
    j < others.length + 1 := by
  cases j with
  | zero => exact Nat.succ_pos _
  | succ i => exact Nat.succ_lt_succ (List.getElem?_eq_some_iff.mp hj).1

/-- What putting a value leaves under the segment keys. -/
theorem get_apply_split_put (hcount : (segments maxValueSize value).2.length + 1 < 2 ^ 32) :
    (∀ j x, segment? (segments maxValueSize value).1 (segments maxValueSize value).2 j = some x →
      (Batch.apply ⟨splitOperation maxValueSize (.put key value)⟩ inner).get
        (getSegmentKey key j) = some x) ∧
      ∀ b, (∀ j x, segment? (segments maxValueSize value).1 (segments maxValueSize value).2 j =
          some x → b ≠ getSegmentKey key j) →
        (Batch.apply ⟨splitOperation maxValueSize (.put key value)⟩ inner).get b =
          inner.get b := by
  refine ⟨fun j x hj => ?_, fun b hb => ?_⟩
  · rw [Batch.get_apply]
    refine Batch.applyAt_of_put (mem_splitOperation_put.mpr ⟨j, x, hj, rfl⟩) fun op hop ht => ?_
    obtain ⟨j', x', hj', rfl⟩ := mem_splitOperation_put.mp hop
    obtain ⟨-, rfl⟩ := (getSegmentKey_inj ((segment?_lt hj).trans hcount)
      ((segment?_lt hj').trans hcount)).mp ht
    rw [Option.some.inj (hj.symm.trans hj')]
  · rw [Batch.get_apply, Batch.applyAt_of_not_touches]
    intro op hop ht
    obtain ⟨j, x, hj, rfl⟩ := mem_splitOperation_put.mp hop
    exact hb j x hj ht

theorem represents_put (hmax : 4 ≤ maxValueSize) (h : Represents inner plain)
    (hcount : (segments maxValueSize value).2.length + 1 < 2 ^ 32) :
    Represents (Batch.apply ⟨splitOperation maxValueSize (.put key value)⟩ inner)
      (plain.insert key value) := by
  obtain ⟨hput, hother⟩ := @get_apply_split_put maxValueSize inner key value hcount
  have hother' : ∀ {k i}, i < 2 ^ 32 → k ≠ key → _ = inner.get (getSegmentKey k i) :=
    fun {k i} hi hk => hother (getSegmentKey k i) fun j x hj heq =>
      hk ((getSegmentKey_inj hi ((segment?_lt hj).trans hcount)).mp heq).1
  refine ⟨fun b v hb => ?_, fun k hk => ?_, fun k v hk => ?_⟩
  · by_cases hseg : ∃ j x, segment? (segments maxValueSize value).1
        (segments maxValueSize value).2 j = some x ∧ b = getSegmentKey key j
    · obtain ⟨j, x, hj, rfl⟩ := hseg
      exact ⟨key, j, (segment?_lt hj).trans hcount, rfl⟩
    · rw [hother b fun j x hj heq => hseg ⟨j, x, hj, heq⟩] at hb
      exact h.form b v hb
  · rw [BTreeMap.get_insert] at hk
    split at hk
    · cases hk
    · next hne =>
      rw [hother' (by decide) hne]
      exact h.absent k hk
  · rw [BTreeMap.get_insert] at hk
    split at hk
    · next heq =>
      obtain rfl := heq
      cases hk
      exact ⟨_, _, (segments_append hmax value).symm, hcount, hput 0 _ rfl,
        fun i segment hi => hput (i + 1) segment hi⟩
    · next hne =>
      obtain ⟨first, others, hvalue, hstored⟩ := h.present k v hk
      exact ⟨first, others, hvalue, hstored.congr fun i hi _ h =>
        (hother' (hstored.index_lt hi) hne).trans h⟩

/-- **An operation keeps the representation.** -/
theorem represents_apply (hmax : 4 ≤ maxValueSize) (h : Represents inner plain)
    {op : WriteOperation} (hop : Splittable maxValueSize inner op) :
    Represents (Batch.apply ⟨splitOperation maxValueSize op⟩ inner) (op.apply plain) := by
  cases op with
  | delete key => exact represents_delete h key
  | put key value => exact represents_put hmax h hop
  | deletePrefix p => exact represents_deletePrefix h hop

theorem represents_operations (hmax : 4 ≤ maxValueSize) (h : Represents inner plain)
    {ops : List WriteOperation} (hops : SplittableAll maxValueSize inner ops) :
    Represents (Batch.apply ⟨ops.flatMap (splitOperation maxValueSize)⟩ inner)
      (Batch.apply ⟨ops⟩ plain) := by
  induction ops generalizing inner plain with
  | nil => exact h
  | cons op ops ih =>
    rw [List.flatMap_cons, Batch.apply_append]
    exact ih (represents_apply hmax h hops.1) hops.2

theorem foldl_apply (f : Batch → List WriteOperation) (batches : List Batch) (m : KeyValueMap) :
    batches.foldl (fun m batch => Batch.apply ⟨f batch⟩ m) m =
      Batch.apply ⟨batches.flatMap f⟩ m := by
  induction batches generalizing m with
  | nil => rfl
  | cons batch batches ih => rw [List.foldl_cons, ih, List.flatMap_cons, Batch.apply_append]

theorem represents_writeBatches (hmax : 4 ≤ maxValueSize) {batches : List Batch}
    (h : SplittableAll maxValueSize .empty (batches.flatMap (·.operations))) :
    Represents (batches.foldl (writeBatch maxValueSize) .empty)
      (batches.foldl (fun m batch => batch.apply m) .empty) := by
  have hempty : Represents .empty .empty := ⟨by simp, by simp, by simp⟩
  have hall := represents_operations hmax hempty h
  rw [List.flatMap_assoc, ← foldl_apply, ← foldl_apply] at hall
  exact hall

/-! ## Reading -/

theorem readSegments_of_stored {k : Bytes} {rest : List Bytes} {index : Nat}
    (h : ∀ i segment, rest[i]? = some segment →
      inner.get (getSegmentKey k (index + i)) = some segment) :
    readSegments inner k index rest.length = .ok rest.flatten := by
  induction rest generalizing index with
  | nil => rfl
  | cons segment rest ih =>
    have hrest : readSegments inner k (index + 1) rest.length = .ok rest.flatten :=
      ih fun i s hi => by
        have := h (i + 1) s (by simpa using hi)
        rwa [show index + (i + 1) = index + 1 + i by omega] at this
    have hfirst : inner.get (getSegmentKey k index) = some segment := h 0 segment rfl
    simp only [List.length_cons, readSegments, hfirst, hrest, Except.ok_bind, List.flatten_cons]
    rfl

theorem readValueBytes_of_represents (h : Represents inner plain) (k : Bytes) :
    readValueBytes inner k = .ok (plain.get k) := by
  rw [readValueBytes, ← getSegmentKey_zero]
  cases hk : plain.get k with
  | none => rw [h.absent k hk]
  | some value =>
    obtain ⟨first, others, rfl, hstored⟩ := h.present k value hk
    have hothers : readSegments inner k 1 (others.length + 1 - 1) = .ok others.flatten :=
      readSegments_of_stored fun i segment hi => by
        rw [Nat.add_comm]
        exact hstored.others i segment hi
    simp only [hstored.first, readCountFromValue_initial hstored.count_lt, Except.ok_bind, hothers,
      drop_initial]
    rfl

theorem isSome_of_readSegments {k bytes : Bytes} {index count : Nat}
    (h : readSegments inner k index count = .ok bytes) (hi : i < count) :
    (inner.get (getSegmentKey k (index + i))).isSome := by
  induction count generalizing index i bytes with
  | zero => exact absurd hi (Nat.not_lt_zero _)
  | succ count ih =>
    rw [readSegments] at h
    split at h
    · cases h
    · next segment hsegment =>
      obtain ⟨others, hothers, -⟩ := Except.bind_eq_ok.mp h
      cases i with
      | zero =>
        rw [Nat.add_zero, hsegment]
        rfl
      | succ i =>
        rw [show index + (i + 1) = index + 1 + i by omega]
        exact ih hothers (Nat.lt_of_succ_lt_succ hi)

/-- Deleting a prefix acts as on the plain map exactly if it selects whole keys, among the segments
of the values. -/
theorem deletePrefix_iff (h : Represents inner plain) (p : Bytes) :
    (∀ k, readValueBytes ((WriteOperation.deletePrefix p).apply inner) k =
      .ok (if p <+: k then none else plain.get k)) ↔ SelectsKeys (liveSegments inner) p := by
  constructor
  · intro hread b hb hprefix
    obtain ⟨k, first, others, i, hstored, hi, rfl⟩ := h.mem_liveSegments.mp hb
    by_contra hlt
    rw [length_getSegmentKey] at hlt
    have hpk : ¬p <+: k := fun hpk => hlt (Nat.add_le_add_right hpk.length_le 4)
    -- The value is still there in the plain map, but one of its segments is missing.
    have hk := hread k
    rw [if_neg hpk, readValueBytes, ← getSegmentKey_zero] at hk
    have hgone : ((WriteOperation.deletePrefix p).apply inner).get (getSegmentKey k i) = none := by
      rw [WriteOperation.get_apply, WriteOperation.applyAt, if_pos hprefix]
    split at hk
    · have hnone := h.absent k (Except.ok.inj hk).symm
      rw [hstored.first] at hnone
      cases hnone
    · next value hvalue =>
      obtain ⟨count, hcount, hk⟩ := Except.bind_eq_ok.mp hk
      obtain ⟨bytes, hbytes, -⟩ := Except.bind_eq_ok.mp hk
      cases i with
      | zero => cases hgone.symm.trans hvalue
      | succ i =>
        rw [WriteOperation.get_apply, WriteOperation.applyAt, hstored.first] at hvalue
        split at hvalue
        · cases hvalue
        · cases hvalue
          rw [readCountFromValue_initial hstored.count_lt] at hcount
          cases hcount
          have hsome := isSome_of_readSegments hbytes hi
          rw [Nat.add_comm, hgone] at hsome
          cases hsome
  · intro hp k
    rw [readValueBytes_of_represents (represents_deletePrefix h hp), WriteOperation.get_apply]
    rfl

theorem selectsKeys_of_length_le {p : Bytes}
    (h : ∀ b ∈ (contentsUnder p inner).keys, 4 ≤ b.length) : SelectsKeys inner.keys p := by
  rintro _ hb ⟨rest, rfl⟩
  rw [List.length_append]
  exact Nat.add_le_add_left (h rest (mem_keys_contentsUnder.mpr hb)) _

theorem append_getSegmentKey (p k : Bytes) (i : Nat) :
    p ++ getSegmentKey k i = getSegmentKey (p ++ k) i :=
  (List.append_assoc ..).symm

theorem storedIn_contentsUnder {p : Bytes} :
    StoredIn (contentsUnder p inner) k first others ↔ StoredIn inner (p ++ k) first others := by
  have hget : ∀ i, (contentsUnder p inner).get (getSegmentKey k i) =
      inner.get (getSegmentKey (p ++ k) i) := fun i => by
    rw [get_contentsUnder, append_getSegmentKey]
  constructor
  · rintro ⟨hcount, hfirst, hothers⟩
    exact ⟨hcount, (hget 0).symm.trans hfirst, fun i s hi => (hget _).symm.trans (hothers i s hi)⟩
  · rintro ⟨hcount, hfirst, hothers⟩
    exact ⟨hcount, (hget 0).trans hfirst, fun i s hi => (hget _).trans (hothers i s hi)⟩

/-- What lies under a prefix that selects whole keys is represented by itself. -/
theorem Represents.under (h : Represents inner plain) {p : Bytes} (hp : SelectsKeys inner.keys p) :
    Represents (contentsUnder p inner) (contentsUnder p plain) := by
  refine ⟨fun b value hb => ?_, fun k hk => ?_, fun k value hk => ?_⟩
  · rw [get_contentsUnder] at hb
    obtain ⟨k, i, hi, heq⟩ := h.form _ _ hb
    have hprefix : p <+: getSegmentKey k i := heq ▸ List.prefix_append ..
    have hmem : getSegmentKey k i ∈ inner.keys := by
      rw [BTreeMap.mem_keys_iff, ← heq, hb]
      rfl
    obtain ⟨rest, rfl⟩ := isPrefix_of_length_le hprefix (hp _ hmem hprefix)
    rw [← append_getSegmentKey] at heq
    exact ⟨rest, i, hi, List.append_cancel_left heq⟩
  · rw [get_contentsUnder] at hk ⊢
    rw [append_getSegmentKey]
    exact h.absent _ hk
  · rw [get_contentsUnder] at hk
    obtain ⟨first, others, hvalue, hstored⟩ := h.present _ value hk
    exact ⟨first, others, hvalue, storedIn_contentsUnder.mpr hstored⟩

/-- Nothing is stored between two consecutive segments of a value whose key has the prefix. -/
def Contiguous (inner : KeyValueMap) (p : Bytes) : Prop :=
  ∀ b ∈ liveSegments inner, p <+: b → indexOf b ≠ 0 →
    ∀ b' ∈ inner.keys, b' < b → b' ≤ getSegmentKey (keyOf b) (indexOf b - 1)

instance (inner : KeyValueMap) : DecidablePred (Contiguous inner) := fun p =>
  inferInstanceAs (Decidable (∀ b ∈ liveSegments inner, p <+: b → indexOf b ≠ 0 →
    ∀ b' ∈ inner.keys, b' < b → b' ≤ getSegmentKey (keyOf b) (indexOf b - 1)))

/-- Nothing is stored between two consecutive segments of a value. -/
def Adjacent (inner : KeyValueMap) : Prop :=
  ∀ k first others, StoredIn inner k first others → ∀ i < others.length, ∀ b ∈ inner.keys,
    b < getSegmentKey k (i + 1) → b ≤ getSegmentKey k i

theorem Contiguous.adjacent {p : Bytes} (hcontiguous : Contiguous inner p)
    (h : Represents inner plain) : Adjacent (contentsUnder p inner) := by
  intro k first others hstored i hi b hb hlt
  rw [storedIn_contentsUnder] at hstored
  have hindex : i + 1 < 2 ^ 32 := hstored.index_lt hi
  have hle := hcontiguous (getSegmentKey (p ++ k) (i + 1))
    (h.mem_liveSegments.mpr ⟨p ++ k, first, others, i + 1, hstored, hi, rfl⟩)
    (append_getSegmentKey p k _ ▸ List.prefix_append ..)
    (by rw [indexOf_getSegmentKey hindex]; exact Nat.succ_ne_zero i) (p ++ b)
    (mem_keys_contentsUnder.mp hb)
    (append_getSegmentKey p k _ ▸ (Bytes.append_lt_append_left_iff _ _ _).mpr hlt)
  rw [keyOf_getSegmentKey, indexOf_getSegmentKey hindex, Nat.add_sub_cancel,
    ← append_getSegmentKey] at hle
  exact (Bytes.append_le_append_left_iff _ _ _).mp hle

theorem collectKeys_spec {l : List Bytes} (hl : l.Pairwise (· < ·))
    (hform : ∀ b ∈ l, ∃ k, ∃ i < 2 ^ 32, b = getSegmentKey k i) :
    ∃ found, collectKeys l = .ok found ∧ found.Pairwise (· < ·) ∧
      ∀ k, k ∈ found ↔ getSegmentKey k 0 ∈ l := by
  induction l with
  | nil => exact ⟨[], rfl, List.Pairwise.nil, by simp⟩
  | cons b l ih =>
    obtain ⟨hlt, hl⟩ := List.pairwise_cons.mp hl
    obtain ⟨found, hfound, hsorted, hmem⟩ := ih hl fun b' hb' => hform b' (by simp [hb'])
    obtain ⟨k, i, hi, rfl⟩ := hform b (by simp)
    have hstep : collectKeys (getSegmentKey k i :: l) =
        .ok (if i = 0 then k :: found else found) := by
      simp only [collectKeys, readIndexFromKey_getSegmentKey hi, Except.ok_bind, hfound,
        take_getSegmentKey]
      rfl
    refine ⟨_, hstep, ?_⟩
    rcases Nat.eq_zero_or_pos i with rfl | hpos
    · rw [if_pos rfl]
      refine ⟨List.pairwise_cons.mpr ⟨fun k' hk' => ?_, hsorted⟩, fun k' => ?_⟩
      · exact getSegmentKey_zero_lt_iff.mp (hlt _ ((hmem k').mp hk'))
      · rw [List.mem_cons, List.mem_cons, hmem, getSegmentKey_inj (by decide) (by decide)]
        simp
    · rw [if_neg hpos.ne']
      refine ⟨hsorted, fun k' => ?_⟩
      rw [List.mem_cons, hmem, getSegmentKey_inj (by decide) hi]
      simp [hpos.ne]

/-- Scanning the keys of the inner store finds the keys of the plain map. -/
theorem collectKeys_of_represents (h : Represents inner plain) :
    collectKeys inner.keys = .ok plain.keys := by
  obtain ⟨found, hfound, hsorted, hmem⟩ := collectKeys_spec inner.pairwise_keys
    fun b hb => by
      obtain ⟨value, hvalue⟩ := Option.isSome_iff_exists.mp ((BTreeMap.mem_keys_iff _ _).mp hb)
      exact h.form b value hvalue
  rw [hfound, hsorted.eq_of_mem_iff plain.pairwise_keys]
  intro k
  rw [hmem, BTreeMap.mem_keys_iff, BTreeMap.mem_keys_iff]
  cases hk : plain.get k with
  | none => simp [h.absent k hk]
  | some value =>
    obtain ⟨first, others, -, hstored⟩ := h.present k value hk
    simp [hstored.first]

/-- The entries of the plain map whose first segment is in `l`, in order. -/
structure FoundIn (plain : KeyValueMap) (l found : List (Bytes × Bytes)) : Prop where
  sorted : found.Pairwise fun a b => a.1 < b.1
  mem : ∀ k value, (k, value) ∈ found ↔
    getSegmentKey k 0 ∈ l.map Prod.fst ∧ plain.get k = some value

theorem FoundIn.skip {l found : List (Bytes × Bytes)} (h : FoundIn plain l found) {k segment : Bytes}
    (hi : i + 1 < 2 ^ 32) : FoundIn plain ((getSegmentKey k (i + 1), segment) :: l) found := by
  refine ⟨h.sorted, fun k' value => ?_⟩
  rw [h.mem, List.map_cons, List.mem_cons, getSegmentKey_inj (by decide) hi]
  simp

theorem FoundIn.cons {l found : List (Bytes × Bytes)} (h : FoundIn plain l found)
    {k value segment : Bytes} (hvalue : plain.get k = some value)
    (hlt : ∀ e ∈ l, getSegmentKey k 0 < e.1) :
    FoundIn plain ((getSegmentKey k 0, segment) :: l) ((k, value) :: found) := by
  refine ⟨List.pairwise_cons.mpr ⟨?_, h.sorted⟩, fun k' value' => ?_⟩
  · rintro ⟨k', value'⟩ hk'
    obtain ⟨hmem, -⟩ := (h.mem k' value').mp hk'
    obtain ⟨e, he, heq⟩ := List.mem_map.mp hmem
    exact getSegmentKey_zero_lt_iff.mp (heq ▸ hlt e he)
  · rw [List.mem_cons, h.mem, List.map_cons, List.mem_cons,
      getSegmentKey_inj (by decide) (by decide), Prod.mk.injEq]
    constructor
    · rintro (⟨rfl, rfl⟩ | ⟨hmem, hget⟩)
      · exact ⟨.inl ⟨rfl, rfl⟩, hvalue⟩
      · exact ⟨.inr hmem, hget⟩
    · rintro ⟨⟨rfl, -⟩ | hmem, hget⟩
      · rw [hvalue] at hget
        exact .inl ⟨rfl, (Option.some.inj hget).symm⟩
      · exact .inr ⟨hmem, hget⟩

/-- The outer loop finds the values whose first segment is in `l`. -/
def OuterLoop (plain : KeyValueMap) (l : List (Bytes × Bytes)) : Prop :=
  ∃ found, collectKeyValues none l = .ok found ∧ FoundIn plain l found

/-- The inner loop, with the segments up to `i` read, completes the value and goes on. -/
def InnerLoop (plain : KeyValueMap) (k first : Bytes) (others : List Bytes) (i : Nat)
    (l : List (Bytes × Bytes)) : Prop :=
  ∃ found, collectKeyValues
      (some ⟨k, first ++ (others.take i).flatten, i + 1, others.length + 1⟩) l =
        .ok ((k, first ++ others.flatten) :: found) ∧ FoundIn plain l found

theorem outerLoop_cons (h : Represents inner plain) {b value : Bytes}
    {rest : List (Bytes × Bytes)} (hb : inner.get b = some value) (hlt : ∀ e ∈ rest, b < e.1)
    (hrest : OuterLoop plain rest)
    (hinner : ∀ k first others, b = getSegmentKey k 0 → StoredIn inner k first others →
      others ≠ [] → InnerLoop plain k first others 0 rest) :
    OuterLoop plain ((b, value) :: rest) := by
  obtain ⟨k, i, hi, rfl⟩ := h.form _ _ hb
  obtain ⟨found, hfound, hfoundIn⟩ := hrest
  cases i with
  | succ i =>
    refine ⟨found, ?_, hfoundIn.skip hi⟩
    simp only [collectKeyValues, readIndexFromKey_getSegmentKey hi, Except.ok_bind]
    exact hfound
  | zero =>
    obtain ⟨v, hv⟩ : ∃ v, plain.get k = some v := by
      cases hk : plain.get k with
      | none => simp [h.absent k hk] at hb
      | some v => exact ⟨v, rfl⟩
    obtain ⟨first, others, rfl, hstored⟩ := h.present k v hv
    obtain rfl : getInitialCountFirstChunk (others.length + 1) first = value :=
      Option.some.inj (hstored.first.symm.trans hb)
    by_cases hothers : others = []
    · subst hothers
      refine ⟨(k, first) :: found, ?_, ?_⟩
      · simp only [collectKeyValues, readIndexFromKey_getSegmentKey hi, Except.ok_bind,
          readCountFromValue_initial hstored.count_lt, take_getSegmentKey, drop_initial, hfound]
        rfl
      · simpa using hfoundIn.cons hv hlt
    · obtain ⟨found', hfound', hfoundIn'⟩ := hinner k first others rfl hstored hothers
      refine ⟨_, ?_, hfoundIn'.cons hv hlt⟩
      have hcount : 1 < others.length + 1 := by
        have := List.length_pos_iff.mpr hothers
        omega
      simp only [collectKeyValues, readIndexFromKey_getSegmentKey hi, Except.ok_bind,
        readCountFromValue_initial hstored.count_lt, take_getSegmentKey, drop_initial, hcount,
        if_true, ne_eq, not_true_eq_false, if_false]
      simpa using hfound'

theorem innerLoop_cons {segment : Bytes} {rest : List (Bytes × Bytes)}
    (hsegment : others[i]? = some segment) (hi : i + 1 < 2 ^ 32) (hrest : OuterLoop plain rest)
    (hinner : i + 1 < others.length → InnerLoop plain k first others (i + 1) rest) :
    InnerLoop plain k first others i ((getSegmentKey k (i + 1), segment) :: rest) := by
  obtain ⟨hlt, hget⟩ := List.getElem?_eq_some_iff.mp hsegment
  have htake : (others.take i).flatten ++ segment = (others.take (i + 1)).flatten := by
    rw [List.take_add_one, hsegment]
    simp
  have hcheck : k <+: getSegmentKey k (i + 1) ∧ (getSegmentKey k (i + 1)).length = k.length + 4 :=
    ⟨List.prefix_append .., length_getSegmentKey ..⟩
  by_cases hmore : i + 1 < others.length
  · obtain ⟨found, hfound, hfoundIn⟩ := hinner hmore
    refine ⟨found, ?_, hfoundIn.skip hi⟩
    simp only [collectKeyValues, readIndexFromKey_getSegmentKey hi, Except.ok_bind, hcheck,
      true_and, if_true, List.append_assoc, htake]
    rw [if_pos (by omega)]
    exact hfound
  · obtain ⟨found, hfound, hfoundIn⟩ := hrest
    refine ⟨found, ?_, hfoundIn.skip hi⟩
    have hall : others.take (i + 1) = others := List.take_of_length_le (by omega)
    simp only [collectKeyValues, readIndexFromKey_getSegmentKey hi, Except.ok_bind, hcheck,
      true_and, if_true, List.append_assoc, htake, hall]
    rw [if_neg (by omega), hfound]
    rfl

/-- Both loops, on what is left of the entries of the inner store. The segments of a value that
is being read come next, since nothing lies between them. -/
theorem loops_of_represents (hadjacent : Adjacent inner) (h : Represents inner plain)
    {before l : List (Bytes × Bytes)} (hsplit : inner.entries = before ++ l) :
    OuterLoop plain l ∧ ∀ k first others i, StoredIn inner k first others → i < others.length →
      getSegmentKey k i ∈ before.map Prod.fst → (∀ e ∈ before, e.1 ≤ getSegmentKey k i) →
        InnerLoop plain k first others i l := by
  have hget : ∀ {b value}, (b, value) ∈ inner.entries ↔ inner.get b = some value :=
    BTreeMap.mem_entries_iff inner _ _
  induction l generalizing before with
  | nil =>
    refine ⟨⟨[], rfl, List.Pairwise.nil, by simp⟩, fun k first others i hstored hi _ hle => ?_⟩
    -- the next segment is in the store, but not before
    have hnext := hget.mpr (hstored.others i others[i] (List.getElem?_eq_getElem hi))
    rw [hsplit, List.append_nil] at hnext
    have hlt : getSegmentKey k i < getSegmentKey k (i + 1) :=
      (Bytes.append_lt_append_left_iff _ _ _).mpr (orderedU32_lt
        (hstored.index_lt hi) (by omega))
    exact absurd (hle _ hnext) (not_le.mpr hlt)
  | cons e rest ih =>
    obtain ⟨b, value⟩ := e
    have hsorted := inner.sorted
    rw [hsplit] at hsorted
    obtain ⟨-, hsorted', hcross⟩ := List.pairwise_append.mp hsorted
    obtain ⟨hlt, -⟩ := List.pairwise_cons.mp hsorted'
    have hb : inner.get b = some value := hget.mp (by simp [hsplit])
    have hbefore : ∀ e ∈ before ++ [(b, value)], e.1 ≤ b := by
      intro e he
      rcases List.mem_append.mp he with he | he
      · exact (hcross e he (b, value) (by simp)).le
      · rw [List.mem_singleton.mp he]
    obtain ⟨houter, hinner⟩ := @ih (before ++ [(b, value)]) (by simp [hsplit])
    refine ⟨outerLoop_cons h hb hlt houter fun k first others hbk hstored hne => ?_,
      fun k first others i hstored hi hmem hle => ?_⟩
    · exact hinner k first others 0 hstored (List.length_pos_iff.mpr hne) (by simp [hbk])
        (hbk ▸ hbefore)
    · have hsegment := List.getElem?_eq_getElem hi
      have hbound := hstored.index_lt hi
      -- the next entry is the next segment
      have hnext : (getSegmentKey k (i + 1), others[i]) ∈ (b, value) :: rest := by
        have hmem' := hget.mpr (hstored.others i others[i] hsegment)
        rw [hsplit, List.mem_append] at hmem'
        refine hmem'.resolve_left fun hin => absurd (hle _ hin) (not_le.mpr ?_)
        exact (Bytes.append_lt_append_left_iff _ _ _).mpr (orderedU32_lt hbound (by omega))
      have hge : b ≤ getSegmentKey k (i + 1) := by
        rcases List.mem_cons.mp hnext with heq | hin
        · exact (congrArg Prod.fst heq).ge
        · exact (hlt _ hin).le
      have hgt : getSegmentKey k i < b := by
        obtain ⟨e, he, heq⟩ := List.mem_map.mp hmem
        exact heq ▸ hcross e he (b, value) (by simp)
      obtain rfl : b = getSegmentKey k (i + 1) := hge.eq_of_not_lt fun hlt' =>
        absurd (hadjacent k first others hstored i hi b
          ((BTreeMap.mem_keys_iff _ _).mpr (hb ▸ rfl)) hlt') (not_le.mpr hgt)
      obtain rfl : others[i] = value :=
        Option.some.inj ((hstored.others i _ hsegment).symm.trans hb)
      exact innerLoop_cons hsegment hbound houter fun hmore =>
        hinner k first others (i + 1) hstored hmore (by simp) hbefore

/-- Scanning the inner store finds the entries of the plain map. -/
theorem collectKeyValues_of_represents (hadjacent : Adjacent inner) (h : Represents inner plain) :
    collectKeyValues none inner.entries = .ok plain.entries := by
  obtain ⟨found, hfound, hfoundIn⟩ := (loops_of_represents hadjacent h
    (List.nil_append inner.entries).symm).1
  have : (⟨found, hfoundIn.sorted⟩ : KeyValueMap) = plain := by
    refine BTreeMap.ext_get fun k => Option.ext fun value => ?_
    rw [← BTreeMap.mem_entries_iff, hfoundIn.mem]
    refine ⟨And.right, fun hk => ⟨?_, hk⟩⟩
    obtain ⟨first, others, -, hstored⟩ := h.present k value hk
    exact List.mem_map.mpr ⟨_, (BTreeMap.mem_entries_iff _ _ _).mpr hstored.first, rfl⟩
  rw [hfound, ← this]

theorem length_of_collectKeys {l found : List Bytes} (h : collectKeys l = .ok found) :
    ∀ b ∈ l, 4 ≤ b.length := by
  induction l generalizing found with
  | nil => exact List.forall_mem_nil _
  | cons b l ih =>
    obtain ⟨index, hindex, h⟩ := Except.bind_eq_ok.mp h
    obtain ⟨keys, hkeys, -⟩ := Except.bind_eq_ok.mp h
    exact List.forall_mem_cons.mpr ⟨(readIndexFromKey_eq_ok.mp hindex).1, ih hkeys⟩

/-- The keys are found exactly if the prefix selects whole keys. -/
theorem findKeysByPrefix_iff (h : Represents inner plain) (p : Bytes) :
    findKeysByPrefix inner p = .ok (contentsUnder p plain).keys ↔ SelectsKeys inner.keys p :=
  ⟨fun hfind => selectsKeys_of_length_le (length_of_collectKeys hfind),
    fun hp => collectKeys_of_represents (h.under hp)⟩

/-- The values are found if moreover nothing lies between the segments of one. -/
theorem findKeyValuesByPrefix_eq (h : Represents inner plain) {p : Bytes}
    (hp : SelectsKeys inner.keys p) (hcontiguous : Contiguous inner p) :
    findKeyValuesByPrefix inner p = .ok (contentsUnder p plain).entries :=
  collectKeyValues_of_represents (hcontiguous.adjacent h) (h.under hp)

end Represents

/-- **Value splitting is transparent.** Let each value have less than 2³² segments, and let no
prefix that is deleted reach into the index of a segment of a value. Then every key reads as in the
plain map. For every prefix, the keys that have it are found, in order and with the prefix stripped,
exactly if the prefix does not reach into an index; deleting it removes exactly the keys that have
it, if and only if it does not reach into the index of a segment of a value; and the values of the
keys that have it are found, if nothing lies between two consecutive segments of one. -/
theorem splitting_transparent {maxValueSize : Nat} (hmax : 4 ≤ maxValueSize) {batches : List Batch}
    (hsplittable : SplittableAll maxValueSize .empty (batches.flatMap (·.operations))) :
    let inner := batches.foldl (writeBatch maxValueSize) .empty
    let plain := batches.foldl (fun m batch => batch.apply m) .empty
    (∀ k, readValueBytes inner k = .ok (plain.get k)) ∧
      ∀ p, (findKeysByPrefix inner p = .ok (contentsUnder p plain).keys ↔
          SelectsKeys inner.keys p) ∧
        ((∀ k, readValueBytes (writeBatch maxValueSize inner ⟨[.deletePrefix p]⟩) k =
            .ok (if p <+: k then none else plain.get k)) ↔ SelectsKeys (liveSegments inner) p) ∧
        (SelectsKeys inner.keys p → Contiguous inner p →
          findKeyValuesByPrefix inner p = .ok (contentsUnder p plain).entries) := by
  intro inner plain
  have hrep : Represents inner plain := represents_writeBatches hmax hsplittable
  exact ⟨readValueBytes_of_represents hrep, fun p => ⟨findKeysByPrefix_iff hrep p,
    deletePrefix_iff hrep p, findKeyValuesByPrefix_eq hrep⟩⟩

/-- A value of two segments under `[1, 1]`, and one under `[1]`. -/
theorem splitting_transparent_two_keys :
    findKeyValuesByPrefix
      ([⟨[.put [1, 1] (List.replicate 97 9), .put [1] [8]]⟩].foldl (writeBatch 100) .empty) [1] =
        .ok [([], [8]), ([1], List.replicate 97 9)] :=
  (((splitting_transparent (by decide) (by decide)).2 [1]).2.2 (by decide) (by decide)).trans
    (by decide)

/-- The first segment of the value under `[1, 0]` lies between the segments of the value under
`[1]`. The prefix `[1, 0, 0, 0, 0]` selects the only segment of a value under `[1]`, although the
key does not have this prefix: the search for keys fails, and the deletion removes the value. -/
theorem splitting_not_transparent_for_extended_key :
    findKeyValuesByPrefix
        ([⟨[.put [1] (List.replicate 97 9), .put [1, 0] [8]]⟩].foldl (writeBatch 100) .empty) [] =
        .error .missingSegment ∧
      findKeysByPrefix (writeBatch 100 .empty ⟨[.put [1] [9]]⟩) [1, 0, 0, 0, 0] =
        .error .tooShortKey ∧
      readValueBytes (writeBatch 100 .empty ⟨[.put [1] [9], .deletePrefix [1, 0, 0, 0, 0]]⟩) [1] =
        .ok none := by
  decide

end ValueSplitting

end Linera.Views
