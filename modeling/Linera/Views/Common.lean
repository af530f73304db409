import Linera.Lib.Bytes
import Linera.Lib.BTreeMap
import Linera.Lib.SortedBy

/-!
# Prefixes as intervals

`get_upper_bound_option` turns the keys with a given prefix into an interval of
the key order. `isPrefix_iff_of_upperBound` and `isPrefix_iff_of_unbounded` say that
the interval is exact, and `scan_eq_filter` that a seek followed by a scan while
the prefix matches finds exactly the keys with the prefix.
-/

namespace Linera.Views

/-- The contents of a key-value store. -/
abbrev KeyValueMap := BTreeMap Bytes Bytes

/-- The least key above all keys with prefix `keyPrefix`, if there is one. The source looks for
the last byte below 255; the later bytes are looked at first here too. -/
def getUpperBoundOption : Bytes → Option Bytes
  | [] => none
  | val :: rest =>
    match getUpperBoundOption rest with
    | some upperBound => some (val :: upperBound)
    | none => if val < 255 then some [val + 1] else none

theorem byte_le_max (b : UInt8) : b ≤ 255 := by
  rw [UInt8.le_iff_toNat_le]
  have := b.toNat_lt
  simp
  omega

theorem byte_not_lt_max {b : UInt8} : ¬b < 255 ↔ b = 255 := by
  rw [UInt8.lt_iff_toNat_lt, ← UInt8.toNat_inj]
  have := b.toNat_lt
  simp
  omega

theorem byte_lt_succ_iff {a b : UInt8} (hb : b < 255) : a < b + 1 ↔ a ≤ b := by
  rw [UInt8.lt_iff_toNat_lt] at hb ⊢
  rw [UInt8.le_iff_toNat_le, UInt8.toNat_add]
  simp at hb ⊢
  omega

/-- Only the prefixes made of 255 bytes, the empty one among them, have no upper bound. -/
theorem getUpperBoundOption_eq_none_iff {p : Bytes} :
    getUpperBoundOption p = none ↔ ∀ b ∈ p, b = 255 := by
  induction p with
  | nil => simp [getUpperBoundOption]
  | cons b p ih =>
    cases h : getUpperBoundOption p with
    | some u => simp [getUpperBoundOption, h, ← ih]
    | none =>
      have hp := ih.mp h
      simp only [getUpperBoundOption, h, ite_eq_right_iff, reduceCtorEq, imp_false,
        byte_not_lt_max, List.forall_mem_cons]
      exact ⟨fun hb => ⟨hb, hp⟩, fun hb => hb.1⟩

/-- Without an upper bound, every key at or above the prefix has it. -/
theorem isPrefix_iff_of_unbounded {p k : Bytes} (h : getUpperBoundOption p = none) :
    p <+: k ↔ p ≤ k := by
  refine ⟨Bytes.le_of_isPrefix, fun hle => ?_⟩
  rw [getUpperBoundOption_eq_none_iff] at h
  induction p generalizing k with
  | nil => exact List.nil_prefix
  | cons b p ih =>
    obtain rfl : b = 255 := h b (by simp)
    cases k with
    | nil => exact absurd hle (not_le.mpr (by simp))
    | cons c k =>
      rcases Bytes.cons_le_cons_iff.mp hle with hlt | ⟨rfl, hle'⟩
      · exact absurd hlt (UInt8.not_lt.mpr (byte_le_max c))
      · exact List.cons_prefix_cons.mpr ⟨rfl, ih (fun b hb => h b (by simp [hb])) hle'⟩

/-- With an upper bound, the keys with the prefix are the keys from the prefix up to the
bound. -/
theorem isPrefix_iff_of_upperBound {p u k : Bytes} (h : getUpperBoundOption p = some u) :
    p <+: k ↔ p ≤ k ∧ k < u := by
  induction p generalizing u k with
  | nil => simp [getUpperBoundOption] at h
  | cons b p ih =>
    cases k with
    | nil => simp
    | cons c k =>
      rw [List.cons_prefix_cons, Bytes.cons_le_cons_iff]
      cases hp : getUpperBoundOption p with
      | some u' =>
        obtain rfl : b :: u' = u := by simpa [getUpperBoundOption, hp] using h
        rw [ih hp, List.cons_lt_cons_iff]
        constructor
        · rintro ⟨rfl, hle, hlt⟩
          exact ⟨.inr ⟨rfl, hle⟩, .inr ⟨rfl, hlt⟩⟩
        · rintro ⟨hbc | ⟨rfl, hle⟩, hcb | ⟨hcb, hlt⟩⟩
          · exact absurd hbc hcb.asymm
          · exact absurd hbc (hcb ▸ lt_irrefl _)
          · exact absurd hcb (lt_irrefl _)
          · exact ⟨rfl, hle, hlt⟩
      | none =>
        have hb : b < 255 := by
          by_contra hb
          simp [getUpperBoundOption, hp, hb] at h
        obtain rfl : [b + 1] = u := by simpa [getUpperBoundOption, hp, hb] using h
        rw [isPrefix_iff_of_unbounded hp, List.cons_lt_cons_iff, byte_lt_succ_iff hb]
        constructor
        · rintro ⟨rfl, hle⟩
          exact ⟨.inr ⟨rfl, hle⟩, .inl le_rfl⟩
        · rintro ⟨hbc | ⟨rfl, hle⟩, hcb | ⟨-, hlt⟩⟩
          · exact absurd hbc (not_lt.mpr hcb)
          · exact absurd hlt (List.not_lt_nil _)
          · exact ⟨rfl, hle⟩
          · exact absurd hlt (List.not_lt_nil _)

/-- A root in front of a prefix goes in front of its upper bound. -/
theorem getUpperBoundOption_append {p u : Bytes} (root : Bytes)
    (h : getUpperBoundOption p = some u) : getUpperBoundOption (root ++ p) = some (root ++ u) := by
  induction root with
  | nil => exact h
  | cons b root ih => simp [getUpperBoundOption, ih]

/-- The part of a store under a root key, with the root key stripped. -/
def contentsUnder {υ : Type} (root : Bytes) (m : BTreeMap Bytes υ) : BTreeMap Bytes υ where
  entries := (m.entries.filter fun e => root.isPrefixOf e.1).map fun e =>
    (e.1.drop root.length, e.2)
  sorted := by
    refine List.pairwise_map.mpr ((m.sorted.filter _).imp_of_mem fun {a b} ha hb hlt => ?_)
    obtain ⟨k, hk⟩ : root <+: a.1 := by simpa using (List.mem_filter.mp ha).2
    obtain ⟨l, hl⟩ : root <+: b.1 := by simpa using (List.mem_filter.mp hb).2
    simpa [← hk, ← hl, Bytes.append_lt_append_left_iff] using hlt

theorem get_contentsUnder {υ : Type} (root : Bytes) (m : BTreeMap Bytes υ) (k : Bytes) :
    (contentsUnder root m).get k = m.get (root ++ k) := by
  refine Option.ext fun v => ?_
  rw [← BTreeMap.mem_entries_iff, ← BTreeMap.mem_entries_iff]
  simp only [contentsUnder, List.mem_map, List.mem_filter, Prod.mk.injEq]
  constructor
  · rintro ⟨⟨key, v⟩, ⟨hmem, hroot⟩, rfl, rfl⟩
    obtain ⟨s, rfl⟩ : root <+: key := by simpa using hroot
    simpa using hmem
  · intro hmem
    exact ⟨(root ++ k, v), ⟨hmem, by simp⟩, by simp, rfl⟩

theorem mem_keys_contentsUnder {υ : Type} {root k : Bytes} {m : BTreeMap Bytes υ} :
    k ∈ (contentsUnder root m).keys ↔ root ++ k ∈ m.keys := by
  rw [BTreeMap.mem_keys_iff, BTreeMap.mem_keys_iff, get_contentsUnder]

/-- Seeking to a prefix and reading on while the keys have it finds all the entries with the
prefix. -/
theorem scan_eq_filter {υ : Type} (p : Bytes) {l : List (Bytes × υ)}
    (hl : l.Pairwise fun a b => a.1 < b.1) :
    (l.dropWhile fun e => e.1 < p).takeWhile (fun e => p.isPrefixOf e.1) =
      l.filter fun e => p.isPrefixOf e.1 := by
  induction l with
  | nil => rfl
  | cons e rest ih =>
    have hrest : ∀ e' ∈ rest, e.1 < e'.1 := fun e' he' => List.rel_of_pairwise_cons hl he'
    by_cases hlt : e.1 < p
    · -- Before the seek position.
      have hnot : ¬p <+: e.1 := fun h => absurd (Bytes.le_of_isPrefix h) (not_le.mpr hlt)
      simp [hlt, ih hl.of_cons, hnot]
    · have hle : p ≤ e.1 := not_lt.mp hlt
      have hdrop : rest.dropWhile (fun e => e.1 < p) = rest := by
        cases rest with
        | nil => rfl
        | cons e' rest' =>
          have := hle.trans (hrest e' (by simp)).le
          simp [this]
      by_cases hp : p <+: e.1
      · have hih := ih hl.of_cons
        rw [hdrop] at hih
        simp [hlt, hp, hih]
      · -- The scan stops, and no later key has the prefix.
        have hnone : rest.filter (fun e => p.isPrefixOf e.1) = [] := by
          refine List.filter_eq_nil_iff.mpr fun e' he' h => hp ?_
          exact Bytes.isPrefix_of_le_of_le hle (hrest e' he').le (by simpa using h)
        simp [hlt, hp, hnone]

/-- Whether a key lies in `get_interval(keyPrefix)`. -/
def inInterval (keyPrefix key : Bytes) : Bool :=
  keyPrefix ≤ key && match getUpperBoundOption keyPrefix with
    | some upperBound => key < upperBound
    | none => true

theorem inInterval_iff {p k : Bytes} : inInterval p k ↔ p <+: k := by
  unfold inInterval
  split
  · next u hu => simp [isPrefix_iff_of_upperBound hu]
  · next hu => simp [isPrefix_iff_of_unbounded hu]

/-! ## Sets of deleted prefixes -/

/-- Iterates over an ordered list of prefixes. The first of `rest` is the source's `current`. -/
structure SuffixClosedSetIterator where
  prefixLen : Nat
  previous : Option Bytes
  rest : List Bytes

namespace SuffixClosedSetIterator

def new (prefixLen : Nat) (entries : List Bytes) : SuffixClosedSetIterator :=
  ⟨prefixLen, none, entries⟩

/-- Moves on past the entries at or below `val`. -/
def advance (prefixLen : Nat) (val : Bytes) (previous : Option Bytes) :
    List Bytes → SuffixClosedSetIterator
  | [] => ⟨prefixLen, previous, []⟩
  | x :: rest =>
    if val < x.drop prefixLen then ⟨prefixLen, previous, x :: rest⟩
    else advance prefixLen val (some x) rest

/-- The highest entry at or below `val`, and the iterator behind it. -/
def findLowerBound (it : SuffixClosedSetIterator) (val : Bytes) :
    Option Bytes × SuffixClosedSetIterator :=
  let it := advance it.prefixLen val it.previous it.rest
  (it.previous, it)

/-- Whether some entry is a prefix of `index`; to be called with increasing indices. -/
def findKey (it : SuffixClosedSetIterator) (index : Bytes) : Bool × SuffixClosedSetIterator :=
  let (lowerBound, it) := it.findLowerBound index
  match lowerBound with
  | none => (false, it)
  | some keyPrefix => ((keyPrefix.drop it.prefixLen).isPrefixOf index, it)

end SuffixClosedSetIterator

/-- Whether some prefix of the set is a prefix of `key`. -/
def containsPrefixOf (prefixes : BTreeSet Bytes) (key : Bytes) : Bool :=
  ((SuffixClosedSetIterator.new 0 prefixes.keys).findKey key).1

/-- Adds a prefix, and drops the prefixes that it covers. -/
def insertKeyPrefix (prefixes : BTreeSet Bytes) (keyPrefix : Bytes) : BTreeSet Bytes :=
  if containsPrefixOf prefixes keyPrefix then prefixes
  else BTreeMap.insert (prefixes.retain fun key _ => !inInterval keyPrefix key) keyPrefix ()

/-- No element is a proper prefix of another one. -/
def PrefixFree (prefixes : List Bytes) : Prop :=
  ∀ p ∈ prefixes, ∀ q ∈ prefixes, p <+: q → p = q

instance (prefixes : List Bytes) : Decidable (PrefixFree prefixes) :=
  inferInstanceAs (Decidable (∀ p ∈ prefixes, ∀ q ∈ prefixes, p <+: q → p = q))

theorem prefixFree_empty : PrefixFree (BTreeMap.empty : BTreeSet Bytes).keys := by
  simp [PrefixFree, BTreeMap.keys, BTreeMap.empty]

/-- Where an iterator without a cut-off stands in the list `l`: it has left the entries
`passed` behind. -/
structure SuffixClosedSetIterator.At (l passed : List Bytes) (it : SuffixClosedSetIterator) :
    Prop where
  split : l = passed ++ it.rest
  previous : it.previous = passed.getLast?
  prefixLen : it.prefixLen = 0

theorem SuffixClosedSetIterator.At.new (l : List Bytes) : At l [] (.new 0 l) := ⟨rfl, rfl, rfl⟩

theorem SuffixClosedSetIterator.advance_at {l passed rest : List Bytes} {val : Bytes}
    (hl : l.Pairwise (· < ·)) (hsplit : l = passed ++ rest) (hpassed : ∀ p ∈ passed, p ≤ val) :
    ∃ passed', At l passed' (advance 0 val passed.getLast? rest) ∧
      ∀ p ∈ l, p ∈ passed' ↔ p ≤ val := by
  induction rest generalizing passed with
  | nil =>
    subst hsplit
    exact ⟨passed, ⟨rfl, rfl, rfl⟩, fun p hp => ⟨hpassed p, fun _ => by simpa using hp⟩⟩
  | cons x rest ih =>
    by_cases hx : val < x
    · refine ⟨passed, ⟨?_, ?_, ?_⟩, fun p hp => ⟨hpassed p, fun hle => ?_⟩⟩
      · simp [advance, hx, hsplit]
      · simp [advance, hx]
      · simp [advance, hx]
      · rw [hsplit, List.mem_append] at hp
        refine hp.resolve_right fun hp => absurd hle (not_le.mpr (hx.trans_le ?_))
        rw [hsplit] at hl
        rcases List.mem_cons.mp hp with rfl | hp
        · exact le_rfl
        · exact (List.rel_of_pairwise_cons (List.pairwise_append.mp hl).2.1 hp).le
    · obtain ⟨passed', hat, hmem⟩ := @ih (passed ++ [x]) (by simp [hsplit]) (by
        intro p hp
        rcases List.mem_append.mp hp with hp | hp
        · exact hpassed p hp
        · rw [List.mem_singleton.mp hp]
          exact not_lt.mp hx)
      refine ⟨passed', ?_, hmem⟩
      simpa [advance, hx] using hat

/-- On a prefix-free set, the highest entry at or below the index decides: any entry that is a
prefix of the index lies at or below it, and covers it. -/
theorem exists_isPrefix_iff_getLast? {l below : List Bytes} {index : Bytes} (hmin : PrefixFree l)
    (hsorted : below.Pairwise (· < ·)) (hmem : ∀ p, p ∈ below ↔ p ∈ l ∧ p ≤ index) :
    (∃ p ∈ l, p <+: index) ↔ ∃ x ∈ below.getLast?, x <+: index := by
  constructor
  · rintro ⟨p, hp, hpre⟩
    have hbelow : p ∈ below := (hmem p).mpr ⟨hp, Bytes.le_of_isPrefix hpre⟩
    obtain ⟨x, hx⟩ := Option.isSome_iff_exists.mp
      (List.getLast?_isSome.mpr (List.ne_nil_of_mem hbelow))
    refine ⟨x, hx, ?_⟩
    obtain ⟨hxl, hxle⟩ := (hmem x).mp (List.mem_of_getLast? hx)
    have hsorted' : SortedBy id below := hsorted
    have hpx : p ≤ x := hsorted'.key_le_of_getLast? hx hbelow
    have hcover : p <+: x := Bytes.isPrefix_of_le_of_le hpx hxle hpre
    rwa [← hmin p hp x hxl hcover]
  · rintro ⟨x, hx, hpre⟩
    exact ⟨x, ((hmem x).mp (List.mem_of_getLast? hx)).1, hpre⟩

/-- **Correctness of `find_key`.** Called with increasing indices on a prefix-free set, it tells
whether some entry is a prefix of the index. -/
theorem SuffixClosedSetIterator.findKey_spec {l passed : List Bytes}
    {it : SuffixClosedSetIterator} {index : Bytes} (hl : l.Pairwise (· < ·)) (hmin : PrefixFree l)
    (hat : it.At l passed) (hpassed : ∀ p ∈ passed, p ≤ index) :
    ((it.findKey index).1 = true ↔ ∃ p ∈ l, p <+: index) ∧
      ∃ passed', (it.findKey index).2.At l passed' ∧ ∀ p ∈ passed', p ≤ index := by
  obtain ⟨passed', hat', hmem⟩ := advance_at hl hat.split hpassed
  have hsub : ∀ p ∈ passed', p ∈ l := fun p hp => by
    rw [hat'.split]
    simp [hp]
  have hlower : it.findLowerBound index =
      (passed'.getLast?, advance 0 index passed.getLast? it.rest) := by
    simp [findLowerBound, hat.previous, hat.prefixLen, hat'.previous]
  constructor
  · have hsorted : passed'.Pairwise (· < ·) := (List.pairwise_append.mp (hat'.split ▸ hl)).1
    rw [exists_isPrefix_iff_getLast? hmin hsorted fun p =>
      ⟨fun hp => ⟨hsub p hp, (hmem p (hsub p hp)).mp hp⟩, fun hp => (hmem p hp.1).mpr hp.2⟩]
    simp only [findKey, hlower, hat'.prefixLen]
    cases passed'.getLast? <;> simp
  · refine ⟨passed', ?_, fun p hp => (hmem p (hsub p hp)).mp hp⟩
    simp only [findKey, hlower]
    split <;> exact hat'

variable {prefixes : BTreeSet Bytes}

theorem containsPrefixOf_iff (hmin : PrefixFree prefixes.keys) (key : Bytes) :
    containsPrefixOf prefixes key ↔ ∃ p ∈ prefixes.keys, p <+: key :=
  (SuffixClosedSetIterator.findKey_spec prefixes.pairwise_keys hmin (.new _) (by simp)).1

theorem mem_keys_insertKeyPrefix (keyPrefix p : Bytes) :
    p ∈ (insertKeyPrefix prefixes keyPrefix).keys ↔
      if containsPrefixOf prefixes keyPrefix then p ∈ prefixes.keys
      else p = keyPrefix ∨ p ∈ prefixes.keys ∧ ¬keyPrefix <+: p := by
  unfold insertKeyPrefix
  split
  · rfl
  · rw [BTreeSet.mem_keys_insert, BTreeSet.mem_keys_retain]
    simp [← inInterval_iff]

theorem prefixFree_insertKeyPrefix (hmin : PrefixFree prefixes.keys) (keyPrefix : Bytes) :
    PrefixFree (insertKeyPrefix prefixes keyPrefix).keys := by
  intro p hp q hq hpq
  rw [mem_keys_insertKeyPrefix] at hp hq
  by_cases hcovered : containsPrefixOf prefixes keyPrefix
  · rw [if_pos hcovered] at hp hq
    exact hmin p hp q hq hpq
  · rw [if_neg hcovered] at hp hq
    rcases hp with rfl | ⟨hp, -⟩
    · rcases hq with rfl | ⟨-, hq⟩
      · rfl
      · exact absurd hpq hq
    · rcases hq with rfl | ⟨hq, -⟩
      · exact absurd ((containsPrefixOf_iff hmin q).mpr ⟨p, hp, hpq⟩) hcovered
      · exact hmin p hp q hq hpq

theorem exists_isPrefix_insertKeyPrefix (hmin : PrefixFree prefixes.keys) (p k : Bytes) :
    (∃ q ∈ (insertKeyPrefix prefixes p).keys, q <+: k) ↔
      (∃ q ∈ prefixes.keys, q <+: k) ∨ p <+: k := by
  simp only [mem_keys_insertKeyPrefix]
  by_cases hcovered : containsPrefixOf prefixes p
  · obtain ⟨q, hq, hqp⟩ := (containsPrefixOf_iff hmin p).mp hcovered
    simp only [hcovered, if_true]
    exact ⟨Or.inl, fun h => h.elim id fun hpk => ⟨q, hq, hqp.trans hpk⟩⟩
  · simp only [hcovered, Bool.false_eq_true, if_false]
    constructor
    · rintro ⟨q, rfl | ⟨hq, -⟩, hqk⟩
      · exact .inr hqk
      · exact .inl ⟨q, hq, hqk⟩
    · rintro (⟨q, hq, hqk⟩ | hpk)
      · by_cases hpq : p <+: q
        · exact ⟨p, .inl rfl, hpq.trans hqk⟩
        · exact ⟨q, .inr ⟨hq, hpq⟩, hqk⟩
      · exact ⟨p, .inl rfl, hpk⟩

/-- The deletions staged in a view: of everything stored, or of the keys with some prefixes. -/
structure DeletionSet where
  deleteStorageFirst : Bool
  deletedPrefixes : BTreeSet Bytes
  prefixFree : PrefixFree deletedPrefixes.keys

namespace DeletionSet

def new : DeletionSet := ⟨false, .empty, prefixFree_empty⟩

def clear (_ : DeletionSet) : DeletionSet := { new with deleteStorageFirst := true }

def containsPrefixOf (d : DeletionSet) (index : Bytes) : Bool :=
  d.deleteStorageFirst || Views.containsPrefixOf d.deletedPrefixes index

def insertKeyPrefix (d : DeletionSet) (keyPrefix : Bytes) : DeletionSet :=
  if d.deleteStorageFirst then d
  else { d with
    deletedPrefixes := Views.insertKeyPrefix d.deletedPrefixes keyPrefix
    prefixFree := prefixFree_insertKeyPrefix d.prefixFree keyPrefix }

variable (d : DeletionSet)

theorem deleteStorageFirst_insertKeyPrefix (p : Bytes) :
    (d.insertKeyPrefix p).deleteStorageFirst = d.deleteStorageFirst := by
  rw [insertKeyPrefix]
  split <;> rfl

theorem containsPrefixOf_iff (k : Bytes) :
    d.containsPrefixOf k ↔ d.deleteStorageFirst ∨ ∃ p ∈ d.deletedPrefixes.keys, p <+: k := by
  simp only [containsPrefixOf, Bool.or_eq_true, Views.containsPrefixOf_iff d.prefixFree]

@[simp] theorem containsPrefixOf_new (k : Bytes) : new.containsPrefixOf k = false := rfl

@[simp] theorem containsPrefixOf_clear (k : Bytes) :
    d.clear.containsPrefixOf k = true := rfl

theorem containsPrefixOf_insertKeyPrefix (p k : Bytes) :
    (d.insertKeyPrefix p).containsPrefixOf k ↔ d.containsPrefixOf k ∨ p <+: k := by
  cases hall : d.deleteStorageFirst with
  | true => simp [insertKeyPrefix, containsPrefixOf, hall]
  | false =>
    simp only [containsPrefixOf_iff, insertKeyPrefix, hall, Bool.false_eq_true, false_or, if_false]
    exact exists_isPrefix_insertKeyPrefix d.prefixFree p k

end DeletionSet

end Linera.Views
