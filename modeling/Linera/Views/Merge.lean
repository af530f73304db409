import Linera.Views.Common

/-!
# Merging stored entries with staged updates

The loop that all read paths of the views share: it goes through the stored entries
in order, visits the staged updates up to each of them, and then the entry itself
unless it is updated or covered by a deleted prefix. The read paths differ in the
key that they look up among the deleted prefixes.

* `merge_spec` — the merge visits the updated values, and the stored entries that
  are neither updated nor deleted, in order.
* `SuffixClosedSetIterator.ready_findKey` — the iterator over the deleted prefixes
  answers correctly for increasing keys, also when it skips a common prefix.
* `SuffixClosedSetIterator.prefixes_exact` — intervals, sets of prefixes and the iterator agree
  on which keys start with a prefix.
-/

namespace Linera.Views

/-- A staged change of one entry. -/
inductive Update (υ : Type) where
  | removed
  | set (value : υ)
deriving DecidableEq

namespace Update

def visit {υ : Type} (key : Bytes) : Update υ → List (Bytes × υ)
  | removed => []
  | set value => [(key, value)]

def value? {υ : Type} : Update υ → Option υ
  | removed => none
  | set value => some value

def withoutValue {υ : Type} : Update υ → Update Unit
  | removed => removed
  | set _ => set ()

theorem mem_visit {υ : Type} {key k : Bytes} {u : Update υ} {v : υ} :
    (k, v) ∈ u.visit key ↔ k = key ∧ u = .set v := by
  cases u <;> simp [visit, eq_comm]

end Update

section Merge

variable {υ τ : Type}

/-- The inner loop: visits the updates at or below `index`, up to one of `index` itself. Returns
the calls made, whether `index` was updated, and the updates left. -/
def drain (index : Bytes) :
    List (Bytes × Update υ) → List (Bytes × υ) × Bool × List (Bytes × Update υ)
  | [] => ([], false, [])
  | (key, update) :: updates =>
    if key ≤ index then
      if key = index then (update.visit key, true, updates)
      else
        let (visited, found, updates) := drain index updates
        (update.visit key ++ visited, found, updates)
    else ([], false, (key, update) :: updates)

/-- The outer loop, over the stored entries. -/
def mergeStored (findKey : τ → Bytes → Bool × τ) : τ → List (Bytes × υ) →
    List (Bytes × Update υ) → List (Bytes × υ) × List (Bytes × Update υ)
  | _, [], updates => ([], updates)
  | it, (index, value) :: stored, updates =>
    let (visited, found, updates) := drain index updates
    if found then
      let (rest, updates) := mergeStored findKey it stored updates
      (visited ++ rest, updates)
    else
      let (deleted, it) := findKey it index
      let (rest, updates) := mergeStored findKey it stored updates
      (visited ++ (if deleted then [] else [(index, value)]) ++ rest, updates)

/-- The last loop, over the updates left. -/
def visitAll (updates : List (Bytes × Update υ)) : List (Bytes × υ) :=
  updates.flatMap fun u => u.2.visit u.1

/-- The calls that the visitor gets, in order. -/
def merge (findKey : τ → Bytes → Bool × τ) (it : τ) (stored : List (Bytes × υ))
    (updates : List (Bytes × Update υ)) : List (Bytes × υ) :=
  (mergeStored findKey it stored updates).1 ++
    visitAll (mergeStored findKey it stored updates).2

variable {index : Bytes} {updates : List (Bytes × Update υ)}

theorem mem_visitAll {k : Bytes} {v : υ} : (k, v) ∈ visitAll updates ↔ (k, .set v) ∈ updates := by
  simp only [visitAll, List.mem_flatMap, Update.mem_visit]
  constructor
  · rintro ⟨⟨key, u⟩, hu, rfl, rfl⟩
    exact hu
  · exact fun h => ⟨_, h, rfl, rfl⟩

theorem sortedBy_visitAll (hu : SortedBy Prod.fst updates) :
    SortedBy Prod.fst (visitAll updates) := by
  induction updates with
  | nil => exact List.Pairwise.nil
  | cons u updates ih =>
    obtain ⟨key, update⟩ := u
    obtain ⟨hlt, hu⟩ := List.pairwise_cons.mp hu
    refine List.pairwise_append.mpr ⟨?_, ih hu, ?_⟩
    · cases update <;> simp [Update.visit]
    · rintro ⟨k, v⟩ hk ⟨k', v'⟩ hk'
      obtain ⟨rfl, -⟩ := Update.mem_visit.mp hk
      exact hlt _ (mem_visitAll.mp hk')

theorem filter_of_forall_lt (h : ∀ u ∈ updates, index < u.1) :
    updates.filter (·.1 ≤ index) = [] ∧ updates.filter (index < ·.1) = updates :=
  ⟨List.filter_eq_nil_iff.mpr fun u hu => by simpa only [decide_eq_true_eq, not_le] using h u hu,
    List.filter_eq_self.mpr fun u hu => decide_eq_true (h u hu)⟩

theorem drain_eq (hu : SortedBy Prod.fst updates) : drain index updates =
      (visitAll (updates.filter (·.1 ≤ index)), decide (index ∈ updates.map Prod.fst),
        updates.filter (index < ·.1)) := by
  induction updates with
  | nil => rfl
  | cons u updates ih =>
    obtain ⟨key, update⟩ := u
    obtain ⟨hlt, hu⟩ := List.pairwise_cons.mp hu
    rw [drain, ih hu]
    rcases lt_trichotomy key index with hkey | rfl | hkey
    · have hne : index ≠ key := hkey.ne'
      simp [hkey.le, hkey.ne, hkey.not_gt, visitAll, hne]
    · obtain ⟨hnone, hall⟩ := filter_of_forall_lt hlt
      simp [visitAll, hnone, hall]
    · have hlt' : ∀ u ∈ updates, index < u.1 := fun u hu' => hkey.trans (hlt u hu')
      obtain ⟨hnone, hall⟩ := filter_of_forall_lt hlt'
      have hnot : index ∉ updates.map Prod.fst := by
        simp only [List.mem_map, not_exists, not_and]
        exact fun u hu' heq => (hlt' u hu').ne' heq
      simp only [hkey.not_ge, if_false, visitAll, List.filter_cons, decide_false,
        Bool.false_eq_true, hnone, hkey, decide_true, if_true, hall, List.flatMap_nil,
        List.map_cons, List.mem_cons, hkey.ne, hnot, or_self]

/-- The lookup answers correctly for `index`, and stays ready for the keys behind it. -/
structure Answers (findKey : τ → Bytes → Bool × τ) (deleted : Bytes → Prop)
    (Ready : τ → Bytes → Prop) : Prop where
  answer : ∀ {it index}, Ready it index → ((findKey it index).1 = true ↔ deleted index)
  next : ∀ {it index}, Ready it index → ∀ {k}, index < k → Ready (findKey it index).2 k
  later : ∀ {it index}, Ready it index → ∀ {k}, index < k → Ready it k

variable {findKey : τ → Bytes → Bool × τ} {deleted : Bytes → Prop} {Ready : τ → Bytes → Prop}

/-- One round of the outer loop: the updates up to `index`, then the stored entry unless it is
updated or deleted, then the rest. -/
theorem merge_cons (hanswers : Answers findKey deleted Ready) {it : τ} (value : υ)
    {stored : List (Bytes × υ)} (hs : ∀ e ∈ stored, index < e.1) (hready : Ready it index)
    (hu : SortedBy Prod.fst updates) : ∃ it', (∀ e ∈ stored, Ready it' e.1) ∧ ∃ kept,
      (∀ e, e ∈ kept ↔ e = (index, value) ∧ index ∉ updates.map Prod.fst ∧ ¬deleted index) ∧
        SortedBy Prod.fst kept ∧
        merge findKey it ((index, value) :: stored) updates =
          visitAll (updates.filter (·.1 ≤ index)) ++
            (kept ++ merge findKey it' stored (updates.filter (index < ·.1))) := by
  by_cases hfound : index ∈ updates.map Prod.fst
  · refine ⟨it, fun e he => hanswers.later hready (hs e he), [], ?_, List.Pairwise.nil, ?_⟩
    · simp [hfound]
    · simp [merge, mergeStored, drain_eq hu, hfound]
  · refine ⟨(findKey it index).2, fun e he => hanswers.next hready (hs e he),
      if (findKey it index).1 then [] else [(index, value)], fun e => ?_, ?_, ?_⟩
    · have hanswer := hanswers.answer hready
      cases hfind : (findKey it index).1 with
      | true => simp [hanswer.mp hfind]
      | false =>
        have hnot : ¬deleted index := fun h => by simp [hanswer.mpr h] at hfind
        simp only [Bool.false_eq_true, if_false, List.mem_singleton]
        exact ⟨fun h => ⟨h, hfound, hnot⟩, And.left⟩
    · split <;> simp [SortedBy]
    · simp only [merge, mergeStored, drain_eq hu, hfound, decide_false, Bool.false_eq_true, if_false,
        List.append_assoc]

/-- **What the merge visits**: the updates, and the stored entries that are neither updated nor
deleted, in order. -/
theorem merge_spec (hanswers : Answers findKey deleted Ready) {it : τ} {stored : List (Bytes × υ)}
    (hs : SortedBy Prod.fst stored) (hready : ∀ e ∈ stored, Ready it e.1)
    (hu : SortedBy Prod.fst updates) : SortedBy Prod.fst (merge findKey it stored updates) ∧
      ∀ k v, (k, v) ∈ merge findKey it stored updates ↔ (k, .set v) ∈ updates ∨
        (k, v) ∈ stored ∧ k ∉ updates.map Prod.fst ∧ ¬deleted k := by
  induction stored generalizing it updates with
  | nil =>
    simp only [merge, mergeStored, List.nil_append]
    exact ⟨sortedBy_visitAll hu, fun k v => by simp [mem_visitAll]⟩
  | cons e stored ih =>
    obtain ⟨index, value⟩ := e
    obtain ⟨hlt, hs⟩ := List.pairwise_cons.mp hs
    obtain ⟨it', hready', kept, hkept, hkeptSorted, hround⟩ :=
      merge_cons hanswers value hlt (hready _ List.mem_cons_self) hu
    obtain ⟨hsorted, hmem⟩ := ih hs hready' (hu.filter (index < ·.1))
    rw [hround]
    generalize merge findKey it' stored (updates.filter (index < ·.1)) = rest at hsorted hmem
    have hbelow : ∀ e ∈ visitAll (updates.filter (·.1 ≤ index)), e.1 ≤ index := fun e he =>
      of_decide_eq_true (List.mem_filter.mp (mem_visitAll.mp he)).2
    have habove : ∀ e ∈ rest, index < e.1 := by
      intro e he
      rcases (hmem e.1 e.2).mp he with h | ⟨h, -⟩
      · exact of_decide_eq_true (List.mem_filter.mp h).2
      · exact hlt _ h
    constructor
    · refine List.pairwise_append.mpr ⟨sortedBy_visitAll (hu.filter _),
        List.pairwise_append.mpr ⟨hkeptSorted, hsorted, ?_⟩, ?_⟩
      · intro a ha b hb
        rw [((hkept a).mp ha).1]
        exact habove b hb
      · intro a ha b hb
        rcases List.mem_append.mp hb with hb | hb
        · obtain ⟨rfl, hnot, -⟩ := (hkept b).mp hb
          refine lt_of_le_of_ne (hbelow a ha) fun heq => hnot ?_
          exact List.mem_map.mpr ⟨_, (List.mem_filter.mp (mem_visitAll.mp ha)).1, heq⟩
        · exact (hbelow a ha).trans_lt (habove b hb)
    · intro k v
      have hkeys : k ∈ (updates.filter (index < ·.1)).map Prod.fst ↔
          k ∈ updates.map Prod.fst ∧ index < k := by
        simp only [List.mem_map, List.mem_filter, decide_eq_true_eq]
        exact ⟨fun ⟨u, ⟨hu, hlt⟩, heq⟩ => heq ▸ ⟨⟨u, hu, rfl⟩, hlt⟩,
          fun ⟨⟨u, hu, heq⟩, hlt⟩ => ⟨u, ⟨hu, heq ▸ hlt⟩, heq⟩⟩
      have hstored : (k, v) ∈ stored → index < k := fun h => hlt _ h
      simp only [List.mem_append, mem_visitAll, hkept, hmem, hkeys, List.mem_filter,
        decide_eq_true_eq, List.mem_cons, Prod.mk.injEq]
      rcases lt_trichotomy k index with hk | rfl | hk
      · have : (k, v) ∉ stored := fun h => hk.not_gt (hstored h)
        simp [hk.le, hk.not_gt, hk.ne, this]
      · have : (k, v) ∉ stored := fun h => lt_irrefl _ (hstored h)
        simp [this]
      · simp [hk, hk.not_ge, hk.ne']

end Merge

/-! ## Iterating over the deleted prefixes -/

namespace SuffixClosedSetIterator

/-- The iterator over what is left of the prefixes without the part that it skips. -/
def strip (it : SuffixClosedSetIterator) : SuffixClosedSetIterator :=
  ⟨0, it.previous.map (List.drop it.prefixLen), it.rest.map (List.drop it.prefixLen)⟩

theorem strip_advance (prefixLen : Nat) (val : Bytes) (previous : Option Bytes)
    (rest : List Bytes) : (advance prefixLen val previous rest).strip =
      advance 0 val (previous.map (List.drop prefixLen)) (rest.map (List.drop prefixLen)) := by
  induction rest generalizing previous with
  | nil => rfl
  | cons x rest ih =>
    rw [advance, List.map_cons, advance, List.drop_zero]
    split
    · rfl
    · exact ih (some x)

theorem strip_findKey (it : SuffixClosedSetIterator) (index : Bytes) :
    (it.findKey index).1 = (it.strip.findKey index).1 ∧
      (it.findKey index).2.strip = (it.strip.findKey index).2 := by
  have hstrip : (advance it.prefixLen index it.previous it.rest).strip =
      advance it.strip.prefixLen index it.strip.previous it.strip.rest :=
    strip_advance it.prefixLen index it.previous it.rest
  simp only [findKey, findLowerBound, ← hstrip]
  generalize advance it.prefixLen index it.previous it.rest = it'
  cases hprevious : it'.previous with
  | none | some => simp [strip, hprevious]

/-- The iterator stands before or at the prefixes up to `index`. -/
def Ready (prefixes : List Bytes) (it : SuffixClosedSetIterator) (index : Bytes) : Prop :=
  ∃ passed, it.strip.At prefixes passed ∧ ∀ p ∈ passed, p ≤ index

theorem ready_new (prefixLen : Nat) (entries : List Bytes) (index : Bytes) :
    Ready (entries.map (List.drop prefixLen)) (new prefixLen entries) index :=
  ⟨[], ⟨rfl, rfl, rfl⟩, List.forall_mem_nil _⟩

theorem ready_start (entries : List Bytes) (index : Bytes) :
    Ready entries (new 0 entries) index := by
  have hmap : entries.map (List.drop 0) = entries := List.map_id'' (fun _ => rfl) entries
  have hready := ready_new 0 entries index
  rwa [hmap] at hready

/-- A call answers for its index, and the iterator is ready for every index from there on. -/
theorem Ready.findKey {prefixes : List Bytes} (hsorted : prefixes.Pairwise (· < ·))
    (hmin : PrefixFree prefixes) {it : SuffixClosedSetIterator} {index : Bytes}
    (h : Ready prefixes it index) : ((it.findKey index).1 = true ↔ ∃ p ∈ prefixes, p <+: index) ∧
      ∀ {k}, index ≤ k → Ready prefixes (it.findKey index).2 k := by
  obtain ⟨passed, hat, hpassed⟩ := h
  obtain ⟨hanswer, passed', hat', hpassed'⟩ := findKey_spec hsorted hmin hat hpassed
  rw [← (it.strip_findKey _).1] at hanswer
  rw [← (it.strip_findKey _).2] at hat'
  exact ⟨hanswer, fun hk => ⟨passed', hat', fun p hp => (hpassed' p hp).trans hk⟩⟩

/-- **Correctness of the iterator**, called with increasing keys. -/
theorem ready_findKey {prefixes : List Bytes} (hsorted : prefixes.Pairwise (· < ·))
    (hmin : PrefixFree prefixes) (full : Bytes → Bytes) (hfull : ∀ {a b}, a < b → full a < full b) :
    Answers (fun it index => findKey it (full index)) (fun index => ∃ p ∈ prefixes, p <+: full index)
      fun it index => Ready prefixes it (full index) where
  answer := fun hready => (hready.findKey hsorted hmin).1
  next := fun hready _ hk => (hready.findKey hsorted hmin).2 (hfull hk).le
  later := by
    rintro it index ⟨passed, hat, hpassed⟩ k hk
    exact ⟨passed, hat, fun p hp => (hpassed p hp).trans (hfull hk).le⟩

/-- The answers to a list of queries. -/
def findKeys (it : SuffixClosedSetIterator) : List Bytes → List Bool
  | [] => []
  | index :: indices =>
    let (found, it) := it.findKey index
    found :: it.findKeys indices

theorem findKeys_eq {prefixes : List Bytes} (hsorted : prefixes.Pairwise (· < ·))
    (hmin : PrefixFree prefixes) {it : SuffixClosedSetIterator} {keys : List Bytes}
    (hkeys : keys.Pairwise (· ≤ ·)) (hready : ∀ k ∈ keys, Ready prefixes it k) :
    it.findKeys keys = keys.map fun k => decide (∃ p ∈ prefixes, p <+: k) := by
  induction keys generalizing it with
  | nil => rfl
  | cons k keys ih =>
    obtain ⟨hanswer, hnext⟩ := (hready k List.mem_cons_self).findKey hsorted hmin
    obtain ⟨hle, hkeys'⟩ := List.pairwise_cons.mp hkeys
    have hfirst : (it.findKey k).1 = decide (∃ p ∈ prefixes, p <+: k) :=
      Bool.eq_iff_iff.mpr (hanswer.trans decide_eq_true_iff.symm)
    exact congrArg₂ List.cons hfirst (ih hkeys' fun k' hk' => hnext (hle k' hk'))

/-- **The bookkeeping of prefixes is exact.** An interval has the keys with its prefix; a set of
incomparable prefixes stays one when a prefix is added, and covers just the keys of that prefix in
addition; and the set answers for the keys that it covers, one at a time and in one pass over keys
that do not decrease, also if the entries have a common root in front that is skipped. -/
theorem prefixes_exact {prefixes : BTreeSet Bytes} (hfree : PrefixFree prefixes.keys)
    {keys : List Bytes} (hkeys : keys.Pairwise (· ≤ ·)) (p root : Bytes) :
    (∀ v, inInterval p v ↔ p <+: v) ∧
    PrefixFree (insertKeyPrefix prefixes p).keys ∧
    (∀ k, (∃ q ∈ (insertKeyPrefix prefixes p).keys, q <+: k) ↔
      (∃ q ∈ prefixes.keys, q <+: k) ∨ p <+: k) ∧
    (∀ k, containsPrefixOf prefixes k ↔ ∃ q ∈ prefixes.keys, q <+: k) ∧
    (new root.length (prefixes.keys.map (root ++ ·))).findKeys keys =
      keys.map fun k => decide (∃ q ∈ prefixes.keys, q <+: k) := by
  have hskip : (prefixes.keys.map (root ++ ·)).map (List.drop root.length) = prefixes.keys := by
    rw [List.map_map]
    exact List.map_id'' (fun q => List.drop_left) prefixes.keys
  refine ⟨fun v => inInterval_iff, prefixFree_insertKeyPrefix hfree p,
    exists_isPrefix_insertKeyPrefix hfree p, containsPrefixOf_iff hfree,
    findKeys_eq prefixes.pairwise_keys hfree hkeys fun k _ => ?_⟩
  have hready := ready_new root.length (prefixes.keys.map (root ++ ·)) k
  rwa [hskip] at hready

/-- Two prefixes at the end of the key space, and a new one that covers one of them. -/
theorem prefixes_exact_at_255 :
    (new 1 [[7, 4], [7, 255, 255]]).findKeys [[4], [4, 1], [255], [255, 255, 0]] =
      [true, true, false, true] ∧
    (insertKeyPrefix (.ofList [([4], ()), ([255, 255], ())]) [255]).keys = [[4], [255]] ∧
    ∀ v, inInterval [255] v ↔ [255] <+: v := by
  obtain ⟨hinterval, -, -, -, hfind⟩ :=
    @prefixes_exact (.ofList [([4], ()), ([255, 255], ())]) (by decide)
      [[4], [4, 1], [255], [255, 255, 0]] (by decide) [255] [7]
  exact ⟨hfind.trans (by decide), by decide, hinterval⟩

end SuffixClosedSetIterator

/-! ## Current values -/

section Overlay

variable {υ : Type}

/-- The value under a key: what the updates say, or else what is stored and not deleted. -/
def overlay (stored : BTreeMap Bytes υ) (deletionSet : DeletionSet)
    (updates : BTreeMap Bytes (Update υ)) (k : Bytes) : Option υ :=
  (updates.get k).elim (if deletionSet.containsPrefixOf k then none else stored.get k)
    Update.value?

/-- What is visited, for updates and stored entries that have lost a prefix: `full` puts it back
for the lookup among the deleted prefixes. -/
def visitOverlay (full : Bytes → Bytes) (stored : BTreeMap Bytes υ) (deletionSet : DeletionSet)
    (updates : BTreeMap Bytes (Update υ)) : List (Bytes × υ) :=
  if deletionSet.deleteStorageFirst then visitAll updates.entries
  else merge (fun it key => SuffixClosedSetIterator.findKey it (full key))
    (.new 0 deletionSet.deletedPrefixes.keys) stored.entries updates.entries

variable {stored : BTreeMap Bytes υ} {deletionSet : DeletionSet}
  {updates : BTreeMap Bytes (Update υ)}

/-- The updates, and the stored values where there is none, in terms of the value of a key. -/
theorem mem_updates_or_stored_iff {dead : Prop} [Decidable dead] {k : Bytes} {v : υ} :
    (k, .set v) ∈ updates.entries ∨
        (k, v) ∈ stored.entries ∧ k ∉ updates.entries.map Prod.fst ∧ ¬dead ↔
      (updates.get k).elim (if dead then none else stored.get k) Update.value? = some v := by
  rw [BTreeMap.mem_entries_iff, BTreeMap.mem_entries_iff,
    show updates.entries.map Prod.fst = updates.keys from rfl, BTreeMap.mem_keys_iff]
  cases updates.get k with
  | none => by_cases hdead : dead <;> simp [hdead]
  | some u => cases u <;> simp [Update.value?]

theorem visitOverlay_spec {full : Bytes → Bytes} (hfull : ∀ {a b}, a < b → full a < full b) :
    SortedBy Prod.fst (visitOverlay full stored deletionSet updates) ∧
      ∀ k v, (k, v) ∈ visitOverlay full stored deletionSet updates ↔
        (updates.get k).elim (if deletionSet.containsPrefixOf (full k) then none else stored.get k)
          Update.value? = some v := by
  cases hall : deletionSet.deleteStorageFirst with
  | true =>
    simp only [visitOverlay, hall, if_true]
    refine ⟨sortedBy_visitAll updates.sorted, fun k v => ?_⟩
    have hdeleted : deletionSet.containsPrefixOf (full k) = true := by
      simp [DeletionSet.containsPrefixOf, hall]
    rw [mem_visitAll, BTreeMap.mem_entries_iff, if_pos hdeleted]
    cases updates.get k with
    | none => simp
    | some u => cases u <;> simp [Update.value?]
  | false =>
    simp only [visitOverlay, hall, Bool.false_eq_true, if_false]
    obtain ⟨hsorted, hmem⟩ := merge_spec (SuffixClosedSetIterator.ready_findKey
        deletionSet.deletedPrefixes.pairwise_keys deletionSet.prefixFree full hfull)
      stored.sorted (fun e _ => SuffixClosedSetIterator.ready_start _ _) updates.sorted
    refine ⟨hsorted, fun k v => (hmem k v).trans ?_⟩
    have hdeleted : (∃ p ∈ deletionSet.deletedPrefixes.keys, p <+: full k) ↔
        deletionSet.containsPrefixOf (full k) := by
      simp [DeletionSet.containsPrefixOf_iff, hall]
    rw [hdeleted]
    exact mem_updates_or_stored_iff

/-- Two ordered lists with the same entries are the same. -/
theorem eq_entries_of_mem_iff {l : List (Bytes × υ)} (hl : SortedBy Prod.fst l)
    {m : BTreeMap Bytes υ} (hmem : ∀ k v, (k, v) ∈ l ↔ m.get k = some v) : l = m.entries := by
  have heq : (⟨l, hl⟩ : BTreeMap Bytes υ) = m := by
    refine BTreeMap.ext_get fun k => Option.ext fun v => ?_
    rw [← BTreeMap.mem_entries_iff]
    exact hmem k v
  rw [← heq]

/-- Under a prefix, the current entries of a map are visited in order. -/
theorem visitOverlay_under (p : Bytes) {m : BTreeMap Bytes υ}
    (hm : ∀ k, m.get k = overlay stored deletionSet updates k) :
    visitOverlay (p ++ ·) (contentsUnder p stored) deletionSet (contentsUnder p updates) =
      (contentsUnder p m).entries := by
  obtain ⟨hsorted, hmem⟩ := @visitOverlay_spec υ (contentsUnder p stored) deletionSet
    (contentsUnder p updates) (p ++ ·) fun h => (Bytes.append_lt_append_left_iff p _ _).mpr h
  refine eq_entries_of_mem_iff hsorted fun k v => (hmem k v).trans ?_
  rw [get_contentsUnder, get_contentsUnder, get_contentsUnder, hm, overlay]

/-- The loops that only visit keys visit those of the entries. -/
theorem visitOverlay_withoutValue {full : Bytes → Bytes}
    (hfull : ∀ {a b}, a < b → full a < full b) :
    (visitOverlay full (stored.mapValues fun _ => ()) deletionSet
        (updates.mapValues Update.withoutValue)).map Prod.fst =
      (visitOverlay full stored deletionSet updates).map Prod.fst := by
  obtain ⟨hsorted, hmem⟩ := @visitOverlay_spec υ stored deletionSet updates full hfull
  obtain ⟨hsorted', hmem'⟩ := @visitOverlay_spec Unit (stored.mapValues fun _ => ()) deletionSet
    (updates.mapValues Update.withoutValue) full hfull
  let visited : BTreeMap Bytes υ := ⟨_, hsorted⟩
  have hget : ∀ k, visited.get k = (updates.get k).elim
      (if deletionSet.containsPrefixOf (full k) then none else stored.get k) Update.value? := by
    intro k
    refine Option.ext fun v => ?_
    rw [← BTreeMap.mem_entries_iff]
    exact hmem k v
  have hentries : visitOverlay full (stored.mapValues fun _ => ()) deletionSet
      (updates.mapValues Update.withoutValue) = (visited.mapValues fun _ => ()).entries := by
    refine eq_entries_of_mem_iff hsorted' fun k v => (hmem' k v).trans ?_
    rw [BTreeMap.get_mapValues, BTreeMap.get_mapValues, BTreeMap.get_mapValues, hget]
    cases updates.get k with
    | none => cases deletionSet.containsPrefixOf (full k) <;> simp
    | some u => cases u <;> simp [Update.withoutValue, Update.value?]
  rw [hentries]
  simp [BTreeMap.mapValues, visited]

theorem overlay_new (k : Bytes) : overlay stored .new .empty k = stored.get k := by
  simp [overlay]

theorem overlay_clear (k : Bytes) : overlay stored deletionSet.clear .empty k = none := by
  simp [overlay]

theorem overlay_insert (key k : Bytes) (value : υ) :
    overlay stored deletionSet (updates.insert key (.set value)) k =
      if k = key then some value else overlay stored deletionSet updates k := by
  rw [overlay, BTreeMap.get_insert]
  by_cases hk : k = key <;> simp [hk, overlay, Update.value?]

/-- Removing a key: a key under a deleted prefix needs no mark of its own. -/
theorem overlay_remove (key k : Bytes) : overlay stored deletionSet
        (if deletionSet.containsPrefixOf key then updates.remove key
          else updates.insert key .removed) k =
      if k = key then none else overlay stored deletionSet updates k := by
  split
  · next hdeleted =>
    rw [overlay, BTreeMap.get_remove]
    by_cases hk : k = key
    · subst hk
      simp [hdeleted]
    · simp [hk, overlay]
  · rw [overlay, BTreeMap.get_insert]
    by_cases hk : k = key <;> simp [hk, overlay, Update.value?]

theorem overlay_removeByPrefix (p k : Bytes) :
    overlay stored (deletionSet.insertKeyPrefix p) (updates.retain fun key _ => !inInterval p key)
        k = if p <+: k then none else overlay stored deletionSet updates k := by
  rw [overlay, BTreeMap.get_retain]
  have hdeleted := deletionSet.containsPrefixOf_insertKeyPrefix p k
  by_cases hk : p <+: k
  · have hin : inInterval p k = true := inInterval_iff.mpr hk
    have hdel : (deletionSet.insertKeyPrefix p).containsPrefixOf k = true := hdeleted.mpr (.inr hk)
    cases updates.get k <;> simp [hk, hin, hdel, Option.filter]
  · have hin : inInterval p k = false := by
      rw [← Bool.not_eq_true, inInterval_iff]
      exact hk
    have hdel : (deletionSet.insertKeyPrefix p).containsPrefixOf k =
        deletionSet.containsPrefixOf k := by
      rw [Bool.eq_iff_iff, hdeleted]
      simp [hk]
    rw [if_neg hk, overlay, hdel]
    cases updates.get k <;> simp [hin, Option.filter]

end Overlay

end Linera.Views
