import Linera.Views.KeyValueStoreView

/-!
# The key-value store view as a byte map

The read paths of the key-value store view, and its accounting of sizes: the view
keeps the length of every value in a second map and the sum of all sizes, with
checked additions and plain subtractions of `u32`.

* `KeyValueStoreView.agrees_contents` — all reads are those of the contents of the view.
* `StoreView.Accounts` — the sizes are those of the contents, so that a subtraction never
  underflows.
* `StoreView.refines_byteMap` — over every sequence of commands the view acts like a plain
  map of which the last saved version is kept.
-/

namespace Linera.Views

/-! ## Read paths -/

namespace KeyValueStoreView

variable {η : Type} {sha3 : Bytes → η}

/-- The value under `index`, as far as it is known without reading the storage. -/
def read {α : Type} (view : KeyValueStoreView sha3) (ofUpdate : Update Bytes → α) (missing : α)
    (ofStorage : Bytes → α) (index : Bytes) : α :=
  match view.updates.get index with
  | some update => ofUpdate update
  | none => if view.deletionSet.containsPrefixOf index then missing else ofStorage index

def ensureKeySize (view : KeyValueStoreView sha3) (index : Bytes) : Except ViewError Unit :=
  if index.length ≤ view.maxKeySize then .ok () else .error .keyTooLong

def get (view : KeyValueStoreView sha3) (index : Bytes) : Except ViewError (Option Bytes) := do
  view.ensureKeySize index
  return view.read Update.value? none view.stored.get index

def containsKey (view : KeyValueStoreView sha3) (index : Bytes) : Except ViewError Bool := do
  view.ensureKeySize index
  return view.read (fun update => update.value?.isSome) false view.stored.containsKey index

/-- The state of the loops of `multi_get` and `contains_keys`: the results so far, and the
queries to the storage with the places of their answers. -/
structure Queries (α : Type) where
  results : List α
  missedIndices : List Nat
  vectorQuery : List Bytes

/-- One round of the loop. -/
def addQuery {α : Type} (view : KeyValueStoreView sha3) (ofUpdate : Update Bytes → α) (missing : α)
    (queries : Queries α) (i : Nat) (index : Bytes) : Queries α :=
  match view.updates.get index with
  | some update => { queries with results := queries.results ++ [ofUpdate update] }
  | none =>
    if view.deletionSet.containsPrefixOf index then
      { queries with results := queries.results ++ [missing] }
    else
      ⟨queries.results ++ [missing], queries.missedIndices ++ [i], queries.vectorQuery ++ [index]⟩

/-- The loop over the indices, from the `i`-th one. -/
def addQueries {α : Type} (view : KeyValueStoreView sha3) (ofUpdate : Update Bytes → α)
    (missing : α) : Queries α → Nat → List Bytes → Except ViewError (Queries α)
  | queries, _, [] => .ok queries
  | queries, i, index :: indices => do
    view.ensureKeySize index
    view.addQueries ofUpdate missing (view.addQuery ofUpdate missing queries i index) (i + 1)
      indices

/-- Puts the answers of the storage into their places. -/
def Queries.fill {α : Type} (queries : Queries α) (values : List α) : List α :=
  (queries.missedIndices.zip values).foldl (fun results e => results.set e.1 e.2) queries.results

def multiGet (view : KeyValueStoreView sha3) (indices : List Bytes) :
    Except ViewError (List (Option Bytes)) := do
  let queries ← view.addQueries Update.value? none ⟨[], [], []⟩ 0 indices
  return queries.fill (queries.vectorQuery.map view.stored.get)

def containsKeys (view : KeyValueStoreView sha3) (indices : List Bytes) :
    Except ViewError (List Bool) := do
  let queries ← view.addQueries (fun update => update.value?.isSome) false ⟨[], [], []⟩ 0 indices
  return queries.fill (queries.vectorQuery.map view.stored.containsKey)

def indices (view : KeyValueStoreView sha3) : List Bytes :=
  (visitOverlay id (view.stored.mapValues fun _ => ()) view.deletionSet
    (view.updates.mapValues Update.withoutValue)).map Prod.fst

def indexValues (view : KeyValueStoreView sha3) : List (Bytes × Bytes) :=
  forEachIndexValue view.stored view.deletionSet view.updates

def findKeysByPrefix (view : KeyValueStoreView sha3) (keyPrefix : Bytes) :
    Except ViewError (List Bytes) := do
  view.ensureKeySize keyPrefix
  return (visitOverlay (keyPrefix ++ ·) ((contentsUnder keyPrefix view.stored).mapValues fun _ => ())
    view.deletionSet ((contentsUnder keyPrefix view.updates).mapValues Update.withoutValue)).map
      Prod.fst

def findKeyValuesByPrefix (view : KeyValueStoreView sha3) (keyPrefix : Bytes) :
    Except ViewError (List (Bytes × Bytes)) := do
  view.ensureKeySize keyPrefix
  return visitOverlay (keyPrefix ++ ·) (contentsUnder keyPrefix view.stored) view.deletionSet
    (contentsUnder keyPrefix view.updates)

-- The reads are those of the contents: first the single ones, then the loops that put off the
-- queries to the storage, then the merges.

theorem ensureKeySize_eq_ok {view : KeyValueStoreView sha3} {index : Bytes}
    (h : index.length ≤ view.maxKeySize) : view.ensureKeySize index = .ok () :=
  if_pos h

variable {α : Type} {queries : Queries α}

theorem read_eq (view : KeyValueStoreView sha3) (f : Option Bytes → α) (index : Bytes) :
    view.read (fun update => f update.value?) (f none) (fun k => f (view.stored.get k)) index =
      f (view.contents.get index) := by
  rw [get_contents, overlay, read]
  cases view.updates.get index with
  | some update => rfl
  | none => cases view.deletionSet.containsPrefixOf index <;> rfl

theorem length_foldl_set (es : List (Nat × α)) (results : List α) :
    (es.foldl (fun results e => results.set e.1 e.2) results).length = results.length := by
  induction es generalizing results with
  | nil => rfl
  | cons e es ih => rw [List.foldl_cons, ih, List.length_set]

theorem foldl_set_append (es : List (Nat × α)) (results : List α) (x : α)
    (h : ∀ e ∈ es, e.1 < results.length) :
    es.foldl (fun results e => results.set e.1 e.2) (results ++ [x]) =
      es.foldl (fun results e => results.set e.1 e.2) results ++ [x] := by
  induction es generalizing results with
  | nil => rfl
  | cons e es ih =>
    have hrest : ∀ e' ∈ es, e'.1 < (results.set e.1 e.2).length := fun e' he' => by
      rw [List.length_set]
      exact h e' (List.mem_cons_of_mem _ he')
    rw [List.foldl_cons, List.foldl_cons,
      List.set_append_left _ _ (h e List.mem_cons_self), ih _ hrest]

/-- The queries belong to places among the results. -/
structure Queries.WellPlaced {α : Type} (queries : Queries α) : Prop where
  length : queries.missedIndices.length = queries.vectorQuery.length
  lt : ∀ i ∈ queries.missedIndices, i < queries.results.length

theorem Queries.WellPlaced.zip_lt (h : queries.WellPlaced) {values : List α} :
    ∀ e ∈ queries.missedIndices.zip values, e.1 < queries.results.length :=
  fun _ he => h.lt _ (List.of_mem_zip he).1

section Loops

variable (view : KeyValueStoreView sha3) (f : Option Bytes → α)

/-- One round adds the value under the index to the filled results. -/
theorem addQuery_spec (h : queries.WellPlaced) (index : Bytes) {queries' : Queries α}
    (hqueries' : queries' = view.addQuery (fun update => f update.value?) (f none) queries
      queries.results.length index) :
    queries'.WellPlaced ∧ queries'.results.length = queries.results.length + 1 ∧
      queries'.fill (queries'.vectorQuery.map fun k => f (view.stored.get k)) =
        queries.fill (queries.vectorQuery.map fun k => f (view.stored.get k)) ++
          [f (view.contents.get index)] := by
  have hread := view.read_eq f index
  have hlt : ∀ x : α, ∀ i ∈ queries.missedIndices, i < (queries.results ++ [x]).length := by
    intro x i hi
    have := h.lt i hi
    simp only [List.length_append, List.length_singleton]
    omega
  unfold addQuery at hqueries'
  unfold read at hread
  split at hqueries'
  · next update hget =>
    simp only [hget] at hread
    subst hqueries'
    refine ⟨⟨h.length, hlt _⟩, by simp, ?_⟩
    rw [← hread]
    exact foldl_set_append _ _ _ h.zip_lt
  · next hget =>
    simp only [hget] at hread
    split at hqueries'
    · next hdeleted =>
      rw [if_pos hdeleted] at hread
      subst hqueries'
      refine ⟨⟨h.length, hlt _⟩, by simp, ?_⟩
      rw [← hread]
      exact foldl_set_append _ _ _ h.zip_lt
    · next hdeleted =>
      rw [if_neg hdeleted] at hread
      subst hqueries'
      refine ⟨⟨by simp [h.length], fun i hi => ?_⟩, by simp, ?_⟩
      · rcases List.mem_append.mp hi with hi | hi
        · exact hlt _ i hi
        · rw [List.mem_singleton.mp hi]
          simp
      · have hlength : queries.missedIndices.length =
            (queries.vectorQuery.map fun k => f (view.stored.get k)).length := by
          rw [List.length_map]
          exact h.length
        -- the last answer goes to the place that was added last
        rw [Queries.fill, List.map_append, List.zip_append hlength, List.foldl_append,
          foldl_set_append _ _ _ h.zip_lt, ← hread]
        have hlast := length_foldl_set (queries.missedIndices.zip
          (queries.vectorQuery.map fun k => f (view.stored.get k))) queries.results
        simp only [List.map_cons, List.map_nil, List.zip_cons_cons, List.zip_nil_right,
          List.foldl_cons, List.foldl_nil]
        rw [List.set_append_right _ _ hlast.le, hlast, Nat.sub_self]
        rfl

theorem addQueries_spec (h : queries.WellPlaced) {indices : List Bytes}
    (hindices : ∀ index ∈ indices, index.length ≤ view.maxKeySize) :
    ∃ queries', view.addQueries (fun update => f update.value?) (f none) queries
        queries.results.length indices = .ok queries' ∧
      queries'.fill (queries'.vectorQuery.map fun k => f (view.stored.get k)) =
        queries.fill (queries.vectorQuery.map fun k => f (view.stored.get k)) ++
          indices.map fun index => f (view.contents.get index) := by
  induction indices generalizing queries with
  | nil => exact ⟨queries, rfl, by simp⟩
  | cons index indices ih =>
    obtain ⟨hindex, hindices⟩ := List.forall_mem_cons.mp hindices
    obtain ⟨hplaced, hlength, hfill⟩ := view.addQuery_spec f h index rfl
    obtain ⟨queries', hloop, hfill'⟩ := ih hplaced hindices
    refine ⟨queries', ?_, ?_⟩
    · rw [addQueries, ensureKeySize_eq_ok hindex]
      rw [hlength] at hloop
      exact hloop
    · rw [hfill', hfill, List.append_assoc, List.map_cons, List.singleton_append]

/-- The loops answer with what is under the indices. -/
theorem fill_addQueries {indices : List Bytes}
    (hindices : ∀ index ∈ indices, index.length ≤ view.maxKeySize) :
    (do let queries ← view.addQueries (fun update => f update.value?) (f none) ⟨[], [], []⟩ 0 indices
        return queries.fill (queries.vectorQuery.map fun k => f (view.stored.get k))) =
      (.ok (indices.map fun index => f (view.contents.get index)) : Except ViewError (List α)) := by
  have hstart : (⟨[], [], []⟩ : Queries α).WellPlaced := ⟨rfl, List.forall_mem_nil _⟩
  obtain ⟨queries', hloop, hfill⟩ := view.addQueries_spec f hstart hindices
  rw [show (0 : Nat) = ([] : List α).length from rfl, hloop]
  exact congrArg Except.ok hfill

end Loops

/-- All reads of the view, for keys up to the size limit, are those of a plain map. -/
structure Agrees (view : KeyValueStoreView sha3) (m : KeyValueMap) : Prop where
  get : ∀ {index}, index.length ≤ view.maxKeySize → view.get index = .ok (m.get index)
  containsKey : ∀ {index}, index.length ≤ view.maxKeySize →
    view.containsKey index = .ok (m.containsKey index)
  containsKeys : ∀ {indices : List Bytes}, (∀ index ∈ indices, index.length ≤ view.maxKeySize) →
    view.containsKeys indices = .ok (indices.map m.containsKey)
  multiGet : ∀ {indices : List Bytes}, (∀ index ∈ indices, index.length ≤ view.maxKeySize) →
    view.multiGet indices = .ok (indices.map m.get)
  indices : view.indices = m.keys
  indexValues : view.indexValues = m.entries
  findKeysByPrefix : ∀ {p}, p.length ≤ view.maxKeySize →
    view.findKeysByPrefix p = .ok (contentsUnder p m).keys
  findKeyValuesByPrefix : ∀ {p}, p.length ≤ view.maxKeySize →
    view.findKeyValuesByPrefix p = .ok (contentsUnder p m).entries
  increasing : ∀ p, (contentsUnder p m).keys.Pairwise (· < ·)

/-- **The read paths of the view agree**, with its contents and with each other. -/
theorem agrees_contents (view : KeyValueStoreView sha3) : view.Agrees view.contents where
  get {index} h := by
    rw [get, ensureKeySize_eq_ok h]
    exact congrArg Except.ok (view.read_eq id index)
  containsKey {index} h := by
    rw [containsKey, ensureKeySize_eq_ok h]
    exact congrArg Except.ok (view.read_eq Option.isSome index)
  containsKeys h := view.fill_addQueries Option.isSome h
  multiGet h := view.fill_addQueries id h
  indices := by
    have hkeys := @visitOverlay_withoutValue _ view.stored view.deletionSet view.updates id id
    have hentries : visitOverlay id view.stored view.deletionSet view.updates =
        view.contents.entries := by
      obtain ⟨hsorted, hmem⟩ := @visitOverlay_spec _ view.stored view.deletionSet view.updates id id
      refine eq_entries_of_mem_iff hsorted fun k v => (hmem k v).trans ?_
      rw [get_contents, overlay]
      rfl
    rw [indices, hkeys, hentries]
    rfl
  indexValues := rfl
  findKeysByPrefix {p} h := by
    rw [findKeysByPrefix, ensureKeySize_eq_ok h, visitOverlay_withoutValue
      fun h => (Bytes.append_lt_append_left_iff p _ _).mpr h, visitOverlay_under p view.get_contents]
    rfl
  findKeyValuesByPrefix {p} h := by
    rw [findKeyValuesByPrefix, ensureKeySize_eq_ok h, visitOverlay_under p view.get_contents]
    rfl
  increasing p := (contentsUnder p view.contents).pairwise_keys

end KeyValueStoreView

/-! ## The map of sizes -/

/-- A view of a map indexed by byte strings, over the values stored below its base key. -/
structure ByteMapView (υ : Type) where
  stored : BTreeMap Bytes υ
  deletionSet : DeletionSet
  updates : BTreeMap Bytes (Update υ)

namespace ByteMapView

variable {υ : Type}

def load (stored : BTreeMap Bytes υ) : ByteMapView υ := ⟨stored, .new, .empty⟩

def rollback (v : ByteMapView υ) : ByteMapView υ := load v.stored

def clear (v : ByteMapView υ) : ByteMapView υ :=
  { v with updates := .empty, deletionSet := v.deletionSet.clear }

def insert (v : ByteMapView υ) (key : Bytes) (value : υ) : ByteMapView υ :=
  { v with updates := v.updates.insert key (.set value) }

def remove (v : ByteMapView υ) (key : Bytes) : ByteMapView υ :=
  { v with updates :=
      if v.deletionSet.containsPrefixOf key then v.updates.remove key
      else v.updates.insert key .removed }

def removeByPrefix (v : ByteMapView υ) (keyPrefix : Bytes) : ByteMapView υ :=
  { v with
    updates := v.updates.retain fun key _ => !inInterval keyPrefix key
    deletionSet := v.deletionSet.insertKeyPrefix keyPrefix }

def get (v : ByteMapView υ) (key : Bytes) : Option υ :=
  match v.updates.get key with
  | some update => update.value?
  | none => if v.deletionSet.containsPrefixOf key then none else v.stored.get key

/-- The entries under a prefix. The iterator goes over the deleted prefixes under it only. -/
def keyValuesByPrefix (v : ByteMapView υ) (keyPrefix : Bytes) : List (Bytes × υ) :=
  let updates := (contentsUnder keyPrefix v.updates).entries
  let visited :=
    if v.deletionSet.containsPrefixOf keyPrefix then visitAll updates
    else merge SuffixClosedSetIterator.findKey
      (.new keyPrefix.length
        (v.deletionSet.deletedPrefixes.keys.filter fun p => keyPrefix.isPrefixOf p))
      (contentsUnder keyPrefix v.stored).entries updates
  visited.map fun e => (keyPrefix ++ e.1, e.2)

/-- What one staged update does to the stored values. -/
def writeUpdate (m : BTreeMap Bytes υ) (u : Bytes × Update υ) : BTreeMap Bytes υ :=
  match u.2 with
  | .removed => m.remove u.1
  | .set value => m.insert u.1 value

/-- The stored values after the batch of `flush` was written. -/
def flushed (v : ByteMapView υ) : BTreeMap Bytes υ :=
  if v.deletionSet.deleteStorageFirst then
    (visitAll v.updates.entries).foldl (fun m e => m.insert e.1 e.2) .empty
  else
    v.updates.entries.foldl writeUpdate
      (v.deletionSet.deletedPrefixes.keys.foldl
        (fun m p => m.retain fun key _ => !p.isPrefixOf key) v.stored)

def save (v : ByteMapView υ) : ByteMapView υ := load v.flushed

variable (v : ByteMapView υ)

theorem get_eq_overlay (k : Bytes) : v.get k = overlay v.stored v.deletionSet v.updates k := by
  rw [get, overlay]
  cases v.updates.get k <;> rfl

@[simp] theorem get_load (stored : BTreeMap Bytes υ) (k : Bytes) : (load stored).get k = stored.get k :=
  (get_eq_overlay _ k).trans (overlay_new k)

@[simp] theorem get_clear (k : Bytes) : v.clear.get k = none :=
  (get_eq_overlay _ k).trans (@overlay_clear υ v.stored v.deletionSet k)

theorem get_insert (key k : Bytes) (value : υ) :
    (v.insert key value).get k = if k = key then some value else v.get k := by
  rw [get_eq_overlay, get_eq_overlay]
  exact overlay_insert key k value

theorem get_remove (key k : Bytes) : (v.remove key).get k = if k = key then none else v.get k := by
  rw [get_eq_overlay, get_eq_overlay]
  exact overlay_remove key k

theorem get_removeByPrefix (p k : Bytes) :
    (v.removeByPrefix p).get k = if p <+: k then none else v.get k := by
  rw [get_eq_overlay, get_eq_overlay]
  exact overlay_removeByPrefix p k

theorem get_foldl_remove (entries : List (Bytes × υ)) (k : Bytes) :
    (entries.foldl (fun v e => v.remove e.1) v).get k =
      if k ∈ entries.map Prod.fst then none else v.get k := by
  induction entries generalizing v with
  | nil => simp
  | cons e entries ih =>
    rw [List.foldl_cons, ih, get_remove, List.map_cons]
    by_cases hk : k = e.1
    · simp [hk]
    · simp only [hk, if_false, List.mem_cons, false_or]

theorem foldl_remove_keeps (entries : List (Bytes × υ)) :
    (entries.foldl (fun v e => v.remove e.1) v).stored = v.stored ∧
    (entries.foldl (fun v e => v.remove e.1) v).deletionSet.deleteStorageFirst =
      v.deletionSet.deleteStorageFirst := by
  induction entries generalizing v with
  | nil => exact ⟨rfl, rfl⟩
  | cons e entries ih => exact ih (v.remove e.1)

theorem deleteStorageFirst_removeByPrefix (p : Bytes) :
    (v.removeByPrefix p).deletionSet.deleteStorageFirst = v.deletionSet.deleteStorageFirst :=
  v.deletionSet.deleteStorageFirst_insertKeyPrefix p

theorem get_foldl_writeUpdate {updates : List (Bytes × Update υ)}
    (hu : SortedBy Prod.fst updates) (m : BTreeMap Bytes υ) (k : Bytes) :
    (updates.foldl writeUpdate m).get k =
      (BTreeMap.lookup k updates).elim (m.get k) Update.value? := by
  refine BTreeMap.foldl_of_sorted (·.get k) (fun u _ => u.value?) (fun m u => ?_)
    (fun m key u hk => ?_) hu m
  · cases u <;> simp [writeUpdate, BTreeMap.get_insert, BTreeMap.get_remove, Update.value?]
  · cases u <;> simp [writeUpdate, BTreeMap.get_insert, BTreeMap.get_remove, hk]

theorem get_foldl_insert {updates : List (Bytes × Update υ)} (hu : SortedBy Prod.fst updates)
    (m : BTreeMap Bytes υ) (k : Bytes) :
    ((visitAll updates).foldl (fun m e => m.insert e.1 e.2) m).get k =
      ((BTreeMap.lookup k updates).bind Update.value?).or (m.get k) := by
  rw [visitAll, List.foldl_flatMap,
    BTreeMap.foldl_of_sorted (·.get k) (fun u v => u.value?.or v) (fun m u => ?_)
      (fun m key u hk => ?_) hu m]
  · cases BTreeMap.lookup k updates <;> rfl
  · cases u <;> simp [Update.visit, BTreeMap.get_insert, Update.value?]
  · cases u <;> simp [Update.visit, BTreeMap.get_insert, hk]

theorem get_foldl_retain (prefixes : List Bytes) (m : BTreeMap Bytes υ) (k : Bytes) :
    (prefixes.foldl (fun m p => m.retain fun key _ => !p.isPrefixOf key) m).get k =
      if ∃ p ∈ prefixes, p <+: k then none else m.get k := by
  induction prefixes generalizing m with
  | nil => simp
  | cons p prefixes ih =>
    rw [List.foldl_cons, ih, BTreeMap.get_retain]
    by_cases hp : p <+: k
    · cases m.get k <;> simp [hp, Option.filter]
    · have hnot : p.isPrefixOf k = false := by
        rw [Bool.eq_false_iff]
        simpa using hp
      cases m.get k <;> simp [hp, hnot, Option.filter]

theorem get_of_deleteStorageFirst {v : ByteMapView υ}
    (hfirst : v.deletionSet.deleteStorageFirst = true) (stored : BTreeMap Bytes υ) (k : Bytes) :
    ({ v with stored := stored } : ByteMapView υ).get k = v.get k := by
  have hdeleted : v.deletionSet.containsPrefixOf k = true := by
    simp [DeletionSet.containsPrefixOf, hfirst]
  rw [get_eq_overlay, get_eq_overlay, overlay, overlay, if_pos hdeleted, if_pos hdeleted]

/-- What `flush` writes turns the stored values into the current ones. -/
theorem get_flushed (k : Bytes) : v.flushed.get k = v.get k := by
  rw [get_eq_overlay, overlay, flushed]
  cases hall : v.deletionSet.deleteStorageFirst with
  | true =>
    have hdeleted : v.deletionSet.containsPrefixOf k = true := by
      simp [DeletionSet.containsPrefixOf, hall]
    rw [if_pos rfl, get_foldl_insert v.updates.sorted, if_pos hdeleted,
      BTreeMap.get.eq_def v.updates]
    cases BTreeMap.lookup k v.updates.entries <;> simp
  | false =>
    have hdeleted : v.deletionSet.containsPrefixOf k ↔
        ∃ p ∈ v.deletionSet.deletedPrefixes.keys, p <+: k := by
      simp [DeletionSet.containsPrefixOf_iff, hall]
    rw [if_neg (by simp), get_foldl_writeUpdate v.updates.sorted, get_foldl_retain]
    simp only [hdeleted]
    rfl

/-- The deleted prefixes under `p`, without `p`. -/
theorem map_drop_filter_eq_keys (prefixes : BTreeSet Bytes) (p : Bytes) :
    (prefixes.keys.filter fun q => p.isPrefixOf q).map (List.drop p.length) =
      (contentsUnder p prefixes).keys := by
  simp only [BTreeMap.keys, contentsUnder, List.filter_map, List.map_map]
  rfl

theorem prefixFree_contentsUnder {prefixes : BTreeSet Bytes} (hmin : PrefixFree prefixes.keys)
    (p : Bytes) : PrefixFree (contentsUnder p prefixes).keys := by
  intro q hq r hr hqr
  have heq := hmin _ (mem_keys_contentsUnder.mp hq) _ (mem_keys_contentsUnder.mp hr)
    ((List.prefix_append_right_inj p).mpr hqr)
  exact List.append_cancel_left heq

/-- A key under `p` is deleted by a prefix of `p`, or by a prefix under `p`. -/
theorem containsPrefixOf_append_iff (deletionSet : DeletionSet) (p k : Bytes) :
    deletionSet.containsPrefixOf (p ++ k) ↔ deletionSet.containsPrefixOf p ∨
      ∃ q ∈ (contentsUnder p deletionSet.deletedPrefixes).keys, q <+: k := by
  simp only [DeletionSet.containsPrefixOf_iff, mem_keys_contentsUnder]
  constructor
  · rintro (hall | ⟨d, hd, hdk⟩)
    · exact .inl (.inl hall)
    · rcases List.prefix_or_prefix_of_prefix hdk (List.prefix_append p k) with hdp | ⟨q, rfl⟩
      · exact .inl (.inr ⟨d, hd, hdp⟩)
      · exact .inr ⟨q, hd, (List.prefix_append_right_inj p).mp hdk⟩
  · rintro ((hall | ⟨d, hd, hdp⟩) | ⟨q, hq, hqk⟩)
    · exact .inl hall
    · exact .inr ⟨d, hd, hdp.trans (List.prefix_append p k)⟩
    · exact .inr ⟨p ++ q, hq, (List.prefix_append_right_inj p).mpr hqk⟩

theorem map_append_contentsUnder (p : Bytes) (m : BTreeMap Bytes υ) :
    (contentsUnder p m).entries.map (fun e => (p ++ e.1, e.2)) =
      (m.retain fun key _ => p.isPrefixOf key).entries := by
  simp only [contentsUnder, List.map_map, BTreeMap.retain]
  refine (List.map_congr_left fun e he => ?_).trans (List.map_id _)
  obtain ⟨k, hk⟩ : p <+: e.1 := by simpa using (List.mem_filter.mp he).2
  refine Prod.ext ?_ rfl
  change p ++ e.1.drop p.length = e.1
  rw [← hk, List.drop_left]

/-- The entries under a prefix are those of the current map. -/
theorem keyValuesByPrefix_eq (p : Bytes) {m : BTreeMap Bytes υ} (hm : ∀ k, m.get k = v.get k) :
    v.keyValuesByPrefix p = (m.retain fun key _ => p.isPrefixOf key).entries := by
  rw [← map_append_contentsUnder, keyValuesByPrefix]
  refine congrArg (List.map _) ?_
  have hvalue : ∀ k, (contentsUnder p m).get k = ((contentsUnder p v.updates).get k).elim
      (if v.deletionSet.containsPrefixOf (p ++ k) then none else (contentsUnder p v.stored).get k)
      Update.value? := fun k => by
    rw [get_contentsUnder, get_contentsUnder, get_contentsUnder, hm, get_eq_overlay, overlay]
  split
  · next hdeleted =>
    refine eq_entries_of_mem_iff (sortedBy_visitAll (contentsUnder p v.updates).sorted)
      fun k x => mem_visitAll.trans ?_
    rw [BTreeMap.mem_entries_iff, hvalue,
      if_pos ((containsPrefixOf_append_iff v.deletionSet p k).mpr (.inl hdeleted))]
    cases (contentsUnder p v.updates).get k with
    | none => simp
    | some u => cases u <;> simp [Update.value?]
  · next hdeleted =>
    have hanswers := SuffixClosedSetIterator.ready_findKey
      (contentsUnder p v.deletionSet.deletedPrefixes).pairwise_keys
      (prefixFree_contentsUnder v.deletionSet.prefixFree p) id id
    have hready := SuffixClosedSetIterator.ready_new p.length
      (v.deletionSet.deletedPrefixes.keys.filter fun q => p.isPrefixOf q)
    rw [map_drop_filter_eq_keys] at hready
    obtain ⟨hsorted, hmem⟩ := merge_spec hanswers (contentsUnder p v.stored).sorted
      (fun e _ => hready e.1) (contentsUnder p v.updates).sorted
    refine eq_entries_of_mem_iff hsorted fun k x => (hmem k x).trans ?_
    have hiff : v.deletionSet.containsPrefixOf (p ++ k) ↔
        ∃ q ∈ (contentsUnder p v.deletionSet.deletedPrefixes).keys, q <+: id k := by
      rw [containsPrefixOf_append_iff]
      simp [hdeleted]
    rw [hvalue, ← hiff]
    exact mem_updates_or_stored_iff

end ByteMapView

/-! ## Accounting -/

/-- The sums of the sizes of keys and values, as `u32`. -/
structure SizeData where
  key : Nat
  value : Nat
deriving DecidableEq

/-- Why an operation was not performed. -/
inductive WriteFailure where
  | viewError (error : ViewError)
  /-- `ArithmeticError::Overflow`. -/
  | overflow
  /-- A plain subtraction underflows, and the program panics. -/
  | underflow
deriving DecidableEq

namespace SizeData

def default : SizeData := ⟨0, 0⟩

/-- Adds a size. The sum of the keys is updated even if that of the values overflows. -/
def addAssign (s size : SizeData) : SizeData × Except WriteFailure Unit :=
  if s.key + size.key < 2 ^ 32 then
    if s.value + size.value < 2 ^ 32 then (⟨s.key + size.key, s.value + size.value⟩, .ok ())
    else (⟨s.key + size.key, s.value⟩, .error .overflow)
  else (s, .error .overflow)

def subAssign (s size : SizeData) : Except WriteFailure SizeData :=
  if size.key ≤ s.key ∧ size.value ≤ s.value then .ok ⟨s.key - size.key, s.value - size.value⟩
  else .error .underflow

/-- The sums over a map from keys to the sizes of their values. -/
def ofSizes (sizes : BTreeMap Bytes Nat) : SizeData :=
  ⟨sizes.sumBy fun key _ => key.length % 2 ^ 32, sizes.sumBy fun _ value => value⟩

instance : Add SizeData := ⟨fun s t => ⟨s.key + t.key, s.value + t.value⟩⟩

@[simp] theorem key_add (s t : SizeData) : (s + t).key = s.key + t.key := rfl

@[simp] theorem value_add (s t : SizeData) : (s + t).value = s.value + t.value := rfl

@[ext] theorem ext {s t : SizeData} (hkey : s.key = t.key) (hvalue : s.value = t.value) : s = t := by
  cases s
  cases t
  simp_all

/-- An addition succeeds, or reports an overflow and leaves a total that is not smaller. -/
theorem addAssign_cases (s size : SizeData) : s.addAssign size = (s + size, .ok ()) ∨
      (∃ extra, s.addAssign size = (s + extra, .error .overflow)) ∧
        ¬(s.key + size.key < 2 ^ 32 ∧ s.value + size.value < 2 ^ 32) := by
  rw [addAssign]
  split
  · split
    · exact .inl rfl
    · next hvalue => exact .inr ⟨⟨⟨size.key, 0⟩, rfl⟩, fun h => hvalue h.2⟩
  · next hkey => exact .inr ⟨⟨⟨0, 0⟩, rfl⟩, fun h => hkey h.1⟩

theorem subAssign_add (s size : SizeData) : (s + size).subAssign size = .ok s := by
  rw [subAssign, if_pos ⟨Nat.le_add_left .., Nat.le_add_left ..⟩]
  refine congrArg Except.ok (ext ?_ ?_) <;> exact Nat.add_sub_cancel ..

end SizeData

/-- The whole view: the entries with their staged changes, the total size that is stored and the
current one, and the sizes of the values. -/
structure StoreView {η : Type} (sha3 : Bytes → η) where
  view : KeyValueStoreView sha3
  storedTotalSize : SizeData
  totalSize : SizeData
  sizes : ByteMapView Nat

namespace StoreView

variable {η : Type} {sha3 : Bytes → η}

/-- Takes the sizes of several entries out of the total. -/
def subtractAll : SizeData → List (Bytes × Nat) → Except WriteFailure SizeData
  | total, [] => .ok total
  | total, (key, value) :: entries => do
    let total ← total.subAssign ⟨key.length % 2 ^ 32, value⟩
    subtractAll total entries

/-- The accounting for one operation of `write_batch`. -/
def account (s : StoreView sha3) : WriteOperation → StoreView sha3 × Except WriteFailure Unit
  | .delete key =>
    match s.sizes.get key with
    | none => ({ s with sizes := s.sizes.remove key }, .ok ())
    | some value =>
      if key.length < 2 ^ 32 then
        match s.totalSize.subAssign ⟨key.length, value⟩ with
        | .ok total => ({ s with totalSize := total, sizes := s.sizes.remove key }, .ok ())
        | .error failure => (s, .error failure)
      else (s, .error .overflow)
  | .put key value =>
    match s.totalSize.addAssign ⟨key.length % 2 ^ 32, value.length % 2 ^ 32⟩ with
    | (total, .error failure) => ({ s with totalSize := total }, .error failure)
    | (total, .ok ()) =>
      let sizes := s.sizes.insert key (value.length % 2 ^ 32)
      match s.sizes.get key with
      | none => ({ s with totalSize := total, sizes := sizes }, .ok ())
      | some old =>
        -- the entry that is replaced does not count any more
        match total.subAssign ⟨key.length % 2 ^ 32, old⟩ with
        | .ok total => ({ s with totalSize := total, sizes := sizes }, .ok ())
        | .error failure => ({ s with totalSize := total }, .error failure)
  | .deletePrefix keyPrefix =>
    let keyValues := s.sizes.keyValuesByPrefix keyPrefix
    match subtractAll s.totalSize keyValues with
    | .ok total =>
      ({ s with
        totalSize := total
        sizes := (keyValues.foldl (fun v e => v.remove e.1) s.sizes).removeByPrefix keyPrefix },
        .ok ())
    | .error failure => (s, .error failure)

/-- One operation of `write_batch`. -/
def applyOperation (s : StoreView sha3) (op : WriteOperation) :
    StoreView sha3 × Except WriteFailure Unit :=
  if op.target.length ≤ s.view.maxKeySize then
    match s.account op with
    | (s', .ok ()) => ({ s' with view := s.view.applyOperation op }, .ok ())
    | (s', .error failure) => (s', .error failure)
  else (s, .error (.viewError .keyTooLong))

/-- The loop of `write_batch`. An operation that is refused leaves those before it in effect. -/
def applyOperations (s : StoreView sha3) :
    List WriteOperation → StoreView sha3 × Except WriteFailure Unit
  | [] => (s, .ok ())
  | op :: ops =>
    match s.applyOperation op with
    | (s', .ok ()) => s'.applyOperations ops
    | (s', .error failure) => (s', .error failure)

/-- The calls that change the view, or write it. -/
inductive Command where
  | writeBatch (batch : Batch)
  | clear
  | rollback
  /-- `flush`, and writing the batch. -/
  | save
  /-- `flush`, writing the batch, and loading the view from the storage. -/
  | reload
deriving DecidableEq

def perform (s : StoreView sha3) : Command → StoreView sha3 × Except WriteFailure Unit
  | .writeBatch batch =>
    ({ s with view := s.view.stage s.view.deletionSet s.view.updates } : StoreView sha3).applyOperations
      batch.operations
  | .clear =>
    ({ s with view := s.view.clear, totalSize := .default, sizes := s.sizes.clear }, .ok ())
  | .rollback =>
    ({ s with view := s.view.rollback, totalSize := s.storedTotalSize, sizes := s.sizes.rollback },
      .ok ())
  | .save | .reload =>
    -- the prefix that is deleted first holds the sizes, too
    let sizes :=
      if s.view.deletionSet.deleteStorageFirst then { s.sizes with stored := .empty } else s.sizes
    (⟨s.view.save, s.totalSize, s.totalSize, sizes.save⟩, .ok ())

/-- Performs commands one after another; a refused batch does not stop the caller. -/
def run (s : StoreView sha3) : List Command → StoreView sha3 × List (Except WriteFailure Unit)
  | [] => (s, [])
  | command :: commands =>
    let (s, result) := s.perform command
    let (s, results) := s.run commands
    (s, result :: results)

def new (sha3 : Bytes → η) (maxKeySize : Nat) : StoreView sha3 :=
  ⟨.load sha3 maxKeySize .empty none (by simp), .default, .default, .load .empty⟩

/-! ## The totals never underflow -/

/-- The size of every value, as a `u32`. -/
def sizesOf (m : KeyValueMap) : BTreeMap Bytes Nat := m.mapValues fun value => value.length % 2 ^ 32

/-- What an operation does to the sizes. -/
def resize : WriteOperation → BTreeMap Bytes Nat → BTreeMap Bytes Nat
  | .delete key, sizes => sizes.remove key
  | .deletePrefix keyPrefix, sizes => sizes.retain fun key _ => !keyPrefix.isPrefixOf key
  | .put key value, sizes => sizes.insert key (value.length % 2 ^ 32)

theorem sizesOf_apply (op : WriteOperation) (m : KeyValueMap) :
    sizesOf (op.apply m) = resize op (sizesOf m) := by
  refine BTreeMap.ext_get fun k => ?_
  cases op with
  | delete key =>
    simp only [sizesOf, resize, WriteOperation.apply, BTreeMap.get_mapValues, BTreeMap.get_remove]
    split <;> rfl
  | put key value =>
    simp only [sizesOf, resize, WriteOperation.apply, BTreeMap.get_mapValues, BTreeMap.get_insert]
    split <;> rfl
  | deletePrefix p =>
    simp only [sizesOf, resize, WriteOperation.apply, BTreeMap.get_mapValues, BTreeMap.get_retain]
    cases m.get k with
    | none => rfl
    | some value => cases hp : p.isPrefixOf k <;> simp [Option.filter]

theorem subtractAll_add (total : SizeData) (entries : List (Bytes × Nat)) :
    subtractAll (total + ⟨(entries.map fun e => e.1.length % 2 ^ 32).sum,
      (entries.map fun e => e.2).sum⟩) entries = .ok total := by
  induction entries generalizing total with
  | nil => rfl
  | cons e entries ih =>
    obtain ⟨key, value⟩ := e
    rw [subtractAll]
    have hsum : total + ⟨(((key, value) :: entries).map fun e => e.1.length % 2 ^ 32).sum,
          (((key, value) :: entries).map fun e => e.2).sum⟩ =
        total + ⟨(entries.map fun e => e.1.length % 2 ^ 32).sum, (entries.map fun e => e.2).sum⟩ +
          ⟨key.length % 2 ^ 32, value⟩ := by
      ext <;> simp only [SizeData.key_add, SizeData.value_add, List.map_cons, List.sum_cons] <;> omega
    rw [hsum, SizeData.subAssign_add]
    exact ih total

/-- What `account` does to a view whose sizes are `sizes` and whose total exceeds them by
`surplus`. -/
structure Accounted (s s' : StoreView sha3) (sizes : BTreeMap Bytes Nat) (surplus : SizeData) :
    Prop where
  view : s'.view = s.view
  storedTotalSize : s'.storedTotalSize = s.storedTotalSize
  stored : s'.sizes.stored = s.sizes.stored
  deleteStorageFirst :
    s'.sizes.deletionSet.deleteStorageFirst = s.sizes.deletionSet.deleteStorageFirst
  get : ∀ k, s'.sizes.get k = sizes.get k
  total : s'.totalSize = .ofSizes sizes + surplus

/-- The operation keeps within the size limits, over contents of the given sizes. -/
def Fits (maxKeySize : Nat) (sizes : BTreeMap Bytes Nat) (op : WriteOperation) : Prop :=
  op.target.length ≤ maxKeySize ∧ op.target.length < 2 ^ 32 ∧
    match op with
    | .put key value =>
      (SizeData.ofSizes sizes).key + key.length < 2 ^ 32 ∧
        (SizeData.ofSizes sizes).value + value.length % 2 ^ 32 < 2 ^ 32
    | _ => True

/-- No checked sum or conversion of the operation overflows, over contents of the given sizes. -/
def Counts (sizes : BTreeMap Bytes Nat) : WriteOperation → Prop
  | .delete key => sizes.get key ≠ none → key.length < 2 ^ 32
  | .put key value =>
    (SizeData.ofSizes sizes).key + key.length % 2 ^ 32 < 2 ^ 32 ∧
      (SizeData.ofSizes sizes).value + value.length % 2 ^ 32 < 2 ^ 32
  | .deletePrefix _ => True

variable {op : WriteOperation}

theorem Fits.counts {maxKeySize : Nat} {sizes : BTreeMap Bytes Nat} (h : Fits maxKeySize sizes op) :
    Counts sizes op := by
  cases op with
  | delete key => exact fun _ => h.2.1
  | put key value =>
    obtain ⟨-, hlen, hkey, hvalue⟩ := h
    have hmod : key.length % 2 ^ 32 = key.length := Nat.mod_eq_of_lt hlen
    exact ⟨by rw [hmod]; exact hkey, hvalue⟩
  | deletePrefix p => trivial

variable {s : StoreView sha3} {sizes : BTreeMap Bytes Nat} {surplus : SizeData}

/-- Removing an entry takes its sizes out of the sums. -/
theorem ofSizes_remove {key : Bytes} {value : Nat} (hget : sizes.get key = some value) :
    SizeData.ofSizes sizes = .ofSizes (sizes.remove key) + ⟨key.length % 2 ^ 32, value⟩ := by
  ext
  · have hsum := sizes.sumBy_remove (fun key _ => key.length % 2 ^ 32) key
    rw [hget] at hsum
    exact hsum.symm
  · have hsum := sizes.sumBy_remove (fun _ value => value) key
    rw [hget] at hsum
    exact hsum.symm

/-- Putting an entry adds its sizes, and takes out those of the entry it replaces. -/
theorem ofSizes_insert (key : Bytes) (value : Nat) : SizeData.ofSizes (sizes.insert key value) +
        (sizes.get key).elim .default (fun old => ⟨key.length % 2 ^ 32, old⟩) =
      .ofSizes sizes + ⟨key.length % 2 ^ 32, value⟩ := by
  have hkey := sizes.sumBy_insert (fun key _ => key.length % 2 ^ 32) key value
  have hvalue := sizes.sumBy_insert (fun _ value => value) key value
  cases hget : sizes.get key with
  | none | some =>
    rw [hget] at hkey hvalue
    exact SizeData.ext hkey hvalue

theorem ofSizes_retain (p : Bytes) :
    SizeData.ofSizes sizes = .ofSizes (sizes.retain fun key _ => !p.isPrefixOf key) +
      .ofSizes (sizes.retain fun key _ => p.isPrefixOf key) := by
  ext
  · rw [SizeData.key_add, Nat.add_comm]
    exact (sizes.sumBy_retain_add (fun key _ => key.length % 2 ^ 32)
      fun key _ => p.isPrefixOf key).symm
  · rw [SizeData.value_add, Nat.add_comm]
    exact (sizes.sumBy_retain_add (fun _ value => value) fun key _ => p.isPrefixOf key).symm

/-- The accounting for one operation succeeds, or reports an overflow and only makes the total
larger. It never underflows. -/
theorem account_spec (hget : ∀ k, s.sizes.get k = sizes.get k)
    (htotal : s.totalSize = .ofSizes sizes + surplus) (op : WriteOperation) :
    (∃ s', s.account op = (s', .ok ()) ∧ Accounted s s' (resize op sizes) surplus) ∨
      (∃ s' surplus', s.account op = (s', .error .overflow) ∧ Accounted s s' sizes surplus') ∧
        (surplus = .default → ¬Counts sizes op) := by
  cases op with
  | delete key =>
    have hremove : ∀ total, total = SizeData.ofSizes (sizes.remove key) + surplus →
        Accounted s { s with totalSize := total, sizes := s.sizes.remove key }
          (sizes.remove key) surplus := fun total htotal =>
      ⟨rfl, rfl, rfl, rfl, fun k => by
        rw [ByteMapView.get_remove, BTreeMap.get_remove, hget], htotal⟩
    simp only [account, hget]
    cases hkey : sizes.get key with
    | none =>
      refine .inl ⟨_, rfl, hremove s.totalSize ?_⟩
      rw [htotal, BTreeMap.remove_eq_self hkey]
    | some value =>
      simp only
      split
      · next hlen =>
        have hsub : s.totalSize = (.ofSizes (sizes.remove key) + surplus) + ⟨key.length, value⟩ := by
          rw [htotal, ofSizes_remove hkey, Nat.mod_eq_of_lt hlen]
          ext <;> simp only [SizeData.key_add, SizeData.value_add] <;> omega
        rw [hsub, SizeData.subAssign_add]
        exact .inl ⟨_, rfl, hremove _ rfl⟩
      · next hlen =>
        exact .inr ⟨⟨s, surplus, rfl, rfl, rfl, rfl, rfl, hget, htotal⟩,
          fun _ hcounts => hlen (hcounts (by simp [hkey]))⟩
  | put key value =>
    have hinsert : ∀ total,
        total = SizeData.ofSizes (sizes.insert key (value.length % 2 ^ 32)) + surplus →
        Accounted s { s with
            totalSize := total
            sizes := s.sizes.insert key (value.length % 2 ^ 32) }
          (sizes.insert key (value.length % 2 ^ 32)) surplus := fun total htotal =>
      ⟨rfl, rfl, rfl, rfl, fun k => by
        rw [ByteMapView.get_insert, BTreeMap.get_insert, hget], htotal⟩
    simp only [account, hget]
    rcases SizeData.addAssign_cases s.totalSize ⟨key.length % 2 ^ 32, value.length % 2 ^ 32⟩ with
      hadd | ⟨⟨extra, hadd⟩, hover⟩
    · have hsum : s.totalSize + ⟨key.length % 2 ^ 32, value.length % 2 ^ 32⟩ =
          .ofSizes (sizes.insert key (value.length % 2 ^ 32)) + surplus +
            (sizes.get key).elim .default (fun old => ⟨key.length % 2 ^ 32, old⟩) := by
        have hs := @ofSizes_insert sizes key (value.length % 2 ^ 32)
        rw [SizeData.ext_iff] at hs ⊢
        simp only [SizeData.key_add, SizeData.value_add, htotal] at hs ⊢
        omega
      rw [hadd]
      cases hkey : sizes.get key with
      | none =>
        rw [hkey] at hsum
        exact .inl ⟨_, rfl, hinsert _ hsum⟩
      | some old =>
        rw [hkey] at hsum
        simp only [hsum, Option.elim, SizeData.subAssign_add]
        exact .inl ⟨_, rfl, hinsert _ rfl⟩
    · rw [hadd]
      refine .inr ⟨⟨_, surplus + extra, rfl, rfl, rfl, rfl, rfl, hget, ?_⟩, ?_⟩
      · rw [htotal]
        ext <;> simp only [SizeData.key_add, SizeData.value_add] <;> omega
      · rintro rfl hcounts
        rw [htotal] at hover
        exact hover hcounts
  | deletePrefix p =>
    have hentries := s.sizes.keyValuesByPrefix_eq p fun k => (hget k).symm
    have hsub : subtractAll s.totalSize (s.sizes.keyValuesByPrefix p) =
        .ok (.ofSizes (resize (.deletePrefix p) sizes) + surplus) := by
      rw [hentries, ← subtractAll_add _ (sizes.retain fun key _ => p.isPrefixOf key).entries]
      refine congrArg (subtractAll · _) ?_
      rw [htotal, ofSizes_retain p]
      ext <;> simp only [SizeData.key_add, SizeData.value_add, resize, SizeData.ofSizes, BTreeMap.sumBy]
        <;> omega
    simp only [account, hsub]
    refine .inl ⟨_, rfl, rfl, rfl, ?_, ?_, fun k => ?_, rfl⟩
    · exact (s.sizes.foldl_remove_keeps _).1
    · exact (ByteMapView.deleteStorageFirst_removeByPrefix ..).trans
        (s.sizes.foldl_remove_keeps _).2
    · rw [ByteMapView.get_removeByPrefix, ByteMapView.get_foldl_remove, hget, resize,
        BTreeMap.get_retain, hentries]
      by_cases hp : p <+: k
      · have hdrop : p.isPrefixOf k = true := by simpa using hp
        rw [if_pos hp, Option.filter_eq_none_iff.mpr]
        simp [hdrop]
      · have hkeep : p.isPrefixOf k = false := by simpa [Bool.eq_false_iff] using hp
        have hnot : k ∉ (sizes.retain fun key _ => p.isPrefixOf key).entries.map Prod.fst := by
          intro hmem
          obtain ⟨e, he, rfl⟩ := List.mem_map.mp hmem
          exact hp (by simpa using (List.mem_filter.mp he).2)
        rw [if_neg hp, if_neg hnot]
        cases sizes.get k <;> simp [hkeep, Option.filter]

/-- The sizes are those of the contents, current and stored, and the totals exceed their sums by
what overflowing additions left behind. -/
structure Accounts (s : StoreView sha3) (surplus storedSurplus : SizeData) : Prop where
  get : ∀ k, s.sizes.get k = (sizesOf s.view.contents).get k
  stored : s.sizes.stored = sizesOf s.view.stored
  total : s.totalSize = .ofSizes (sizesOf s.view.contents) + surplus
  storedTotal : s.storedTotalSize = .ofSizes (sizesOf s.view.stored) + storedSurplus
  deleteStorageFirst :
    s.sizes.deletionSet.deleteStorageFirst = s.view.deletionSet.deleteStorageFirst

theorem accounts_new (sha3 : Bytes → η) (maxKeySize : Nat) :
    (new sha3 maxKeySize).Accounts .default .default := by
  have hcontents : (new sha3 maxKeySize).view.contents = .empty :=
    KeyValueStoreView.contents_load ..
  exact
    { get k := by
        rw [hcontents]
        exact ByteMapView.get_load ..
      stored := rfl
      total := by
        rw [hcontents]
        rfl
      storedTotal := rfl
      deleteStorageFirst := rfl }

variable {storedSurplus : SizeData}

theorem view_applyOperation_stored (view : KeyValueStoreView sha3) (op : WriteOperation) :
    (view.applyOperation op).stored = view.stored ∧
      (view.applyOperation op).maxKeySize = view.maxKeySize ∧
      (view.applyOperation op).deletionSet.deleteStorageFirst =
        view.deletionSet.deleteStorageFirst := by
  cases op with
  | delete key =>
    rw [KeyValueStoreView.applyOperation]
    split <;> exact ⟨rfl, rfl, rfl⟩
  | put key value => exact ⟨rfl, rfl, rfl⟩
  | deletePrefix p => exact ⟨rfl, rfl, view.deletionSet.deleteStorageFirst_insertKeyPrefix p⟩

/-- What becomes of the view when the operation is performed. -/
structure Applied (s s' : StoreView sha3) (op : WriteOperation) : Prop where
  contents : s'.view.contents = op.apply s.view.contents
  stored : s'.view.stored = s.view.stored
  maxKeySize : s'.view.maxKeySize = s.view.maxKeySize

/-- Why an operation is refused, and by how much the total exceeds the sums afterwards. -/
inductive Refused (s : StoreView sha3) (op : WriteOperation) (surplus : SizeData) :
    SizeData → WriteFailure → Prop
  | keyTooLong (h : ¬op.target.length ≤ s.view.maxKeySize) :
    Refused s op surplus surplus (.viewError .keyTooLong)
  | overflow (surplus' : SizeData)
      (h : surplus = .default → ¬Counts (sizesOf s.view.contents) op) :
    Refused s op surplus surplus' .overflow

theorem Refused.ne_underflow {surplus' : SizeData} {failure : WriteFailure}
    (h : Refused s op surplus surplus' failure) : failure ≠ .underflow := by
  cases h <;> simp

theorem Refused.not_fits {surplus' : SizeData} {failure : WriteFailure}
    (h : Refused s op surplus surplus' failure) (hsurplus : surplus = .default) :
    ¬Fits s.view.maxKeySize (sizesOf s.view.contents) op := by
  intro hfits
  cases h with
  | keyTooLong h => exact h hfits.1
  | overflow _ h => exact h hsurplus hfits.counts

theorem applyOperation_spec (hs : s.Accounts surplus storedSurplus) (op : WriteOperation) :
    (∃ s', s.applyOperation op = (s', .ok ()) ∧ s'.Accounts surplus storedSurplus ∧
        Applied s s' op) ∨
      ∃ s' surplus' failure, s.applyOperation op = (s', .error failure) ∧
        Refused s op surplus surplus' failure ∧ s'.Accounts surplus' storedSurplus ∧
        s'.view = s.view := by
  rw [applyOperation]
  split
  · obtain ⟨hstored, hmax, hfirst⟩ := view_applyOperation_stored s.view op
    rcases account_spec hs.get hs.total op with
      ⟨s', heq, hacc⟩ | ⟨⟨s', surplus', heq, hacc⟩, hcounts⟩
    · have hcontents := s.view.contents_applyOperation op
      rw [heq]
      refine .inl ⟨_, rfl, ?_, hcontents, hstored, hmax⟩
      exact
        { get k := by
            rw [hcontents, sizesOf_apply]
            exact hacc.get k
          stored := by
            rw [hstored, ← hs.stored]
            exact hacc.stored
          total := by
            rw [hcontents, sizesOf_apply]
            exact hacc.total
          storedTotal := by
            rw [hstored, ← hs.storedTotal]
            exact hacc.storedTotalSize
          deleteStorageFirst := by
            rw [hfirst, ← hs.deleteStorageFirst]
            exact hacc.deleteStorageFirst }
    · rw [heq]
      refine .inr ⟨s', surplus', _, rfl, .overflow _ hcounts, ?_, hacc.view⟩
      exact
        { get := by rw [hacc.view]; exact hacc.get
          stored := by rw [hacc.view, hacc.stored, hs.stored]
          total := by rw [hacc.view]; exact hacc.total
          storedTotal := by rw [hacc.view, hacc.storedTotalSize, hs.storedTotal]
          deleteStorageFirst := by rw [hacc.view, hacc.deleteStorageFirst, hs.deleteStorageFirst] }
  · next hlen =>
    exact .inr ⟨s, surplus, _, rfl, .keyTooLong hlen, hs, rfl⟩

/-! ## The abstract map -/

/-- A plain map, and the version of it that was saved last. -/
structure PlainStore where
  current : KeyValueMap
  saved : KeyValueMap

namespace PlainStore

def new : PlainStore := ⟨.empty, .empty⟩

def perform (t : PlainStore) : Command → PlainStore
  | .writeBatch batch => { t with current := batch.apply t.current }
  | .clear => { t with current := .empty }
  | .rollback => { t with current := t.saved }
  | .save | .reload => { t with saved := t.current }

def run (t : PlainStore) (commands : List Command) : PlainStore := commands.foldl perform t

/-- Every operation of a batch keeps within the size limits at its turn. -/
def BatchFits (maxKeySize : Nat) : KeyValueMap → List WriteOperation → Prop
  | _, [] => True
  | m, op :: ops => Fits maxKeySize (sizesOf m) op ∧ BatchFits maxKeySize (op.apply m) ops

/-- All batches keep within the size limits. -/
def WithinLimits (maxKeySize : Nat) : PlainStore → List Command → Prop
  | _, [] => True
  | t, command :: commands =>
    (match command with
      | .writeBatch batch => BatchFits maxKeySize t.current batch.operations
      | _ => True) ∧ WithinLimits maxKeySize (t.perform command) commands

end PlainStore

/-- What was performed of a command that returned `result`: all of it, or the operations of the
batch before the one that was refused. -/
def Performed (command : Command) (result : Except WriteFailure Unit) (performed : Command) : Prop :=
  match result with
  | .ok () => performed = command
  | .error failure => failure ≠ .underflow ∧
      ∃ done op rest, command = .writeBatch ⟨done ++ op :: rest⟩ ∧ performed = .writeBatch ⟨done⟩

/-- The view stands for the plain store. -/
structure Simulates (s : StoreView sha3) (t : PlainStore) : Prop where
  current : s.view.contents = t.current
  saved : s.view.stored = t.saved

theorem applyOperations_spec (hs : s.Accounts surplus storedSurplus) (ops : List WriteOperation) :
    ∃ surplus' done,
      (s.applyOperations ops).1.Accounts surplus' storedSurplus ∧
      (s.applyOperations ops).1.view.contents = Batch.apply ⟨done⟩ s.view.contents ∧
      (s.applyOperations ops).1.view.stored = s.view.stored ∧
      (s.applyOperations ops).1.view.maxKeySize = s.view.maxKeySize ∧
      Performed (.writeBatch ⟨ops⟩) (s.applyOperations ops).2 (.writeBatch ⟨done⟩) ∧
      (surplus = .default → PlainStore.BatchFits s.view.maxKeySize s.view.contents ops →
        (s.applyOperations ops).2 = .ok () ∧ surplus' = .default) := by
  induction ops generalizing s with
  | nil => exact ⟨surplus, [], hs, rfl, rfl, rfl, rfl, fun h _ => ⟨rfl, h⟩⟩
  | cons op ops ih =>
    rw [applyOperations]
    rcases applyOperation_spec hs op with
      ⟨s', heq, hs', happlied⟩ | ⟨s', surplus', failure, heq, hrefused, hs', hview⟩
    · rw [heq]
      obtain ⟨surplus', done, hacc, hcontents, hstored, hmax, hperformed, hok⟩ := ih hs'
      refine ⟨surplus', op :: done, hacc, ?_, hstored.trans happlied.stored,
        hmax.trans happlied.maxKeySize, ?_, fun h hfits => ?_⟩
      · rw [hcontents, happlied.contents]
        rfl
      · revert hperformed
        simp only [Performed]
        split
        · intro h
          injection h with h
          injection h with h
          rw [h]
        · rintro ⟨hne, done', op', rest, hcommand, hdone⟩
          injection hcommand with hcommand
          injection hcommand with hcommand
          injection hdone with hdone
          injection hdone with hdone
          exact ⟨hne, op :: done', op', rest, by rw [hcommand]; rfl, by rw [hdone]⟩
      · rw [happlied.maxKeySize, happlied.contents] at hok
        exact hok h hfits.2
    · rw [heq]
      refine ⟨surplus', [], hs', by rw [hview]; rfl, by rw [hview], by rw [hview],
        ⟨hrefused.ne_underflow, [], op, ops, rfl, rfl⟩,
        fun h hall => absurd hall.1 (hrefused.not_fits h)⟩

theorem accounts_save (hs : s.Accounts surplus storedSurplus) :
    (s.perform .save).1.Accounts surplus surplus := by
  have hcontents : (s.perform .save).1.view.contents = s.view.contents := s.view.contents_save
  have hstored : (s.perform .save).1.view.stored = s.view.contents := s.view.apply_flushOperations
  have hget : ∀ k, (s.perform .save).1.sizes.stored.get k = (sizesOf s.view.contents).get k := by
    intro k
    rw [← hs.get k]
    refine (ByteMapView.get_flushed _ k).trans ?_
    split
    · next hfirst =>
      exact ByteMapView.get_of_deleteStorageFirst (hs.deleteStorageFirst.trans hfirst) _ k
    · rfl
  exact
    { get k := by
        rw [hcontents, ← hget k]
        exact ByteMapView.get_load ..
      stored := by
        rw [hstored]
        exact BTreeMap.ext_get hget
      total := by
        rw [hcontents]
        exact hs.total
      storedTotal := by
        rw [hstored]
        exact hs.total
      deleteStorageFirst := rfl }

theorem simulates_save {t : PlainStore} (hst : s.Simulates t) :
    (s.perform .save).1.Simulates (t.perform .save) :=
  ⟨s.view.contents_save.trans hst.current, s.view.apply_flushOperations.trans hst.current⟩

/-- **One command** acts on the view as on the plain store. -/
theorem perform_spec {t : PlainStore} (hs : s.Accounts surplus storedSurplus)
    (hst : s.Simulates t) (command : Command) : ∃ surplus' storedSurplus' performed,
      (s.perform command).1.Accounts surplus' storedSurplus' ∧
      (s.perform command).1.Simulates (t.perform performed) ∧
      (s.perform command).1.view.maxKeySize = s.view.maxKeySize ∧
      Performed command (s.perform command).2 performed ∧
      (surplus = .default → storedSurplus = .default →
        PlainStore.WithinLimits s.view.maxKeySize t [command] →
        (s.perform command).2 = .ok () ∧ surplus' = .default ∧ storedSurplus' = .default) := by
  have ⟨hcurrent, hsaved⟩ := hst
  cases command with
  | writeBatch batch =>
    obtain ⟨ops⟩ := batch
    have hstaged : ({ s with view := s.view.stage s.view.deletionSet s.view.updates } :
        StoreView sha3).Accounts surplus storedSurplus :=
      ⟨hs.get, hs.stored, hs.total, hs.storedTotal, hs.deleteStorageFirst⟩
    obtain ⟨surplus', done, hacc, hcontents, hstored, hmax, hperformed, hok⟩ :=
      applyOperations_spec hstaged ops
    refine ⟨surplus', storedSurplus, .writeBatch ⟨done⟩, hacc, ⟨?_, hstored.trans hsaved⟩, hmax,
      hperformed, fun h h' hlimits => ?_⟩
    · rw [PlainStore.perform, ← hcurrent]
      exact hcontents
    · obtain ⟨hfits, -⟩ := hlimits
      rw [← hcurrent] at hfits
      obtain ⟨hres, hsur⟩ := hok h hfits
      exact ⟨hres, hsur, h'⟩
  | clear =>
    have hcontents := s.view.contents_clear
    refine ⟨.default, storedSurplus, .clear, ?_, ⟨hcontents, hsaved⟩, rfl, rfl,
      fun _ h' _ => ⟨rfl, rfl, h'⟩⟩
    exact
      { get k := by
          rw [show (s.perform .clear).1.view.contents = .empty from hcontents]
          exact s.sizes.get_clear k
        stored := hs.stored
        total := by
          rw [show (s.perform .clear).1.view.contents = .empty from hcontents]
          rfl
        storedTotal := hs.storedTotal
        deleteStorageFirst := rfl }
  | rollback =>
    have hcontents := s.view.contents_rollback
    refine ⟨storedSurplus, storedSurplus, .rollback, ?_, ⟨hcontents.trans hsaved, hsaved⟩, rfl, rfl,
      fun _ h' _ => ⟨rfl, h', h'⟩⟩
    exact
      { get k := by
          rw [show (s.perform .rollback).1.view.contents = s.view.stored from hcontents, ← hs.stored]
          exact ByteMapView.get_load ..
        stored := hs.stored
        total := by
          rw [show (s.perform .rollback).1.view.contents = s.view.stored from hcontents]
          exact hs.storedTotal
        storedTotal := hs.storedTotal
        deleteStorageFirst := rfl }
  | save =>
    exact ⟨surplus, surplus, .save, accounts_save hs, simulates_save hst, rfl, rfl,
      fun h _ _ => ⟨rfl, h, h⟩⟩
  | reload =>
    exact ⟨surplus, surplus, .reload, accounts_save hs, simulates_save hst, rfl, rfl,
      fun h _ _ => ⟨rfl, h, h⟩⟩

/-- A whole run, from any state whose totals are right. -/
theorem run_spec {t : PlainStore} (hs : s.Accounts surplus storedSurplus) (hst : s.Simulates t)
    (commands : List Command) : ∃ performed,
      (s.run commands).1.Simulates (t.run performed) ∧
      (s.run commands).2.length = commands.length ∧
      List.Forall₂ (fun call performed => Performed call.1 call.2 performed)
        (commands.zip (s.run commands).2) performed ∧
      (surplus = .default → storedSurplus = .default →
        PlainStore.WithinLimits s.view.maxKeySize t commands →
        (∀ result ∈ (s.run commands).2, result = .ok ()) ∧ performed = commands) := by
  induction commands generalizing s t surplus storedSurplus with
  | nil => exact ⟨[], hst, rfl, .nil, fun _ _ _ => ⟨List.forall_mem_nil _, rfl⟩⟩
  | cons command commands ih =>
    obtain ⟨surplus', storedSurplus', done, hs', hst', hmax, hdone, hok⟩ :=
      perform_spec hs hst command
    obtain ⟨performed, hsim, hlen, hall, hlimits⟩ := ih hs' hst'
    refine ⟨done :: performed, hsim, congrArg (· + 1) hlen, .cons hdone hall,
      fun h h' hwithin => ?_⟩
    obtain ⟨hres, hsur, hsur'⟩ := hok h h' ⟨hwithin.1, trivial⟩
    rw [hres] at hdone
    obtain rfl : done = command := hdone
    rw [hmax] at hlimits
    obtain ⟨hresults, rfl⟩ := hlimits hsur hsur' hwithin.2
    exact ⟨List.forall_mem_cons.mpr ⟨hres, hresults⟩, rfl⟩

/-- **The view refines a sorted byte map.** After any sequence of commands all reads are those of
one plain map on which the same commands acted. A batch beyond the size limits is refused at the
offending operation, with an error and never with a panic, and acts like the operations before
it; within the limits nothing is refused. -/
theorem refines_byteMap (sha3 : Bytes → η) (maxKeySize : Nat) (commands : List Command) :
    ∃ performed,
      ((new sha3 maxKeySize).run commands).1.view.Agrees (PlainStore.new.run performed).current ∧
      ((new sha3 maxKeySize).run commands).2.length = commands.length ∧
      List.Forall₂ (fun call performed => Performed call.1 call.2 performed)
        (commands.zip ((new sha3 maxKeySize).run commands).2) performed ∧
      (PlainStore.WithinLimits maxKeySize .new commands →
        (∀ result ∈ ((new sha3 maxKeySize).run commands).2, result = .ok ()) ∧
          performed = commands) := by
  have hst : (new sha3 maxKeySize).Simulates .new := ⟨KeyValueStoreView.contents_load .., rfl⟩
  obtain ⟨performed, hsim, hlen, hall, hlimits⟩ :=
    run_spec (accounts_new sha3 maxKeySize) hst commands
  refine ⟨performed, ?_, hlen, hall, hlimits rfl rfl⟩
  rw [← hsim.current]
  exact KeyValueStoreView.agrees_contents _

end StoreView

end Linera.Views
