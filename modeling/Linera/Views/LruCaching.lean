import Linera.Lib.Run
import Linera.Views.Batch

/-!
# The store with a cache

`LruCachingStore` keeps the answers to recent reads in front of a store. A read
looks into the cache, asks the store on a miss and then inserts the answer; a
write updates the cache and then writes to the store. These accesses are separate
steps (`Point`), and calls made through clones of one store interleave at them
(`System`).

A cached answer goes stale if the store fails to take a batch that is already in
the cache, or if an insertion crosses a write of the same key (`cache_goes_stale`).
`Orderly` excludes both, and `cache_coherent` says that nothing else can go wrong:
once all calls have returned, the cache agrees with the store.
-/

namespace Linera.Views

/-! ## The cache -/

/-- The cached answers, with the keys from the least to the most recently inserted. -/
structure LruPrefixCache where
  map : BTreeMap Bytes (Option Bytes)
  queue : List Bytes
  maxCacheSize : Nat
deriving DecidableEq

namespace LruPrefixCache

/-- A cache without entries. -/
def new (maxCacheSize : Nat) : LruPrefixCache := ⟨.empty, [], maxCacheSize⟩

def insert (c : LruPrefixCache) (key : Bytes) (value : Option Bytes) : LruPrefixCache :=
  let map := c.map.insert key value
  -- `LinkedHashMap::insert` also puts a key that is there last.
  let queue := c.queue.erase key ++ [key]
  if c.map.containsKey key then { c with map, queue }
  else if c.maxCacheSize < queue.length then
    match queue with
    | [] => { c with map, queue }  -- Unreachable: the queue has just been extended.
    | first :: rest => { c with map := map.remove first, queue := rest }
  else { c with map, queue }

def deletePrefix (c : LruPrefixCache) (keyPrefix : Bytes) : LruPrefixCache :=
  { c with
    map := c.map.mapWithKey fun key value => if inInterval keyPrefix key then none else value }

def query (c : LruPrefixCache) (key : Bytes) : Option (Option Bytes) := c.map.get key

def record (c : LruPrefixCache) : WriteOperation → LruPrefixCache
  | .put key value => c.insert key (some value)
  | .delete key => c.insert key none
  | .deletePrefix keyPrefix => c.deletePrefix keyPrefix

variable {c : LruPrefixCache} {v : Option Bytes}

/-- An insertion may evict other entries, but adds only its own. -/
theorem query_insert {key k : Bytes} {value v : Option Bytes}
    (h : (c.insert key value).query k = some v) :
    (k = key ∧ v = value) ∨ (k ≠ key ∧ c.query k = some v) := by
  have hinsert : (c.map.insert key value).get k = some v := by
    unfold insert query at h
    dsimp only at h
    split at h
    · exact h
    · split at h
      · split at h
        · exact h
        · rw [BTreeMap.get_remove] at h
          split at h
          · cases h
          · exact h
      · exact h
  rw [BTreeMap.get_insert] at hinsert
  split at hinsert
  · next hk => exact .inl ⟨hk, (Option.some.inj hinsert).symm⟩
  · next hk => exact .inr ⟨hk, hinsert⟩

/-- After a write operation, the cache knows what it does to the keys it concerns. -/
theorem query_record {op : WriteOperation} {k : Bytes} (h : (c.record op).query k = some v) :
    ∃ v₀, c.query k = some v₀ ∧ v = op.applyAt k v₀ ∨
      op.Touches k ∧ v = op.applyAt k v₀ := by
  cases op with
  | put | delete =>
    rcases query_insert h with ⟨rfl, rfl⟩ | ⟨hk, h⟩
    · exact ⟨none, .inr ⟨rfl, by simp [WriteOperation.applyAt]⟩⟩
    · exact ⟨v, .inl ⟨h, by simp [WriteOperation.applyAt, hk]⟩⟩
  | deletePrefix p =>
    rw [record, deletePrefix, query, BTreeMap.get_mapWithKey, Option.map_eq_some_iff] at h
    obtain ⟨v₀, hget, rfl⟩ := h
    simp only [inInterval_iff] at hget ⊢
    exact ⟨v₀, .inl ⟨hget, rfl⟩⟩

/-- After a batch, an entry holds what the batch leaves under its key; the key was there before,
or the batch concerns it. -/
theorem query_foldl_record {ops : List WriteOperation} {k : Bytes}
    (h : (ops.foldl record c).query k = some v) :
    ∃ v₀, v = Batch.applyAt k ops v₀ ∧ (c.query k = some v₀ ∨ ∃ op ∈ ops, op.Touches k) := by
  induction ops generalizing c with
  | nil => exact ⟨v, rfl, .inl h⟩
  | cons op ops ih =>
    obtain ⟨v₁, hv, hv₁⟩ := ih h
    rcases hv₁ with hv₁ | ⟨op', hop', htouches⟩
    · obtain ⟨v₀, ⟨hget, rfl⟩ | ⟨htouches, rfl⟩⟩ := query_record hv₁
      · exact ⟨v₀, hv, .inl hget⟩
      · exact ⟨v₀, hv, .inr ⟨op, by simp, htouches⟩⟩
    · refine ⟨v₁, ?_, .inr ⟨op', by simp [hop'], htouches⟩⟩
      rw [hv, Batch.applyAt_cons]
      exact Batch.applyAt_of_touches ⟨op', hop', htouches⟩ _ _

theorem query_foldl_insert {entries : List (Bytes × Option Bytes)} {k : Bytes}
    (h : (entries.foldl (fun c e => c.insert e.1 e.2) c).query k = some v) :
    (k, v) ∈ entries ∨ c.query k = some v := by
  induction entries generalizing c with
  | nil => exact .inr h
  | cons e entries ih =>
    rcases ih h with hmem | h
    · exact .inl (List.mem_cons_of_mem _ hmem)
    · rcases query_insert h with ⟨rfl, rfl⟩ | ⟨-, h⟩
      · exact .inl List.mem_cons_self
      · exact .inr h

end LruPrefixCache

/-! ## The accesses of one call -/

/-- The inner store, and the cache if its size is not zero. -/
structure LruCachingStore where
  store : KeyValueMap
  lruReadValues : Option LruPrefixCache
deriving DecidableEq

namespace LruCachingStore

inductive Call where
  | readValueBytes (key : Bytes)
  | containsKey (key : Bytes)
  | containsKeys (keys : List Bytes)
  | readMultiValuesBytes (keys : List Bytes)
  | writeBatch (batch : Batch)
deriving DecidableEq

inductive Answer where
  | value (value : Option Bytes)
  | present (result : Bool)
  | presences (results : List Bool)
  | values (values : List (Option Bytes))
  | written
  | failed
deriving DecidableEq

/-- Where a call stands: the access to the cache or to the inner store that it does next, with
what it has found out so far. -/
inductive Point where
  | readQuery (key : Bytes)
  | readStore (key : Bytes)
  | readInsert (key : Bytes) (value : Option Bytes)
  | containsQuery (key : Bytes)
  | containsStore (key : Bytes)
  | containsAllQuery (keys : List Bytes)
  /-- The answers from the cache, and the positions and keys of the others. -/
  | containsAllStore (results : List Bool) (requests : List (Nat × Bytes))
  | readAllQuery (keys : List Bytes)
  | readAllStore (result : List (Option Bytes)) (misses : List (Nat × Bytes))
  | readAllInsert (result : List (Option Bytes)) (fetched : List (Nat × Bytes × Option Bytes))
  | writeCache (batch : Batch)
  | writeStore (batch : Batch)
  | returned (answer : Answer)
deriving DecidableEq

/-- The first access of a call. -/
def Call.begin : Call → Point
  | .readValueBytes key => .readQuery key
  | .containsKey key => .containsQuery key
  | .containsKeys keys => .containsAllQuery keys
  | .readMultiValuesBytes keys => .readAllQuery keys
  | .writeBatch batch => .writeCache batch

/-- The answer of a plain store with the same contents. -/
def Call.answer (m : KeyValueMap) : Call → Answer
  | .readValueBytes key => .value (m.get key)
  | .containsKey key => .present (m.get key).isSome
  | .containsKeys keys => .presences (keys.map fun key => (m.get key).isSome)
  | .readMultiValuesBytes keys => .values (keys.map m.get)
  | .writeBatch _ => .written

def new (store : KeyValueMap) (cacheSize : Nat) : LruCachingStore :=
  ⟨store, if cacheSize = 0 then none else some (.new cacheSize)⟩

/-- Looks into the cache. Without a cache the source does not look, which makes no difference. -/
def query (s : LruCachingStore) (key : Bytes) : Option (Option Bytes) :=
  s.lruReadValues.bind (·.query key)

def updateCache (s : LruCachingStore) (f : LruPrefixCache → LruPrefixCache) : LruCachingStore :=
  { s with lruReadValues := s.lruReadValues.map f }

/-- The keys that are not in the cache, with their positions. -/
def misses (s : LruCachingStore) (keys : List Bytes) : List (Nat × Bytes) :=
  (keys.zipIdx.filter fun e => (s.query e.1).isNone).map fun e => (e.2, e.1)

/-- Puts answers at their positions. -/
def fill {α : Type} (results : List α) (answers : List (Nat × α)) : List α :=
  answers.foldl (fun results e => results.set e.1 e.2) results

/-- Performs the next access of a call. The flag says whether the inner store serves a request;
if not, the request has no effect. -/
def access (s : LruCachingStore) (served : Bool) : Point → Option (LruCachingStore × Point)
  | .readQuery key =>
    match s.query key with
    | some value => some (s, .returned (.value value))
    | none => some (s, .readStore key)
  | .readStore key =>
    if served then some (s, .readInsert key (s.store.get key))
    else some (s, .returned .failed)
  | .readInsert key value =>
    some (s.updateCache (·.insert key value), .returned (.value value))
  | .containsQuery key =>
    match s.query key with
    | some value => some (s, .returned (.present value.isSome))
    | none => some (s, .containsStore key)
  | .containsStore key =>
    if served then some (s, .returned (.present (s.store.get key).isSome))
    else some (s, .returned .failed)
  | .containsAllQuery keys =>
    let results := keys.map fun key => ((s.query key).getD none).isSome
    if s.misses keys = [] then some (s, .returned (.presences results))
    else some (s, .containsAllStore results (s.misses keys))
  | .containsAllStore results requests =>
    if served then
      some (s, .returned (.presences
        (fill results (requests.map fun e => (e.1, (s.store.get e.2).isSome)))))
    else some (s, .returned .failed)
  | .readAllQuery keys =>
    let result := keys.map fun key => (s.query key).getD none
    if s.misses keys = [] then some (s, .returned (.values result))
    else some (s, .readAllStore result (s.misses keys))
  | .readAllStore result misses =>
    if served then
      some (s, .readAllInsert result (misses.map fun e => (e.1, e.2, s.store.get e.2)))
    else some (s, .returned .failed)
  | .readAllInsert result fetched =>
    some (s.updateCache fun c => (fetched.map Prod.snd).foldl (fun c e => c.insert e.1 e.2) c,
      .returned (.values (fill result (fetched.map fun e => (e.1, e.2.2)))))
  | .writeCache batch =>
    some (s.updateCache (batch.operations.foldl LruPrefixCache.record), .writeStore batch)
  | .writeStore batch =>
    if served then some ({ s with store := batch.apply s.store }, .returned .written)
    else some (s, .returned .failed)
  | .returned _ => none

/-- The accesses of a call that is not interrupted and whose requests are all served. -/
def complete : Nat → LruCachingStore → Point → LruCachingStore × Point
  | 0, s, p => (s, p)
  | fuel + 1, s, p =>
    match s.access true p with
    | some (s, p) => complete fuel s p
    | none => (s, p)

/-- A call that is not interrupted; no call makes more than three accesses. -/
def perform (s : LruCachingStore) (call : Call) : LruCachingStore × Point :=
  s.complete 3 call.begin

/-- What is in the cache is what the inner store holds. -/
def Coherent (s : LruCachingStore) : Prop := ∀ k v, s.query k = some v → v = s.store.get k

/-- Filling in the answers for some keys completes the answers that were right for the others. -/
theorem fill_misses {α : Type} {f g : Bytes → α} {p : Bytes → Bool} {keys : List Bytes}
    (h : ∀ key ∈ keys, p key = false → f key = g key) :
    fill (keys.map f) (((keys.zipIdx.filter fun e => p e.1).map fun e => (e.2, e.1)).map
      fun e => (e.1, g e.2)) = keys.map g := by
  suffices hfill : ∀ done : List α, fill (done ++ keys.map f)
      ((((keys.zipIdx done.length).filter fun e => p e.1).map fun e => (e.2, e.1)).map
        fun e => (e.1, g e.2)) = done ++ keys.map g from hfill []
  induction keys with
  | nil =>
    intro done
    rfl
  | cons key keys ih =>
    intro done
    have hrest := ih fun k hk => h k (List.mem_cons_of_mem _ hk)
    have hnext := hrest (done ++ [g key])
    rw [List.length_append, List.length_singleton, List.append_assoc, List.append_assoc,
      List.singleton_append, List.singleton_append] at hnext
    rw [List.map_cons, List.map_cons, List.zipIdx_cons, List.filter_cons]
    split
    · have hset : (done ++ f key :: keys.map f).set done.length (g key) =
          done ++ g key :: keys.map f := by simp
      rw [List.map_cons, List.map_cons, fill, List.foldl_cons, hset]
      exact hnext
    · next hp =>
      rw [h key List.mem_cons_self (by simpa using hp)]
      exact hnext

/-- Through a coherent cache, a call that is not interrupted answers like a plain store. -/
theorem perform_of_coherent {s : LruCachingStore} (hs : s.Coherent) (call : Call) :
    (s.perform call).2 = .returned (call.answer s.store) := by
  have hcached : ∀ {α : Type} (f : Option Bytes → α) (keys : List Bytes), ∀ key ∈ keys,
      (s.query key).isNone = false → f ((s.query key).getD none) = f (s.store.get key) := by
    intro α f keys key _ hsome
    obtain ⟨v, hv⟩ := Option.isSome_iff_exists.mp (by simpa using hsome)
    rw [hv, hs key v hv, Option.getD_some]
  have hhits : ∀ {α : Type} (f : Option Bytes → α) (keys : List Bytes), s.misses keys = [] →
      keys.map (fun key => f ((s.query key).getD none)) =
        keys.map fun key => f (s.store.get key) := by
    intro α f keys hmisses
    refine List.map_congr_left fun key hkey => hcached f keys key hkey ?_
    obtain ⟨i, hi⟩ := List.mem_iff_getElem?.mp hkey
    have hnone := List.filter_eq_nil_iff.mp (List.map_eq_nil_iff.mp hmisses) (key, i)
      (List.mem_zipIdx_iff_getElem?.mpr hi)
    simpa [Option.isSome_iff_ne_none] using hnone
  cases call with
  | readValueBytes key =>
    cases hquery : s.query key with
    | some v => simp [perform, complete, Call.begin, access, hquery, Call.answer, hs key v hquery]
    | none => simp [perform, complete, Call.begin, access, hquery, Call.answer]
  | containsKey key =>
    cases hquery : s.query key with
    | some v => simp [perform, complete, Call.begin, access, hquery, Call.answer, hs key v hquery]
    | none => simp [perform, complete, Call.begin, access, hquery, Call.answer]
  | containsKeys keys =>
    by_cases hmisses : s.misses keys = []
    · simp only [perform, complete, Call.begin, access, hmisses, if_true]
      exact congrArg _ (congrArg _ (hhits Option.isSome keys hmisses))
    · simp only [perform, complete, Call.begin, access, hmisses, if_true, if_false]
      exact congrArg _ (congrArg _ (fill_misses (hcached Option.isSome keys)))
  | readMultiValuesBytes keys =>
    by_cases hmisses : s.misses keys = []
    · simp only [perform, complete, Call.begin, access, hmisses, if_true]
      exact congrArg _ (congrArg _ (hhits id keys hmisses))
    · simp only [perform, complete, Call.begin, access, hmisses, if_true, if_false]
      rw [List.map_map]
      exact congrArg _ (congrArg _ (fill_misses (hcached id keys)))
  | writeBatch batch => rfl

namespace Point

/-- The answers that the call is about to insert into the cache. -/
def held : Point → List (Bytes × Option Bytes)
  | .readInsert key value => [(key, value)]
  | .readAllInsert _ fetched => fetched.map Prod.snd
  | _ => []

/-- The operations of the call that are in the cache and not yet in the inner store. -/
def writing : Point → List WriteOperation
  | .writeStore batch => batch.operations
  | _ => []

/-- The call is about to write the key. -/
def Writes (p : Point) (k : Bytes) : Prop := ∃ op ∈ p.writing, op.Touches k

instance (p : Point) (k : Bytes) : Decidable (p.Writes k) :=
  inferInstanceAs (Decidable (∃ op ∈ p.writing, op.Touches k))

def isReturned : Point → Bool
  | .returned _ => true
  | _ => false

end Point

/-! ## Calls that interleave -/

/-- A store and the calls that have been made through its clones. -/
structure System where
  store : LruCachingStore
  calls : List Point
deriving DecidableEq

/-- A call is made, or one of the calls performs its next access. -/
inductive Event where
  | start (call : Call)
  | access (index : Nat) (served : Bool)
deriving DecidableEq

namespace System

def step (s : System) : Event → Option System
  | .start call => some { s with calls := s.calls ++ [call.begin] }
  | .access index served => do
    let point ← s.calls[index]?
    let (store, point) ← s.store.access served point
    return ⟨store, s.calls.set index point⟩

/-- Before any call. -/
def new (store : KeyValueMap) (cacheSize : Nat) : System := ⟨.new store cacheSize, []⟩

/-- All calls have returned. -/
def Idle (s : System) : Prop := ∀ p ∈ s.calls, p.isReturned

/-- The access does not cross a write of the same key by another call: an answer is not fetched
while one is under way, and a write does not begin while a fetched answer is about to be inserted
or while another write is under way. The inner store rejects no batch that would change it. -/
def Orderly (s : System) : Event → Prop
  | .start _ => True
  | .access index served =>
    match s.calls[index]? with
    | some (.readStore key) => served → ∀ q ∈ s.calls, ¬q.Writes key
    | some (.readAllStore _ misses) => served → ∀ e ∈ misses, ∀ q ∈ s.calls, ¬q.Writes e.2
    | some (.writeCache batch) => ∀ op ∈ batch.operations, ∀ k, op.Touches k →
        ∀ q ∈ s.calls, ¬q.Writes k ∧ k ∉ q.held.map Prod.fst
    | some (.writeStore batch) => served ∨ batch.apply s.store.store = s.store.store
    | _ => True

/-! ## The invariant -/

/-- What ties the cache, the store and the calls under way together. -/
structure Sound (s : System) : Prop where
  /-- What a call has fetched is what the store holds. -/
  held : ∀ p ∈ s.calls, ∀ e ∈ p.held,
    e.2 = s.store.store.get e.1 ∧ ∀ q ∈ s.calls, ¬q.Writes e.1
  settled : ∀ k v, s.store.query k = some v → (∀ q ∈ s.calls, ¬q.Writes k) →
    v = s.store.store.get k
  /-- A key that is about to be written has its new value in the cache already. -/
  staged : ∀ k v, s.store.query k = some v → ∀ q ∈ s.calls, q.Writes k →
    v = Batch.applyAt k q.writing none

theorem sound_new (store : KeyValueMap) (cacheSize : Nat) : (new store cacheSize).Sound := by
  have hquery : ∀ k, (LruCachingStore.new store cacheSize).query k = none := by
    intro k
    unfold LruCachingStore.new query
    split <;> rfl
  constructor
  case held =>
    intro p hp
    cases hp
  case settled =>
    intro k v h
    rw [new, hquery] at h
    cases h
  case staged =>
    intro k v h
    rw [new, hquery] at h
    cases h

theorem not_writes {p : Point} (h : p.writing = []) (k : Bytes) : ¬p.Writes k := by
  rintro ⟨op, hop, -⟩
  rw [h] at hop
  cases hop

variable {s : System} {index : Nat}

theorem mem_set_or_eq {calls : List Point} {p : Point} (hp : calls[index]? = some p) (p' : Point)
    {q : Point} (hq : q ∈ calls) : q = p ∨ q ∈ calls.set index p' := by
  obtain ⟨j, hj⟩ := List.mem_iff_getElem?.mp hq
  by_cases hji : j = index
  · subst hji
    exact .inl (Option.some.inj (hj.symm.trans hp))
  · refine .inr (List.mem_iff_getElem?.mpr ⟨j, ?_⟩)
    rw [List.getElem?_set_ne (Ne.symm hji), hj]

/-- Calls that write nothing come and go, as long as they hold what is in the store. -/
theorem Sound.move (hs : s.Sound) {calls : List Point}
    (hnew : ∀ p ∈ calls, p ∈ s.calls ∨ p.writing = [] ∧
      ∀ e ∈ p.held, e.2 = s.store.store.get e.1 ∧ ∀ q ∈ s.calls, ¬q.Writes e.1)
    (hold : ∀ p ∈ s.calls, p ∈ calls ∨ p.writing = []) : (System.mk s.store calls).Sound := by
  have hwrites : ∀ k, (∀ q ∈ calls, ¬q.Writes k) ↔ ∀ q ∈ s.calls, ¬q.Writes k := by
    intro k
    refine ⟨fun h q hq => (hold q hq).elim (h q) (not_writes · k), fun h q hq => ?_⟩
    exact (hnew q hq).elim (h q) fun h => not_writes h.1 k
  constructor
  case held =>
    intro p hp e he
    have hheld : e.2 = s.store.store.get e.1 ∧ ∀ q ∈ s.calls, ¬q.Writes e.1 :=
      (hnew p hp).elim (hs.held p · e he) fun h => h.2 e he
    exact ⟨hheld.1, (hwrites e.1).mpr hheld.2⟩
  case settled =>
    intro k v h hfree
    exact hs.settled k v h ((hwrites k).mp hfree)
  case staged =>
    intro k v h q hq hk
    rcases hnew q hq with hq | ⟨hwriting, -⟩
    · exact hs.staged k v h q hq hk
    · exact absurd hk (not_writes hwriting k)

/-- One call moves on to a point where it writes nothing. -/
theorem Sound.set (hs : s.Sound) {p p' : Point} (hp : s.calls[index]? = some p)
    (hwriting : p.writing = []) (hwriting' : p'.writing = [])
    (hheld : ∀ e ∈ p'.held, e.2 = s.store.store.get e.1 ∧ ∀ q ∈ s.calls, ¬q.Writes e.1) :
    (System.mk s.store (s.calls.set index p')).Sound := by
  refine hs.move (fun q hq => ?_) fun q hq => ?_
  · rcases List.mem_or_eq_of_mem_set hq with hq | rfl
    · exact .inl hq
    · exact .inr ⟨hwriting', hheld⟩
  · rcases mem_set_or_eq hp p' hq with rfl | hq
    · exact .inr hwriting
    · exact .inl hq

theorem Sound.insertHeld (hs : s.Sound) {p : Point} (hp : p ∈ s.calls)
    {f : LruPrefixCache → LruPrefixCache}
    (hf : ∀ c k v, (f c).query k = some v → (k, v) ∈ p.held ∨ c.query k = some v) :
    (System.mk (s.store.updateCache f) s.calls).Sound := by
  have hquery : ∀ k v, (s.store.updateCache f).query k = some v →
      (k, v) ∈ p.held ∨ s.store.query k = some v := by
    intro k v h
    unfold updateCache query at *
    cases hcache : s.store.lruReadValues with
    | none =>
      rw [hcache] at h
      cases h
    | some c =>
      rw [hcache] at h
      exact hf c k v h
  constructor
  case held => exact hs.held
  case settled =>
    intro k v h hfree
    rcases hquery k v h with hmem | h
    · exact (hs.held p hp _ hmem).1
    · exact hs.settled k v h hfree
  case staged =>
    intro k v h q hq hk
    rcases hquery k v h with hmem | h
    · exact absurd hk ((hs.held p hp _ hmem).2 q hq)
    · exact hs.staged k v h q hq hk

/-- A batch goes into the cache, and is then under way to the store. -/
theorem Sound.stage (hs : s.Sound) {batch : Batch} (hp : s.calls[index]? = some (.writeCache batch))
    (horderly : ∀ op ∈ batch.operations, ∀ k, op.Touches k →
      ∀ q ∈ s.calls, ¬q.Writes k ∧ k ∉ q.held.map Prod.fst) :
    (System.mk (s.store.updateCache (batch.operations.foldl LruPrefixCache.record))
      (s.calls.set index (.writeStore batch))).Sound := by
  have hquery : ∀ k v,
      (s.store.updateCache (batch.operations.foldl LruPrefixCache.record)).query k = some v →
      ∃ v₀, v = Batch.applyAt k batch.operations v₀ ∧
        (s.store.query k = some v₀ ∨ ∃ op ∈ batch.operations, op.Touches k) := by
    intro k v h
    unfold updateCache query at *
    cases hcache : s.store.lruReadValues with
    | none =>
      rw [hcache] at h
      cases h
    | some c =>
      rw [hcache] at h
      exact LruPrefixCache.query_foldl_record h
  have hmem : .writeStore batch ∈ s.calls.set index (.writeStore batch) := by
    obtain ⟨hlt, -⟩ := List.getElem?_eq_some_iff.mp hp
    exact List.mem_set hlt _
  constructor
  case held =>
    intro p hp' e he
    rcases List.mem_or_eq_of_mem_set hp' with hp' | rfl
    · obtain ⟨hvalue, hfree⟩ := hs.held p hp' e he
      refine ⟨hvalue, fun q hq => ?_⟩
      rcases List.mem_or_eq_of_mem_set hq with hq | rfl
      · exact hfree q hq
      · rintro ⟨op, hop, htouches⟩
        exact (horderly op hop e.1 htouches p hp').2 (List.mem_map_of_mem he)
    · cases he
  case settled =>
    intro k v h hfree
    obtain ⟨v₀, rfl, hv₀⟩ := hquery k v h
    have huntouched : ∀ op ∈ batch.operations, ¬op.Touches k :=
      fun op hop htouches => hfree _ hmem ⟨op, hop, htouches⟩
    have hv₀ : s.store.query k = some v₀ :=
      hv₀.resolve_right fun h => h.elim fun op hop => huntouched op hop.1 hop.2
    rw [Batch.applyAt_of_not_touches huntouched]
    refine hs.settled k v₀ hv₀ fun q hq => ?_
    rcases mem_set_or_eq hp (.writeStore batch) hq with rfl | hq
    · exact not_writes rfl k
    · exact hfree q hq
  case staged =>
    intro k v h q hq hk
    obtain ⟨v₀, rfl, hv₀⟩ := hquery k v h
    rcases List.mem_or_eq_of_mem_set hq with hq | rfl
    · -- Another write of this key is under way, so the batch does not concern it.
      have huntouched : ∀ op ∈ batch.operations, ¬op.Touches k :=
        fun op hop htouches => (horderly op hop k htouches q hq).1 hk
      have hv₀ : s.store.query k = some v₀ :=
        hv₀.resolve_right fun h => h.elim fun op hop => huntouched op hop.1 hop.2
      rw [Batch.applyAt_of_not_touches huntouched]
      exact hs.staged k v₀ hv₀ q hq hk
    · exact Batch.applyAt_of_touches hk v₀ none

/-- A batch arrives in the store. -/
theorem Sound.commit (hs : s.Sound) {batch : Batch}
    (hp : s.calls[index]? = some (.writeStore batch)) (answer : Answer) :
    (System.mk { s.store with store := batch.apply s.store.store }
      (s.calls.set index (.returned answer))).Sound := by
  have hmem : .writeStore batch ∈ s.calls := List.mem_of_getElem? hp
  have hcalls : ∀ {q}, q ∈ s.calls.set index (.returned answer) →
      q ∈ s.calls ∨ q = .returned answer := List.mem_or_eq_of_mem_set
  constructor
  case held =>
    intro p hp' e he
    rcases hcalls hp' with hp' | rfl
    · obtain ⟨hvalue, hfree⟩ := hs.held p hp' e he
      refine ⟨?_, fun q hq => (hcalls hq).elim (hfree q) fun h => h ▸ not_writes rfl e.1⟩
      have huntouched : ∀ op ∈ batch.operations, ¬op.Touches e.1 :=
        fun op hop htouches => hfree _ hmem ⟨op, hop, htouches⟩
      rw [Batch.get_apply, Batch.applyAt_of_not_touches huntouched]
      exact hvalue
    · cases he
  case settled =>
    intro k v h hfree
    rw [Batch.get_apply]
    by_cases htouches : ∃ op ∈ batch.operations, op.Touches k
    · rw [hs.staged k v h _ hmem htouches]
      exact Batch.applyAt_of_touches htouches none _
    · have huntouched : ∀ op ∈ batch.operations, ¬op.Touches k :=
        fun op hop hk => htouches ⟨op, hop, hk⟩
      rw [Batch.applyAt_of_not_touches huntouched]
      refine hs.settled k v h fun q hq => ?_
      rcases mem_set_or_eq hp (.returned answer) hq with rfl | hq
      · exact htouches
      · exact hfree q hq
  case staged =>
    intro k v h q hq hk
    rcases hcalls hq with hq | rfl
    · exact hs.staged k v h q hq hk
    · exact absurd hk (not_writes rfl k)

/-- **One event.** -/
theorem Sound.step {s s' : System} {event : Event} (hs : s.Sound) (horderly : s.Orderly event)
    (h : s.step event = some s') : s'.Sound := by
  cases event with
  | start call =>
    cases h
    refine hs.move (fun p hp => ?_) fun p hp => .inl (List.mem_append_left _ hp)
    rcases List.mem_append.mp hp with hp | hp
    · exact .inl hp
    · obtain rfl := List.mem_singleton.mp hp
      refine .inr ⟨by cases call <;> rfl, fun e he => ?_⟩
      cases call <;> cases he
  | access index served =>
    obtain ⟨p, hp, h⟩ := Option.bind_eq_some_iff.mp h
    obtain ⟨⟨store, p'⟩, haccess, h⟩ := Option.bind_eq_some_iff.mp h
    cases h
    simp only [Orderly, hp] at horderly
    have hmem : p ∈ s.calls := List.mem_of_getElem? hp
    have hnothing : ∀ {q : Point}, q.held = [] → ∀ e ∈ q.held,
        e.2 = s.store.store.get e.1 ∧ ∀ q ∈ s.calls, ¬q.Writes e.1 := by
      intro q hq e he
      rw [hq] at he
      cases he
    cases p with
    | readQuery _ | containsQuery _ | containsStore _ | containsAllQuery _ | containsAllStore _ _
      | readAllQuery _ =>
      -- These accesses only ask.
      simp only [LruCachingStore.access] at haccess
      split at haccess
      · cases haccess
        exact hs.set hp rfl rfl (hnothing rfl)
      · cases haccess
        exact hs.set hp rfl rfl (hnothing rfl)
    | readStore key =>
      simp only [LruCachingStore.access] at haccess
      split at haccess
      · next hserved =>
        cases haccess
        refine hs.set hp rfl rfl fun e he => ?_
        obtain rfl := List.mem_singleton.mp he
        exact ⟨rfl, horderly hserved⟩
      · cases haccess
        exact hs.set hp rfl rfl (hnothing rfl)
    | readInsert key value =>
      cases haccess
      have hinsert := hs.insertHeld hmem (f := (·.insert key value)) fun c k v h => by
        rcases LruPrefixCache.query_insert h with ⟨rfl, rfl⟩ | ⟨-, h⟩
        · exact .inl (List.mem_singleton.mpr rfl)
        · exact .inr h
      exact hinsert.set hp rfl rfl (hnothing rfl)
    | readAllStore result misses =>
      simp only [LruCachingStore.access] at haccess
      split at haccess
      · next hserved =>
        cases haccess
        refine hs.set hp rfl rfl fun e he => ?_
        obtain ⟨⟨i, key, value⟩, hfetched, rfl⟩ := List.mem_map.mp he
        obtain ⟨miss, hmiss, heq⟩ := List.mem_map.mp hfetched
        cases heq
        exact ⟨rfl, horderly hserved miss hmiss⟩
      · cases haccess
        exact hs.set hp rfl rfl (hnothing rfl)
    | readAllInsert result fetched =>
      cases haccess
      have hinsert := hs.insertHeld hmem fun c k v h => LruPrefixCache.query_foldl_insert h
      exact hinsert.set hp rfl rfl (hnothing rfl)
    | writeCache batch =>
      cases haccess
      exact hs.stage hp horderly
    | writeStore batch =>
      simp only [LruCachingStore.access] at haccess
      split at haccess
      · cases haccess
        exact hs.commit hp _
      · next hserved =>
        cases haccess
        have hcommit := hs.commit hp .failed
        rw [horderly.resolve_left hserved] at hcommit
        exact hcommit
    | returned answer => cases haccess

/-- **Coherence.** In every run of calls that do not cross in this way, whenever all calls have
returned, the cache holds what the inner store holds, and later reads return that. -/
theorem cache_coherent {store : KeyValueMap} {cacheSize : Nat} {events : List Event} {s : System}
    (hrun : Run.run step (new store cacheSize) events = some s)
    (horderly : Run.Along step Orderly (new store cacheSize) events) (hidle : s.Idle) :
    s.store.Coherent ∧
      ∀ call, (s.store.perform call).2 = .returned (call.answer s.store.store) := by
  have hs : s.Sound := Run.invariant_along (fun _ _ _ hs horderly h => hs.step horderly h)
    (sound_new store cacheSize) horderly hrun
  have hcoherent : s.store.Coherent := by
    intro k v h
    refine hs.settled k v h fun q hq => ?_
    have hreturned := hidle q hq
    cases q with
    | returned answer => exact not_writes rfl k
    | _ => cases hreturned
  exact ⟨hcoherent, perform_of_coherent hcoherent⟩

/-- A batch that stores `value` under `key`. -/
def putBatch (key value : Bytes) : Batch := ⟨[.put key value]⟩

/-- A read of one key and a write of another one overlap, and a batch without operations is
rejected. -/
def overlapping : List Event :=
  [.start (.readValueBytes [1]), .start (.writeBatch (putBatch [2] [7])), .access 0 true,
    .access 1 true, .access 0 true, .access 1 true, .access 0 true,
    .start (.writeBatch ⟨[]⟩), .access 2 true, .access 2 false]

theorem cache_coherent_overlapping :
    ∃ s ∈ Run.run step (new (.ofList [([1], [5])]) 2) overlapping,
      s.Idle ∧ s.store.query [1] = some (some [5]) ∧ s.store.query [2] = some (some [7]) ∧
        s.store.Coherent := by
  obtain ⟨s, hrun, hidle, hqueries⟩ :
      ∃ s ∈ Run.run step (new (.ofList [([1], [5])]) 2) overlapping,
        (∀ p ∈ s.calls, p.isReturned) ∧ s.store.query [1] = some (some [5]) ∧
          s.store.query [2] = some (some [7]) := by decide
  have horderly : Run.Along step Orderly (new (.ofList [([1], [5])]) 2) overlapping := by
    refine ⟨trivial, fun _ h => ?_⟩
    cases h
    refine ⟨trivial, fun _ h => ?_⟩
    cases h
    refine ⟨trivial, fun _ h => ?_⟩
    cases h
    refine ⟨fun op _ k _ q hq => ?_, fun _ h => ?_⟩
    · -- The read is about to ask the store, and has nothing to insert yet.
      change q ∈ [Point.readStore [1], .writeCache (putBatch [2] [7])] at hq
      rcases List.mem_pair.mp hq with rfl | rfl
      · exact ⟨not_writes rfl k, List.not_mem_nil⟩
      · exact ⟨not_writes rfl k, List.not_mem_nil⟩
    cases h
    refine ⟨fun _ => ?_, fun _ h => ?_⟩
    · show ∀ q ∈ [Point.readStore [1], .writeStore (putBatch [2] [7])], ¬q.Writes [1]
      decide
    cases h
    refine ⟨.inl rfl, fun _ h => ?_⟩
    cases h
    refine ⟨trivial, fun _ h => ?_⟩
    cases h
    refine ⟨trivial, fun _ h => ?_⟩
    cases h
    refine ⟨fun op hop => absurd hop List.not_mem_nil, fun _ h => ?_⟩
    cases h
    exact ⟨.inr rfl, fun _ _ => trivial⟩
  exact ⟨s, hrun, hidle, hqueries.1, hqueries.2, (cache_coherent hrun horderly hidle).1⟩

/-- A cached answer goes stale in two ways. The inner store rejects a batch that is already in the
cache; or a read fetches the old value, a whole write takes place, and the old value is then
inserted. -/
theorem cache_goes_stale :
    (∃ s ∈ Run.run step (new .empty 2)
        [.start (.writeBatch (putBatch [1] [7])), .access 0 true, .access 0 false],
      s.Idle ∧ s.store.store.get [1] = none ∧
        (s.store.perform (.readValueBytes [1])).2 = .returned (.value (some [7]))) ∧
    ∃ s ∈ Run.run step (new .empty 2)
        [.start (.readValueBytes [1]), .access 0 true, .access 0 true,
          .start (.writeBatch (putBatch [1] [7])), .access 1 true, .access 1 true,
          .access 0 true],
      s.Idle ∧ s.store.store.get [1] = some [7] ∧
        (s.store.perform (.readValueBytes [1])).2 = .returned (.value none) := by
  unfold Idle
  decide

end System

end LruCachingStore

end Linera.Views
