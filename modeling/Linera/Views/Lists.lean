import Linera.Views.Refinement
import Linera.Views.Save

/-!
# Logs and queues as lists

A `LogView` is an append-only list and a `QueueView` a FIFO list, whatever part of it is in
the storage. The entries in the storage are those of the list that was saved last, from some
index on (`HoldsFrom`); the staged changes say what has become of them.
-/

namespace Linera.Views

variable {α : Type} {codec : Bcs.Codec α} {key : Bytes} {m : KeyValueMap}

/-! ## Entries -/

variable (codec key m) in
/-- The values are stored as entries, from the index `start` on. -/
def HoldsFrom (start : Nat) (values : List α) : Prop :=
  ∀ i < values.length, readEntry codec key m (start + i) = .ok values[i]?

theorem readEntry_eq {i : Nat} {bytes : Bytes} (hi : Bcs.Codec.u64.write i = some bytes) :
    readEntry codec key m i = fromBytesOption codec (m.get (baseTagIndex key secondTag bytes)) := by
  have hkey : indexKey key i = .ok (baseTagIndex key secondTag bytes) :=
    deriveTagKey_eq_ok.mpr ⟨bytes, hi, rfl⟩
  rw [readEntry, hkey, Except.ok_bind]

/-- Reading all keys and then all values is reading the entries one by one. -/
theorem mapM_entries {indices : List Nat} {values : List (Option α)}
    (h : List.Forall₂ (fun i value => readEntry codec key m i = .ok value) indices values) : (do
      let keys ← indices.mapM (indexKey key)
      keys.mapM fun k => fromBytesOption codec (m.get k)) = .ok values := by
  induction h with
  | nil => rfl
  | cons hentry _ ih =>
    obtain ⟨k, hk, hvalue⟩ := Except.bind_eq_ok.mp hentry
    obtain ⟨keys, hkeys, hvalues⟩ := Except.bind_eq_ok.mp ih
    simp only [List.mapM_cons, hk, hkeys, hvalue, hvalues, Except.ok_bind, Except.pure_eq]

theorem HoldsFrom.readContext {start a b : Nat} {values : List α}
    (h : HoldsFrom codec key m start values) (hb : b ≤ values.length) :
    readContext codec key m (start + a) (start + b) = .ok ((values.take b).drop a) := by
  have hentries : List.Forall₂ (fun i value => readEntry codec key m i = .ok value)
      (List.range' (start + a) (start + b - (start + a))) (((values.take b).drop a).map some) := by
    refine List.forall₂_iff_get.mpr ⟨by simp; omega, fun i hi hi' => ?_⟩
    have hlt : a + i < values.length := by
      simp only [List.length_range'] at hi
      omega
    have := h (a + i) hlt
    simpa [List.getElem?_eq_getElem hlt, Nat.add_assoc] using this
  have hvalues : ∀ (f : Option α → Except ViewError α) (values : List α),
      (∀ value, f (some value) = .ok value) → (values.map some).mapM f = .ok values := by
    intro f values hf
    induction values with
    | nil => rfl
    | cons value rest ih =>
      simp only [List.map_cons, List.mapM_cons, hf, ih, Except.ok_bind, Except.pure_eq]
  obtain ⟨keys, hkeys, hread⟩ := Except.bind_eq_ok.mp (mapM_entries hentries)
  simp only [Views.readContext, hkeys, hread, Except.ok_bind]
  exact hvalues _ _ fun _ => rfl

/-- What is read from the entries after new values have been put behind them. -/
theorem HoldsFrom.putValues {start : Nat} {values new : List α}
    {before : List WriteOperation} {after : List WriteOperation} {r : Nat × List WriteOperation}
    (hbefore : HoldsFrom codec key (Batch.apply ⟨before⟩ m) start values)
    (hput : putValues codec key (start + values.length) new = .ok r)
    (hafter : ∀ op ∈ after, baseTag key firstTag <+: op.target)
    (hbound : start + values.length + new.length < 2 ^ 64) :
    HoldsFrom codec key (Batch.apply ⟨before ++ r.2 ++ after⟩ m) start (values ++ new) := by
  intro i hi
  rw [List.length_append] at hi
  obtain ⟨bytes, hbytes⟩ := @Bcs.Codec.u64_isSome (start + i) (by omega)
  obtain ⟨hnew, hold⟩ := applyAt_putValues hbytes _ _ _ hput
    (Batch.applyAt (baseTagIndex key secondTag bytes) before (m.get (baseTagIndex key secondTag bytes)))
  rw [readEntry_eq hbytes, Batch.get_apply, Batch.applyAt_append,
    Batch.applyAt_of_below hafter (not_below_firstTag _ _), Batch.applyAt_append]
  by_cases hlt : i < values.length
  · rw [hold (by omega), List.getElem?_append_left hlt, ← hbefore i hlt, readEntry_eq hbytes,
      Batch.get_apply]
  · rw [List.getElem?_append_right (by omega), List.getElem?_eq_getElem (by omega)]
    refine hnew _ (by omega) ?_
    rw [← List.getElem?_eq_getElem]
    congr 1
    omega

theorem HoldsFrom.nil (start : Nat) : HoldsFrom codec key m start [] := nofun

/-! ## Logs -/

namespace LogView

/-- Reads several logged values: places are left for those in the storage, and filled in later. -/
def multiGet (codec : Bcs.Codec α) (store : KeyValueMap) (v : LogView α) (indices : List Nat) :
    Except ViewError (List (Option α)) :=
  if v.deleteStorageFirst then .ok (indices.map fun index => v.newValues[index]?)
  else do
    let result := indices.map fun index =>
      if index < v.storedCount then none else v.newValues[index - v.storedCount]?
    let stored := indices.zipIdx.filter fun entry => entry.1 < v.storedCount
    let keys ← (stored.map Prod.fst).mapM (indexKey v.baseKey)
    let values ← keys.mapM fun key => fromBytesOption codec (store.get key)
    return ((stored.map Prod.snd).zip values).foldl (fun result entry => result.set entry.1 entry.2)
      result

/-- An end of a range of indices. -/
inductive Bound where
  | included (index : Nat)
  | excluded (index : Nat)
  | unbounded

/-- The first index of a range, in `usize` arithmetic. -/
def Bound.start : Bound → Nat
  | included index => index
  | excluded index => (index + 1) % 2 ^ 64
  | unbounded => 0

/-- The index behind a range. -/
def Bound.stop : Bound → Option Nat
  | included index => some ((index + 1) % 2 ^ 64)
  | excluded index => some index
  | unbounded => none

/-- The bound is below `usize::MAX`. -/
def Bound.BelowMax : Bound → Prop
  | included index => index < 2 ^ 64 - 1
  | excluded index => index < 2 ^ 64 - 1
  | unbounded => True

/-- The values of a list whose indices are in a range. -/
def slice (lower upper : Bound) (values : List α) : List α :=
  let above := match upper with
    | .included index => values.take (index + 1)
    | .excluded index => values.take index
    | .unbounded => values
  match lower with
  | .included index => above.drop index
  | .excluded index => above.drop (index + 1)
  | .unbounded => above

def change (values : List α) : Change α → List α
  | .push value => values ++ [value]
  | .clear => []

/-- The saved values that the view still has. -/
def kept (v : LogView α) (saved : List α) : List α := if v.deleteStorageFirst then [] else saved

variable (codec) in
/-- What the storage and the view hold of the two versions. -/
structure Shows (s : StoredView (viewType codec)) (a : Versions (List α)) : Prop where
  count : fromBytesOptionOrDefault .u64 (s.store.get (baseTag (baseKey s.view) firstTag)) =
    .ok a.saved.length
  length_lt : a.saved.length < 2 ^ 64
  entries : HoldsFrom codec (baseKey s.view) s.store 0 a.saved
  storedCount : LogView.storedCount s.view = a.saved.length
  now : a.now = kept s.view a.saved ++ newValues s.view

theorem flushValues_holds {v : LogView α} {values : List α} {deletion : List WriteOperation}
    {deleteView : Bool} (h : HoldsFrom codec v.baseKey (Batch.apply ⟨deletion⟩ m) 0 values)
    (hlt : values.length < 2 ^ 64) :
    (v.flushValues codec values.length deletion deleteView).Ensures fun r =>
      HoldsFrom codec v.baseKey (Batch.apply ⟨r.2.1⟩ m) 0 (values ++ v.newValues) ∧
        (values ++ v.newValues).length < 2 ^ 64 := by
  unfold flushValues
  split
  · next hnone =>
    rw [hnone, List.append_nil]
    exact .ok ⟨h, hlt⟩
  · intro r hr
    obtain ⟨⟨stop, operations⟩, hput, hr⟩ := Except.bind_eq_ok.mp hr
    obtain ⟨bytes, hbytes, hr⟩ := Except.bind_eq_ok.mp hr
    cases hr
    obtain rfl := length_putValues _ _ _ hput
    have hbound := Bcs.Codec.lt_of_write_u64 (toBytes_eq_ok.mp hbytes)
    rw [List.length_append]
    rw [← Nat.zero_add values.length] at hput hbound
    refine ⟨h.putValues hput (fun op hop => ?_) hbound, by omega⟩
    rw [List.mem_singleton.mp hop]
    exact List.prefix_rfl

theorem Shows.holds_kept {s : StoredView (viewType codec)} {a : Versions (List α)}
    (h : Shows codec s a) : HoldsFrom codec (baseKey s.view) s.store 0 (kept s.view a.saved) := by
  unfold kept
  split
  · exact .nil 0
  · exact h.entries

theorem length_kept {v : LogView α} {saved : List α} (h : v.storedCount = saved.length) :
    (v.kept saved).length = if v.deleteStorageFirst then 0 else v.storedCount := by
  rw [kept, h]
  split <;> rfl

theorem Shows.count_eq {s : StoredView (viewType codec)} {a : Versions (List α)}
    (h : Shows codec s a) : LogView.count s.view = a.now.length := by
  obtain ⟨store, v⟩ := s
  rw [h.now, List.length_append, length_kept h.storedCount]
  unfold LogView.count
  split <;> simp

variable (codec) in
theorem refines_list : Refines (viewType codec) change (Shows codec) where
  stage {s a} h c := by
    cases c with
    | push value =>
      refine ⟨_, rfl, h.count, h.length_lt, h.entries, h.storedCount, ?_⟩
      show a.now ++ [value] = kept s.view a.saved ++ (newValues s.view ++ [value])
      rw [h.now, List.append_assoc]
    | clear => exact ⟨_, rfl, h.count, h.length_lt, h.entries, h.storedCount, rfl⟩
  rollback h := ⟨h.count, h.length_lt, h.entries, h.storedCount, (List.append_nil _).symm⟩
  save {s a} h := by
    obtain ⟨store, v⟩ := s
    intro r hr
    obtain ⟨hview, hcount⟩ := flush_spec codec v (h.storedCount ▸ h.count) r hr
    have hentries : HoldsFrom codec v.baseKey (Batch.apply ⟨r.2.1⟩ store) 0 a.now ∧
        a.now.length < 2 ^ 64 := by
      rw [h.now]
      simp only [viewType, flush] at hr
      unfold kept
      split at hr
      · next hdelete =>
        rw [if_pos hdelete]
        exact flushValues_holds (.nil 0) (by simp) r hr
      · next hkeep =>
        rw [if_neg hkeep]
        have hstored : v.storedCount = a.saved.length := h.storedCount
        rw [hstored] at hr
        exact flushValues_holds h.entries h.length_lt r hr
    rw [h.count_eq] at hcount hview
    obtain ⟨v', ops, deleteView⟩ := r
    obtain rfl : v' = loaded v.baseKey a.now.length := hview
    exact ⟨hcount, hentries.2, hentries.1, rfl, (List.append_nil _).symm⟩
  reload {s a} h := by
    refine (load_eq codec _ _).trans ?_
    rw [show fromBytesOptionOrDefault .u64 (s.store.get (baseTag ((viewType codec).baseKey s.view)
      firstTag)) = .ok a.saved.length from h.count, ← h.storedCount]
    rfl

section reads

variable {store : KeyValueMap} {v : LogView α} {a : Versions (List α)}

theorem Shows.get_eq (h : Shows codec ⟨store, v⟩ a) (index : Nat) :
    v.get codec store index = .ok a.now[index]? := by
  have hstored : v.storedCount = a.saved.length := h.storedCount
  rw [h.now]
  unfold LogView.get kept
  cases hdelete : v.deleteStorageFirst with
  | true => simp
  | false =>
    simp only [Bool.false_eq_true, if_false, hstored]
    split
    · next hlt =>
      have hentry := h.entries index hlt
      rw [Nat.zero_add] at hentry
      rw [List.getElem?_append_left hlt]
      exact hentry
    · next hge => rw [List.getElem?_append_right (not_lt.mp hge)]

/-- Setting places to what a function says. -/
theorem getElem?_foldl_set {β : Type*} {f : Nat → β} {entries : List (Nat × β)}
    (hentries : ∀ e ∈ entries, e.2 = f e.1) (result : List β) (i : Nat) :
    ((∃ e ∈ entries, e.1 = i) →
      (entries.foldl (fun result e => result.set e.1 e.2) result)[i]? = result[i]?.map fun _ => f i) ∧
    ((¬∃ e ∈ entries, e.1 = i) →
      (entries.foldl (fun result e => result.set e.1 e.2) result)[i]? = result[i]?) := by
  induction entries generalizing result with
  | nil => simp
  | cons e entries ih =>
    obtain ⟨he, hentries⟩ := List.forall_mem_cons.mp hentries
    obtain ⟨hset, hkeep⟩ := ih hentries (result.set e.1 e.2)
    rw [List.getElem?_set'] at hset hkeep
    simp only [List.foldl_cons, List.mem_cons, exists_eq_or_imp]
    by_cases hfirst : e.1 = i
    · subst hfirst
      refine ⟨fun _ => ?_, fun h => absurd (.inl rfl) h⟩
      by_cases hlater : ∃ e' ∈ entries, e'.1 = e.1
      · rw [hset hlater]
        simp [Function.comp_def]
      · rw [hkeep hlater, if_pos rfl, he]
        rfl
    · simp only [hfirst, if_false, false_or] at hset hkeep ⊢
      exact ⟨hset, hkeep⟩

theorem Shows.multiGet_eq (h : Shows codec ⟨store, v⟩ a) (indices : List Nat) :
    v.multiGet codec store indices = .ok (indices.map fun index => a.now[index]?) := by
  have hget := h.get_eq
  unfold multiGet
  unfold LogView.get at hget
  cases hdelete : v.deleteStorageFirst with
  | true =>
    simp only [hdelete, if_true, Except.ok.injEq] at hget
    simp only [if_true, hget]
  | false =>
    simp only [hdelete, Bool.false_eq_true, if_false] at hget ⊢
    have hread : List.Forall₂ (fun i value => readEntry codec v.baseKey store i = .ok value)
        ((indices.zipIdx.filter fun e => e.1 < v.storedCount).map Prod.fst)
        ((indices.zipIdx.filter fun e => e.1 < v.storedCount).map fun e => a.now[e.1]?) := by
      rw [List.forall₂_map_left_iff, List.forall₂_map_right_iff, List.forall₂_same]
      intro e he
      have hlt : e.1 < v.storedCount := by simpa using (List.mem_filter.mp he).2
      have hentry := hget e.1
      rwa [if_pos hlt] at hentry
    obtain ⟨keys, hkeys, hvalues⟩ := Except.bind_eq_ok.mp (mapM_entries hread)
    simp only [hkeys, hvalues, Except.ok_bind, Except.pure_eq, List.zip_map']
    refine congrArg _ (List.ext_getElem? fun i => ?_)
    have hplaces : ∀ e ∈ (indices.zipIdx.filter fun e => e.1 < v.storedCount).map
        fun e => (e.2, a.now[e.1]?), e.2 = indices[e.1]?.bind fun index => a.now[index]? := by
      rintro e he
      obtain ⟨entry, hentry, rfl⟩ := List.mem_map.mp he
      simp [List.mem_zipIdx_iff_getElem?.mp (List.mem_filter.mp hentry).1]
    obtain ⟨hset, hkeep⟩ := @getElem?_foldl_set _
      (fun i => indices[i]?.bind fun index => a.now[index]?) _ hplaces (indices.map fun index =>
      if index < v.storedCount then none else v.newValues[index - v.storedCount]?) i
    simp only [List.mem_map, List.mem_filter, decide_eq_true_eq] at hset hkeep
    cases hi : indices[i]? with
    | none =>
      rw [hkeep (by rintro ⟨_, ⟨e, ⟨he, -⟩, rfl⟩, rfl⟩; simp [List.mem_zipIdx_iff_getElem?.mp he] at hi)]
      simp [hi]
    | some index =>
      by_cases hlt : index < v.storedCount
      · rw [hset ⟨_, ⟨(index, i), ⟨List.mem_zipIdx_iff_getElem?.mpr hi, hlt⟩, rfl⟩, rfl⟩]
        simp [hi]
      · have hentry := hget index
        rw [if_neg hlt, Except.ok.injEq] at hentry
        rw [hkeep ?_]
        · simp [hi, hlt, hentry]
        · rintro ⟨_, ⟨e, ⟨he, hstored⟩, rfl⟩, rfl⟩
          have hsame := (List.mem_zipIdx_iff_getElem?.mp he).symm.trans hi
          exact hlt (Option.some.inj hsame ▸ hstored)

theorem Shows.read_eq (h : Shows codec ⟨store, v⟩ a) (start : Nat) (stop : Option Nat) :
    v.read codec store start stop = .ok ((a.now.take (stop.getD a.now.length)).drop start) := by
  have hcount : v.count = a.now.length := h.count_eq
  have heff : (v.kept a.saved).length = if v.deleteStorageFirst then 0 else v.storedCount :=
    length_kept h.storedCount
  have hread : ∀ {b c}, c ≤ (v.kept a.saved).length →
      readContext codec v.baseKey store b c = .ok (((v.kept a.saved).take c).drop b) := by
    intro b c hc
    have := h.holds_kept.readContext (a := b) hc
    rwa [Nat.zero_add, Nat.zero_add] at this
  have htake : a.now.take (stop.getD a.now.length) =
      a.now.take (min (stop.getD a.now.length) a.now.length) := by
    rw [List.take_eq_take_iff, min_assoc, min_self]
  rw [htake]
  simp only [LogView.read, ← heff, hcount]
  have hle : min (stop.getD a.now.length) a.now.length ≤ a.now.length := min_le_right _ _
  generalize min (stop.getD a.now.length) a.now.length = last at hle
  have hnow : a.now = v.kept a.saved ++ v.newValues := h.now
  rw [hnow, List.length_append] at hle
  rw [hnow]
  split
  · next hempty => rw [List.drop_eq_nil_of_le (by simp; omega)]
  · split
    · split
      · next hlast => rw [hread hlast, List.take_append_of_le_length hlast]
      · next hstart hlast =>
        have hall : (v.kept a.saved).take last = v.kept a.saved :=
          List.take_of_length_le (by omega)
        rw [hread le_rfl, Except.ok_bind, List.take_length, List.take_append, hall,
          List.drop_append_of_le_length hstart.le]
        rfl
    · next hstart =>
      have hall : (v.kept a.saved).take last = v.kept a.saved :=
        List.take_of_length_le (by omega)
      rw [List.take_append, hall, List.drop_append, List.drop_eq_nil_of_le (not_lt.mp hstart),
        List.nil_append]

end reads

theorem slice_eq {lower upper : Bound} (hlower : lower.BelowMax) (hupper : upper.BelowMax)
    (values : List α) :
    slice lower upper values = (values.take (upper.stop.getD values.length)).drop lower.start := by
  have habove : ∀ {index : Nat}, index < 2 ^ 64 - 1 → (index + 1) % 2 ^ 64 = index + 1 :=
    fun h => Nat.mod_eq_of_lt (by omega)
  cases upper with
  | included index =>
    rw [Bound.stop, habove hupper]
    cases lower with
    | excluded first => rw [Bound.start, habove hlower]; rfl
    | _ => rfl
  | excluded index =>
    cases lower with
    | excluded first => rw [Bound.start, habove hlower]; rfl
    | _ => rfl
  | unbounded =>
    cases lower with
    | excluded first => rw [Bound.start, habove hlower]; simp [slice, Bound.stop]
    | _ => simp [slice, Bound.stop, Bound.start]

/-- **A log is an append-only list.** After any pushes, clears, rollbacks, saves and reloads, the
reads return what the list holds that these act on, with no access behind the staged values; and
only a save can fail. -/
theorem log_refines_list (codec : Bcs.Codec α) {baseKey : Bytes} {store : KeyValueMap}
    (hempty : ∀ k, baseKey <+: k → store.get k = none)
    {events : List (ViewEvent (viewType codec))} {s : StoredView (viewType codec)}
    (hrun : Run.run StoredView.step ⟨store, loaded baseKey 0⟩ events = some s) :
    let now := (events.foldl (Versions.step change) ⟨[], []⟩).now
    let v : LogView α := s.view
    (∀ index, v.get codec s.store index = .ok now[index]?) ∧
      (∀ indices, v.multiGet codec s.store indices = .ok (indices.map fun index => now[index]?)) ∧
      (∀ lower upper : Bound, lower.BelowMax → upper.BelowMax →
        v.read codec s.store lower.start upper.stop = .ok (slice lower upper now)) ∧
      (∀ stop ≤ v.count,
        stop - (if v.deleteStorageFirst then 0 else v.storedCount) ≤ v.newValues.length) ∧
      ∀ event ≠ .save, ∃ s', s.step event = some s' := by
  have hstart : Shows codec ⟨store, loaded baseKey 0⟩ ⟨[], []⟩ := by
    refine ⟨?_, by simp, .nil 0, rfl, rfl⟩
    show fromBytesOptionOrDefault .u64 (store.get (baseTag baseKey firstTag)) = _
    rw [hempty (baseTag baseKey firstTag) (List.prefix_append _ _)]
    rfl
  have hshows := (refines_list codec).run hstart hrun
  obtain ⟨store', v⟩ := s
  refine ⟨hshows.get_eq, hshows.multiGet_eq, ?_, ?_, fun event hevent =>
    (refines_list codec).exists_step hshows hevent⟩
  · intro lower upper hlower hupper
    rw [slice_eq hlower hupper]
    exact hshows.read_eq _ _
  · intro stop hstop
    unfold LogView.count at hstop
    cases hdelete : LogView.deleteStorageFirst v <;> simp [hdelete] at hstop ⊢ <;> omega

def exampleEvents : List (ViewEvent (viewType Bcs.Codec.u64)) :=
  [.stage (.push 5), .stage (.push 6), .save, .stage (.push 7), .reload, .stage (.push 8)]

/-- Two values are stored and one is staged. -/
theorem log_refines_list_straddling :
    ∃ s, Run.run StoredView.step ⟨.empty, loaded [] 0⟩ exampleEvents = some s ∧
      LogView.read Bcs.Codec.u64 s.store s.view 1 (some 9) = .ok [6, 8] := by
  obtain ⟨s, hs⟩ : ∃ s, Run.run StoredView.step ⟨.empty, loaded [] 0⟩ exampleEvents = some s :=
    ⟨_, rfl⟩
  exact ⟨s, hs, (log_refines_list Bcs.Codec.u64 (fun _ _ => rfl) hs).2.2.1 (.included 1) (.excluded 9)
    (by simp [Bound.BelowMax]) (by simp [Bound.BelowMax])⟩

end LogView

/-! ## Queues -/

namespace QueueView

def hasPendingChanges (v : QueueView α) : Bool :=
  v.deleteStorageFirst || v.frontDeleteCount > 0 || !v.newBackValues.isEmpty

def change (values : List α) : Change α → List α
  | .pushBack value => values ++ [value]
  | .deleteFront => values.tail
  | .iterMut f => values.mapIdx f
  | .clear => []

/-- What the reads return for a list. -/
def reply (values : List α) : Query → Reply α
  | .count => .count values.length
  | .front => .value values.head?
  | .back => .value values.getLast?
  | .readFront count => .values (values.take count)
  | .readBack count => .values (values.drop (values.length - count))
  | .elements => .values values

/-- The saved values that the view still has. -/
def kept (v : QueueView α) (saved : List α) : List α :=
  if v.deleteStorageFirst then [] else saved.drop v.frontDeleteCount

variable (codec) in
/-- What the storage and the view hold of the two versions. -/
structure Shows (s : StoredView (viewType codec)) (a : Versions (List α)) : Prop where
  indices : fromBytesOptionOrDefault indicesCodec
    (s.store.get (baseTag (baseKey s.view) firstTag)) = .ok (start s.view, stop s.view)
  stop_eq : stop s.view = start s.view + a.saved.length
  stop_lt : stop s.view < 2 ^ 64
  entries : HoldsFrom codec (baseKey s.view) s.store (start s.view) a.saved
  now : a.now = kept s.view a.saved ++ newBackValues s.view

variable {store : KeyValueMap} {v : QueueView α} {a : Versions (List α)}
  (h : Shows codec ⟨store, v⟩ a)

include h

theorem Shows.length_kept : (v.kept a.saved).length = v.storedCount := by
  have hstop : v.stop = v.start + a.saved.length := h.stop_eq
  unfold kept storedCount
  split
  · rfl
  · rw [List.length_drop]
    omega

/-- The part of the list that is in the storage starts at this index. -/
theorem Shows.holds_kept :
    HoldsFrom codec v.baseKey store (v.stop - v.storedCount) (v.kept a.saved) := by
  have hlength := h.length_kept
  have hstop : v.stop = v.start + a.saved.length := h.stop_eq
  have hle := v.frontDeleteCount_le
  intro i hi
  have hkept : v.deleteStorageFirst = false := by
    by_contra hdelete
    rw [hlength, storedCount, if_pos (by simpa using hdelete)] at hi
    exact Nat.not_lt_zero i hi
  have hentry := h.entries (v.frontDeleteCount + i)
  simp only [kept, storedCount, hkept, Bool.false_eq_true, if_false, List.length_drop,
    List.getElem?_drop] at hi ⊢
  rw [← hentry (by omega)]
  congr 1
  show v.stop - (v.stop - v.start - v.frontDeleteCount) + i = v.start + (v.frontDeleteCount + i)
  omega

theorem Shows.count_eq : v.count = a.now.length := by
  rw [h.now, List.length_append, h.length_kept]
  rfl

theorem Shows.storedCount_le : v.storedCount ≤ v.stop := by
  have hstop : v.stop = v.start + a.saved.length := h.stop_eq
  unfold storedCount
  split <;> omega

theorem Shows.readContext {b c : Nat} (hc : c ≤ v.storedCount) :
    readContext codec v.baseKey store (v.stop - v.storedCount + b) (v.stop - v.storedCount + c) =
      .ok (((v.kept a.saved).take c).drop b) :=
  h.holds_kept.readContext (h.length_kept ▸ hc)

theorem Shows.kept_eq_nil (hnone : ¬v.storedCount > 0) : v.kept a.saved = [] := by
  have hlength := h.length_kept
  exact List.length_eq_zero_iff.mp (by omega)

theorem Shows.front_eq : v.front codec store = .ok a.now.head? := by
  rw [h.now]
  unfold front
  split
  · next hpos =>
    have hlength := h.length_kept
    have hentry := h.holds_kept 0 (by omega)
    have hne : v.kept a.saved ≠ [] := List.length_pos_iff.mp (by omega)
    rw [Nat.add_zero] at hentry
    rw [hentry, List.head?_append_of_ne_nil _ hne, List.head?_eq_getElem?]
  · next hnone =>
    show _ = Except.ok (v.kept a.saved ++ v.newBackValues).head?
    rw [h.kept_eq_nil hnone, List.nil_append]

theorem Shows.back_eq : v.back codec store = .ok a.now.getLast? := by
  have hnow : a.now = v.kept a.saved ++ v.newBackValues := h.now
  rw [hnow, List.getLast?_append]
  unfold back
  cases hlast : v.newBackValues.getLast? with
  | some value => rfl
  | none =>
    simp only [Option.none_or]
    split
    · next hpos =>
      have hlength := h.length_kept
      have hle := h.storedCount_le
      have hentry := h.holds_kept (v.storedCount - 1) (by omega)
      rw [show v.stop - v.storedCount + (v.storedCount - 1) = v.stop - 1 by omega] at hentry
      rw [hentry, List.getLast?_eq_getElem?, hlength]
    · next hnone =>
      rw [h.kept_eq_nil hnone]
      rfl

theorem Shows.readFront_eq (count : Nat) :
    v.readFront codec store count = .ok (a.now.take count) := by
  have hlength := h.length_kept
  have hle := h.storedCount_le
  have htake : a.now.take count = a.now.take (min count a.now.length) := by
    rw [List.take_eq_take_iff, min_assoc, min_self]
  rw [htake]
  simp only [readFront, h.count_eq]
  generalize min count a.now.length = n
  have hnow : a.now = v.kept a.saved ++ v.newBackValues := h.now
  rw [hnow]
  split
  · next hzero => rw [hzero, List.take_zero]
  · split
    · next hdelete => rw [kept, if_pos hdelete, List.nil_append]
    · split
      · next hstored =>
        have hread := h.readContext (b := 0) hstored
        rw [Nat.add_zero, List.drop_zero] at hread
        rw [hread, List.take_append_of_le_length (by omega)]
      · next hmore =>
        have hread := h.readContext (b := 0) le_rfl
        rw [Nat.add_zero, List.drop_zero, Nat.sub_add_cancel hle, ← hlength, List.take_length,
          hlength] at hread
        have hall : (v.kept a.saved).take n = v.kept a.saved := List.take_of_length_le (by omega)
        rw [hread, Except.ok_bind, List.take_append, hall, hlength]
        rfl

theorem Shows.readBack_eq (count : Nat) :
    v.readBack codec store count = .ok (a.now.drop (a.now.length - count)) := by
  have hlength := h.length_kept
  have hle := h.storedCount_le
  have hdrop : a.now.length - count = a.now.length - min count a.now.length := by omega
  rw [hdrop]
  simp only [readBack, h.count_eq]
  have hmin : min count a.now.length ≤ a.now.length := min_le_right _ _
  generalize min count a.now.length = n at hmin
  have hnow : a.now = v.kept a.saved ++ v.newBackValues := h.now
  rw [hnow, List.length_append] at hmin
  rw [hnow, List.length_append]
  split
  · next hzero => rw [hzero, Nat.sub_zero, List.drop_eq_nil_of_le (by simp)]
  · split
    · next hnew =>
      have hn : n ≤ v.newBackValues.length := by
        rcases hnew with hnew | hdelete
        · exact hnew
        · rw [kept, if_pos hdelete] at hmin
          simpa using hmin
      have hpast : (v.kept a.saved).drop ((v.kept a.saved).length + v.newBackValues.length - n) = [] :=
        List.drop_eq_nil_of_le (by omega)
      rw [List.drop_append, hpast, List.nil_append]
      congr 2
      omega
    · next hold =>
      rw [not_or, not_le] at hold
      have hread := h.readContext (b := v.storedCount + v.newBackValues.length - n) le_rfl
      rw [Nat.sub_add_cancel hle, show v.stop - v.storedCount +
        (v.storedCount + v.newBackValues.length - n) = v.stop + v.newBackValues.length - n by omega,
        ← hlength, List.take_length, hlength] at hread
      rw [hread, Except.ok_bind, hlength, List.drop_append_of_le_length (by omega)]
      rfl

theorem Shows.answer_eq (query : Query) : v.answer codec store query = .ok (reply a.now query) := by
  cases query with
  | count => exact congrArg (Except.ok ∘ Reply.count) h.count_eq
  | front => rw [answer, h.front_eq]; rfl
  | back => rw [answer, h.back_eq]; rfl
  | readFront count => rw [answer, h.readFront_eq]; rfl
  | readBack count => rw [answer, h.readBack_eq]; rfl
  | elements => rw [answer, elements, h.readFront_eq, h.count_eq, List.take_length]; rfl

theorem Shows.loadAll_eq :
    v.loadAll codec store = .ok { v with newBackValues := a.now, deleteStorageFirst := true } := by
  have hnow : a.now = v.kept a.saved ++ v.newBackValues := h.now
  unfold loadAll
  split
  · next hdelete =>
    rw [kept, if_pos hdelete, List.nil_append] at hnow
    rw [hnow]
    obtain ⟨key, start, stop, front, delete, new, hle⟩ := v
    obtain rfl : delete = true := hdelete
    rfl
  · have hread := h.readContext (b := 0) le_rfl
    rw [Nat.add_zero, List.drop_zero, Nat.sub_add_cancel h.storedCount_le, ← h.length_kept,
      List.take_length, h.length_kept] at hread
    rw [hread, Except.ok_bind, hnow]
    rfl

theorem Shows.deleteFront : Shows codec ⟨store, v.deleteFront⟩ ⟨a.now.tail, a.saved⟩ := by
  have hnow : a.now = v.kept a.saved ++ v.newBackValues := h.now
  unfold QueueView.deleteFront
  split
  · next hpos =>
    refine ⟨h.indices, h.stop_eq, h.stop_lt, h.entries, ?_⟩
    have hlength := h.length_kept
    have hne : v.kept a.saved ≠ [] := List.length_pos_iff.mp (by omega)
    have hkeep : ¬v.deleteStorageFirst = true := by
      intro hdelete
      simp [storedCount, hdelete] at hpos
    rw [kept, if_neg hkeep] at hnow hne
    show a.now.tail = (if v.deleteStorageFirst then [] else a.saved.drop (v.frontDeleteCount + 1)) ++
      v.newBackValues
    rw [if_neg hkeep, hnow, List.tail_append_of_ne_nil hne, List.tail_drop]
  · next hnone =>
    refine ⟨h.indices, h.stop_eq, h.stop_lt, h.entries, ?_⟩
    have hempty := h.kept_eq_nil hnone
    show a.now.tail = v.kept a.saved ++ v.newBackValues.tail
    rw [hnow, hempty, List.nil_append, List.nil_append]

theorem Shows.flush {r : QueueView α × List WriteOperation × Bool} (hr : v.flush codec = .ok r) :
    Shows codec ⟨Batch.apply ⟨r.2.1⟩ store, r.1⟩ ⟨a.now, a.now⟩ := by
  obtain ⟨hentry, hlt⟩ := flush_indices codec hr store
  obtain ⟨index, frontOperations, operations, indicesOperations, hfront, hput, hputIndices, hview,
    hops, hstop, hindex⟩ := flush_eq_ok codec hr
  have hnow : a.now = v.kept a.saved ++ v.newBackValues := h.now
  have hlength := h.length_kept
  have hsaved : v.stop = v.start + a.saved.length := h.stop_eq
  have hle := v.frontDeleteCount_le
  have hplace : index = v.flushedIndices.1 + (v.kept a.saved).length := by
    rw [hlength]
    unfold flushedIndices at hstop ⊢
    split at hstop
    · next hzero => rw [if_pos hzero, hzero]; omega
    · next hne =>
      rw [if_neg hne, hindex hne]
      unfold storedCount at hne ⊢
      split at hne
      · exact absurd rfl hne
      · next hkeep => rw [if_neg hkeep]; omega
  have hbefore : HoldsFrom codec v.baseKey (Batch.apply
      ⟨(if v.deleteStorageFirst then [WriteOperation.deletePrefix v.baseKey] else []) ++
        frontOperations⟩ store) v.flushedIndices.1 (v.kept a.saved) := by
    intro i hi
    have hne : v.storedCount ≠ 0 := by omega
    have hkeep : ¬v.deleteStorageFirst = true := fun hdelete => hne (by simp [storedCount, hdelete])
    have hstart : v.flushedIndices.1 = v.stop - v.storedCount := by
      rw [flushedIndices, if_neg hne, storedCount, if_neg hkeep]
      omega
    obtain ⟨bytes, hbytes⟩ := @Bcs.Codec.u64_isSome (v.flushedIndices.1 + i) (by omega)
    rw [readEntry_eq hbytes, if_neg hkeep, List.nil_append, Batch.get_apply,
      flushFront_spec v hbytes _ hfront, if_neg, ← readEntry_eq hbytes, hstart]
    · exact h.holds_kept i hi
    · rw [flushedIndices, if_neg hne]
      omega
  obtain ⟨v', ops, deleteView⟩ := r
  obtain rfl : v' = loaded v.baseKey v.flushedIndices := hview
  obtain rfl : ops = _ := hops
  have htotal : v.flushedIndices.2 = v.flushedIndices.1 + a.now.length := by
    rw [hnow, List.length_append]
    omega
  refine ⟨hentry, htotal, hlt, ?_, (List.append_nil _).symm⟩
  rw [hnow]
  subst hplace
  refine hbefore.putValues hput (fun op hop => ?_) (by omega)
  exact putIndices_scoped v _ _ hputIndices op hop

omit h

variable (codec) in
theorem refines_list : Refines (viewType codec) change (Shows codec) where
  stage {s a} h c := by
    obtain ⟨store, v⟩ := s
    have hnow : a.now = v.kept a.saved ++ v.newBackValues := h.now
    cases c with
    | pushBack value =>
      refine ⟨_, rfl, h.indices, h.stop_eq, h.stop_lt, h.entries, ?_⟩
      show a.now ++ [value] = v.kept a.saved ++ (v.newBackValues ++ [value])
      rw [hnow, List.append_assoc]
    | deleteFront => exact ⟨_, rfl, h.deleteFront⟩
    | iterMut f =>
      let v' : QueueView α :=
        { (v : QueueView α) with newBackValues := a.now.mapIdx f, deleteStorageFirst := true }
      refine ⟨v', ?_, h.indices, h.stop_eq, h.stop_lt, h.entries, rfl⟩
      show (v.loadAll codec store >>= fun v => _) = _
      rw [h.loadAll_eq]
      rfl
    | clear => exact ⟨_, rfl, h.indices, h.stop_eq, h.stop_lt, h.entries, rfl⟩
  rollback h := ⟨h.indices, h.stop_eq, h.stop_lt, h.entries, (List.append_nil _).symm⟩
  save h r hr := h.flush hr
  reload {s a} h := by
    refine (load_eq codec _ _).trans ?_
    rw [show fromBytesOptionOrDefault indicesCodec (s.store.get (baseTag ((viewType codec).baseKey
      s.view) firstTag)) = _ from h.indices]
    rfl

/-- **A queue is a FIFO list.** After any changes, rollbacks, saves and reloads, the reads return
what the list holds that these act on; without pending changes a view that is loaded again shows
the same list; and only a save can fail. -/
theorem queue_refines_list (codec : Bcs.Codec α) {baseKey : Bytes} {store : KeyValueMap}
    (hempty : ∀ k, baseKey <+: k → store.get k = none)
    {events : List (ViewEvent (viewType codec))} {s : StoredView (viewType codec)}
    (hrun : Run.run StoredView.step ⟨store, loaded baseKey (0, 0)⟩ events = some s) :
    let now := (events.foldl (Versions.step change) ⟨[], []⟩).now
    let v : QueueView α := s.view
    (∀ query, v.answer codec s.store query = .ok (reply now query)) ∧
      (v.hasPendingChanges = false → ∃ v' : QueueView α,
        (viewType codec).load v.baseKey s.store = .ok v' ∧
          ∀ query, v'.answer codec s.store query = .ok (reply now query)) ∧
      ∀ event ≠ .save, ∃ s', s.step event = some s' := by
  have hstart : Shows codec ⟨store, loaded baseKey (0, 0)⟩ ⟨[], []⟩ := by
    refine ⟨?_, rfl, Nat.two_pow_pos 64, .nil 0, rfl⟩
    show fromBytesOptionOrDefault indicesCodec (store.get (baseTag baseKey firstTag)) = _
    rw [hempty (baseTag baseKey firstTag) (List.prefix_append _ _)]
    rfl
  have hshows := (refines_list codec).run hstart hrun
  obtain ⟨store', v⟩ := s
  refine ⟨hshows.answer_eq, fun hpending => ⟨_, (refines_list codec).reload hshows, ?_⟩,
    fun event hevent => (refines_list codec).exists_step hshows hevent⟩
  -- Nothing is staged, so what was saved is what the view shows.
  simp only [hasPendingChanges, Bool.or_eq_false_iff, decide_eq_false_iff_not,
    Bool.not_eq_false', List.isEmpty_iff] at hpending
  obtain ⟨⟨hkeep, hfront⟩, hnew⟩ := hpending
  have hsame := hshows.now
  simp only [kept, hkeep, hnew, Nat.eq_zero_of_not_pos hfront, Bool.false_eq_true, if_false,
    List.drop_zero, List.append_nil] at hsame
  rw [hsame]
  exact ((refines_list codec).rollback hshows).answer_eq

def exampleEvents : List (ViewEvent (viewType Bcs.Codec.u64)) :=
  [.stage (.pushBack 5), .stage (.pushBack 6), .save, .stage .deleteFront, .stage (.pushBack 7),
    .save, .reload, .stage (.iterMut fun _ value => value + 1), .stage (.pushBack 9)]

/-- Values that were stored, changed in place, and pushed. -/
theorem queue_refines_list_iterMut :
    ∃ s, Run.run StoredView.step ⟨.empty, loaded [] (0, 0)⟩ exampleEvents = some s ∧
      QueueView.answer Bcs.Codec.u64 s.store s.view .elements = .ok (.values [7, 8, 9]) := by
  obtain ⟨s, hs⟩ :
      ∃ s, Run.run StoredView.step ⟨.empty, loaded [] (0, 0)⟩ exampleEvents = some s := ⟨_, rfl⟩
  exact ⟨s, hs, (queue_refines_list Bcs.Codec.u64 (fun _ _ => rfl) hs).1 .elements⟩

end QueueView

end Linera.Views
