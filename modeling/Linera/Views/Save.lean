import Linera.Views.Fields

/-!
# Flushing logs and queues

A flush updates the picture that a view has of the storage together with the batch.
`LogView.flush_spec` and `QueueView.flush_indices` say that once the batch is written,
the picture and the storage agree, and `applyAt_putValues` says which entries are
stored.
-/

namespace Linera.Views

/-! ## Storage below a key -/

theorem WriteOperation.not_touches_of_below {op : WriteOperation} {key k : Bytes}
    (hop : key <+: op.target) (hk : ¬key <+: k) : ¬op.Touches k := by
  cases op with
  | delete | put =>
    rintro rfl
    exact hk hop
  | deletePrefix keyPrefix => exact fun htouches => hk (hop.trans htouches)

theorem Batch.applyAt_of_below {ops : List WriteOperation} {key k : Bytes}
    (hops : ∀ op ∈ ops, key <+: op.target) (hk : ¬key <+: k) (v : Option Bytes) :
    applyAt k ops v = v :=
  applyAt_of_not_touches (fun op hop => WriteOperation.not_touches_of_below (hops op hop) hk) v

/-! ## Logs -/

/-- The entry that a view has for itself is not among its indexed entries. -/
theorem not_below_secondTag (key : Bytes) : ¬baseTag key secondTag <+: baseTag key firstTag := by
  intro h
  have heq := h.eq_of_length (by simp [baseTag])
  simp [baseTag, firstTag, secondTag] at heq

theorem not_below_firstTag (key bytes : Bytes) :
    ¬baseTag key firstTag <+: baseTagIndex key secondTag bytes := by
  simp [baseTag, baseTagIndex, List.prefix_append_right_inj, firstTag, secondTag]

theorem length_putValues {α : Type} {codec : Bcs.Codec α} {key : Bytes} (index : Nat)
    (values : List α) :
    (putValues codec key index values).Ensures fun r => r.1 = index + values.length := by
  induction values generalizing index with
  | nil => exact .ok rfl
  | cons value values ih =>
    refine .bind_any fun _ => .bind_any fun _ => .bind (ih (index + 1)) ?_
    rintro ⟨stop, operations⟩ hstop
    refine .ok ?_
    simp only [List.length_cons]
    omega

namespace LogView

variable {α : Type} (codec : Bcs.Codec α)

theorem load_eq (key : Bytes) (m : KeyValueMap) : (viewType codec).load key m =
      loaded key <$> fromBytesOptionOrDefault .u64 (m.get (baseTag key firstTag)) := by
  simp only [ViewType.load, viewType, List.map_cons, postLoad]
  cases fromBytesOptionOrDefault .u64 (m.get (baseTag key firstTag)) <;> rfl

/-- What a flush makes of the picture of the storage, if `deletion` makes it `storedCount`. -/
theorem flushValues_spec (v : LogView α) (m : KeyValueMap) {storedCount : Nat}
    {deletion : List WriteOperation} {deleteView : Bool} (hdeletion : fromBytesOptionOrDefault .u64
      (Batch.applyAt (baseTag v.baseKey firstTag) deletion
        (m.get (baseTag v.baseKey firstTag))) = .ok storedCount) :
    (v.flushValues codec storedCount deletion deleteView).Ensures fun r =>
      r.1 = loaded v.baseKey (storedCount + v.newValues.length) ∧
        fromBytesOptionOrDefault .u64
          ((Batch.apply ⟨r.2.1⟩ m).get (baseTag v.baseKey firstTag)) =
            .ok (storedCount + v.newValues.length) := by
  unfold flushValues
  split
  · next hnone => exact .ok (by simpa [hnone, Batch.get_apply] using hdeletion)
  · intro r hr
    obtain ⟨⟨stop, operations⟩, hput, hr⟩ := Except.bind_eq_ok.mp hr
    obtain ⟨bytes, hbytes, hr⟩ := Except.bind_eq_ok.mp hr
    cases hr
    obtain rfl := length_putValues _ _ _ hput
    refine ⟨rfl, ?_⟩
    rw [Batch.get_apply, Batch.applyAt_append]
    simp [WriteOperation.applyAt, fromBytesOptionOrDefault,
      fromBytesOption_of_write (toBytes_eq_ok.mp hbytes)]

theorem flush_spec (v : LogView α) {m : KeyValueMap}
    (hstored : fromBytesOptionOrDefault .u64 (m.get (baseTag v.baseKey firstTag)) =
      .ok v.storedCount) : (v.flush codec).Ensures fun r =>
      r.1 = loaded v.baseKey v.count ∧
        fromBytesOptionOrDefault .u64
          ((Batch.apply ⟨r.2.1⟩ m).get (baseTag v.baseKey firstTag)) = .ok v.count := by
  unfold flush count
  split
  · next hdelete =>
    refine (flushValues_spec codec v m ?_).mono fun r hr => ?_
    · simp [WriteOperation.applyAt, baseTag, fromBytesOptionOrDefault, fromBytesOption]
    · simpa using hr
  · exact flushValues_spec codec v m hstored

end LogView

/-! ## Queues -/

section Entries

variable {α : Type} {codec : Bcs.Codec α} {key : Bytes}

theorem baseTagIndex_injective {i j : Nat} {bytes bytes' : Bytes}
    (hi : Bcs.Codec.u64.write i = some bytes) (hj : Bcs.Codec.u64.write j = some bytes')
    (heq : baseTagIndex key secondTag bytes = baseTagIndex key secondTag bytes') : i = j := by
  have hbytes : bytes = bytes' := by simpa [baseTagIndex] using heq
  subst hbytes
  exact Bcs.Codec.u64.write_injective hi hj

/-- The entries that have been put can be read, and the others are as they were. -/
theorem applyAt_putValues {j : Nat} {bytes : Bytes} (hj : Bcs.Codec.u64.write j = some bytes)
    (index : Nat) (values : List α) : (putValues codec key index values).Ensures fun r => ∀ v,
      (∀ a, index ≤ j → values[j - index]? = some a →
        fromBytesOption codec (Batch.applyAt (baseTagIndex key secondTag bytes) r.2 v) =
          .ok (some a)) ∧
      (¬(index ≤ j ∧ j < index + values.length) →
        Batch.applyAt (baseTagIndex key secondTag bytes) r.2 v = v) := by
  induction values generalizing index with
  | nil => exact .ok fun v => ⟨nofun, fun _ => rfl⟩
  | cons value values ih =>
    intro r hr
    obtain ⟨entryKey, hentry, hr⟩ := Except.bind_eq_ok.mp hr
    obtain ⟨indexBytes, hindex, rfl⟩ := deriveTagKey_eq_ok.mp hentry
    obtain ⟨valueBytes, hvalue, hr⟩ := Except.bind_eq_ok.mp hr
    obtain ⟨⟨stop, operations⟩, hput, hr⟩ := Except.bind_eq_ok.mp hr
    cases hr
    have ih := ih (index + 1) _ hput
    intro v
    simp only [List.length_cons, Batch.applyAt_cons]
    by_cases hsame : j = index
    · -- This is the entry that is put first.
      subst hsame
      obtain rfl : indexBytes = bytes := Option.some.inj (hindex.symm.trans hj)
      rw [(ih _).2 (by omega)]
      refine ⟨fun a _ ha => ?_, fun h => absurd ⟨le_rfl, by omega⟩ h⟩
      obtain rfl : value = a := by simpa using ha
      simpa [WriteOperation.applyAt] using fromBytesOption_of_write (toBytes_eq_ok.mp hvalue)
    · have hne : baseTagIndex key secondTag bytes ≠ baseTagIndex key secondTag indexBytes :=
        fun heq => hsame (baseTagIndex_injective hj hindex heq)
      simp only [WriteOperation.applyAt, if_neg hne]
      refine ⟨fun a hle ha => (ih v).1 a (by omega) ?_, fun h => (ih v).2 (by omega)⟩
      rwa [show j - index = j - (index + 1) + 1 by omega, List.getElem?_cons_succ] at ha

theorem mem_mapM_indexKey {j : Nat} {bytes : Bytes} (hj : Bcs.Codec.u64.write j = some bytes)
    (indices : List Nat) : (indices.mapM (indexKey key)).Ensures fun keys =>
      (baseTagIndex key secondTag bytes ∈ keys ↔ j ∈ indices) := by
  induction indices with
  | nil => exact .ok (by simp)
  | cons index indices ih =>
    rw [List.mapM_cons]
    intro keys hkeys
    obtain ⟨entryKey, hentry, hkeys⟩ := Except.bind_eq_ok.mp hkeys
    obtain ⟨indexBytes, hindex, rfl⟩ := deriveTagKey_eq_ok.mp hentry
    obtain ⟨rest, hrest, hkeys⟩ := Except.bind_eq_ok.mp hkeys
    cases hkeys
    have ih : baseTagIndex key secondTag bytes ∈ rest ↔ j ∈ indices := ih rest hrest
    rw [List.mem_cons, List.mem_cons, ih]
    refine or_congr_left ⟨baseTagIndex_injective hj hindex, ?_⟩
    rintro rfl
    rw [Option.some.inj (hj.symm.trans hindex)]

end Entries

namespace QueueView

variable {α : Type} (codec : Bcs.Codec α)

def indicesCodec : Bcs.Codec (Nat × Nat) := .pair .u64 .u64

theorem load_eq (key : Bytes) (m : KeyValueMap) : (viewType codec).load key m =
      loaded key <$> fromBytesOptionOrDefault indicesCodec (m.get (baseTag key firstTag)) := by
  simp only [ViewType.load, viewType, List.map_cons, postLoad, indicesCodec]
  cases fromBytesOptionOrDefault (Bcs.Codec.pair .u64 .u64) (m.get (baseTag key firstTag)) <;> rfl

def flushedIndices (v : QueueView α) : Nat × Nat :=
  if v.storedCount = 0 then (0, v.newBackValues.length)
  else (v.start + v.frontDeleteCount, v.stop + v.newBackValues.length)

variable (v : QueueView α)

theorem flushFront_spec {j : Nat} {bytes : Bytes} (hj : Bcs.Codec.u64.write j = some bytes) :
    v.flushFront.Ensures fun r =>
      ∀ w : Option Bytes, Batch.applyAt (baseTagIndex v.baseKey secondTag bytes) r.2 w =
        if v.storedCount = 0 ∨ v.start ≤ j ∧ j < v.start + v.frontDeleteCount then none else w := by
  unfold flushFront
  split
  · next hzero =>
    refine .ok fun w => ?_
    have hbelow : baseTag v.baseKey secondTag <+: baseTagIndex v.baseKey secondTag bytes :=
      ⟨bytes, by simp [baseTag, baseTagIndex]⟩
    simp only [Batch.applyAt_cons, Batch.applyAt_nil, WriteOperation.applyAt, hbelow, if_true, hzero,
      true_or]
  · next hpos =>
    refine .bind (mem_mapM_indexKey hj _) fun keys hkeys => .ok fun w => ?_
    simp only [Batch.applyAt_deletes, hkeys, List.mem_range'_1, hpos, false_or]

theorem indices_flushFront : v.flushFront.Ensures fun r =>
      (r.1.1, r.1.2 + v.newBackValues.length) = v.flushedIndices ∧
        (v.storedCount ≠ 0 → r.1.2 = v.stop) := by
  unfold flushFront flushedIndices
  split
  · next hzero => exact .ok ⟨by simp, fun h => absurd hzero h⟩
  · exact .bind_any fun keys => .ok ⟨rfl, fun _ => rfl⟩

/-- The entry for the range of indices after a flush. A deleted queue has no such entry. -/
theorem putIndices_spec {w : Option Bytes} (indices : Nat × Nat)
    (hdeleted : v.deleteStorageFirst = true → w = none ∧ indices.1 = 0) :
    (v.putIndices indices).Ensures fun ops =>
      fromBytesOptionOrDefault indicesCodec
          (Batch.applyAt (baseTag v.baseKey firstTag) ops w) = .ok indices ∧
        indices.2 < 2 ^ 64 := by
  unfold putIndices
  split
  · intro ops hops
    obtain ⟨bytes, hbytes, hops⟩ := Except.bind_eq_ok.mp hops
    cases hops
    have hwrite := toBytes_eq_ok.mp hbytes
    refine ⟨?_, ?_⟩
    · simp [WriteOperation.applyAt, fromBytesOptionOrDefault, indicesCodec,
        fromBytesOption_of_write hwrite]
    · obtain ⟨_, -, hstop⟩ := Option.bind_eq_some_iff.mp hwrite
      obtain ⟨_, hstop, -⟩ := Option.map_eq_some_iff.mp hstop
      exact Bcs.Codec.lt_of_write_u64 hstop
  · next hnone =>
    simp only [Bool.not_eq_true', not_or, Bool.not_eq_false, not_lt] at hnone
    obtain ⟨rfl, hstart⟩ := hdeleted hnone.1
    obtain ⟨start, stop⟩ := indices
    obtain rfl : start = 0 := hstart
    obtain rfl : stop = 0 := by simpa using hnone.2
    exact .ok ⟨rfl, by decide⟩

theorem flush_eq_ok {v : QueueView α} {r : QueueView α × List WriteOperation × Bool}
    (hr : v.flush codec = .ok r) : ∃ index frontOperations operations indicesOperations,
      v.flushFront = .ok ((v.flushedIndices.1, index), frontOperations) ∧
      putValues codec v.baseKey index v.newBackValues = .ok (v.flushedIndices.2, operations) ∧
      v.putIndices v.flushedIndices = .ok indicesOperations ∧
      r.1 = loaded v.baseKey v.flushedIndices ∧
      r.2.1 = (if v.deleteStorageFirst then [WriteOperation.deletePrefix v.baseKey] else []) ++
        frontOperations ++ operations ++ indicesOperations ∧
      v.flushedIndices.2 = index + v.newBackValues.length ∧ (v.storedCount ≠ 0 → index = v.stop) := by
  obtain ⟨⟨⟨start, index⟩, frontOperations⟩, hfront, hr⟩ := Except.bind_eq_ok.mp hr
  obtain ⟨⟨stop, operations⟩, hput, hr⟩ := Except.bind_eq_ok.mp hr
  obtain ⟨indicesOperations, hputIndices, hr⟩ := Except.bind_eq_ok.mp hr
  cases hr
  obtain ⟨hflushed, hindex⟩ := indices_flushFront v _ hfront
  obtain rfl : stop = index + v.newBackValues.length := length_putValues _ _ _ hput
  simp only at hflushed hindex hputIndices
  rw [← hflushed]
  exact ⟨index, frontOperations, operations, indicesOperations, hfront, hput, hputIndices, rfl, rfl,
    rfl, hindex⟩

theorem flush_indices {v : QueueView α} {r : QueueView α × List WriteOperation × Bool}
    (hr : v.flush codec = .ok r) (m : KeyValueMap) : fromBytesOptionOrDefault indicesCodec
        ((Batch.apply ⟨r.2.1⟩ m).get (baseTag v.baseKey firstTag)) = .ok v.flushedIndices ∧
      v.flushedIndices.2 < 2 ^ 64 := by
  obtain ⟨index, frontOperations, operations, indicesOperations, hfront, hput, hputIndices, -, hops,
    -, -⟩ := flush_eq_ok codec hr
  rw [hops, Batch.get_apply, Batch.applyAt_append, Batch.applyAt_append,
    Batch.applyAt_of_below (putValues_scoped codec _ _ _ hput) (not_below_secondTag _),
    Batch.applyAt_append,
    Batch.applyAt_of_below (flushFront_scoped v _ hfront) (not_below_secondTag _)]
  refine putIndices_spec v _ (fun hdelete => ⟨?_, ?_⟩) _ hputIndices
  · simp [hdelete, WriteOperation.applyAt, baseTag]
  · rw [flushedIndices, if_pos (by simp [storedCount, hdelete])]

end QueueView

end Linera.Views
