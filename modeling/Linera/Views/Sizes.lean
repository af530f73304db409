import Linera.Views.StoreView

/-!
# The sizes of the key-value store view

The view keeps the length of every value in a second map, with staged changes of its own, and the
sums of the lengths of all keys and values. As long as no sum that is formed reaches `2 ^ 32`, both
are exact in every state: after overwriting, deletions of absent keys and of nested prefixes,
refused batches, rollbacks and reloads. It is not enough that the sums over the contents stay
below: a new entry is added before the one it replaces is taken out, and the sum of the keys is kept
when the sum of the values overflows.
-/

namespace Linera.Views.StoreView

variable {η : Type} {sha3 : Bytes → η}

def keyBytes (m : KeyValueMap) : Nat := m.sumBy fun key _ => key.length

def valueBytes (m : KeyValueMap) : Nat := m.sumBy fun _ value => value.length

/-- Both sums are below `2 ^ 32`. -/
structure Below (m : KeyValueMap) : Prop where
  keys : keyBytes m < 2 ^ 32
  values : valueBytes m < 2 ^ 32

/-! ## Sums that are not truncated -/

variable {m : KeyValueMap}

theorem Below.key_length (h : Below m) {key value : Bytes} (hget : m.get key = some value) :
    key.length < 2 ^ 32 :=
  Nat.lt_of_le_of_lt (BTreeMap.le_sumBy (fun key _ => key.length) hget) h.keys

theorem Below.value_length (h : Below m) {key value : Bytes} (hget : m.get key = some value) :
    value.length < 2 ^ 32 :=
  Nat.lt_of_le_of_lt (BTreeMap.le_sumBy (fun _ value => value.length) hget) h.values

theorem ofSizes_sizesOf (h : Below m) :
    SizeData.ofSizes (sizesOf m) = ⟨keyBytes m, valueBytes m⟩ := by
  have hkeys : m.sumBy (fun key _ => key.length % 2 ^ 32) = keyBytes m :=
    BTreeMap.sumBy_congr fun _ _ hget => Nat.mod_eq_of_lt (h.key_length hget)
  have hvalues : m.sumBy (fun _ value => value.length % 2 ^ 32) = valueBytes m :=
    BTreeMap.sumBy_congr fun _ _ hget => Nat.mod_eq_of_lt (h.value_length hget)
  simp only [SizeData.ofSizes, sizesOf, BTreeMap.sumBy_mapValues, hkeys, hvalues]

theorem get_sizesOf (h : Below m) (key : Bytes) :
    (sizesOf m).get key = (m.get key).map List.length := by
  rw [sizesOf, BTreeMap.get_mapValues]
  cases hget : m.get key with
  | none => rfl
  | some value => exact congrArg some (Nat.mod_eq_of_lt (h.value_length hget))

theorem below_empty : Below .empty := ⟨by decide, by decide⟩

/-- The sums that the operation forms stay below `2 ^ 32`: a new entry is added before the one it
replaces is taken out. -/
def SumsBelow (m : KeyValueMap) : WriteOperation → Prop
  | .put key value => keyBytes m + key.length < 2 ^ 32 ∧ valueBytes m + value.length < 2 ^ 32
  | _ => True

instance decidableSumsBelow (m : KeyValueMap) : (op : WriteOperation) → Decidable (SumsBelow m op)
  | .put key value => inferInstanceAs (Decidable
      (keyBytes m + key.length < 2 ^ 32 ∧ valueBytes m + value.length < 2 ^ 32))
  | .delete _ | .deletePrefix _ => .isTrue trivial

variable (f : Bytes → Bytes → Nat)

theorem sumBy_insert_le (m : KeyValueMap) (key value : Bytes) :
    (m.insert key value).sumBy f ≤ m.sumBy f + f key value :=
  m.sumBy_insert f key value ▸ Nat.le_add_right ..

theorem sumBy_remove_le (m : KeyValueMap) (key : Bytes) : (m.remove key).sumBy f ≤ m.sumBy f :=
  le_of_le_of_eq (Nat.le_add_right ..) (m.sumBy_remove f key)

theorem sumBy_retain_le (p : Bytes → Bytes → Bool) (m : KeyValueMap) :
    (m.retain p).sumBy f ≤ m.sumBy f :=
  le_of_le_of_eq (Nat.le_add_right ..) (m.sumBy_retain_add f p)

theorem Below.apply (h : Below m) {op : WriteOperation} (hop : SumsBelow m op) :
    Below (op.apply m) := by
  cases op with
  | delete key =>
    exact ⟨(sumBy_remove_le _ m key).trans_lt h.keys, (sumBy_remove_le _ m key).trans_lt h.values⟩
  | put key value =>
    exact ⟨(sumBy_insert_le _ m key value).trans_lt hop.1,
      (sumBy_insert_le _ m key value).trans_lt hop.2⟩
  | deletePrefix p =>
    exact ⟨(sumBy_retain_le _ _ m).trans_lt h.keys, (sumBy_retain_le _ _ m).trans_lt h.values⟩

/-- No checked addition or conversion of the operation overflows. -/
theorem Below.counts (h : Below m) {op : WriteOperation} (hop : SumsBelow m op) :
    Counts (sizesOf m) op := by
  cases op with
  | delete key =>
    intro hpresent
    obtain ⟨size, hsize⟩ := Option.ne_none_iff_exists'.mp hpresent
    rw [get_sizesOf h, Option.map_eq_some_iff] at hsize
    obtain ⟨value, hget, -⟩ := hsize
    exact h.key_length hget
  | put key value =>
    rw [Counts, ofSizes_sizesOf h]
    exact ⟨(Nat.add_le_add_left (Nat.mod_le ..) _).trans_lt hop.1,
      (Nat.add_le_add_left (Nat.mod_le ..) _).trans_lt hop.2⟩
  | deletePrefix p => trivial

/-! ## Runs -/

/-- The totals are exact, and no sum over the current or the stored contents is truncated. -/
structure Exact (s : StoreView sha3) : Prop where
  accounts : s.Accounts .default .default
  current : Below s.view.contents
  saved : Below s.view.stored

/-- A call was performed, or a batch was refused because of a key that is too long. -/
def Answered (result : Except WriteFailure Unit) : Prop :=
  result = .ok () ∨ result = .error (.viewError .keyTooLong)

/-- The sums stay below `2 ^ 32` in the operations of a batch, up to one that is refused. -/
def BatchBelow (maxKeySize : Nat) : KeyValueMap → List WriteOperation → Prop
  | _, [] => True
  | m, op :: ops => op.target.length ≤ maxKeySize →
      SumsBelow m op ∧ BatchBelow maxKeySize (op.apply m) ops

instance decidableBatchBelow (maxKeySize : Nat) : (m : KeyValueMap) → (ops : List WriteOperation) →
    Decidable (BatchBelow maxKeySize m ops)
  | _, [] => .isTrue trivial
  | m, op :: ops =>
    have := decidableBatchBelow maxKeySize (op.apply m) ops
    inferInstanceAs (Decidable (op.target.length ≤ maxKeySize →
      SumsBelow m op ∧ BatchBelow maxKeySize (op.apply m) ops))

def Command.operations : Command → List WriteOperation
  | .writeBatch batch => batch.operations
  | _ => []

/-- The sums stay below `2 ^ 32` in all commands. -/
def RunBelow (s : StoreView sha3) : List Command → Prop
  | [] => True
  | command :: commands =>
    BatchBelow s.view.maxKeySize s.view.contents command.operations ∧
      (s.perform command).1.RunBelow commands

instance decidableRunBelow : (s : StoreView sha3) → (commands : List Command) →
    Decidable (s.RunBelow commands)
  | _, [] => .isTrue trivial
  | s, command :: commands =>
    have := decidableRunBelow (s.perform command).1 commands
    inferInstanceAs (Decidable (BatchBelow s.view.maxKeySize s.view.contents command.operations ∧
      (s.perform command).1.RunBelow commands))

variable {s : StoreView sha3}

theorem exact_new (sha3 : Bytes → η) (maxKeySize : Nat) : (new sha3 maxKeySize).Exact where
  accounts := accounts_new sha3 maxKeySize
  current := by
    rw [show (new sha3 maxKeySize).view.contents = .empty from KeyValueStoreView.contents_load ..]
    exact below_empty
  saved := below_empty

theorem exact_applyOperations (hs : s.Exact) {ops : List WriteOperation}
    (hops : BatchBelow s.view.maxKeySize s.view.contents ops) :
    (s.applyOperations ops).1.Exact ∧ Answered (s.applyOperations ops).2 := by
  induction ops generalizing s with
  | nil => exact ⟨hs, .inl rfl⟩
  | cons op ops ih =>
    rw [applyOperations]
    rcases applyOperation_spec hs.accounts op with
      ⟨s', heq, hs', happlied⟩ | ⟨s', surplus', failure, heq, hrefused, hs', hview⟩
    · have hlen : op.target.length ≤ s.view.maxKeySize := by
        by_contra hlong
        rw [applyOperation, if_neg hlong] at heq
        cases heq
      obtain ⟨hop, hrest⟩ := hops hlen
      rw [heq]
      refine ih ⟨hs', ?_, ?_⟩ ?_
      · rw [happlied.contents]
        exact hs.current.apply hop
      · rw [happlied.stored]
        exact hs.saved
      · rw [happlied.maxKeySize, happlied.contents]
        exact hrest
    · rw [heq]
      cases hrefused with
      | keyTooLong _ => exact ⟨⟨hs', hview ▸ hs.current, hview ▸ hs.saved⟩, .inr rfl⟩
      | overflow _ hcounts =>
        -- only an operation that is not too long reaches the additions
        have hlen : op.target.length ≤ s.view.maxKeySize := by
          by_contra hlong
          rw [applyOperation, if_neg hlong] at heq
          cases heq
        exact absurd (hs.current.counts (hops hlen).1) (hcounts rfl)

/-- **One command** keeps the totals exact. -/
theorem exact_perform (hs : s.Exact) {command : Command} {commands : List Command}
    (hbelow : s.RunBelow (command :: commands)) :
    (s.perform command).1.Exact ∧ Answered (s.perform command).2 := by
  have hspec := perform_spec (t := ⟨s.view.contents, s.view.stored⟩) hs.accounts ⟨rfl, rfl⟩ command
  obtain ⟨_, _, performed, hacc, ⟨hcurrent, hsaved⟩, -, hperformed, hok⟩ := hspec
  cases command with
  | writeBatch batch =>
    have hstaged : ({ s with view := s.view.stage s.view.deletionSet s.view.updates } :
        StoreView sha3).Exact :=
      ⟨⟨hs.accounts.get, hs.accounts.stored, hs.accounts.total, hs.accounts.storedTotal,
        hs.accounts.deleteStorageFirst⟩, hs.current, hs.saved⟩
    exact exact_applyOperations hstaged hbelow.1
  | clear =>
    obtain ⟨-, rfl, rfl⟩ := hok rfl rfl ⟨trivial, trivial⟩
    obtain rfl : performed = .clear := hperformed
    exact ⟨⟨hacc, hcurrent ▸ below_empty, hsaved ▸ hs.saved⟩, .inl rfl⟩
  | rollback =>
    obtain ⟨-, rfl, rfl⟩ := hok rfl rfl ⟨trivial, trivial⟩
    obtain rfl : performed = .rollback := hperformed
    exact ⟨⟨hacc, hcurrent ▸ hs.saved, hsaved ▸ hs.saved⟩, .inl rfl⟩
  | save =>
    obtain ⟨-, rfl, rfl⟩ := hok rfl rfl ⟨trivial, trivial⟩
    obtain rfl : performed = .save := hperformed
    exact ⟨⟨hacc, hcurrent ▸ hs.current, hsaved ▸ hs.current⟩, .inl rfl⟩
  | reload =>
    obtain ⟨-, rfl, rfl⟩ := hok rfl rfl ⟨trivial, trivial⟩
    obtain rfl : performed = .reload := hperformed
    exact ⟨⟨hacc, hcurrent ▸ hs.current, hsaved ▸ hs.current⟩, .inl rfl⟩

theorem exact_run (hs : s.Exact) {commands : List Command} (hbelow : s.RunBelow commands) :
    (s.run commands).1.Exact ∧ ∀ result ∈ (s.run commands).2, Answered result := by
  induction commands generalizing s with
  | nil => exact ⟨hs, List.forall_mem_nil _⟩
  | cons command commands ih =>
    obtain ⟨hs', hanswered⟩ := exact_perform hs hbelow
    obtain ⟨hrun, hresults⟩ := ih hs' hbelow.2
    exact ⟨hrun, List.forall_mem_cons.mpr ⟨hanswered, hresults⟩⟩

/-- **The accounting is exact.** After any sequence of commands in which no sum reaches `2 ^ 32`,
the totals are the sums of the lengths of the keys and of the values that are present, the map of
sizes holds exactly the present keys with the lengths of their values, and no call overflowed or
underflowed. -/
theorem sizes_exact (sha3 : Bytes → η) (maxKeySize : Nat) (commands : List Command)
    (hbelow : (new sha3 maxKeySize).RunBelow commands) :
    ((new sha3 maxKeySize).run commands).1.totalSize =
        ⟨keyBytes ((new sha3 maxKeySize).run commands).1.view.contents,
          valueBytes ((new sha3 maxKeySize).run commands).1.view.contents⟩ ∧
      (∀ key, ((new sha3 maxKeySize).run commands).1.sizes.get key =
        (((new sha3 maxKeySize).run commands).1.view.contents.get key).map List.length) ∧
      ∀ result ∈ ((new sha3 maxKeySize).run commands).2, Answered result := by
  obtain ⟨hexact, hresults⟩ := exact_run (exact_new sha3 maxKeySize) hbelow
  have hsums := ofSizes_sizesOf hexact.current
  refine ⟨?_, fun key => ?_, hresults⟩
  · rw [hexact.accounts.total, hsums]
    rfl
  · rw [hexact.accounts.get, get_sizesOf hexact.current]

/-- A key is overwritten, an absent one deleted, and then everything under a nested and a repeated
prefix, in one batch; a second batch is refused and rolled back after a reload. -/
def overwriteAndDelete : List Command :=
  [.writeBatch ⟨[.put [1, 2] [7], .put [1, 2] [7, 8, 9], .delete [3], .put [1, 2, 3] [5],
    .deletePrefix [1, 2, 3], .deletePrefix [1], .deletePrefix [1], .put [4] [6, 6]]⟩,
    .reload, .writeBatch ⟨[.put [1] [], .put [1, 2, 3, 4] []]⟩, .rollback]

theorem sizes_exact_overwriteAndDelete :
    (new (fun _ => ()) 3).RunBelow overwriteAndDelete ∧
      ((new (fun _ => ()) 3).run overwriteAndDelete).1.totalSize = ⟨1, 2⟩ := by
  have hbelow : (new (fun _ => ()) 3).RunBelow overwriteAndDelete := by decide +kernel
  refine ⟨hbelow, (sizes_exact (fun _ => ()) 3 overwriteAndDelete hbelow).1.trans ?_⟩
  decide +kernel

/-- A put that only overflows the sum of the values is refused, but its key is already counted. -/
theorem perform_put_of_overflow (key value : Bytes) (hlen : key.length ≤ s.view.maxKeySize)
    (hkey : s.totalSize.key + key.length % 2 ^ 32 < 2 ^ 32)
    (hvalue : ¬s.totalSize.value + value.length % 2 ^ 32 < 2 ^ 32) :
    (s.perform (.writeBatch ⟨[.put key value]⟩)).1 = { s with
      view := s.view.stage s.view.deletionSet s.view.updates
      totalSize := ⟨s.totalSize.key + key.length % 2 ^ 32, s.totalSize.value⟩ } := by
  have hlen : key.length ≤ (s.view.stage s.view.deletionSet s.view.updates).maxKeySize := hlen
  simp only [perform, applyOperations, applyOperation, WriteOperation.target, if_pos hlen, account,
    SizeData.addAssign, if_pos hkey, if_neg hvalue]

/-- The same value is put twice under one key. -/
def putTwice (value : Bytes) : List Command :=
  [.writeBatch ⟨[.put [1] value]⟩, .writeBatch ⟨[.put [1] value]⟩]

/-- With a value of `2 ^ 31` bytes, the contents have one key of one byte, but two are counted. -/
theorem key_counted_twice :
    let value : Bytes := List.replicate (2 ^ 31) 0
    (∀ n, Below ((new (fun _ => ()) 3).run ((putTwice value).take n)).1.view.contents) ∧
      keyBytes ((new (fun _ => ()) 3).run (putTwice value)).1.view.contents = 1 ∧
      ((new (fun _ => ()) 3).run (putTwice value)).1.totalSize.key = 2 := by
  have hall : ∀ value : Bytes, value.length = 2 ^ 31 →
      (∀ n, Below ((new (fun _ => ()) 3).run ((putTwice value).take n)).1.view.contents) ∧
        keyBytes ((new (fun _ => ()) 3).run (putTwice value)).1.view.contents = 1 ∧
        ((new (fun _ => ()) 3).run (putTwice value)).1.totalSize.key = 2 := by
    intro value hvalue
    generalize hs : ((new (fun _ => ()) 3).perform (.writeBatch ⟨[.put [1] value]⟩)).1 = s
    obtain ⟨htotal, hmax, hcontents⟩ : s.totalSize = ⟨1, 2 ^ 31⟩ ∧ s.view.maxKeySize = 3 ∧
        s.view.contents = BTreeMap.empty.insert [1] value := by
      have haccount : (new (fun _ => ()) 3).account (.put [1] value) =
          ({ new (fun _ => ()) 3 with
            totalSize := ⟨1, 2 ^ 31⟩
            sizes := (ByteMapView.load .empty).insert [1] (2 ^ 31) }, .ok ()) := by
        simp only [account, hvalue]
        rfl
      change (applyOperations (new (fun _ => ()) 3) _).1 = _ at hs
      simp only [applyOperations, applyOperation, haccount] at hs
      subst hs
      exact ⟨rfl, rfl, KeyValueStoreView.contents_applyOperation _ _⟩
    have hkeys : keyBytes s.view.contents = 1 := by
      rw [hcontents]
      rfl
    have hbelow : Below s.view.contents := by
      refine ⟨hkeys.trans_lt (by decide), ?_⟩
      rw [hcontents, show valueBytes (BTreeMap.empty.insert [1] value) = value.length from rfl,
        hvalue]
      decide
    have hsecond := perform_put_of_overflow (s := s) [1] value
      (by rw [hmax]; decide) (by rw [htotal]; decide) (by rw [htotal, hvalue]; decide)
    refine ⟨fun n => ?_, ?_, ?_⟩
    · obtain _ | _ | n := n
      · exact below_empty
      · exact hs ▸ hbelow
      · simp only [putTwice, List.take_succ_cons, List.take_nil, run, hs, hsecond]
        exact hbelow
    · simp only [putTwice, run, hs, hsecond]
      exact hkeys
    · simp only [putTwice, run, hs, hsecond, htotal]
      rfl
  exact hall _ List.length_replicate

end Linera.Views.StoreView
