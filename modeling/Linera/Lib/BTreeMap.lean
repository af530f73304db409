import Mathlib

/-!
# Ordered maps

A finite map kept as the list of its entries in increasing key order. The order
is a field of the structure, so a map with a repeated or misplaced key cannot be
built, and two maps with the same lookups are equal (`BTreeMap.ext_get`).

The operations are the ones of Rust's `BTreeMap`; each one comes with the lemma
that says what a lookup sees afterwards.
-/

/-- A finite map from `κ` to `υ`, as its entries in increasing key order. -/
@[ext]
structure BTreeMap (κ υ : Type*) [LinearOrder κ] where
  entries : List (κ × υ)
  sorted : entries.Pairwise fun a b => a.1 < b.1
deriving DecidableEq

namespace BTreeMap

variable {κ υ ω : Type*} [LinearOrder κ]

/-! ## Entry lists -/

/-- The value of the first entry with key `k`. -/
def lookup (k : κ) : List (κ × υ) → Option υ
  | [] => none
  | (k', v) :: rest => if k = k' then some v else lookup k rest

/-- Puts an entry at its place, replacing the entry with the same key. -/
def insertEntry (k : κ) (v : υ) : List (κ × υ) → List (κ × υ)
  | [] => [(k, v)]
  | (k', v') :: rest =>
    if k < k' then (k, v) :: (k', v') :: rest
    else if k = k' then (k, v) :: rest
    else (k', v') :: insertEntry k v rest

variable {l r : List (κ × υ)} {m : BTreeMap κ υ} {k : κ} {v : υ}

theorem lookup_eq_none_of_forall_lt (h : ∀ e ∈ l, k < e.1) : lookup k l = none := by
  induction l with
  | nil => rfl
  | cons e rest ih =>
    have hne : k ≠ e.1 := (h e (by simp)).ne
    simp only [lookup, hne, if_false]
    exact ih fun e' he' => h e' (by simp [he'])

theorem mem_of_lookup (h : lookup k l = some v) : (k, v) ∈ l := by
  induction l with
  | nil => simp [lookup] at h
  | cons e rest ih =>
    obtain ⟨k', v'⟩ := e
    by_cases hk : k = k'
    · subst hk
      simp only [lookup, if_true, Option.some.injEq] at h
      simp [h]
    · simp only [lookup, hk, if_false] at h
      exact List.mem_cons_of_mem _ (ih h)

theorem lookup_of_mem (hs : l.Pairwise fun a b => a.1 < b.1) (h : (k, v) ∈ l) :
    lookup k l = some v := by
  induction l with
  | nil => simp at h
  | cons e rest ih =>
    obtain ⟨k', v'⟩ := e
    rcases List.mem_cons.mp h with heq | hmem
    · obtain ⟨rfl, rfl⟩ := Prod.mk.inj heq
      simp [lookup]
    · have hlt : k' < k := List.rel_of_pairwise_cons hs hmem
      simp only [lookup, hlt.ne', if_false]
      exact ih hs.of_cons hmem

theorem mem_insertEntry {e : κ × υ} (h : e ∈ insertEntry k v l) : e = (k, v) ∨ e ∈ l := by
  induction l with
  | nil => simpa [insertEntry] using h
  | cons e' rest ih =>
    rw [insertEntry] at h
    split_ifs at h with hlt heq
    · simpa using h
    · rcases List.mem_cons.mp h with h | h
      · exact .inl h
      · exact .inr (List.mem_cons_of_mem _ h)
    · rcases List.mem_cons.mp h with h | h
      · exact .inr (by simp [h])
      · exact (ih h).imp_right (List.mem_cons_of_mem _)

theorem pairwise_insertEntry (k : κ) (v : υ) (hs : l.Pairwise fun a b => a.1 < b.1) :
    (insertEntry k v l).Pairwise fun a b => a.1 < b.1 := by
  induction l with
  | nil => simp [insertEntry]
  | cons e rest ih =>
    obtain ⟨k', v'⟩ := e
    rw [insertEntry]
    split_ifs with hlt heq
    · refine hs.cons fun e he => ?_
      rcases List.mem_cons.mp he with rfl | he
      · exact hlt
      · exact hlt.trans (List.rel_of_pairwise_cons hs he)
    · subst heq
      exact hs.of_cons.cons fun e he => List.rel_of_pairwise_cons (a := (k, v')) hs he
    · have hgt : k' < k := lt_of_le_of_ne (not_lt.mp hlt) (Ne.symm heq)
      refine (ih hs.of_cons).cons fun e he => ?_
      rcases mem_insertEntry he with rfl | he
      · exact hgt
      · exact List.rel_of_pairwise_cons hs he

theorem lookup_insertEntry (k k' : κ) (v : υ) (l : List (κ × υ)) :
    lookup k' (insertEntry k v l) = if k' = k then some v else lookup k' l := by
  induction l with
  | nil => simp [insertEntry, lookup]
  | cons e rest ih =>
    obtain ⟨k₀, v₀⟩ := e
    by_cases hlt : k < k₀
    · simp [insertEntry, hlt, lookup]
    · by_cases heq : k = k₀
      · subst heq
        by_cases hk : k' = k <;> simp [insertEntry, lookup, hk]
      · by_cases hk : k' = k
        · subst hk
          simp [insertEntry, hlt, lookup, heq, ih]
        · simp [insertEntry, hlt, lookup, heq, ih, hk]

theorem lookup_filter (p : κ → υ → Bool) (k : κ) (hs : l.Pairwise fun a b => a.1 < b.1) :
    lookup k (l.filter fun e => p e.1 e.2) = (lookup k l).filter (p k) := by
  induction l with
  | nil => rfl
  | cons e rest ih =>
    obtain ⟨k', v'⟩ := e
    by_cases hk : k = k'
    · subst hk
      have hrest : lookup k rest = none :=
        lookup_eq_none_of_forall_lt fun e he => List.rel_of_pairwise_cons (a := (k, v')) hs he
      have hih := ih hs.of_cons
      rw [hrest] at hih
      by_cases hp : p k v' = true
      · simp [lookup, hp, Option.filter]
      · simpa [lookup, hp, Option.filter] using hih
    · by_cases hp : p k' v' = true
      · simp [lookup, hp, hk, ih hs.of_cons]
      · simp [lookup, hp, hk, ih hs.of_cons]

theorem eq_of_lookup_eq {l₁ l₂ : List (κ × υ)}
    (h₁ : l₁.Pairwise fun a b => a.1 < b.1) (h₂ : l₂.Pairwise fun a b => a.1 < b.1)
    (h : ∀ k, lookup k l₁ = lookup k l₂) : l₁ = l₂ := by
  have hmem : ∀ e, e ∈ l₁ ↔ e ∈ l₂ := fun e =>
    ⟨fun he => mem_of_lookup (h e.1 ▸ lookup_of_mem h₁ he),
      fun he => mem_of_lookup ((h e.1).symm ▸ lookup_of_mem h₂ he)⟩
  have hnodup : ∀ {l : List (κ × υ)}, l.Pairwise (fun a b => a.1 < b.1) → l.Nodup :=
    fun hl => hl.imp fun hab heq => absurd (congrArg Prod.fst heq) hab.ne
  refine ((List.perm_ext_iff_of_nodup (hnodup h₁) (hnodup h₂)).mpr hmem).eq_of_pairwise ?_ h₁ h₂
  intro a b _ _ hab hba
  exact absurd hab hba.asymm

/-! ## Maps -/

/-- The map without entries. -/
def empty : BTreeMap κ υ := ⟨[], List.Pairwise.nil⟩

instance : Inhabited (BTreeMap κ υ) := ⟨empty⟩

/-- The value stored under `k`. -/
def get (m : BTreeMap κ υ) (k : κ) : Option υ := lookup k m.entries

/-- Stores `v` under `k`, replacing what was there. -/
def insert (m : BTreeMap κ υ) (k : κ) (v : υ) : BTreeMap κ υ :=
  ⟨insertEntry k v m.entries, pairwise_insertEntry k v m.sorted⟩

/-- Keeps the entries that satisfy `p`. -/
def retain (m : BTreeMap κ υ) (p : κ → υ → Bool) : BTreeMap κ υ :=
  ⟨m.entries.filter fun e => p e.1 e.2, m.sorted.filter _⟩

/-- Deletes the entry under `k`, if any. -/
def remove (m : BTreeMap κ υ) (k : κ) : BTreeMap κ υ := m.retain fun k' _ => decide (k' ≠ k)

/-- Whether there is an entry under `k`. -/
def containsKey (m : BTreeMap κ υ) (k : κ) : Bool := (m.get k).isSome

/-- The keys, in increasing order. -/
def keys (m : BTreeMap κ υ) : List κ := m.entries.map Prod.fst

/-- The values, in the order of their keys. -/
def values (m : BTreeMap κ υ) : List υ := m.entries.map Prod.snd

/-- Applies a function to all values. -/
def mapValues {υ' : Type*} (f : υ → υ') (m : BTreeMap κ υ) : BTreeMap κ υ' where
  entries := m.entries.map fun e => (e.1, f e.2)
  sorted := List.pairwise_map.mpr m.sorted

/-- Applies a function to all entries. -/
def mapWithKey {υ' : Type*} (f : κ → υ → υ') (m : BTreeMap κ υ) : BTreeMap κ υ' where
  entries := m.entries.map fun e => (e.1, f e.1 e.2)
  sorted := List.pairwise_map.mpr m.sorted

def isEmpty (m : BTreeMap κ υ) : Bool := m.entries.isEmpty

/-- Collects a list of entries; a later entry replaces an earlier one of the same key. -/
def ofList (l : List (κ × υ)) : BTreeMap κ υ := l.foldl (fun m e => m.insert e.1 e.2) empty

@[simp] theorem get_empty (k : κ) : (empty : BTreeMap κ υ).get k = none := rfl

-- The instances on the keys are left open here: a key type may decide equality in more than
-- one way.

theorem get_insert (m : BTreeMap κ υ) (k k' : κ) (v : υ) [Decidable (k' = k)] :
    (m.insert k v).get k' = if k' = k then some v else m.get k' := by
  rw [get, insert, lookup_insertEntry]
  split <;> simp_all [get]

theorem get_retain (m : BTreeMap κ υ) (p : κ → υ → Bool) (k : κ) :
    (m.retain p).get k = (m.get k).filter (p k) :=
  lookup_filter p k m.sorted

theorem get_remove (m : BTreeMap κ υ) (k k' : κ) [Decidable (k' = k)] :
    (m.remove k).get k' = if k' = k then none else m.get k' := by
  rw [remove, get_retain]
  by_cases hk : k' = k
  · cases m.get k' <;> simp [hk, Option.filter]
  · cases m.get k' <;> simp [hk, Option.filter]

theorem mem_entries_iff (m : BTreeMap κ υ) (k : κ) (v : υ) :
    (k, v) ∈ m.entries ↔ m.get k = some v :=
  ⟨lookup_of_mem m.sorted, mem_of_lookup⟩

/-- A map is determined by its lookups. -/
theorem ext_get {m₁ m₂ : BTreeMap κ υ} (h : ∀ k, m₁.get k = m₂.get k) : m₁ = m₂ := by
  obtain ⟨l₁, h₁⟩ := m₁
  obtain ⟨l₂, h₂⟩ := m₂
  have : l₁ = l₂ := eq_of_lookup_eq h₁ h₂ h
  subst this
  rfl

theorem remove_eq_self (hk : m.get k = none) : m.remove k = m := by
  refine ext_get fun k' => ?_
  rw [get_remove]
  split
  · next h => rw [h, hk]
  · rfl

theorem mem_keys_iff (m : BTreeMap κ υ) (k : κ) : k ∈ m.keys ↔ (m.get k).isSome := by
  simp only [keys, List.mem_map, Prod.exists, Option.isSome_iff_exists, ← mem_entries_iff]
  exact ⟨fun ⟨_, v, h, e⟩ => ⟨v, e ▸ h⟩, fun ⟨v, h⟩ => ⟨k, v, h, rfl⟩⟩

theorem get_mapWithKey {υ' : Type*} (f : κ → υ → υ') (m : BTreeMap κ υ) (k : κ) :
    (m.mapWithKey f).get k = (m.get k).map (f k) := by
  refine Option.ext fun v => ?_
  rw [← mem_entries_iff, Option.map_eq_some_iff]
  simp only [mapWithKey, List.mem_map, Prod.mk.injEq, Prod.exists, ← mem_entries_iff]
  constructor
  · rintro ⟨k', v', hmem, rfl, rfl⟩
    exact ⟨v', hmem, rfl⟩
  · rintro ⟨v', hmem, rfl⟩
    exact ⟨k, v', hmem, rfl, rfl⟩

theorem get_mapValues {υ' : Type*} (f : υ → υ') (m : BTreeMap κ υ) (k : κ) :
    (m.mapValues f).get k = (m.get k).map f :=
  get_mapWithKey (fun _ => f) m k

theorem mem_values_iff (m : BTreeMap κ υ) (v : υ) : v ∈ m.values ↔ ∃ k, m.get k = some v := by
  simp only [values, List.mem_map, Prod.exists, ← mem_entries_iff]
  exact ⟨fun ⟨k, _, h, e⟩ => ⟨k, e ▸ h⟩, fun ⟨k, h⟩ => ⟨k, v, h, rfl⟩⟩

theorem isEmpty_insert (m : BTreeMap κ υ) (k : κ) (v : υ) : (m.insert k v).isEmpty = false := by
  have hget : (m.insert k v).get k = some v := by
    rw [get_insert, if_pos rfl]
  have hmem := ((m.insert k v).mem_entries_iff k v).mpr hget
  cases hentries : (m.insert k v).entries with
  | nil =>
    rw [hentries] at hmem
    cases hmem
  | cons => rw [isEmpty, hentries, List.isEmpty_cons]

theorem pairwise_keys (m : BTreeMap κ υ) : m.keys.Pairwise (· < ·) :=
  List.pairwise_map.mpr m.sorted

/-! ## The place of a key -/

theorem insertEntry_append_cons (hl : ∀ e ∈ l, e.1 < k) (v w : υ) :
    insertEntry k w (l ++ (k, v) :: r) = l ++ (k, w) :: r := by
  induction l with
  | nil => simp [insertEntry]
  | cons e l ih =>
    have hlt : e.1 < k := hl e (by simp)
    simp only [List.cons_append, insertEntry, hlt.not_gt, hlt.ne', if_false]
    rw [ih fun e' he' => hl e' (by simp [he'])]

/-- What is seen of a state after a fold over sorted entries, if only the entry of `k` changes it. -/
theorem foldl_of_sorted {σ α : Type*} {step : σ → κ × υ → σ} (see : σ → α) (change : υ → α → α)
    (hsame : ∀ s v, see (step s (k, v)) = change v (see s))
    (hother : ∀ s k' v, k ≠ k' → see (step s (k', v)) = see s)
    (hl : l.Pairwise fun a b => a.1 < b.1) (s : σ) :
    see (l.foldl step s) = (lookup k l).elim (see s) fun v => change v (see s) := by
  induction l generalizing s with
  | nil => rfl
  | cons e l ih =>
    obtain ⟨hlt, hl⟩ := List.pairwise_cons.mp hl
    rw [List.foldl_cons, ih hl, lookup]
    split
    · next hk =>
      rw [lookup_eq_none_of_forall_lt (hk ▸ hlt), ← Prod.eta e, ← hk]
      exact hsame s _
    · next hk => rw [hother s _ _ hk]

/-- Where a key has its place. -/
theorem exists_split (k : κ) (hl : l.Pairwise fun a b => a.1 < b.1) :
    ∃ front back, (∀ e ∈ front, e.1 < k) ∧ (∀ e ∈ back, k < e.1) ∧
      l = front ++ ((lookup k l).map (Prod.mk k)).toList ++ back ∧
      ∀ w, insertEntry k w l = front ++ (k, w) :: back := by
  induction l with
  | nil => exact ⟨[], [], by simp, by simp, rfl, fun _ => rfl⟩
  | cons e l ih =>
    obtain ⟨k', v⟩ := e
    rw [List.pairwise_cons] at hl
    rcases lt_trichotomy k k' with hlt | rfl | hlt
    · have hback : ∀ e ∈ (k', v) :: l, k < e.1 := by
        intro e he
        rcases List.mem_cons.mp he with rfl | he
        · exact hlt
        · exact hlt.trans (hl.1 e he)
      refine ⟨[], (k', v) :: l, by simp, hback, ?_, fun w => by simp [insertEntry, hlt]⟩
      rw [lookup_eq_none_of_forall_lt hback]
      rfl
    · exact ⟨[], l, by simp, hl.1, by simp [lookup], fun w => by simp [insertEntry]⟩
    · obtain ⟨front, back, hfront, hback, heq, hinsert⟩ := ih hl.2
      refine ⟨(k', v) :: front, back, ?_, hback, ?_, fun w => ?_⟩
      · intro e he
        rcases List.mem_cons.mp he with rfl | he
        · exact hlt
        · exact hfront e he
      · simp only [lookup, hlt.ne', if_false, List.cons_append]
        exact congrArg _ heq
      · simp only [insertEntry, hlt.not_gt, hlt.ne', if_false, hinsert, List.cons_append]

theorem lt_of_split (h : m.entries = l ++ (k, v) :: r) : ∀ e ∈ l, e.1 < k := by
  have hsorted := m.sorted
  rw [h, List.pairwise_append] at hsorted
  exact fun e he => hsorted.2.2 e he _ (.head _)

theorem get_of_split (h : m.entries = l ++ (k, v) :: r) : m.get k = some v :=
  (m.mem_entries_iff k v).mp (by simp [h])

theorem entries_insert_of_split (h : m.entries = l ++ (k, v) :: r) (w : υ) :
    (m.insert k w).entries = l ++ (k, w) :: r := by
  show insertEntry k w m.entries = _
  rw [h, insertEntry_append_cons (lt_of_split h)]

theorem entries_remove_of_split (h : m.entries = l ++ (k, v) :: r) :
    (m.remove k).entries = l ++ r := by
  have hsorted := m.sorted
  rw [h, List.pairwise_append, List.pairwise_cons] at hsorted
  have hl : ∀ e ∈ l, e.1 ≠ k := fun e he => (lt_of_split h e he).ne
  have hr : ∀ e ∈ r, e.1 ≠ k := fun e he => (hsorted.2.1.1 e he).ne'
  show m.entries.filter (fun e => decide (e.1 ≠ k)) = _
  rw [h, List.filter_append, List.filter_cons_of_neg (by simp),
    List.filter_eq_self.mpr (by simpa using hl), List.filter_eq_self.mpr (by simpa using hr)]

/-! ## Sums over the entries -/

/-- The sum of `f` over all entries. -/
def sumBy (f : κ → υ → Nat) (m : BTreeMap κ υ) : Nat := (m.entries.map fun e => f e.1 e.2).sum

variable (f : κ → υ → Nat)

@[simp] theorem sumBy_empty : (empty : BTreeMap κ υ).sumBy f = 0 := rfl

/-- What an insertion does to a sum: the old value of the key is taken out. -/
theorem sumBy_insert (m : BTreeMap κ υ) (k : κ) (v : υ) :
    (m.insert k v).sumBy f + (m.get k).elim 0 (f k) = m.sumBy f + f k v := by
  obtain ⟨front, back, -, -, hentries, hinsert⟩ := exists_split k m.sorted
  show ((insertEntry k v m.entries).map _).sum + (lookup k m.entries).elim 0 (f k) =
    (m.entries.map _).sum + f k v
  rw [hinsert]
  generalize lookup k m.entries = old at hentries
  rw [hentries]
  cases old with
  | none =>
    simp
    omega
  | some w =>
    simp
    omega

theorem sumBy_remove (m : BTreeMap κ υ) (k : κ) :
    (m.remove k).sumBy f + (m.get k).elim 0 (f k) = m.sumBy f := by
  cases hk : m.get k with
  | none =>
    rw [remove_eq_self hk]
    rfl
  | some v =>
    obtain ⟨front, back, hentries⟩ := List.append_of_mem ((m.mem_entries_iff k v).mpr hk)
    rw [sumBy, sumBy, entries_remove_of_split hentries, hentries]
    simp
    omega

/-- A sum is made up of the sums over the entries with and without a property. -/
theorem sumBy_retain_add (p : κ → υ → Bool) (m : BTreeMap κ υ) :
    (m.retain p).sumBy f + (m.retain fun k v => !p k v).sumBy f = m.sumBy f := by
  obtain ⟨l, hl⟩ := m
  change ((l.filter fun e => p e.1 e.2).map _).sum + ((l.filter fun e => !p e.1 e.2).map _).sum =
    (l.map _).sum
  clear hl
  induction l with
  | nil => rfl
  | cons e l ih =>
    cases hp : p e.1 e.2 with
    | true =>
      simp only [List.filter_cons, hp, if_true, Bool.not_true, Bool.false_eq_true, if_false,
        List.map_cons, List.sum_cons]
      omega
    | false =>
      simp only [List.filter_cons, hp, if_true, Bool.not_false, Bool.false_eq_true, if_false,
        List.map_cons, List.sum_cons]
      omega

theorem le_sumBy (h : m.get k = some v) : f k v ≤ m.sumBy f := by
  have hsum := m.sumBy_remove f k
  rw [h, Option.elim_some] at hsum
  exact hsum ▸ Nat.le_add_left ..

theorem sumBy_congr {f g : κ → υ → Nat} (h : ∀ k v, m.get k = some v → f k v = g k v) :
    m.sumBy f = m.sumBy g := by
  refine congrArg List.sum (List.map_congr_left fun e he => ?_)
  exact h e.1 e.2 ((mem_entries_iff ..).mp he)

theorem sumBy_mapValues {υ' : Type*} (f : κ → υ' → Nat) (g : υ → υ') (m : BTreeMap κ υ) :
    (m.mapValues g).sumBy f = m.sumBy fun k v => f k (g v) := by
  simp only [sumBy, mapValues, List.map_map]
  rfl

/-- A sum is positive if and only if one of its terms is. -/
theorem sumBy_pos_iff (m : BTreeMap κ υ) : 0 < m.sumBy f ↔ ∃ k v, m.get k = some v ∧ 0 < f k v := by
  rw [Nat.pos_iff_ne_zero, sumBy, Ne, List.sum_eq_zero_iff]
  simp only [List.mem_map, forall_exists_index, and_imp, Prod.forall, ← mem_entries_iff]
  constructor
  · intro h
    by_contra hall
    push Not at hall
    refine h fun n k v hmem hn => ?_
    have := hall k v hmem
    omega
  · rintro ⟨k, v, hmem, hpos⟩ h
    have := h _ k v hmem rfl
    omega

end BTreeMap

/-- A finite ordered set: a map without values. -/
abbrev BTreeSet (κ : Type*) [LinearOrder κ] := BTreeMap κ Unit

namespace BTreeSet

variable {κ : Type*} [LinearOrder κ] (s : BTreeSet κ)

theorem mem_keys_insert (k k' : κ) :
    k' ∈ BTreeMap.keys (BTreeMap.insert s k ()) ↔ k' = k ∨ k' ∈ s.keys := by
  rw [BTreeMap.mem_keys_iff, BTreeMap.mem_keys_iff, BTreeMap.get_insert]
  split <;> simp_all

theorem mem_keys_remove (k k' : κ) :
    k' ∈ BTreeMap.keys (BTreeMap.remove s k) ↔ k' ≠ k ∧ k' ∈ s.keys := by
  rw [BTreeMap.mem_keys_iff, BTreeMap.mem_keys_iff, BTreeMap.get_remove]
  split <;> simp_all

theorem mem_keys_retain (p : κ → Unit → Bool) (k : κ) :
    k ∈ (s.retain p).keys ↔ k ∈ s.keys ∧ p k () := by
  rw [BTreeMap.mem_keys_iff, BTreeMap.mem_keys_iff, BTreeMap.get_retain]
  cases s.get k <;> simp [Option.filter]

theorem mem_keys_foldl_insert {α : Type*} (f : α → κ) (l : List α) (s : BTreeSet κ) (k : κ) :
    k ∈ BTreeMap.keys (l.foldl (fun s e => BTreeMap.insert s (f e) ()) s) ↔
      k ∈ l.map f ∨ k ∈ s.keys := by
  induction l generalizing s with
  | nil => simp
  | cons e l ih =>
    rw [List.foldl_cons, ih, mem_keys_insert, List.map_cons, List.mem_cons, or_left_comm, or_assoc]

theorem mem_keys_ofList (l : List (κ × Unit)) (k : κ) :
    k ∈ BTreeMap.keys (BTreeMap.ofList l) ↔ (k, ()) ∈ l := by
  have hnil : BTreeMap.keys (BTreeMap.empty : BTreeSet κ) = [] := rfl
  refine (mem_keys_foldl_insert Prod.fst l .empty k).trans ?_
  rw [hnil, List.mem_nil_iff, or_false, List.mem_map]
  constructor
  · rintro ⟨e, he, rfl⟩
    exact he
  · exact fun h => ⟨_, h, rfl⟩

end BTreeSet
