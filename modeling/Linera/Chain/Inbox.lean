import Linera.Chain.DataTypes
import Linera.Lib.Except
import Linera.Lib.SortedBy

/-!
# The inbox

The model of `InboxStateView`: the queue of bundles received from one origin
(`addBundle`) and consumed by blocks (`removeBundle`), where a bundle may also be
consumed before it is received.

What the inbox is for is stated by `Reconcilable` and `reconciled`: which pairs of
sequences of additions and removals fit together, and the state they lead to.
The step lemmas `step_add_reconciled` and `step_remove_reconciled` say that one
call moves from the state of a pair of sequences to that of the extended pair,
and fails exactly if the extended pair does not fit. From them,
`run_eq_ok_iff` covers every interleaving of every pair of sequences.
-/

namespace Linera

/-- The position of a bundle among the bundles of its origin. -/
structure Cursor where
  height : Nat
  index : Nat
deriving DecidableEq

namespace Cursor

instance : LinearOrder Cursor :=
  LinearOrder.lift' (β := Nat ×ₗ Nat) (fun c => toLex (c.height, c.index))
    fun ⟨_, _⟩ ⟨_, _⟩ h => by simpa using h

theorem lt_iff {a b : Cursor} :
    a < b ↔ a.height < b.height ∨ a.height = b.height ∧ a.index < b.index :=
  Prod.Lex.lt_iff

/-- `Cursor::default`. -/
def zero : Cursor := ⟨0, 0⟩

/-- `Cursor::from`. -/
def ofBundle (bundle : MessageBundle) : Cursor := ⟨bundle.height, bundle.transactionIndex⟩

def tryAddOne (c : Cursor) : Except ArithmeticError Cursor :=
  match checkedAdd u32Max c.index 1 with
  | some index => .ok ⟨c.height, index⟩
  | none => .error .overflow

/-- The cursor right after `c`. -/
def succ (c : Cursor) : Cursor := ⟨c.height, c.index + 1⟩

theorem tryAddOne_eq_ok {c : Cursor} (h : c.index < u32Max) : c.tryAddOne = .ok c.succ := by
  have hadd : checkedAdd u32Max c.index 1 = some (c.index + 1) := checkedAdd_eq_some.mpr ⟨h, rfl⟩
  simp [tryAddOne, hadd, succ]

theorem tryAddOne_ensures (c : Cursor) : c.tryAddOne.Ensures fun next => next = c.succ := by
  unfold tryAddOne
  split
  · next index h =>
    obtain ⟨-, rfl⟩ := checkedAdd_eq_some.mp h
    exact .ok rfl
  · exact .error

theorem zero_le (c : Cursor) : zero ≤ c := by
  rw [← not_lt, lt_iff]
  simp [zero]

theorem succ_le_iff {c d : Cursor} : c.succ ≤ d ↔ c < d := by
  rw [← not_lt, lt_iff, lt_iff]
  simp only [succ]
  omega

theorem lt_succ_iff {c d : Cursor} : c < d.succ ↔ c ≤ d := by
  rw [← not_le, succ_le_iff, not_lt]

end Cursor

inductive InboxError where
  | arithmeticError (error : ArithmeticError)
  | unexpectedBundle (bundle previousBundle : MessageBundle)
  | incorrectOrder (bundle : MessageBundle) (nextCursor : Cursor)
  | unskippableBundle (bundle : MessageBundle)
deriving DecidableEq

structure InboxStateView where
  /-- We have already added all the messages below this height and index. -/
  nextCursorToAdd : Cursor
  /-- We have already removed all the messages below this height and index. -/
  nextCursorToRemove : Cursor
  /-- These bundles have been added and are waiting to be removed. -/
  addedBundles : List MessageBundle
  /-- These bundles have been removed by anticipation and are waiting to be added. -/
  removedBundles : List MessageBundle
deriving DecidableEq

namespace InboxStateView

/-- The state of a new inbox. -/
def fresh : InboxStateView := ⟨.zero, .zero, [], []⟩

def discardLower (cursor : Cursor) :
    List MessageBundle → Except InboxError (List MessageBundle)
  | [] => .ok []
  | previousBundle :: rest =>
    if cursor ≤ .ofBundle previousBundle then .ok (previousBundle :: rest)
    else if previousBundle.isSkippable then discardLower cursor rest
    else .error (.unskippableBundle previousBundle)

/-- Consumes a bundle from the inbox. Returns whether the bundle was already known. -/
def removeBundle (s : InboxStateView) (bundle : MessageBundle) :
    Except InboxError (InboxStateView × Bool) := do
  let cursor := Cursor.ofBundle bundle
  ensure (s.nextCursorToRemove ≤ cursor) (.incorrectOrder bundle s.nextCursorToRemove)
  let added ← discardLower cursor s.addedBundles
  -- Reconcile the bundle with the next added bundle, or mark it as removed.
  let (s, alreadyKnown) ← match added with
    | previousBundle :: rest => do
      ensure (bundle = previousBundle) (.unexpectedBundle bundle previousBundle)
      pure ({ s with addedBundles := rest }, true)
    | [] =>
      pure ({ s with addedBundles := [], removedBundles := s.removedBundles ++ [bundle] }, false)
  let next ← cursor.tryAddOne.mapError .arithmeticError
  return ({ s with nextCursorToRemove := next }, alreadyKnown)

/-- Pushes a bundle to the inbox. Returns whether the bundle was new. -/
def addBundle (s : InboxStateView) (bundle : MessageBundle) :
    Except InboxError (InboxStateView × Bool) := do
  let cursor := Cursor.ofBundle bundle
  ensure (s.nextCursorToAdd ≤ cursor) (.incorrectOrder bundle s.nextCursorToAdd)
  -- Find if the bundle was removed ahead of time.
  let (s, newlyAdded) ← match s.removedBundles with
    | previousBundle :: rest =>
      if Cursor.ofBundle previousBundle = cursor then do
        ensure (bundle = previousBundle) (.unexpectedBundle bundle previousBundle)
        pure ({ s with removedBundles := rest }, false)
      else do
        ensure (cursor < .ofBundle previousBundle ∧ bundle.isSkippable)
          (.unexpectedBundle bundle previousBundle)
        pure (s, false)
    | [] => pure ({ s with addedBundles := s.addedBundles ++ [bundle] }, true)
  let next ← cursor.tryAddOne.mapError .arithmeticError
  return ({ s with nextCursorToAdd := next }, newlyAdded)

inductive Event where
  | add (bundle : MessageBundle)
  | remove (bundle : MessageBundle)
deriving DecidableEq

/-- The bundles added by a sequence of calls, in order. -/
def Event.added : List Event → List MessageBundle :=
  List.filterMap fun | .add bundle => some bundle | .remove _ => none

/-- The bundles removed by a sequence of calls, in order. -/
def Event.removed : List Event → List MessageBundle :=
  List.filterMap fun | .add _ => none | .remove bundle => some bundle

def step (s : InboxStateView) : Event → Except InboxError InboxStateView
  | .add bundle => Prod.fst <$> s.addBundle bundle
  | .remove bundle => Prod.fst <$> s.removeBundle bundle

/-- A sequence of calls, up to the first error. -/
def run (s : InboxStateView) (events : List Event) : Except InboxError InboxStateView :=
  events.foldlM step s

/-! ## What the inbox is for -/

/-- The bundles come in strictly increasing order of their cursors. -/
abbrev Increasing (bundles : List MessageBundle) : Prop := SortedBy Cursor.ofBundle bundles

def nextCursor (bundles : List MessageBundle) : Cursor :=
  match bundles.getLast? with
  | some bundle => (Cursor.ofBundle bundle).succ
  | none => .zero

/-- The additions `A` and the removals `R` fit together: a removed bundle below the cursor
after the last addition is the bundle of `A` at that cursor, and a bundle of `A` below the last
removal that is never removed is skippable. -/
def Reconcilable (A R : List MessageBundle) : Prop :=
  (∀ r ∈ R, Cursor.ofBundle r < nextCursor A → r ∈ A) ∧
    ∀ last ∈ R.getLast?, ∀ a ∈ A, Cursor.ofBundle a < .ofBundle last → a ∉ R → a.isSkippable

instance (A R : List MessageBundle) : Decidable (Reconcilable A R) :=
  inferInstanceAs (Decidable (_ ∧ _))

/-- The state that the additions `A` and the removals `R` lead to. -/
def reconciled (A R : List MessageBundle) : InboxStateView where
  nextCursorToAdd := nextCursor A
  nextCursorToRemove := nextCursor R
  addedBundles := A.filter fun a => nextCursor R ≤ .ofBundle a
  removedBundles := R.filter fun r => nextCursor A ≤ .ofBundle r

@[simp] theorem nextCursor_nil : nextCursor [] = .zero := rfl

@[simp] theorem nextCursor_append_singleton (l : List MessageBundle) (b : MessageBundle) :
    nextCursor (l ++ [b]) = (Cursor.ofBundle b).succ := by
  simp [nextCursor]

variable {A R : List MessageBundle} {a : MessageBundle} {r : MessageBundle}
  {l : List MessageBundle}

/-- The next cursor is the least one above all the bundles. -/
theorem nextCursor_le_iff (hl : Increasing l) {c : Cursor} :
    nextCursor l ≤ c ↔ ∀ b ∈ l, Cursor.ofBundle b < c := by
  cases hlast : l.getLast? with
  | none =>
    rw [List.getLast?_eq_none_iff] at hlast
    simp [hlast, Cursor.zero_le]
  | some last =>
    have hmem : last ∈ l := List.mem_of_getLast? hlast
    simp only [nextCursor, hlast, Cursor.succ_le_iff]
    exact ⟨fun h b hb => (hl.key_le_of_getLast? hlast hb).trans_lt h, fun h => h last hmem⟩

theorem ofBundle_lt_nextCursor (hl : Increasing l) {b : MessageBundle} (hb : b ∈ l) :
    Cursor.ofBundle b < nextCursor l :=
  (nextCursor_le_iff hl).mp le_rfl b hb

theorem nextCursor_le_of_append {b : MessageBundle} (h : Increasing (l ++ [b])) :
    nextCursor l ≤ .ofBundle b :=
  (nextCursor_le_iff h.of_append_left).mpr fun _ hx => h.lt_of_append_singleton hx

/-- At most one of the two queues is non-empty. -/
theorem reconciled_queue_empty (hA : Increasing A) (hR : Increasing R) :
    (reconciled A R).addedBundles = [] ∨ (reconciled A R).removedBundles = [] := by
  rcases le_total (nextCursor A) (nextCursor R) with h | h
  · refine .inl (List.filter_eq_nil_iff.mpr fun a ha => ?_)
    simpa using (ofBundle_lt_nextCursor hA ha).trans_le h
  · refine .inr (List.filter_eq_nil_iff.mpr fun r hr => ?_)
    simpa using (ofBundle_lt_nextCursor hR hr).trans_le h

theorem Reconcilable.of_add (hA : Increasing (A ++ [a])) (h : Reconcilable (A ++ [a]) R) :
    Reconcilable A R := by
  refine ⟨fun r hr hlt => ?_, fun last hlast b hb => h.2 last hlast b (by simp [hb])⟩
  have hra : Cursor.ofBundle r < .ofBundle a := hlt.trans_le (nextCursor_le_of_append hA)
  have hmem : r ∈ A ++ [a] := h.1 r hr (by simpa [Cursor.lt_succ_iff] using hra.le)
  rcases List.mem_append.mp hmem with hmem | hmem
  · exact hmem
  · exact absurd hra (by simp [List.mem_singleton.mp hmem])

theorem Reconcilable.of_remove (hR : Increasing (R ++ [r])) (h : Reconcilable A (R ++ [r])) :
    Reconcilable A R := by
  refine ⟨fun r' hr' => h.1 r' (by simp [hr']), fun last hlast a ha hlt hnot => ?_⟩
  have har : Cursor.ofBundle a < .ofBundle r :=
    hlt.trans (hR.lt_of_append_singleton (List.mem_of_getLast? hlast))
  refine h.2 r (by simp) a ha har fun hmem => ?_
  rcases List.mem_append.mp hmem with hmem | hmem
  · exact hnot hmem
  · exact absurd har (by simp [List.mem_singleton.mp hmem])

/-! ## One call -/

/-- What a successful `add_bundle` does, by the front of the removed bundles. -/
theorem step_add_eq_ok_iff {s s' : InboxStateView} (hcursor : s.nextCursorToAdd ≤ .ofBundle a)
    (hindex : a.transactionIndex < u32Max) :
    s.step (.add a) = .ok s' ↔
      match s.removedBundles with
      | [] => s' = { s with
          nextCursorToAdd := (Cursor.ofBundle a).succ, addedBundles := s.addedBundles ++ [a] }
      | p :: rest =>
        a = p ∧ s' = { s with
            nextCursorToAdd := (Cursor.ofBundle a).succ, removedBundles := rest } ∨
        Cursor.ofBundle a < .ofBundle p ∧ a.isSkippable ∧ s' = { s with
            nextCursorToAdd := (Cursor.ofBundle a).succ } := by
  have hnext : (Cursor.ofBundle a).tryAddOne = .ok (Cursor.ofBundle a).succ :=
    Cursor.tryAddOne_eq_ok hindex
  simp only [step, addBundle, Except.ensure_of hcursor, hnext, Except.ok_bind]
  cases hremoved : s.removedBundles with
  | nil =>
    simp only [Except.pure_eq, Except.mapError_ok, Except.ok_bind, Except.map_ok, Except.ok.injEq]
    exact eq_comm
  | cons p rest =>
    by_cases hp : Cursor.ofBundle p = .ofBundle a
    · by_cases hap : a = p
      · subst hap
        simp [@eq_comm _ s']
      · simp [hp, hap]
    · have hap : a ≠ p := fun h => hp (h ▸ rfl)
      by_cases hskip : Cursor.ofBundle a < .ofBundle p ∧ a.isSkippable
      · simp [hp, hskip, hap, hremoved, @eq_comm _ s']
      · simp only [hp, if_false, Except.ensure_of_not hskip, hap, false_and, false_or]
        simp [← and_assoc, hskip]

theorem discardLower_eq_ok_iff {c : Cursor} {l l' : List MessageBundle} (hl : Increasing l) :
    discardLower c l = .ok l' ↔
      (∀ b ∈ l, Cursor.ofBundle b < c → b.isSkippable) ∧
        l' = l.filter fun b => c ≤ .ofBundle b := by
  induction l with
  | nil =>
    rw [discardLower, Except.ok.injEq, @eq_comm _ _ l']
    simp
  | cons p rest ih =>
    by_cases hp : c ≤ .ofBundle p
    · -- The loop stops here, and nothing behind `p` is below the cursor.
      have hall : ∀ b ∈ p :: rest, c ≤ Cursor.ofBundle b := by
        intro b hb
        rcases List.mem_cons.mp hb with rfl | hb
        · exact hp
        · exact hp.trans (List.rel_of_pairwise_cons hl hb).le
      have hfilter : (p :: rest).filter (fun b => c ≤ .ofBundle b) = p :: rest :=
        List.filter_eq_self.mpr fun b hb => by simpa using hall b hb
      rw [discardLower, if_pos hp, hfilter, Except.ok.injEq, @eq_comm _ l']
      exact ⟨fun h => ⟨fun b hb hlt => absurd hlt (not_lt.mpr (hall b hb)), h⟩, fun h => h.2⟩
    · have hlt : Cursor.ofBundle p < c := not_le.mp hp
      by_cases hskip : p.isSkippable
      · simp [discardLower, hp, hskip, ih hl.of_cons]
      · simp [discardLower, hp, hskip, hlt]

/-- What a successful `remove_bundle` does, by the added bundles it does not discard. -/
theorem step_remove_eq_ok_iff {s s' : InboxStateView} (hcursor : s.nextCursorToRemove ≤ .ofBundle r)
    (hindex : r.transactionIndex < u32Max) (hadded : Increasing s.addedBundles) :
    s.step (.remove r) = .ok s' ↔
      (∀ b ∈ s.addedBundles, Cursor.ofBundle b < .ofBundle r → b.isSkippable) ∧
      match s.addedBundles.filter fun b => Cursor.ofBundle r ≤ .ofBundle b with
      | [] => s' = { s with
          nextCursorToRemove := (Cursor.ofBundle r).succ, addedBundles := [],
          removedBundles := s.removedBundles ++ [r] }
      | p :: rest => r = p ∧ s' = { s with
          nextCursorToRemove := (Cursor.ofBundle r).succ, addedBundles := rest } := by
  have hnext : (Cursor.ofBundle r).tryAddOne = .ok (Cursor.ofBundle r).succ :=
    Cursor.tryAddOne_eq_ok hindex
  simp only [step, removeBundle, Except.ensure_of hcursor, hnext, Except.ok_bind]
  have hdiscard := fun kept =>
    @discardLower_eq_ok_iff (.ofBundle r) s.addedBundles kept hadded
  cases hrun : discardLower (.ofBundle r) s.addedBundles with
  | error e =>
    have hskip : ¬∀ b ∈ s.addedBundles, Cursor.ofBundle b < .ofBundle r → b.isSkippable := by
      intro hall
      have := (hdiscard _).mpr ⟨hall, rfl⟩
      simp [hrun] at this
    simp [hskip]
  | ok kept =>
    obtain ⟨hall, rfl⟩ := (hdiscard kept).mp hrun
    cases s.addedBundles.filter fun b => Cursor.ofBundle r ≤ .ofBundle b with
    | nil =>
      simp only [Except.pure_eq, Except.mapError_ok, Except.ok_bind, Except.map_ok,
        Except.ok.injEq]
      exact ⟨fun h => ⟨hall, h.symm⟩, fun h => h.2.symm⟩
    | cons p rest =>
      by_cases hrp : r = p
      · simp only [Except.ensure_of hrp, Except.pure_eq, Except.mapError_ok, Except.ok_bind,
          Except.map_ok, Except.ok.injEq]
        exact ⟨fun h => ⟨hall, hrp, h.symm⟩, fun h => h.2.2.symm⟩
      · simp [hrp]

/-- Whether one more addition still fits, by the first removal above the earlier additions. -/
theorem reconcilable_add_iff (hA : Increasing (A ++ [a])) (hR : Increasing R)
    (h : Reconcilable A R) : Reconcilable (A ++ [a]) R ↔
      match R.filter fun r => nextCursor A ≤ .ofBundle r with
      | [] => True
      | p :: _ => a = p ∨ Cursor.ofBundle a < .ofBundle p ∧ a.isSkippable := by
  have hnext : nextCursor A ≤ .ofBundle a := nextCursor_le_of_append hA
  have hold : ∀ b ∈ R, nextCursor A ≤ Cursor.ofBundle b → b ∉ A := fun b _ hb hmem =>
    absurd (ofBundle_lt_nextCursor hA.of_append_left hmem) (not_lt.mpr hb)
  cases hfilter : R.filter fun r => nextCursor A ≤ .ofBundle r with
  | nil =>
    -- Every removal is below the earlier additions, so `a` is above all of them.
    have hbelow : ∀ r ∈ R, Cursor.ofBundle r < nextCursor A := fun r hr => by
      simpa using List.filter_eq_nil_iff.mp hfilter r hr
    refine ⟨fun _ => trivial, fun _ => ⟨fun r hr _ => ?_, fun last hlast b hb hlt hnot => ?_⟩⟩
    · exact List.mem_append_left _ (h.1 r hr (hbelow r hr))
    · rcases List.mem_append.mp hb with hb | hb
      · exact h.2 last hlast b hb hlt hnot
      · obtain rfl := List.mem_singleton.mp hb
        have hlast' := hbelow last (List.mem_of_getLast? hlast)
        exact absurd (hlt.trans hlast') (not_lt.mpr hnext)
  | cons p rest =>
    obtain ⟨⟨hp, hlo⟩, hleast, -⟩ := hR.filter_ge_eq_cons hfilter
    constructor
    · intro hrec
      rcases lt_trichotomy (Cursor.ofBundle a) (.ofBundle p) with hap | hap | hap
      · -- `a` is below the last removal and was not removed itself.
        obtain ⟨last, hlast⟩ : ∃ last, R.getLast? = some last :=
          Option.isSome_iff_exists.mp (by simpa using List.ne_nil_of_mem hp)
        have hnot : a ∉ R := fun hmem => absurd (hleast a hmem hnext) (not_le.mpr hap)
        exact .inr ⟨hap, hrec.2 last hlast a (by simp)
          (hap.trans_le (hR.key_le_of_getLast? hlast hp)) hnot⟩
      · have hmem := hrec.1 p hp (by simp [Cursor.lt_succ_iff, hap])
        simp only [List.mem_append, hold p hp hlo, List.mem_singleton, false_or] at hmem
        exact .inl hmem.symm
      · have hmem := hrec.1 p hp (by simpa [Cursor.lt_succ_iff] using hap.le)
        simp only [List.mem_append, hold p hp hlo, List.mem_singleton, false_or] at hmem
        exact .inl hmem.symm
    · intro hcase
      have hle : Cursor.ofBundle a ≤ .ofBundle p := by
        rcases hcase with rfl | hcase
        · exact le_rfl
        · exact hcase.1.le
      refine ⟨fun r hr hlt => ?_, fun last hlast b hb hlt hnot => ?_⟩
      · rw [nextCursor_append_singleton, Cursor.lt_succ_iff] at hlt
        by_cases hr' : Cursor.ofBundle r < nextCursor A
        · exact List.mem_append_left _ (h.1 r hr hr')
        · -- Between the earlier additions and `a` there is no removal but `p` itself.
          have hpr : Cursor.ofBundle p ≤ .ofBundle r := hleast r hr (not_lt.mp hr')
          have hrp : r = p := hR.eq_of_key_eq hr hp (le_antisymm (hlt.trans hle) hpr)
          subst hrp
          rcases hcase with rfl | hcase
          · simp
          · exact absurd hcase.1 (not_lt.mpr hlt)
      · rcases List.mem_append.mp hb with hb | hb
        · exact h.2 last hlast b hb hlt hnot
        · obtain rfl := List.mem_singleton.mp hb
          rcases hcase with rfl | hcase
          · exact absurd hp hnot
          · exact hcase.2

/-- **One addition.** From the state of `A` and `R`, `add_bundle` leads to the state of the
extended sequences, and it fails exactly if they do not fit together. -/
theorem step_add_reconciled (hA : Increasing (A ++ [a])) (hR : Increasing R)
    (hindex : a.transactionIndex < u32Max) (h : Reconcilable A R) {s' : InboxStateView} :
    (reconciled A R).step (.add a) = .ok s' ↔
      Reconcilable (A ++ [a]) R ∧ s' = reconciled (A ++ [a]) R := by
  have hnext : nextCursor A ≤ .ofBundle a := nextCursor_le_of_append hA
  rw [step_add_eq_ok_iff hnext hindex, reconcilable_add_iff hA hR h]
  change (match R.filter fun r => nextCursor A ≤ .ofBundle r with | [] => _ | p :: rest => _) ↔ _
  cases hfilter : R.filter fun r => nextCursor A ≤ .ofBundle r with
  | nil =>
    have hbelow : ∀ r ∈ R, Cursor.ofBundle r < nextCursor A := fun r hr => by
      simpa using List.filter_eq_nil_iff.mp hfilter r hr
    have hadded : nextCursor R ≤ .ofBundle a :=
      (nextCursor_le_iff hR).mpr fun r hr => (hbelow r hr).trans_le hnext
    have hremoved : R.filter (fun r => Cursor.ofBundle a < .ofBundle r) = [] :=
      List.filter_eq_nil_iff.mpr fun r hr => by simpa using ((hbelow r hr).trans_le hnext).le
    simp [reconciled, List.filter_append, hadded, hremoved, hfilter, Cursor.succ_le_iff]
  | cons p rest =>
    obtain ⟨⟨hp, hlo⟩, hleast, hrest⟩ := hR.filter_ge_eq_cons hfilter
    have hpR : Cursor.ofBundle p < nextCursor R := ofBundle_lt_nextCursor hR hp
    -- `a` comes below the last removal, so it is not kept among the added bundles.
    have hskipped : Cursor.ofBundle a ≤ .ofBundle p →
        (A ++ [a]).filter (fun b => nextCursor R ≤ .ofBundle b) =
          A.filter (fun b => nextCursor R ≤ .ofBundle b) := by
      intro hap
      simp [List.filter_append, not_le.mpr (hap.trans_lt hpR)]
    have hmatched : a = p → reconciled (A ++ [a]) R =
        { reconciled A R with
          nextCursorToAdd := (Cursor.ofBundle a).succ, removedBundles := rest } := by
      rintro rfl
      simp [reconciled, hskipped le_rfl, hrest, Cursor.succ_le_iff]
    have hlower : Cursor.ofBundle a < .ofBundle p → reconciled (A ++ [a]) R =
        { reconciled A R with nextCursorToAdd := (Cursor.ofBundle a).succ } := by
      intro hap
      have hremoved : R.filter (fun r => (Cursor.ofBundle a).succ ≤ .ofBundle r) =
          R.filter (fun r => nextCursor A ≤ .ofBundle r) := by
        refine List.filter_congr fun r hr => decide_eq_decide.mpr ?_
        rw [Cursor.succ_le_iff]
        exact ⟨fun har => hnext.trans har.le, fun hr' => hap.trans_le (hleast r hr hr')⟩
      simp [reconciled, hskipped hap.le, hremoved]
    constructor
    · rintro (⟨hap, rfl⟩ | ⟨hap, hskip, rfl⟩)
      · exact ⟨.inl hap, (hmatched hap).symm⟩
      · exact ⟨.inr ⟨hap, hskip⟩, (hlower hap).symm⟩
    · rintro ⟨hap | ⟨hap, hskip⟩, rfl⟩
      · exact .inl ⟨hap, hmatched hap⟩
      · exact .inr ⟨hap, hskip, hlower hap⟩

/-- Whether one more removal still fits, by the first addition at or above its cursor. -/
theorem reconcilable_remove_iff (hA : Increasing A) (hR : Increasing (R ++ [r]))
    (h : Reconcilable A R) : Reconcilable A (R ++ [r]) ↔
      (∀ a ∈ A, nextCursor R ≤ .ofBundle a → Cursor.ofBundle a < .ofBundle r → a.isSkippable) ∧
      match A.filter fun a => Cursor.ofBundle r ≤ .ofBundle a with
      | [] => True
      | p :: _ => r = p := by
  have hnext : nextCursor R ≤ .ofBundle r := nextCursor_le_of_append hR
  have hfresh : ∀ a, nextCursor R ≤ Cursor.ofBundle a → Cursor.ofBundle a < .ofBundle r →
      a ∉ R ++ [r] := by
    intro a ha hlt hmem
    rcases List.mem_append.mp hmem with hmem | hmem
    · exact absurd (ofBundle_lt_nextCursor hR.of_append_left hmem) (not_lt.mpr ha)
    · exact absurd hlt (by simp [List.mem_singleton.mp hmem])
  constructor
  · intro hrec
    refine ⟨fun a ha hlo hlt => hrec.2 r (by simp) a ha hlt (hfresh a hlo hlt), ?_⟩
    cases hfilter : A.filter fun a => Cursor.ofBundle r ≤ .ofBundle a with
    | nil => trivial
    | cons p rest =>
      obtain ⟨⟨hp, hlo⟩, hleast, -⟩ := hA.filter_ge_eq_cons hfilter
      have hr : r ∈ A := hrec.1 r (by simp) (hlo.trans_lt (ofBundle_lt_nextCursor hA hp))
      exact hA.eq_of_key_eq hr hp (le_antisymm hlo (hleast r hr le_rfl))
  · rintro ⟨hskip, hfront⟩
    refine ⟨fun r' hr' hlt => ?_, fun last hlast a ha hlt hnot => ?_⟩
    · rcases List.mem_append.mp hr' with hr' | hr'
      · exact h.1 r' hr' hlt
      · obtain rfl := List.mem_singleton.mp hr'
        cases hfilter : A.filter fun a => Cursor.ofBundle r' ≤ .ofBundle a with
        | nil =>
          have hbelow : ∀ a ∈ A, Cursor.ofBundle a < .ofBundle r' := fun a ha => by
            simpa using List.filter_eq_nil_iff.mp hfilter a ha
          exact absurd hlt (not_lt.mpr ((nextCursor_le_iff hA).mpr hbelow))
        | cons p rest =>
          obtain ⟨⟨hp, -⟩, -, -⟩ := hA.filter_ge_eq_cons hfilter
          simp only [hfilter] at hfront
          exact hfront ▸ hp
    · obtain rfl : r = last := by simpa using hlast
      by_cases hlo : nextCursor R ≤ .ofBundle a
      · exact hskip a ha hlo hlt
      · -- `a` was already behind the earlier removals.
        have hnot' : a ∉ R := fun hmem => hnot (List.mem_append_left _ hmem)
        obtain ⟨b, hb, hab⟩ : ∃ b ∈ R, Cursor.ofBundle a ≤ .ofBundle b := by
          rw [nextCursor_le_iff hR.of_append_left] at hlo
          push Not at hlo
          exact hlo
        obtain ⟨z, hz⟩ : ∃ z, R.getLast? = some z :=
          Option.isSome_iff_exists.mp (by simpa using List.ne_nil_of_mem hb)
        have haz := hab.trans (hR.of_append_left.key_le_of_getLast? hz hb)
        rcases haz.lt_or_eq with haz | haz
        · exact h.2 z hz a ha haz hnot'
        · have hzR : z ∈ R := List.mem_of_getLast? hz
          have hzA : z ∈ A := h.1 z hzR (haz ▸ ofBundle_lt_nextCursor hA ha)
          exact absurd hzR (hA.eq_of_key_eq ha hzA haz ▸ hnot')

/-- **One removal.** From the state of `A` and `R`, `remove_bundle` leads to the state of the
extended sequences, and it fails exactly if they do not fit together. -/
theorem step_remove_reconciled (hA : Increasing A) (hR : Increasing (R ++ [r]))
    (hindex : r.transactionIndex < u32Max) (h : Reconcilable A R) {s' : InboxStateView} :
    (reconciled A R).step (.remove r) = .ok s' ↔
      Reconcilable A (R ++ [r]) ∧ s' = reconciled A (R ++ [r]) := by
  have hnext : nextCursor R ≤ .ofBundle r := nextCursor_le_of_append hR
  have hkept : ((reconciled A R).addedBundles.filter fun b => Cursor.ofBundle r ≤ .ofBundle b) =
      A.filter fun b => Cursor.ofBundle r ≤ .ofBundle b := by
    simp only [reconciled, List.filter_filter]
    refine List.filter_congr fun a _ => ?_
    by_cases ha : Cursor.ofBundle r ≤ .ofBundle a
    · simp [ha, hnext.trans ha]
    · simp [ha]
  have hadded : Increasing (reconciled A R).addedBundles := hA.filter _
  rw [step_remove_eq_ok_iff hnext hindex hadded, reconcilable_remove_iff hA hR h, hkept, and_assoc]
  refine and_congr (by simp [reconciled]) ?_
  cases hfilter : A.filter fun b => Cursor.ofBundle r ≤ .ofBundle b with
  | nil =>
    have hbelow : ∀ a ∈ A, Cursor.ofBundle a < .ofBundle r := fun a ha => by
      simpa using List.filter_eq_nil_iff.mp hfilter a ha
    have hremoved : nextCursor A ≤ .ofBundle r := (nextCursor_le_iff hA).mpr hbelow
    have hempty : A.filter (fun a => Cursor.ofBundle r < .ofBundle a) = [] :=
      List.filter_eq_nil_iff.mpr fun a ha => by simpa using (hbelow a ha).le
    simp [reconciled, List.filter_append, hremoved, hempty, Cursor.succ_le_iff]
  | cons p rest =>
    obtain ⟨⟨hp, hlo⟩, -, hrest⟩ := hA.filter_ge_eq_cons hfilter
    refine and_congr_right fun hrp => ?_
    subst hrp
    have hremoved : ¬nextCursor A ≤ .ofBundle r := not_le.mpr (ofBundle_lt_nextCursor hA hp)
    simp [reconciled, List.filter_append, hremoved, hrest, Cursor.succ_le_iff]

/-! ## Every interleaving -/

/-- `events` performs the additions `A` and the removals `R`, in some order. -/
def Interleaving (A R : List MessageBundle) (events : List Event) : Prop :=
  Event.added events = A ∧ Event.removed events = R

theorem run_append_singleton (s : InboxStateView) (events : List Event) (e : Event) :
    s.run (events ++ [e]) = s.run events >>= fun s => s.step e := by
  simp [run, List.foldlM_append]

/-- A run succeeds if and only if its additions and removals fit together, and then it ends in
their state. -/
theorem run_eq_ok_iff {events : List Event}
    (hA : Increasing (Event.added events)) (hR : Increasing (Event.removed events))
    (hAindex : ∀ a ∈ Event.added events, a.transactionIndex < u32Max)
    (hRindex : ∀ r ∈ Event.removed events, r.transactionIndex < u32Max) {s : InboxStateView} :
    fresh.run events = .ok s ↔
      Reconcilable (Event.added events) (Event.removed events) ∧
        s = reconciled (Event.added events) (Event.removed events) := by
  induction events using List.reverseRecOn generalizing s with
  | nil =>
    simp only [run, List.foldlM_nil, Except.pure_eq, Except.ok.injEq, Event.added, Event.removed,
      List.filterMap_nil]
    simp [Reconcilable, reconciled, fresh, @eq_comm _ s]
  | append_singleton events e ih =>
    rw [run_append_singleton, Except.bind_eq_ok]
    cases e with
    | add a =>
      have hadded : Event.added (events ++ [.add a]) = Event.added events ++ [a] := by
        simp [Event.added, List.filterMap_append]
      have hremoved : Event.removed (events ++ [.add a]) = Event.removed events := by
        simp [Event.removed, List.filterMap_append]
      rw [hadded] at hA hAindex ⊢
      rw [hremoved] at hR hRindex ⊢
      have ih := fun s => @ih hA.of_append_left hR (fun b hb => hAindex b (by simp [hb])) hRindex s
      constructor
      · rintro ⟨s₀, hrun, hstep⟩
        obtain ⟨hrec, rfl⟩ := (ih s₀).mp hrun
        exact (step_add_reconciled hA hR (hAindex a (by simp)) hrec).mp hstep
      · rintro ⟨hrec, rfl⟩
        have hrec₀ := hrec.of_add hA
        exact ⟨_, (ih _).mpr ⟨hrec₀, rfl⟩,
          (step_add_reconciled hA hR (hAindex a (by simp)) hrec₀).mpr ⟨hrec, rfl⟩⟩
    | remove r =>
      have hadded : Event.added (events ++ [.remove r]) = Event.added events := by
        simp [Event.added, List.filterMap_append]
      have hremoved : Event.removed (events ++ [.remove r]) = Event.removed events ++ [r] := by
        simp [Event.removed, List.filterMap_append]
      rw [hadded] at hA hAindex ⊢
      rw [hremoved] at hR hRindex ⊢
      have ih := fun s => @ih hA hR.of_append_left hAindex (fun b hb => hRindex b (by simp [hb])) s
      constructor
      · rintro ⟨s₀, hrun, hstep⟩
        obtain ⟨hrec, rfl⟩ := (ih s₀).mp hrun
        exact (step_remove_reconciled hA hR (hRindex r (by simp)) hrec).mp hstep
      · rintro ⟨hrec, rfl⟩
        have hrec₀ := hrec.of_remove hR
        exact ⟨_, (ih _).mpr ⟨hrec₀, rfl⟩,
          (step_remove_reconciled hA hR (hRindex r (by simp)) hrec₀).mpr ⟨hrec, rfl⟩⟩

/--
**The inbox reconciles sends and receives independently of their order.** For any
additions `A` and removals `R` with increasing cursors:

* an interleaving of them succeeds if and only if they fit together
  (`Reconcilable`), whatever the interleaving;
* in that case all interleavings end in one state, whose queues hold the
  additions that are not yet removed and the removals that are not yet added, and
  at most one of the two is non-empty.
-/
theorem run_interleaving {A R : List MessageBundle} (hA : Increasing A) (hR : Increasing R)
    (hAindex : ∀ a ∈ A, a.transactionIndex < u32Max)
    (hRindex : ∀ r ∈ R, r.transactionIndex < u32Max) :
    (∀ events, Interleaving A R events → ((∃ s, fresh.run events = .ok s) ↔ Reconcilable A R)) ∧
    (Reconcilable A R → ∃ s, (∀ events, Interleaving A R events → fresh.run events = .ok s) ∧
      s.addedBundles = A.filter (fun a => s.nextCursorToRemove ≤ .ofBundle a) ∧
      s.removedBundles = R.filter (fun r => s.nextCursorToAdd ≤ .ofBundle r) ∧
      (s.addedBundles = [] ∨ s.removedBundles = [])) := by
  have hrun : ∀ events, Interleaving A R events → ∀ s,
      fresh.run events = .ok s ↔ Reconcilable A R ∧ s = reconciled A R := by
    rintro events ⟨rfl, rfl⟩ s
    exact run_eq_ok_iff hA hR hAindex hRindex
  refine ⟨fun events hev => ?_, fun hrec => ⟨reconciled A R, fun events hev => ?_, rfl, rfl, ?_⟩⟩
  · simp [hrun events hev]
  · exact (hrun events hev _).mpr ⟨hrec, rfl⟩
  · exact reconciled_queue_empty hA hR

def emptyBundle (height index : Nat) : MessageBundle := ⟨height, 0, ⟨0⟩, index, []⟩

/-- Bundles 0, 1 and 2 are sent, and the receiver takes 0 and 2 while skipping 1. -/
theorem run_interleaving_skipping :
    ∃ s, (∀ events,
        Interleaving [emptyBundle 0 0, emptyBundle 0 1, emptyBundle 1 0]
          [emptyBundle 0 0, emptyBundle 1 0] events → fresh.run events = .ok s) ∧
      (s.addedBundles = [] ∨ s.removedBundles = []) := by
  obtain ⟨s, hs, -, -, hempty⟩ :=
    (run_interleaving (A := [emptyBundle 0 0, emptyBundle 0 1, emptyBundle 1 0])
      (R := [emptyBundle 0 0, emptyBundle 1 0])
      (by decide) (by decide) (by decide) (by decide)).2 (by decide)
  exact ⟨s, hs, hempty⟩

end InboxStateView

end Linera
