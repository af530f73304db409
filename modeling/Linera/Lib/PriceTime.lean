import Mathlib

/-!
# Price-time priority

Resting orders stand in a list, the first to be served at its head; each has a size.
An incoming order of some amount is filled from them in turn: `sweep` exhausts one
resting order after another until the amount is used up, or no order is left.

`InPriority` says in words what the outcome has to be. `Swept` is for lists that also
hold orders of size zero, which nobody has cleared away yet: it says that the live part
of the list has been swept, and which orders are gone. Lists that are swept one after
the other are swept as a whole (`Swept.append`).
-/

namespace PriceTime

variable {α : Type*}

def total (weight : α → Nat) (l : List (α × Nat)) : Nat := (l.map fun e => weight e.1 * e.2).sum

variable (weight : α → Nat)

@[simp] theorem total_nil : total weight [] = 0 := rfl

@[simp] theorem total_cons (e : α × Nat) (l : List (α × Nat)) :
    total weight (e :: l) = weight e.1 * e.2 + total weight l := rfl

@[simp] theorem total_append (l l' : List (α × Nat)) :
    total weight (l ++ l') = total weight l + total weight l' := by
  simp [total]

theorem total_const (c : Nat) (l : List (α × Nat)) :
    total (fun _ => c) l = c * total (fun _ => 1) l := by
  induction l with
  | nil => rfl
  | cons e l ih =>
    rw [total_cons, total_cons, ih, Nat.mul_add, Nat.one_mul]

/-! ## The sweep -/

/-- What becomes of an incoming order and of the orders it meets. -/
structure Sweep (α : Type*) where
  /-- The orders that are filled, with the amounts. -/
  fills : List (α × Nat)
  /-- The orders that remain. -/
  rest : List (α × Nat)
  /-- What remains of the incoming order. -/
  left : Nat

/-- Fills an incoming order from the resting ones. -/
def sweep (amount : Nat) : List (α × Nat) → Sweep α
  | [] => ⟨[], [], amount⟩
  | (order, size) :: orders =>
    if amount = 0 then ⟨[], (order, size) :: orders, 0⟩
    else if size ≤ amount then
      let later := sweep (amount - size) orders
      ⟨(order, size) :: later.fills, later.rest, later.left⟩
    else ⟨[(order, amount)], (order, size - amount) :: orders, 0⟩

/-- The outcome price-time priority asks for: some orders are exhausted from the front on, the next
one may be filled in part, the others are not touched; and either the whole amount has been used or
there is no order left. -/
structure InPriority (amount : Nat) (orders fills rest : List (α × Nat)) (left : Nat) : Prop where
  exhausted : ∃ done later, orders = done ++ later ∧
    (fills = done ∧ rest = later ∨
      ∃ order size fill later', later = (order, size) :: later' ∧ 0 < fill ∧ fill < size ∧
        fills = done ++ [(order, fill)] ∧ rest = (order, size - fill) :: later')
  amount_eq : total (fun _ => 1) fills + left = amount
  all_or_rest : left = 0 ∨ rest = []

@[simp] theorem sweep_zero (l : List (α × Nat)) : sweep 0 l = ⟨[], l, 0⟩ := by
  cases l with
  | nil => rfl
  | cons e l => simp [sweep]

theorem sweep_inPriority (amount : Nat) (l : List (α × Nat)) :
    InPriority amount l (sweep amount l).fills (sweep amount l).rest (sweep amount l).left := by
  induction l generalizing amount with
  | nil => exact ⟨⟨[], [], rfl, .inl ⟨rfl, rfl⟩⟩, by simp [sweep], .inr rfl⟩
  | cons e l ih =>
    obtain ⟨order, size⟩ := e
    by_cases hzero : amount = 0
    · subst hzero
      rw [sweep_zero]
      exact ⟨⟨[], _, rfl, .inl ⟨rfl, rfl⟩⟩, rfl, .inl rfl⟩
    · by_cases hsize : size ≤ amount
      · obtain ⟨⟨done, later, rfl, hcases⟩, hamount, hall⟩ := ih (amount - size)
        simp only [sweep, hzero, hsize, if_true, if_false]
        refine ⟨⟨(order, size) :: done, later, rfl, ?_⟩, ?_, hall⟩
        · obtain ⟨hfills, hrest⟩ | ⟨o, n, f, later', rfl, hpos, hlt, hfills, hrest⟩ := hcases
          · exact .inl ⟨by rw [hfills], hrest⟩
          · exact .inr ⟨o, n, f, later', rfl, hpos, hlt, by rw [hfills]; rfl, hrest⟩
        · rw [total_cons]
          omega
      · simp only [sweep, hzero, hsize, if_false]
        exact ⟨⟨[], _, rfl, .inr ⟨order, size, amount, l, rfl, by omega, by omega, rfl, rfl⟩⟩,
          by simp, .inl rfl⟩

/-- Nothing is lost, whatever the orders are weighted by. -/
theorem total_sweep (amount : Nat) (l : List (α × Nat)) :
    total weight (sweep amount l).fills + total weight (sweep amount l).rest = total weight l := by
  induction l generalizing amount with
  | nil => rfl
  | cons e l ih =>
    obtain ⟨order, size⟩ := e
    by_cases hzero : amount = 0
    · simp [hzero]
    · by_cases hsize : size ≤ amount
      · simp only [sweep, hzero, hsize, if_true, if_false, total_cons]
        rw [Nat.add_assoc, ih]
      · simp only [sweep, hzero, hsize, if_false, total_cons, total_nil]
        have hsplit : weight order * amount + weight order * (size - amount) =
            weight order * size := by
          rw [← Nat.mul_add, Nat.add_sub_cancel' (by omega)]
        omega

variable {l : List (α × Nat)} {amount : Nat} {e : α × Nat}

/-- The orders that are filled or remain are among those that were there. -/
theorem exists_of_mem_sweep (he : e ∈ (sweep amount l).fills ∨ e ∈ (sweep amount l).rest) :
    ∃ size, (e.1, size) ∈ l := by
  induction l generalizing amount with
  | nil => rcases he with he | he <;> cases he
  | cons first l ih =>
    obtain ⟨order, size⟩ := first
    by_cases hzero : amount = 0
    · rw [hzero, sweep_zero] at he
      exact ⟨e.2, he.resolve_left (List.not_mem_nil)⟩
    · by_cases hsize : size ≤ amount
      · simp only [sweep, hzero, hsize, if_true, if_false, List.mem_cons, or_assoc] at he
        rcases he with rfl | he
        · exact ⟨size, .head _⟩
        · obtain ⟨n, hn⟩ := ih he
          exact ⟨n, .tail _ hn⟩
      · simp only [sweep, hzero, hsize, if_false, List.mem_cons, List.not_mem_nil, or_false] at he
        rcases he with rfl | rfl | he
        · exact ⟨size, .head _⟩
        · exact ⟨size, .head _⟩
        · exact ⟨e.2, .tail _ he⟩

theorem exists_of_mem_rest (he : e ∈ (sweep amount l).rest) : ∃ size, (e.1, size) ∈ l :=
  exists_of_mem_sweep (.inr he)

theorem exists_of_mem_fills (he : e ∈ (sweep amount l).fills) : ∃ size, (e.1, size) ∈ l :=
  exists_of_mem_sweep (.inl he)

theorem sweep_append (amount : Nat) (l l' : List (α × Nat)) : sweep amount (l ++ l') =
      ⟨(sweep amount l).fills ++ (sweep (sweep amount l).left l').fills,
        (sweep amount l).rest ++ (sweep (sweep amount l).left l').rest,
        (sweep (sweep amount l).left l').left⟩ := by
  induction l generalizing amount with
  | nil => rfl
  | cons e l ih =>
    obtain ⟨order, size⟩ := e
    by_cases hzero : amount = 0
    · simp [hzero]
    · by_cases hsize : size ≤ amount
      · simp only [List.cons_append, sweep, hzero, hsize, if_true, if_false, ih]
      · simp [sweep, hzero, hsize]

/-- An amount that is smaller than the first order exhausts none. -/
theorem map_fst_rest_of_lt (h : ∀ e ∈ l.head?, amount < e.2) :
    (sweep amount l).rest.map Prod.fst = l.map Prod.fst := by
  cases l with
  | nil => rfl
  | cons e l =>
    obtain ⟨order, size⟩ := e
    have hlt : amount < size := h _ rfl
    by_cases hzero : amount = 0
    · rw [hzero, sweep_zero]
    · simp [sweep, hzero, Nat.not_le.mpr hlt]

/-! ## Lists with orders of size zero -/

/-- The orders that are not of size zero. -/
def live (l : List (α × Nat)) : List (α × Nat) := l.filter fun e => e.2 ≠ 0

@[simp] theorem live_nil : live ([] : List (α × Nat)) = [] := rfl

@[simp] theorem live_append (l l' : List (α × Nat)) : live (l ++ l') = live l ++ live l' :=
  List.filter_append ..

theorem mem_live : e ∈ live l ↔ e ∈ l ∧ e.2 ≠ 0 := by
  simp [live]

/-- Orders of size zero count for nothing. -/
@[simp] theorem total_live (l : List (α × Nat)) : total weight (live l) = total weight l := by
  induction l with
  | nil => rfl
  | cons e l ih =>
    by_cases he : e.2 = 0
    · simp [live, he, ← ih]
    · simp only [live, List.filter_cons, decide_true, ne_eq, he, not_false_eq_true, if_true,
        total_cons]
      rw [← ih]
      rfl

/-- A list is swept: its live part is, no order has come up, and the orders that are removed are
those that are not live any more, and maybe some that were of size zero before. -/
structure Swept (before after : List (α × Nat)) (amount left : Nat) (fills : List (α × Nat))
    (removed : List α) : Prop where
  sweep_eq : sweep amount (live before) = ⟨fills, live after, left⟩
  sublist : (after.map Prod.fst).Sublist (before.map Prod.fst)
  gone : ∃ exhausted dead : List α,
    ((live before).map Prod.fst).Perm (exhausted ++ (live after).map Prod.fst) ∧
    (∀ a ∈ dead, (a, 0) ∈ before) ∧ ∀ a, a ∈ removed ↔ a ∈ exhausted ∨ a ∈ dead

namespace Swept

variable {before after before' after' fills fills' : List (α × Nat)} {amount left left' : Nat}
  {removed removed' : List α}

/-- An empty list leaves the whole amount. -/
theorem nil (amount : Nat) : Swept ([] : List (α × Nat)) [] amount amount [] [] :=
  ⟨rfl, .refl _, [], [], .refl _, by simp, by simp⟩

/-- No amount leaves the whole list. -/
theorem refl (before : List (α × Nat)) : Swept before before 0 0 [] [] :=
  ⟨sweep_zero _, .refl _, [], [], .refl _, by simp, by simp⟩

section

variable (h : Swept before after amount left fills removed)

include h

theorem append (h' : Swept before' after' left left' fills' removed') :
    Swept (before ++ before') (after ++ after') amount left' (fills ++ fills')
      (removed ++ removed') := by
  obtain ⟨exhausted, dead, hperm, hdead, hmem⟩ := h.gone
  obtain ⟨exhausted', dead', hperm', hdead', hmem'⟩ := h'.gone
  refine ⟨?_, ?_, exhausted ++ exhausted', dead ++ dead', ?_, ?_, ?_⟩
  · rw [live_append, sweep_append, h.sweep_eq, h'.sweep_eq, live_append]
  · rw [List.map_append, List.map_append]
    exact h.sublist.append h'.sublist
  · rw [live_append, live_append, List.map_append, List.map_append]
    refine (hperm.append hperm').trans ?_
    rw [List.append_assoc, List.append_assoc]
    refine .append_left _ ?_
    rw [← List.append_assoc, ← List.append_assoc]
    exact .append_right _ List.perm_append_comm
  · intro a ha
    rcases List.mem_append.mp ha with ha | ha
    · exact List.mem_append_left _ (hdead a ha)
    · exact List.mem_append_right _ (hdead' a ha)
  · intro a
    simp only [List.mem_append, hmem, hmem']
    tauto

theorem mem_live_or_mem_removed {a : α} (ha : a ∈ (live before).map Prod.fst) :
    a ∈ (live after).map Prod.fst ∨ a ∈ removed := by
  obtain ⟨exhausted, dead, hperm, -, hmem⟩ := h.gone
  rcases List.mem_append.mp (hperm.mem_iff.mp ha) with ha | ha
  · exact .inr ((hmem a).mpr (.inl ha))
  · exact .inl ha

theorem mem_before_of_removed {a : α} (ha : a ∈ removed) : a ∈ before.map Prod.fst := by
  obtain ⟨exhausted, dead, hperm, hdead, hmem⟩ := h.gone
  rcases (hmem a).mp ha with ha | ha
  · exact (List.filter_sublist.map _).subset (hperm.mem_iff.mpr (List.mem_append_left _ ha))
  · exact List.mem_map.mpr ⟨_, hdead a ha, rfl⟩

/-- Where an order is in the list once, it is not removed as long as it is live. -/
theorem not_mem_removed (hnodup : (before.map Prod.fst).Nodup) {a : α}
    (ha : a ∈ (live after).map Prod.fst) : a ∉ removed := by
  obtain ⟨exhausted, dead, hperm, hdead, hmem⟩ := h.gone
  have hlive : ((live before).map Prod.fst).Nodup := hnodup.sublist (List.filter_sublist.map _)
  intro hremoved
  rcases (hmem a).mp hremoved with hexhausted | hin
  · exact (List.nodup_append.mp (hperm.nodup_iff.mp hlive)).2.2 a hexhausted a ha rfl
  · -- it would be there twice, live and of size zero
    obtain ⟨⟨_, size⟩, hsize, rfl⟩ := List.mem_map.mp (hperm.mem_iff.mpr (List.mem_append_right _ ha))
    obtain ⟨hbefore, hne⟩ := mem_live.mp hsize
    have := List.inj_on_of_nodup_map hnodup hbefore (hdead _ hin) rfl
    exact hne (congrArg Prod.snd this)

/-- Orders of size zero may be cleared away at any time. -/
theorem of_live_eq (hlive : live after' = live after) (hsublist : after'.Sublist after) :
    Swept before after' amount left fills removed :=
  ⟨by rw [h.sweep_eq, hlive], (hsublist.map _).trans h.sublist, by rw [hlive]; exact h.gone⟩

end

/-- One order: it is filled as far as possible, and removed if nothing of it is left. -/
theorem single (a : α) (size amount : Nat) :
    Swept [(a, size)] [(a, size - min size amount)] amount (amount - min size amount)
      (if min size amount > 0 then [(a, min size amount)] else [])
      (if size - min size amount = 0 then [a] else []) := by
  by_cases hsize : size = 0
  · -- an order of size zero takes nothing and is removed once more
    subst hsize
    refine ⟨by simp [live, sweep], .refl _, [], [a], ?_, by simp, by simp⟩
    simp [live]
  · by_cases hzero : amount = 0
    · subst hzero
      simp only [Nat.min_zero, Nat.sub_zero, gt_iff_lt, lt_irrefl, if_false, hsize]
      exact .refl _
    · by_cases hle : size ≤ amount
      · rw [Nat.min_eq_left hle, if_pos (by omega), if_pos (by omega)]
        exact ⟨by simp [live, sweep, hsize, hzero, hle], .refl _, [a], [], by simp [live, hsize],
          by simp, by simp⟩
      · rw [Nat.min_eq_right (by omega), if_pos (by omega), if_neg (by omega)]
        have hleft : size - amount ≠ 0 := by omega
        exact ⟨by simp [live, sweep, hsize, hzero, hle, hleft], .refl _, [], [],
          by simp [live, hsize, hleft], by simp, by simp⟩

end Swept

end PriceTime
