import Mathlib

/-!
# Lists with strictly increasing keys

A list whose elements are read in increasing order of a key, and what remains of
it above a bound: the first remaining element is the least one, and the rest is
what lies above that element.
-/

/-- The keys of `l` are strictly increasing. -/
def SortedBy {α κ : Type*} [LT κ] (key : α → κ) (l : List α) : Prop :=
  l.Pairwise fun a b => key a < key b

instance {α κ : Type*} [LT κ] [DecidableLT κ] (key : α → κ) (l : List α) :
    Decidable (SortedBy key l) :=
  inferInstanceAs (Decidable (l.Pairwise fun a b => key a < key b))

namespace SortedBy

variable {α κ : Type*} [LinearOrder κ] {key : α → κ} {l : List α}

theorem eq_of_key_eq (hl : SortedBy key l) {a b : α} (ha : a ∈ l) (hb : b ∈ l)
    (h : key a = key b) : a = b := by
  have hnodup : (l.map key).Nodup := List.pairwise_map.mpr (hl.imp ne_of_lt)
  exact List.inj_on_of_nodup_map hnodup ha hb h

theorem of_append_left {l' : List α} (h : SortedBy key (l ++ l')) : SortedBy key l :=
  (List.pairwise_append.mp h).1

theorem lt_of_append_singleton {a x : α} (h : SortedBy key (l ++ [a])) (hx : x ∈ l) :
    key x < key a :=
  (List.pairwise_append.mp h).2.2 x hx a (by simp)

theorem key_le_of_getLast? (hl : SortedBy key l) {a x : α} (ha : l.getLast? = some a)
    (hx : x ∈ l) : key x ≤ key a := by
  obtain ⟨init, rfl⟩ := List.getLast?_eq_some_iff.mp ha
  rcases List.mem_append.mp hx with hx | hx
  · exact (hl.lt_of_append_singleton hx).le
  · rw [List.mem_singleton.mp hx]

/-- The first element at or above `lo` is the least one there, and the others are those above
it. -/
theorem filter_ge_eq_cons (hl : SortedBy key l) {lo : κ} {a : α} {rest : List α}
    (h : l.filter (fun x => lo ≤ key x) = a :: rest) :
    (a ∈ l ∧ lo ≤ key a) ∧ (∀ x ∈ l, lo ≤ key x → key a ≤ key x) ∧
      rest = l.filter (fun x => key a < key x) := by
  have hmem : ∀ x, x ∈ a :: rest ↔ x ∈ l ∧ lo ≤ key x := by simp [← h]
  have hsorted : SortedBy key (a :: rest) := h ▸ hl.filter _
  have hrest : ∀ x ∈ rest, key a < key x := fun x hx => List.rel_of_pairwise_cons hsorted hx
  have hleast : ∀ x ∈ l, lo ≤ key x → key a ≤ key x := by
    intro x hx hlo
    rcases List.mem_cons.mp ((hmem x).mpr ⟨hx, hlo⟩) with rfl | hx
    · exact le_rfl
    · exact (hrest x hx).le
  refine ⟨(hmem a).mp (by simp), hleast, ?_⟩
  have hlo : lo ≤ key a := ((hmem a).mp (by simp)).2
  calc rest = (a :: rest).filter (fun x => key a < key x) := by
        rw [List.filter_cons_of_neg (by simp)]
        exact (List.filter_eq_self.mpr fun x hx => by simpa using hrest x hx).symm
    _ = (l.filter fun x => lo ≤ key x).filter (fun x => key a < key x) := by rw [h]
    _ = l.filter (fun x => key a < key x) := by
        rw [List.filter_filter]
        refine List.filter_congr fun x _ => ?_
        by_cases hx : key a < key x
        · simp [hx, hlo.trans hx.le]
        · simp [hx]

end SortedBy
