import Mathlib.Data.List.Nodup
import Mathlib.Logic.Relation

/-!
# Topological sorting by depth-first search

A search that keeps a stack of elements to visit. An element that is met for the first time is
put back below the elements it requires; when it is met again, these have been listed, and it is
listed itself.

* `Ordered` — every element of a list comes after the elements it requires.
* `DepthFirst` — the invariant of the search, with a lemma for each kind of step, and
  `DepthFirst.complete` for the end.
-/

namespace TopoSort

variable {α : Type*} {requires : α → List α}

/-- Every element of the list comes after the elements it requires. -/
inductive Ordered (requires : α → List α) : List α → Prop
  | nil : Ordered requires []
  | concat {l : List α} {a : α} : Ordered requires l → requires a ⊆ l → Ordered requires (l ++ [a])

namespace Ordered

theorem subset_of_eq_append {l before after : List α} {a : α} (h : Ordered requires l)
    (heq : l = before ++ a :: after) : requires a ⊆ before := by
  induction h generalizing after with
  | nil => simp at heq
  | @concat l b hl hb ih =>
    obtain rfl | ⟨after', last, rfl⟩ := after.eq_nil_or_concat
    · obtain ⟨rfl, hlast⟩ := List.append_inj' heq rfl
      obtain rfl : b = a := by simpa using hlast
      exact hb
    · have heq' : l ++ [b] = (before ++ a :: after') ++ [last] := by simpa using heq
      exact ih (List.append_inj' heq' rfl).1

/-- An ordered list holds everything that its elements require, directly or not. -/
theorem mem_of_reaches {l : List α} (h : Ordered requires l) {a b : α} (ha : a ∈ l)
    (hab : Relation.ReflTransGen (fun a b => b ∈ requires a) a b) : b ∈ l := by
  induction hab with
  | refl => exact ha
  | tail _ hrequires ih =>
    obtain ⟨before, after, rfl⟩ := List.append_of_mem ih
    exact List.mem_append_left _ (h.subset_of_eq_append rfl hrequires)

end Ordered

/-- The invariant of a depth-first search from `roots`. The requirements are acyclic: they
decrease `rank`. -/
structure DepthFirst (requires : α → List α) (rank : α → Nat) (roots stack seen result : List α) :
    Prop where
  nodup : result.Nodup
  ordered : Ordered requires result
  /-- An element that is seen but not listed waits in the stack, below what it still requires. -/
  waiting : ∀ a ∈ seen, a ∉ result → ∃ above below, stack = above ++ a :: below ∧
    (∀ b ∈ above, rank b < rank a) ∧ ∀ b ∈ requires a, b ∈ result ∨ b ∈ above
  roots_mem : ∀ a ∈ roots, a ∈ stack ∨ a ∈ result
  reached : ∀ a, a ∈ stack ∨ a ∈ result →
    ∃ root ∈ roots, Relation.ReflTransGen (fun a b => b ∈ requires a) root a

namespace DepthFirst

variable {rank : α → Nat} {roots stack seen result : List α} {a : α}

theorem start {stack : List α} (hstack : ∀ a, a ∈ stack ↔ a ∈ roots) :
    DepthFirst requires rank roots stack [] [] where
  nodup := .nil
  ordered := .nil
  waiting := by simp
  roots_mem a ha := .inl ((hstack a).mpr ha)
  reached a ha := ⟨a, by simpa [hstack] using ha, .refl⟩

/-- Another element that waits is further down in the stack. -/
theorem waiting_below (h : DepthFirst requires rank roots (a :: stack) seen result) {b : α}
    (hseen : b ∈ seen) (hresult : b ∉ result) (hne : b ≠ a) :
    ∃ above below, stack = above ++ b :: below ∧ rank a < rank b ∧
      (∀ c ∈ above, rank c < rank b) ∧ ∀ c ∈ requires b, c ∈ result ∨ c = a ∨ c ∈ above := by
  obtain ⟨above, below, hstack, hrank, hrequires⟩ := h.waiting b hseen hresult
  cases above with
  | nil => exact absurd (List.cons.inj hstack).1.symm hne
  | cons top above =>
    obtain ⟨rfl, rfl⟩ := List.cons.inj hstack
    rw [List.forall_mem_cons] at hrank
    exact ⟨above, below, rfl, hrank.1, hrank.2, fun c hc => by simpa using hrequires c hc⟩

/-- The top of the stack has been listed already. -/
theorem skip (h : DepthFirst requires rank roots (a :: stack) seen result) (ha : a ∈ result) :
    DepthFirst requires rank roots stack seen result where
  nodup := h.nodup
  ordered := h.ordered
  waiting b hseen hresult := by
    obtain ⟨above, below, hstack, -, hrank, hrequires⟩ :=
      h.waiting_below hseen hresult fun heq => hresult (heq ▸ ha)
    refine ⟨above, below, hstack, hrank, fun c hc => ?_⟩
    obtain hc | rfl | hc := hrequires c hc
    exacts [.inl hc, .inl ha, .inr hc]
  roots_mem b hb := by
    obtain hb | hb := h.roots_mem b hb
    · obtain rfl | hb := List.mem_cons.mp hb
      exacts [.inr ha, .inl hb]
    · exact .inr hb
  reached b hb := h.reached b (hb.imp_left (List.mem_cons_of_mem a))

/-- The top of the stack is met for the second time: what it requires has been listed. -/
theorem finish (h : DepthFirst requires rank roots (a :: stack) seen result) (hseen : a ∈ seen)
    (hresult : a ∉ result) : DepthFirst requires rank roots stack seen (result ++ [a]) where
  nodup := List.nodup_append.mpr ⟨h.nodup, List.nodup_singleton a, by
    intro b hb c hc heq
    rw [List.mem_singleton.mp hc] at heq
    exact hresult (heq ▸ hb)⟩
  ordered := by
    refine h.ordered.concat fun b hb => ?_
    -- Nothing can stand above it, since it is at the top itself.
    obtain ⟨above, below, hstack, hrank, hrequires⟩ := h.waiting a hseen hresult
    cases above with
    | nil => exact (hrequires b hb).resolve_right List.not_mem_nil
    | cons top above =>
      obtain rfl : a = top := (List.cons.inj hstack).1
      exact absurd (hrank a List.mem_cons_self) (Nat.lt_irrefl _)
  waiting b hseen' hresult' := by
    rw [List.mem_append, List.mem_singleton, not_or] at hresult'
    obtain ⟨above, below, hstack, -, hrank, hrequires⟩ :=
      h.waiting_below hseen' hresult'.1 hresult'.2
    refine ⟨above, below, hstack, hrank, fun c hc => ?_⟩
    rw [List.mem_append, List.mem_singleton, or_assoc]
    exact hrequires c hc
  roots_mem b hb := by
    have := h.roots_mem b hb
    rw [List.mem_cons] at this
    rw [List.mem_append, List.mem_singleton]
    tauto
  reached b hb := by
    refine h.reached b ?_
    rw [List.mem_append, List.mem_singleton] at hb
    rw [List.mem_cons]
    tauto

/-- The top of the stack is met for the first time. -/
theorem visit [DecidableEq α] (hacyclic : ∀ b ∈ requires a, rank b < rank a)
    (h : DepthFirst requires rank roots (a :: stack) seen result) (hseen : a ∉ seen) :
    DepthFirst requires rank roots ((requires a).filter (· ∉ a :: seen) ++ a :: stack) (a :: seen)
      result where
  nodup := h.nodup
  ordered := h.ordered
  waiting b hb hresult := by
    obtain rfl | hb := List.mem_cons.mp hb
    · refine ⟨_, stack, rfl, fun c hc => hacyclic c (List.mem_filter.mp hc).1, fun c hc => ?_⟩
      by_cases hmem : c ∈ b :: seen
      · -- A requirement that waits itself would stand below, so that the ranks form a cycle.
        refine .inl (by_contra fun hc' => ?_)
        obtain rfl | hseen' := List.mem_cons.mp hmem
        · exact Nat.lt_irrefl _ (hacyclic c hc)
        · obtain ⟨-, -, -, hlt, -⟩ := h.waiting_below hseen' hc' fun heq => hseen (heq ▸ hseen')
          exact Nat.lt_asymm hlt (hacyclic c hc)
      · exact .inr (List.mem_filter.mpr ⟨hc, by simpa using hmem⟩)
    · obtain ⟨above, below, rfl, hlt, hrank, hrequires⟩ :=
        h.waiting_below hb hresult fun heq => hseen (heq ▸ hb)
      refine ⟨(requires a).filter (· ∉ a :: seen) ++ a :: above, below, by simp, ?_, ?_⟩
      · intro c hc
        obtain hc | hc := List.mem_append.mp hc
        · exact Nat.lt_trans (hacyclic c (List.mem_filter.mp hc).1) hlt
        · obtain rfl | hc := List.mem_cons.mp hc
          exacts [hlt, hrank c hc]
      · intro c hc
        refine (hrequires c hc).imp_right fun hc => List.mem_append_right _ ?_
        exact List.mem_cons.mpr hc
  roots_mem b hb := (h.roots_mem b hb).imp_left (List.mem_append_right _)
  reached b hb := by
    obtain hb | hb := hb
    · obtain hb | hb := List.mem_append.mp hb
      · obtain ⟨root, hroot, hreach⟩ := h.reached a (.inl List.mem_cons_self)
        exact ⟨root, hroot, hreach.tail (List.mem_filter.mp hb).1⟩
      · exact h.reached b (.inl hb)
    · exact h.reached b (.inr hb)

/-- Once the stack is empty, what is listed is what the roots require, directly or not. -/
theorem complete (h : DepthFirst requires rank roots [] seen result) : a ∈ result ↔
    ∃ root ∈ roots, Relation.ReflTransGen (fun a b => b ∈ requires a) root a := by
  constructor
  · intro ha
    exact h.reached a (.inr ha)
  · rintro ⟨root, hroot, hreach⟩
    exact h.ordered.mem_of_reaches ((h.roots_mem root hroot).resolve_left List.not_mem_nil) hreach

end DepthFirst

end TopoSort
