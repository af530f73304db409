import Mathlib

/-!
# Byte strings in lexicographic order

Byte strings are lists of `UInt8`, ordered lexicographically as `Vec<u8>` is.
The lemmas here are the ones a sorted key space needs: how the order behaves
under a common prefix, and that the keys with a given prefix lie next to each
other, with the prefix itself as their lower bound.
-/

instance Bytes.instLinearOrderUInt8 : LinearOrder UInt8 where
  le_refl := UInt8.le_refl
  le_trans _ _ _ := UInt8.le_trans
  le_antisymm _ _ := UInt8.le_antisymm
  le_total := UInt8.le_total
  lt_iff_le_not_ge a b := by
    rw [UInt8.not_le]
    exact ⟨fun h => ⟨UInt8.le_of_lt h, h⟩, fun h => h.2⟩
  toDecidableLE := inferInstance
  toDecidableEq := inferInstance
  toDecidableLT := inferInstance

abbrev Bytes := List UInt8

namespace Bytes

theorem append_lt_append_left_iff (p a b : Bytes) : p ++ a < p ++ b ↔ a < b := by
  induction p with
  | nil => simp
  | cons x p ih => simp [ih]

theorem append_le_append_left_iff (p a b : Bytes) : p ++ a ≤ p ++ b ↔ a ≤ b := by
  rw [← not_lt, ← not_lt, append_lt_append_left_iff]

theorem nil_le (k : Bytes) : [] ≤ k := by
  rw [← not_lt]
  exact List.not_lt_nil k

theorem cons_le_cons_iff {a b : UInt8} {k l : Bytes} : a :: k ≤ b :: l ↔ a < b ∨ a = b ∧ k ≤ l := by
  rw [← not_lt, ← not_lt, List.cons_lt_cons_iff]
  constructor
  · intro h
    rcases lt_trichotomy a b with hab | hab | hab
    · exact .inl hab
    · exact .inr ⟨hab, fun hlt => h (.inr ⟨hab.symm, hlt⟩)⟩
    · exact absurd (.inl hab) h
  · rintro (hab | ⟨rfl, hkl⟩) (hba | ⟨hba, hlk⟩)
    · exact absurd hab hba.asymm
    · exact absurd hab (hba ▸ lt_irrefl _)
    · exact absurd hba (lt_irrefl _)
    · exact hkl hlk

/-- A prefix is a lower bound. -/
theorem le_of_isPrefix {p k : Bytes} (h : p <+: k) : p ≤ k := by
  obtain ⟨s, rfl⟩ := h
  simpa using (append_le_append_left_iff p [] s).mpr (nil_le s)

/-- The keys with prefix `p` are next to each other: a key between `p` and one of them has the
prefix too. -/
theorem isPrefix_of_le_of_le {p k l : Bytes} (hpk : p ≤ k) (hkl : k ≤ l) (h : p <+: l) :
    p <+: k := by
  induction p generalizing k l with
  | nil => exact List.nil_prefix
  | cons a p ih =>
    obtain ⟨s, rfl⟩ := h
    cases k with
    | nil => exact absurd hpk (not_le.mpr (by simp))
    | cons b k =>
      rw [List.cons_append, cons_le_cons_iff] at hkl
      rw [cons_le_cons_iff] at hpk
      rcases hpk with hab | ⟨rfl, hpk⟩
      · rcases hkl with hba | ⟨rfl, -⟩
        · exact absurd hab hba.asymm
        · exact absurd hab (lt_irrefl _)
      · rcases hkl with hlt | ⟨-, hkl⟩
        · exact absurd hlt (lt_irrefl _)
        · exact List.cons_prefix_cons.mpr ⟨rfl, ih hpk hkl (List.prefix_append p s)⟩

/-- Byte strings that differ before either of them ends stay in order when they are extended. -/
theorem append_lt_append_of_lt {k l : Bytes} (hlt : k < l) (hpre : ¬k <+: l) (a b : Bytes) :
    k ++ a < l ++ b := by
  induction k generalizing l with
  | nil => exact absurd List.nil_prefix hpre
  | cons x k ih =>
    cases l with
    | nil => exact absurd hlt (List.not_lt_nil _)
    | cons y l =>
      rw [List.cons_append, List.cons_append, List.cons_lt_cons_iff]
      rcases List.cons_lt_cons_iff.mp hlt with hxy | ⟨rfl, hkl⟩
      · exact .inl hxy
      · exact .inr ⟨rfl, ih hkl fun h => hpre ((List.prefix_cons_inj x).mpr h)⟩

/-- Byte strings of one length compare as their fronts do, and then as their last bytes. -/
theorem append_singleton_lt_iff {k l : Bytes} (hlength : k.length = l.length) (a b : UInt8) :
    k ++ [a] < l ++ [b] ↔ k < l ∨ k = l ∧ a < b := by
  induction k generalizing l with
  | nil =>
    obtain rfl : l = [] := List.length_eq_zero_iff.mp hlength.symm
    simp [List.cons_lt_cons_iff]
  | cons x k ih =>
    cases l with
    | nil => cases hlength
    | cons y l =>
      rw [List.cons_append, List.cons_append, List.cons_lt_cons_iff, List.cons_lt_cons_iff,
        ih (Nat.succ_inj.mp hlength), List.cons.injEq]
      tauto

end Bytes
