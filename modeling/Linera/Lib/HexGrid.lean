import Mathlib.Logic.Relation
import Mathlib.Tactic.Tauto

/-!
# Chains on a hexagonal grid

The cells of a hexagonal grid have two coordinates; a cell has six neighbours. A set of cells
joins two of its cells if a chain of neighbours inside the set leads from one to the other.

* `exists_linked_sides` — if the cells of a triangle have two colours, then one of the colours
  joins all three sides. A triangle is reduced to the next smaller one by giving each three
  mutually adjacent cells the colour that at least two of them have; chains of the smaller
  triangle come from chains of the larger one.
* `exists_linked_edges` — if the cells of a rhombus have two colours, then the first colour
  joins one pair of opposite edges, or the second colour joins the other pair. A rhombus is part
  of a triangle whose other cells continue two of its edges.
-/

namespace HexGrid

def Adjacent (p q : Nat × Nat) : Prop :=
  p.1 = q.1 ∧ (p.2 + 1 = q.2 ∨ q.2 + 1 = p.2) ∨
  p.2 = q.2 ∧ (p.1 + 1 = q.1 ∨ q.1 + 1 = p.1) ∨
  p.1 + 1 = q.1 ∧ q.2 + 1 = p.2 ∨ q.1 + 1 = p.1 ∧ p.2 + 1 = q.2

theorem Adjacent.symm {p q : Nat × Nat} (h : Adjacent p q) : Adjacent q p := by
  unfold Adjacent at *
  omega

/-- Whether a chain of neighbours inside `s` leads from `p` to `q`. -/
def Linked (s : Nat × Nat → Prop) (p q : Nat × Nat) : Prop :=
  s p ∧ Relation.ReflTransGen (fun a b => Adjacent a b ∧ s a ∧ s b) p q

namespace Linked

variable {s t : Nat × Nat → Prop} {p q r : Nat × Nat}

theorem refl (h : s p) : Linked s p p := ⟨h, .refl⟩

theorem right (h : Linked s p q) : s q := by
  obtain ⟨hp, hpq⟩ := h
  cases hpq with
  | refl => exact hp
  | tail _ hstep => exact hstep.2.2

theorem tail (h : Linked s p q) (hqr : Adjacent q r) (hr : s r) : Linked s p r :=
  ⟨h.1, h.2.tail ⟨hqr, h.right, hr⟩⟩

theorem trans (h : Linked s p q) (h' : Linked s q r) : Linked s p r := ⟨h.1, h.2.trans h'.2⟩

theorem of_eq_or_adjacent (hp : s p) (hq : s q) (h : p = q ∨ Adjacent p q) : Linked s p q := by
  obtain rfl | h := h
  · exact refl hp
  · exact (refl hp).tail h hq

/-- What holds at the start of a chain and is passed on to neighbours holds at its end. -/
theorem induct {P : Nat × Nat → Prop} (h : Linked s p q) (hp : P p)
    (hstep : ∀ a b, Adjacent a b → s a → s b → P a → P b) : P q := by
  obtain ⟨-, hpq⟩ := h
  induction hpq with
  | refl => exact hp
  | tail _ hab ih => exact hstep _ _ hab.1 hab.2.1 hab.2.2 ih

theorem symm (h : Linked s p q) : Linked s q p :=
  h.induct (P := (Linked s · p)) (refl h.1) fun _ _ hab ha hb ih =>
    ((refl hb).tail hab.symm ha).trans ih

theorem mono (h : Linked s p q) (hst : ∀ a, s a → t a) : Linked t p q :=
  h.induct (refl (hst p h.1)) fun _ b hab _ hb ih => ih.tail hab (hst b hb)

/-- A chain along which a measure grows by at most one at a time takes every value between, and
until then stays below it. -/
theorem exists_first {f : Nat × Nat → Nat} {m : Nat} (h : Linked s p q)
    (hf : ∀ a b, Adjacent a b → f b ≤ f a + 1) (hp : f p ≤ m) (hq : m ≤ f q) :
    ∃ r, f r = m ∧ Linked (fun a => s a ∧ f a ≤ m) p r := by
  have hreach : (∃ r, f r = m ∧ Linked (fun a => s a ∧ f a ≤ m) p r) ∨
      Linked (fun a => s a ∧ f a ≤ m) p q := by
    refine h.induct (P := fun q => _ ∨ Linked _ p q) (.inr (refl ⟨h.1, hp⟩))
      fun a b hab _ hb ih => ?_
    obtain hr | ha := ih
    · exact .inl hr
    · by_cases ham : f a = m
      · exact .inl ⟨a, ham, ha⟩
      · have := ha.right.2
        have := hf a b hab
        exact .inr (ha.tail hab ⟨hb, by omega⟩)
  obtain hr | hr := hreach
  · exact hr
  · exact ⟨q, Nat.le_antisymm hr.right.2 hq, hr⟩

end Linked

/-! ## Triangles -/

variable {colour : Nat × Nat → Bool} {c : Bool} {n : Nat} {p q u v : Nat × Nat}

/-- The cells of one colour in a triangle with `n` cells on each side. -/
def Coloured (n : Nat) (colour : Nat × Nat → Bool) (c : Bool) (p : Nat × Nat) : Prop :=
  p.1 + p.2 < n ∧ colour p = c

/-- The three mutually adjacent cells that `p` stands for in the next smaller triangle. -/
def Corner (p q : Nat × Nat) : Prop := q = p ∨ q = (p.1 + 1, p.2) ∨ q = (p.1, p.2 + 1)

/-- The colour of at least two of the three cells. -/
def majority (colour : Nat × Nat → Bool) (p : Nat × Nat) : Bool :=
  if colour p = colour (p.1 + 1, p.2) then colour p else colour (p.1, p.2 + 1)

theorem two_of_majority (h : majority colour p = c) :
    colour p = c ∧ colour (p.1 + 1, p.2) = c ∨ colour p = c ∧ colour (p.1, p.2 + 1) = c ∨
      colour (p.1 + 1, p.2) = c ∧ colour (p.1, p.2 + 1) = c := by
  unfold majority at h
  revert h
  generalize colour p = a
  generalize colour (p.1 + 1, p.2) = b
  generalize colour (p.1, p.2 + 1) = d
  revert a b c d
  decide

theorem Corner.eq_or_adjacent (hu : Corner p u) (hv : Corner p v) : u = v ∨ Adjacent u v := by
  obtain rfl | rfl | rfl := hu <;> obtain rfl | rfl | rfl := hv <;> simp [Adjacent]

theorem Corner.coloured (hp : Coloured n (majority colour) c p) (hu : Corner p u)
    (h : colour u = c) : Coloured (n + 1) colour c u := by
  have := hp.1
  obtain rfl | rfl | rfl := hu <;> exact ⟨by omega, h⟩

/-- Neighbours of the smaller triangle have corners of their colour that are the same cell or
neighbours. Here the second one is right of the first one, above it, or below to the right. -/
theorem exists_corners_of_forward (hp : majority colour p = c) (hq : majority colour q = c)
    (h : q = (p.1 + 1, p.2) ∨ q = (p.1, p.2 + 1) ∨ q.1 = p.1 + 1 ∧ q.2 + 1 = p.2) :
    ∃ u v, Corner p u ∧ Corner q v ∧ colour u = c ∧ colour v = c ∧ (u = v ∨ Adjacent u v) := by
  obtain ⟨x, y⟩ := p
  obtain ⟨x', y'⟩ := q
  have hp := two_of_majority hp
  have hq := two_of_majority hq
  simp only [Prod.mk.injEq] at h hp hq
  -- the two triangles of cells have one cell in common
  obtain ⟨rfl, rfl⟩ | ⟨rfl, rfl⟩ | ⟨rfl, rfl⟩ := h
  · by_cases hshared : colour (x + 1, y') = c
    · exact ⟨(x + 1, y'), (x + 1, y'), by simp [Corner], by simp [Corner], hshared, hshared, .inl rfl⟩
    · exact ⟨(x, y' + 1), (x + 1, y' + 1), by simp [Corner], by simp [Corner], by tauto, by tauto,
        .inr (by simp [Adjacent])⟩
  · by_cases hshared : colour (x', y + 1) = c
    · exact ⟨(x', y + 1), (x', y + 1), by simp [Corner], by simp [Corner], hshared, hshared, .inl rfl⟩
    · exact ⟨(x' + 1, y), (x' + 1, y + 1), by simp [Corner], by simp [Corner], by tauto, by tauto,
        .inr (by simp [Adjacent])⟩
  · by_cases hshared : colour (x + 1, y' + 1) = c
    · exact ⟨(x + 1, y' + 1), (x + 1, y' + 1), by simp [Corner], by simp [Corner], hshared, hshared,
        .inl rfl⟩
    · exact ⟨(x, y' + 1), (x + 1, y'), by simp [Corner], by simp [Corner], by tauto, by tauto,
        .inr (by simp [Adjacent])⟩

theorem exists_corners (hp : majority colour p = c) (hq : majority colour q = c)
    (h : Adjacent p q) :
    ∃ u v, Corner p u ∧ Corner q v ∧ colour u = c ∧ colour v = c ∧ (u = v ∨ Adjacent u v) := by
  have hcases : (q = (p.1 + 1, p.2) ∨ q = (p.1, p.2 + 1) ∨ q.1 = p.1 + 1 ∧ q.2 + 1 = p.2) ∨
      (p = (q.1 + 1, q.2) ∨ p = (q.1, q.2 + 1) ∨ p.1 = q.1 + 1 ∧ p.2 + 1 = q.2) := by
    simp only [Prod.ext_iff]
    unfold Adjacent at h
    omega
  obtain h | h := hcases
  · exact exists_corners_of_forward hp hq h
  · obtain ⟨v, u, hv, hu, hcv, hcu, huv⟩ := exists_corners_of_forward hq hp h
    exact ⟨u, v, hu, hv, hcu, hcv, huv.imp Eq.symm Adjacent.symm⟩

/-- Chains of the smaller triangle come from chains of the larger one. -/
theorem Linked.of_majority (h : Linked (Coloured n (majority colour) c) p q) (hu : Corner p u)
    (hcu : colour u = c) (hv : Corner q v) (hcv : colour v = c) :
    Linked (Coloured (n + 1) colour c) u v := by
  have hend : ∀ v, Corner q v → colour v = c → Linked (Coloured (n + 1) colour c) u v := by
    refine h.induct (P := fun q => ∀ v, Corner q v → colour v = c → Linked _ u v)
      (fun v hv hcv => ?_) fun a b hab ha hb ih v hv hcv => ?_
    · exact of_eq_or_adjacent (hu.coloured h.1 hcu) (hv.coloured h.1 hcv) (hu.eq_or_adjacent hv)
    · obtain ⟨a', b', ha', hb', hca, hcb, hab'⟩ := exists_corners ha.2 hb.2 hab
      have hstep : Linked (Coloured (n + 1) colour c) a' b' :=
        of_eq_or_adjacent (ha'.coloured ha hca) (hb'.coloured hb hcb) hab'
      have hlast : Linked (Coloured (n + 1) colour c) b' v :=
        of_eq_or_adjacent (hb'.coloured hb hcb) (hv.coloured hb hcv) (hb'.eq_or_adjacent hv)
      exact ((ih a' ha' hca).trans hstep).trans hlast
  exact hend v hv hcv

theorem exists_corner_left (h : majority colour p = c) (hp : p.1 = 0) :
    ∃ u, Corner p u ∧ colour u = c ∧ u.1 = 0 := by
  obtain ⟨h, -⟩ | ⟨h, -⟩ | ⟨-, h⟩ := two_of_majority h
  · exact ⟨p, .inl rfl, h, hp⟩
  · exact ⟨p, .inl rfl, h, hp⟩
  · exact ⟨_, .inr (.inr rfl), h, hp⟩

theorem exists_corner_bottom (h : majority colour p = c) (hp : p.2 = 0) :
    ∃ u, Corner p u ∧ colour u = c ∧ u.2 = 0 := by
  obtain ⟨h, -⟩ | ⟨h, -⟩ | ⟨h, -⟩ := two_of_majority h
  · exact ⟨p, .inl rfl, h, hp⟩
  · exact ⟨p, .inl rfl, h, hp⟩
  · exact ⟨_, .inr (.inl rfl), h, hp⟩

theorem exists_corner_diagonal (h : majority colour p = c) (hp : p.1 + p.2 = n) :
    ∃ u, Corner p u ∧ colour u = c ∧ u.1 + u.2 = n + 1 := by
  obtain ⟨-, h⟩ | ⟨-, h⟩ | ⟨h, -⟩ := two_of_majority h
  · exact ⟨_, .inr (.inl rfl), h, by dsimp only; omega⟩
  · exact ⟨_, .inr (.inr rfl), h, by dsimp only; omega⟩
  · exact ⟨_, .inr (.inl rfl), h, by dsimp only; omega⟩

theorem exists_linked_sides (n : Nat) (colour : Nat × Nat → Bool) :
    ∃ (c : Bool) (a b d : Nat × Nat), a.1 = 0 ∧ b.2 = 0 ∧ d.1 + d.2 = n ∧
      Linked (Coloured (n + 1) colour c) a b ∧ Linked (Coloured (n + 1) colour c) a d := by
  induction n generalizing colour with
  | zero =>
    have h : Coloured 1 colour (colour (0, 0)) (0, 0) := ⟨Nat.zero_lt_one, rfl⟩
    exact ⟨_, (0, 0), (0, 0), (0, 0), rfl, rfl, rfl, .refl h, .refl h⟩
  | succ n ih =>
    obtain ⟨c, a, b, d, ha, hb, hd, hab, had⟩ := ih (majority colour)
    obtain ⟨a', haa, hca, ha'⟩ := exists_corner_left hab.1.2 ha
    obtain ⟨b', hbb, hcb, hb'⟩ := exists_corner_bottom hab.right.2 hb
    obtain ⟨d', hdd, hcd, hd'⟩ := exists_corner_diagonal had.right.2 hd
    exact ⟨c, a', b', d', ha', hb', hd', hab.of_majority haa hca hbb hcb,
      had.of_majority haa hca hdd hcd⟩

/-! ## Rhombuses -/

/-- The cells of one colour in a rhombus with `n` cells on each edge. -/
def InRhombus (n : Nat) (colour : Nat × Nat → Bool) (c : Bool) (p : Nat × Nat) : Prop :=
  p.1 < n ∧ p.2 < n ∧ colour p = c

/-- The cells right of the rhombus have the first colour and those above it the second. -/
def continued (n : Nat) (colour : Nat × Nat → Bool) (p : Nat × Nat) : Bool :=
  if n ≤ p.1 then true else if n ≤ p.2 then false else colour p

theorem continued_eq_true : continued n colour p = true ↔
    n ≤ p.1 ∨ p.1 < n ∧ p.2 < n ∧ colour p = true := by
  grind [continued]

theorem continued_eq_false : continued n colour p = false ↔
    p.1 < n ∧ (n ≤ p.2 ∨ p.2 < n ∧ colour p = false) := by
  grind [continued]

theorem exists_linked_edges {n : Nat} (hn : 0 < n) (colour : Nat × Nat → Bool) :
    (∃ a d, a.1 = 0 ∧ d.1 + 1 = n ∧ Linked (InRhombus n colour true) a d) ∨
      ∃ a d, a.2 = 0 ∧ d.2 + 1 = n ∧ Linked (InRhombus n colour false) a d := by
  obtain ⟨m, rfl⟩ : ∃ m, n = m + 1 := ⟨n - 1, by omega⟩
  obtain ⟨c, a, b, d, ha, hb, hd, hab, had⟩ := exists_linked_sides (2 * m) (continued (m + 1) colour)
  cases c with
  | true =>
    have hdm : m ≤ d.1 := by
      have := continued_eq_true.mp had.right.2
      omega
    obtain ⟨r, hr, har⟩ := had.exists_first (f := Prod.fst)
      (fun a b h => by unfold Adjacent at h; omega) (by omega) hdm
    refine .inl ⟨a, r, ha, by omega, har.mono fun p hp => ?_⟩
    have hp1 := hp.2
    obtain h | h := continued_eq_true.mp hp.1.2
    · omega
    · exact h
  | false =>
    have hdm : m ≤ d.2 := by
      have := continued_eq_false.mp had.right.2
      omega
    obtain ⟨r, hr, hbr⟩ := (hab.symm.trans had).exists_first (f := Prod.snd)
      (fun a b h => by unfold Adjacent at h; omega) (by omega) hdm
    refine .inr ⟨b, r, hb, by omega, hbr.mono fun p hp => ?_⟩
    have hp2 := hp.2
    obtain ⟨h1, h | h⟩ := continued_eq_false.mp hp.1.2
    · omega
    · exact ⟨h1, h⟩

end HexGrid
