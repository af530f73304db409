import Linera.Lib.HexGrid
import Mathlib.Data.List.Basic

/-!
# The board of a Hex game

Player one joins the left edge of the board to the right one, player two the top edge to the
bottom one. Each cell has a flag which says whether its stone is joined to its player's first
edge; a move updates the flags with a depth-first search, and the winner is read off them.

* `Board.Exact` — the flags say what they are meant to, and at most one player has a chain.
* `Searching` — what holds while the flags are updated; `Searching.step` is one round.
* `decided_correctly` — after any moves the flags and the winner are right.
* `never_a_draw` — while nobody has won, there is an empty cell to play on.
-/

namespace Linera.Hex

open HexGrid

inductive Player where
  | one
  | two
deriving DecidableEq

def Player.other : Player → Player
  | one => two
  | two => one

structure Cell where
  stone : Option Player := none
  connected : Bool := false
deriving DecidableEq

def Cell.isConnected (cell : Cell) (player : Player) : Bool :=
  cell.connected && cell.stone == some player

structure Board where
  /-- The cells, row by row. -/
  cells : List Cell
  size : Nat
  active : Player
deriving DecidableEq

inductive HexOutcome where
  | winner (player : Player)
  | ok
deriving DecidableEq

/-- The failed assertions of a move. -/
inductive MoveError where
  | gameHasEnded
  | invalidCoordinates
  | cellIsNotEmpty
  /-- The search took more rounds than were provided for. -/
  | outOfRounds
deriving DecidableEq

namespace Board

def new (size : Nat) : Board := ⟨List.replicate (size * size) {}, size, .one⟩

def index (b : Board) (p : Nat × Nat) : Nat := p.1 + p.2 * b.size

def cell (b : Board) (p : Nat × Nat) : Cell := b.cells.getD (b.index p) {}

/-- An assignment to the cell, which the source makes through `cell_mut`. -/
def setCell (b : Board) (p : Nat × Nat) (cell : Cell) : Board :=
  { b with cells := b.cells.set (b.index p) cell }

def neighbors (b : Board) (p : Nat × Nat) : List (Nat × Nat) :=
  (if p.1 > 0 then [(p.1 - 1, p.2)] else []) ++
  (if p.2 > 0 then [(p.1, p.2 - 1)] else []) ++
  (if p.1 + 1 < b.size then [(p.1 + 1, p.2)] else []) ++
  (if p.2 + 1 < b.size then [(p.1, p.2 + 1)] else []) ++
  (if p.1 + 1 < b.size ∧ p.2 > 0 then [(p.1 + 1, p.2 - 1)] else []) ++
  (if p.2 + 1 < b.size ∧ p.1 > 0 then [(p.1 - 1, p.2 + 1)] else [])

def winner (b : Board) : Option Player :=
  (List.range b.size).findSome? fun i =>
    if (b.cell (b.size - 1, i)).isConnected .one then some .one
    else if (b.cell (i, b.size - 1)).isConnected .two then some .two
    else none

/-- The neighbours that the search still has to visit. -/
def unvisited (b : Board) (player : Player) (p : Nat × Nat) : List (Nat × Nat) :=
  (b.neighbors p).filter fun q => !(b.cell q).connected && (b.cell q).stone == some player

def visit (b : Board) (p : Nat × Nat) : Board := b.setCell p { b.cell p with connected := true }

/-- The loop of `place_stone`, with the top of the stack first. -/
def connect (player : Player) : Nat → Board → List (Nat × Nat) → Option Board
  | _, b, [] => some b
  | 0, _, _ :: _ => none
  | rounds + 1, b, p :: stack =>
    connect player rounds (b.visit p) (((b.visit p).unvisited player p).reverse ++ stack)

/-- The board with the active player's stone on a cell, before any flags are updated. -/
def withStone (b : Board) (p : Nat × Nat) : Board :=
  { b.setCell p { b.cell p with stone := some b.active } with active := b.active.other }

/-- Whether the new stone is joined to the first edge. -/
def joins (b : Board) (player : Player) (p : Nat × Nat) : Bool :=
  (p.1 == 0 && player == .one) || (p.2 == 0 && player == .two) ||
    (b.neighbors p).any fun q => (b.cell q).isConnected player

def placeStone (b : Board) (p : Nat × Nat) : Option Board :=
  if (b.withStone p).joins b.active p then
    connect b.active (6 * (b.size * b.size) + 1) (b.withStone p) [p]
  else some (b.withStone p)

def makeMove (b : Board) (p : Nat × Nat) : Except MoveError (Board × HexOutcome) :=
  if b.winner ≠ none then .error .gameHasEnded
  else if ¬(p.1 < b.size ∧ p.2 < b.size) then .error .invalidCoordinates
  else if (b.cell p).stone ≠ none then .error .cellIsNotEmpty
  else
    match b.placeStone p with
    | none => .error .outOfRounds
    | some b =>
      match b.winner with
      | some winner => .ok (b, .winner winner)
      | none => .ok (b, .ok)

/-- A sequence of successful moves. -/
def makeMoves (b : Board) : List (Nat × Nat) → Except MoveError Board
  | [] => .ok b
  | p :: moves => do
    let (b, _) ← b.makeMove p
    makeMoves b moves

/-! ## Chains of stones -/

/-- The cells with a player's stones. -/
def Holds (b : Board) (player : Player) (p : Nat × Nat) : Prop :=
  p.1 < b.size ∧ p.2 < b.size ∧ (b.cell p).stone = some player

/-- The left edge for player one, the top edge for player two. -/
def FirstEdge : Player → Nat × Nat → Prop
  | .one, p => p.1 = 0
  | .two, p => p.2 = 0

/-- The edge opposite to the first one. -/
def LastEdge (b : Board) : Player → Nat × Nat → Prop
  | .one, p => p.1 + 1 = b.size
  | .two, p => p.2 + 1 = b.size

/-- Whether a player's stone is joined to the first edge. -/
def Reached (b : Board) (player : Player) (p : Nat × Nat) : Prop :=
  ∃ e, FirstEdge player e ∧ Linked (b.Holds player) e p

/-- Whether a player's stones join the two edges. -/
def HasChain (b : Board) (player : Player) : Prop :=
  ∃ p, b.LastEdge player p ∧ b.Reached player p

structure Exact (b : Board) : Prop where
  size_pos : 0 < b.size
  length_cells : b.cells.length = b.size * b.size
  connected_iff : ∀ p, p.1 < b.size → p.2 < b.size →
    ((b.cell p).connected = true ↔ ∃ player, b.Reached player p)
  chain_unique : ∀ v w, b.HasChain v → b.HasChain w → v = w

variable {b b' : Board} {player : Player} {p q : Nat × Nat}

theorem Reached.holds (h : b.Reached player p) : b.Holds player p := by
  obtain ⟨e, -, h⟩ := h
  exact h.right

theorem Reached.of_firstEdge (hp : b.Holds player p) (h : FirstEdge player p) :
    b.Reached player p :=
  ⟨p, h, .refl hp⟩

theorem Reached.tail (h : b.Reached player p) (hpq : Adjacent p q) (hq : b.Holds player q) :
    b.Reached player q := by
  obtain ⟨e, he, h⟩ := h
  exact ⟨e, he, h.tail hpq hq⟩

theorem Reached.mono (h : b.Reached player p) (hb : ∀ q, b.Holds player q → b'.Holds player q) :
    b'.Reached player p := by
  obtain ⟨e, he, h⟩ := h
  exact ⟨e, he, h.mono hb⟩

/-- What holds at the first edge and is passed on to neighbours holds for all stones that are
joined to it. -/
theorem Reached.induct {P : Nat × Nat → Prop} (h : b.Reached player p)
    (hedge : ∀ e, b.Holds player e → FirstEdge player e → P e)
    (hstep : ∀ q r, Adjacent q r → b.Holds player r → P q → P r) : P p := by
  obtain ⟨e, he, h⟩ := h
  exact h.induct (hedge e h.1 he) fun q r hqr _ hr ih => hstep q r hqr hr ih

theorem Exact.isConnected_iff (h : b.Exact) (hp : p.1 < b.size ∧ p.2 < b.size) :
    (b.cell p).isConnected player = true ↔ b.Reached player p := by
  simp only [Cell.isConnected, Bool.and_eq_true, beq_iff_eq, h.connected_iff p hp.1 hp.2]
  constructor
  · rintro ⟨⟨player', h'⟩, hstone⟩
    obtain rfl : player' = player := Option.some.inj (h'.holds.2.2.symm.trans hstone)
    exact h'
  · exact fun h' => ⟨⟨player, h'⟩, h'.holds.2.2⟩

/-! ## Cells and neighbours -/

theorem mem_neighbors (hp : p.1 < b.size) (hp' : p.2 < b.size) :
    q ∈ b.neighbors p ↔ Adjacent p q ∧ q.1 < b.size ∧ q.2 < b.size := by
  simp only [neighbors, List.mem_append, List.mem_ite_nil_right, List.mem_singleton, Prod.ext_iff]
  unfold Adjacent
  omega

theorem length_neighbors_le (b : Board) (p : Nat × Nat) : (b.neighbors p).length ≤ 6 := by
  have hone : ∀ (c : Prop) [Decidable c] (q : Nat × Nat), (if c then [q] else []).length ≤ 1 := by
    intro c _ q
    split <;> simp
  simp only [neighbors, List.length_append]
  have h₁ := hone (p.1 > 0) (p.1 - 1, p.2)
  have h₂ := hone (p.2 > 0) (p.1, p.2 - 1)
  have h₃ := hone (p.1 + 1 < b.size) (p.1 + 1, p.2)
  have h₄ := hone (p.2 + 1 < b.size) (p.1, p.2 + 1)
  have h₅ := hone (p.1 + 1 < b.size ∧ p.2 > 0) (p.1 + 1, p.2 - 1)
  have h₆ := hone (p.2 + 1 < b.size ∧ p.1 > 0) (p.1 - 1, p.2 + 1)
  omega

theorem index_lt (hp : p.1 < b.size) (hp' : p.2 < b.size) : b.index p < b.size * b.size := by
  have : (p.2 + 1) * b.size ≤ b.size * b.size := Nat.mul_le_mul_right _ hp'
  rw [Nat.succ_mul] at this
  unfold index
  omega

theorem index_injective (hp : p.1 < b.size) (hq : q.1 < b.size) (h : b.index p = b.index q) :
    p = q := by
  have hpos : 0 < b.size := by omega
  unfold index at h
  have hmod := congrArg (· % b.size) h
  have hdiv := congrArg (· / b.size) h
  simp only [Nat.add_mul_mod_self_right, Nat.add_mul_div_right _ _ hpos, Nat.mod_eq_of_lt hp,
    Nat.mod_eq_of_lt hq, Nat.div_eq_of_lt hp, Nat.div_eq_of_lt hq, Nat.zero_add] at hmod hdiv
  exact Prod.ext hmod hdiv

theorem cell_setCell (hlen : b.cells.length = b.size * b.size) (c : Cell)
    (hp : p.1 < b.size) (hp' : p.2 < b.size) (hq : q.1 < b.size) :
    (b.setCell p c).cell q = if q = p then c else b.cell q := by
  have hi : b.index p < b.cells.length := hlen ▸ index_lt hp hp'
  show ((b.cells.set (b.index p) c)[b.index q]?).getD {} = _
  split
  case isTrue h =>
    subst h
    rw [List.getElem?_set_self hi]
    rfl
  case isFalse h =>
    rw [List.getElem?_set_ne fun hpq => h (index_injective hq hp hpq.symm)]
    rfl

/-! ## Searching -/

/-- What holds while the flags are updated: `start` is the board with the new stone. The stones
stay, and so do the flags of the other player. A stone next to a flagged one has a flag itself, or
is on the stack, above every copy of the flagged one. -/
structure Searching (start : Board) (player : Player) (b : Board) (stack : List (Nat × Nat)) :
    Prop where
  size : b.size = start.size
  active : b.active = start.active
  length_cells : b.cells.length = b.size * b.size
  stone : ∀ p, p.1 < b.size → p.2 < b.size → (b.cell p).stone = (start.cell p).stone
  others : ∀ p, p.1 < b.size → p.2 < b.size → (b.cell p).stone ≠ some player →
    (b.cell p).connected = (start.cell p).connected
  sound : ∀ p, b.Holds player p → (b.cell p).connected = true → b.Reached player p
  stacked : ∀ p ∈ stack, b.Reached player p
  edge : ∀ p, b.Holds player p → FirstEdge player p → (b.cell p).connected = true ∨ p ∈ stack
  next : ∀ p q, b.Holds player p → (b.cell p).connected = true → Adjacent p q →
    b.Holds player q → (b.cell q).connected = false →
      q ∈ stack ∧ ∀ above below, stack = above ++ p :: below → q ∈ above

/-- The number of cells without a flag. -/
def unconnected (b : Board) : Nat := b.cells.countP fun cell => !cell.connected

/-- What follows elements other than `x` in a list with an `x`. -/
theorem exists_eq_append_of_not_mem {α : Type} {x : α} {l m above below : List α} (hx : x ∉ l)
    (h : l ++ m = above ++ x :: below) : ∃ above', above = l ++ above' ∧ m = above' ++ x :: below := by
  obtain ⟨as, rfl, hm⟩ | ⟨bs, rfl, hm⟩ := List.append_eq_append_iff.mp h
  · exact ⟨as, rfl, hm⟩
  · cases bs with
    | nil => exact ⟨[], by simp, hm.symm⟩
    | cons y bs =>
      obtain ⟨rfl, -⟩ := List.cons.inj hm
      simp at hx

section Visit

variable {start : Board} {stack : List (Nat × Nat)}

section

variable (h : Searching start player b (p :: stack))

include h

theorem Searching.cell_visit (hq : q.1 < b.size) :
    (b.visit p).cell q = if q = p then { b.cell p with connected := true } else b.cell q := by
  have hp := (h.stacked p List.mem_cons_self).holds
  exact cell_setCell h.length_cells _ hp.1 hp.2.1 hq

theorem Searching.stone_visit (hq : q.1 < b.size) :
    ((b.visit p).cell q).stone = (b.cell q).stone := by
  rw [h.cell_visit hq]
  split
  case isTrue hqp => rw [hqp]
  case isFalse => rfl

theorem Searching.connected_visit (hq : q.1 < b.size) :
    ((b.visit p).cell q).connected = true ↔ q = p ∨ (b.cell q).connected = true := by
  rw [h.cell_visit hq]
  split
  case isTrue hqp => simp [hqp]
  case isFalse hqp => simp [hqp]

theorem Searching.holds_visit (player' : Player) : (b.visit p).Holds player' = b.Holds player' := by
  funext q
  refine propext (and_congr_right fun hq => and_congr_right fun _ => ?_)
  rw [h.stone_visit hq]

theorem Searching.mem_unvisited : q ∈ (b.visit p).unvisited player p ↔
      Adjacent p q ∧ b.Holds player q ∧ ((b.visit p).cell q).connected = false := by
  have hp := (h.stacked p List.mem_cons_self).holds
  rw [← h.holds_visit]
  simp only [unvisited, List.mem_filter, Bool.and_eq_true, Bool.not_eq_true', beq_iff_eq,
    @mem_neighbors (b.visit p) p q hp.1 hp.2.1, Holds]
  tauto

/-- A cell of the stack that has its flag already adds nothing to the stack. -/
theorem Searching.unvisited_eq_nil (hp : (b.cell p).connected = true) :
    (b.visit p).unvisited player p = [] := by
  refine List.eq_nil_iff_forall_not_mem.mpr fun q hq => ?_
  obtain ⟨hpq, hq, hflag⟩ := h.mem_unvisited.mp hq
  have hflag : (b.cell q).connected = false := by
    have := mt (h.connected_visit hq.1).mpr (by simp [hflag])
    simpa using (not_or.mp this).2
  have hpHolds := (h.stacked p List.mem_cons_self).holds
  exact List.not_mem_nil ((h.next p q hpHolds hp hpq hq hflag).2 [] stack rfl)

theorem Searching.step : Searching start player (b.visit p)
      (((b.visit p).unvisited player p).reverse ++ stack) := by
  have hp := h.stacked p List.mem_cons_self
  have hholds := h.holds_visit player
  have hreached : ∀ q, (b.visit p).Reached player q ↔ b.Reached player q := fun q => by
    unfold Reached
    rw [hholds]
  refine ⟨h.size, h.active, ?_, fun q hq hq' => ?_, fun q hq hq' hne => ?_, fun q hq hflag => ?_,
    fun q hq => ?_, fun q hq hedge => ?_, fun q r hq hflag hqr hr hnot => ?_⟩
  · exact List.length_set.trans h.length_cells
  · exact (h.stone_visit hq).trans (h.stone q hq hq')
  · have hqp : q ≠ p := fun hqp => hne (by rw [h.stone_visit hq, hqp]; exact hp.holds.2.2)
    rw [h.cell_visit hq, if_neg hqp] at hne ⊢
    exact h.others q hq hq' hne
  · rw [hholds] at hq
    rw [hreached]
    obtain rfl | hflag := (h.connected_visit hq.1).mp hflag
    · exact hp
    · exact h.sound q hq hflag
  · rw [hreached]
    obtain hq | hq := List.mem_append.mp hq
    · obtain ⟨hpq, hq, -⟩ := h.mem_unvisited.mp (List.mem_reverse.mp hq)
      exact hp.tail hpq hq
    · exact h.stacked q (List.mem_cons_of_mem _ hq)
  · rw [hholds] at hq
    rw [h.connected_visit hq.1]
    obtain hflag | hmem := h.edge q hq hedge
    · exact .inl (.inr hflag)
    · obtain rfl | hmem := List.mem_cons.mp hmem
      · exact .inl (.inl rfl)
      · exact .inr (List.mem_append_right _ hmem)
  · rw [hholds] at hq hr
    have hnew : p = q → r ∈ ((b.visit p).unvisited player p).reverse := fun hpq =>
      List.mem_reverse.mpr (h.mem_unvisited.mpr ⟨hpq ▸ hqr, hr, hnot⟩)
    have hrp : r ≠ p := fun hrp => by
      simp [(h.connected_visit hr.1).mpr (.inl hrp)] at hnot
    have hnotr : (b.cell r).connected = false := by
      rwa [h.cell_visit hr.1, if_neg hrp] at hnot
    -- the added cells have no flags, so copies of `q` are below them
    have hqnew : q ∉ ((b.visit p).unvisited player p).reverse := fun hmem => by
      rw [(h.mem_unvisited.mp (List.mem_reverse.mp hmem)).2.2] at hflag
      cases hflag
    by_cases hqp : p = q
    · refine ⟨List.mem_append_left _ (hnew hqp), fun above below heq => ?_⟩
      obtain ⟨above', rfl, -⟩ := exists_eq_append_of_not_mem hqnew heq
      exact List.mem_append_left _ (hnew hqp)
    · have hflag : (b.cell q).connected = true :=
        ((h.connected_visit hq.1).mp hflag).resolve_left fun h => hqp h.symm
      obtain ⟨hmem, habove⟩ := h.next q r hq hflag hqr hr hnotr
      refine ⟨List.mem_append_right _ (List.mem_of_ne_of_mem hrp hmem), fun above below heq => ?_⟩
      obtain ⟨above', rfl, hstack⟩ := exists_eq_append_of_not_mem hqnew heq
      have hmem := habove (p :: above') below (congrArg (p :: ·) hstack)
      exact List.mem_append_right _ (List.mem_of_ne_of_mem hrp hmem)

/-- Each round takes a cell from the stack, and adds at most six when it sets a flag. -/
theorem Searching.rounds_step :
    (((b.visit p).unvisited player p).reverse ++ stack).length + 6 * (b.visit p).unconnected <
      (p :: stack).length + 6 * b.unconnected := by
  have hp := (h.stacked p List.mem_cons_self).holds
  have hi : b.index p < b.cells.length := h.length_cells ▸ index_lt hp.1 hp.2.1
  have hcell : b.cells[b.index p] = b.cell p := by simp [cell, List.getD, hi]
  have hcount := List.countP_set (p := fun cell : Cell => !cell.connected) hi
    (a := { b.cell p with connected := true })
  rw [hcell] at hcount
  have hvisit : (b.visit p).unconnected =
      b.unconnected - (if (!(b.cell p).connected) = true then 1 else 0) := by
    simpa [unconnected, visit, setCell] using hcount
  simp only [List.length_append, List.length_reverse, List.length_cons]
  cases hflag : (b.cell p).connected with
  | true =>
    rw [h.unvisited_eq_nil hflag, hvisit, hflag]
    simp
  | false =>
    have hpos : 0 < b.unconnected :=
      List.countP_pos_iff.mpr ⟨_, List.getElem_mem hi, by rw [hcell, hflag]; rfl⟩
    have hsix : ((b.visit p).unvisited player p).length ≤ 6 :=
      Nat.le_trans (List.length_filter_le _ _) (length_neighbors_le _ _)
    rw [hvisit, hflag]
    simp only [Bool.not_false, if_true]
    omega

end

theorem connect_spec {rounds : Nat} (h : Searching start player b stack)
    (hrounds : stack.length + 6 * b.unconnected ≤ rounds) :
    ∃ b', connect player rounds b stack = some b' ∧ Searching start player b' [] := by
  induction rounds generalizing b stack with
  | zero =>
    obtain rfl : stack = [] := List.length_eq_zero_iff.mp (by omega)
    exact ⟨b, rfl, h⟩
  | succ rounds ih =>
    cases stack with
    | nil => exact ⟨b, rfl, h⟩
    | cons p stack =>
      have := h.rounds_step
      exact ih h.step (by omega)

end Visit

/-- When the stack is empty, the flags of the player are right. -/
theorem Searching.connected_iff {start : Board} (h : Searching start player b [])
    (hp : b.Holds player p) : (b.cell p).connected = true ↔ b.Reached player p := by
  refine ⟨h.sound p hp, fun hreached => ?_⟩
  refine hreached.induct (P := fun p => b.Holds player p ∧ (b.cell p).connected = true)
    (fun e he hedge => ⟨he, ?_⟩) (fun q r hqr hr hq => ⟨hr, ?_⟩) |>.2
  · exact (h.edge e he hedge).resolve_right List.not_mem_nil
  · cases hflag : (b.cell r).connected with
    | true => rfl
    | false => exact absurd (h.next q r hq.1 hq.2 hqr hr hflag).1 List.not_mem_nil

/-! ## Placing a stone -/

section Place

variable (h : b.Exact) (hp : p.1 < b.size ∧ p.2 < b.size) (hempty : (b.cell p).stone = none)

include h hp

theorem Exact.cell_withStone (hq : q.1 < b.size) :
    (b.withStone p).cell q = if q = p then { b.cell p with stone := some b.active } else b.cell q :=
  cell_setCell h.length_cells _ hp.1 hp.2 hq

theorem Exact.holds_withStone_active :
    (b.withStone p).Holds b.active q ↔ q = p ∨ b.Holds b.active q := by
  constructor
  · rintro ⟨hq, hq', hstone⟩
    rw [h.cell_withStone hp hq] at hstone
    by_cases hqp : q = p
    · exact .inl hqp
    · rw [if_neg hqp] at hstone
      exact .inr ⟨hq, hq', hstone⟩
  · rintro (rfl | ⟨hq, hq', hstone⟩)
    · exact ⟨hp.1, hp.2, by simp [h.cell_withStone hp hp.1]⟩
    · refine ⟨hq, hq', ?_⟩
      rw [h.cell_withStone hp hq]
      split
      · rfl
      · exact hstone

theorem Exact.connected_withStone (hq : q.1 < b.size) :
    ((b.withStone p).cell q).connected = (b.cell q).connected := by
  rw [h.cell_withStone hp hq]
  split
  case isTrue hqp => rw [hqp]
  case isFalse => rfl

theorem Exact.reached_withStone (hq : b.Reached b.active q) : (b.withStone p).Reached b.active q :=
  hq.mono fun _ hq => (h.holds_withStone_active hp).mpr (.inr hq)

theorem Exact.connected_of_holds (hq : b.Holds b.active q)
    (hflag : ((b.withStone p).cell q).connected = true) : b.Reached b.active q := by
  rw [h.connected_withStone hp hq.1] at hflag
  exact (h.isConnected_iff ⟨hq.1, hq.2.1⟩).mp (by simp [Cell.isConnected, hflag, hq.2.2])

include hempty

theorem Exact.not_connected_of_empty : (b.cell p).connected = false := by
  refine Bool.eq_false_iff.mpr fun hflag => ?_
  obtain ⟨player, hreached⟩ := (h.connected_iff p hp.1 hp.2).mp hflag
  have hstone := hreached.holds.2.2
  rw [hempty] at hstone
  cases hstone

theorem Exact.holds_withStone_other (hne : player ≠ b.active) :
    (b.withStone p).Holds player = b.Holds player := by
  funext q
  refine propext (and_congr_right fun hq => and_congr_right fun _ => ?_)
  rw [h.cell_withStone hp hq]
  split
  case isTrue hqp => simp [hqp, hempty, hne.symm]
  case isFalse => rfl

theorem Exact.joins_iff : (b.withStone p).joins b.active p = true ↔
    FirstEdge b.active p ∨ ∃ q, Adjacent p q ∧ b.Reached b.active q := by
  have hedge : ((p.1 == 0 && b.active == .one) || (p.2 == 0 && b.active == .two)) = true ↔
      FirstEdge b.active p := by
    cases b.active <;> simp [FirstEdge]
  have hnext : ((b.withStone p).neighbors p).any
      (fun q => ((b.withStone p).cell q).isConnected b.active) = true ↔
        ∃ q, Adjacent p q ∧ b.Reached b.active q := by
    simp only [List.any_eq_true, @mem_neighbors (b.withStone p) p _ hp.1 hp.2]
    constructor
    · rintro ⟨q, ⟨hpq, hq, hq'⟩, hflag⟩
      have hne : q ≠ p := fun hqp => by
        subst hqp
        unfold Adjacent at hpq
        omega
      rw [h.cell_withStone hp hq, if_neg hne] at hflag
      exact ⟨q, hpq, (h.isConnected_iff ⟨hq, hq'⟩).mp hflag⟩
    · rintro ⟨q, hpq, hreached⟩
      have hq := hreached.holds
      have hflag := (h.isConnected_iff ⟨hq.1, hq.2.1⟩).mpr hreached
      have hne : q ≠ p := fun hqp => by simp [← hqp, hq.2.2] at hempty
      exact ⟨q, ⟨hpq, hq.1, hq.2.1⟩, by rw [h.cell_withStone hp hq.1, if_neg hne]; exact hflag⟩
  rw [joins, Bool.or_eq_true, hedge, hnext]

/-- The search starts with the new stone, or not at all if that is not joined to the edge. -/
theorem Exact.searching : Searching (b.withStone p) b.active (b.withStone p)
    (if (b.withStone p).joins b.active p then [p] else []) := by
  have hjoins := h.joins_iff hp hempty
  -- a stone without a flag next to a flag or on the edge is the new one
  have hnew : ∀ q, (b.withStone p).Holds b.active q → ((b.withStone p).cell q).connected = false →
      q = p ∨ ¬b.Reached b.active q := by
    intro q hq hflag
    refine or_iff_not_imp_right.mpr fun hreached => ?_
    have hreached := not_not.mp hreached
    have := (h.connected_iff q hq.1 hq.2.1).mpr ⟨_, hreached⟩
    rw [h.connected_withStone hp hq.1, this] at hflag
    cases hflag
  have hold : ∀ q, (b.withStone p).Holds b.active q → ((b.withStone p).cell q).connected = true →
      b.Reached b.active q := by
    intro q hq hflag
    obtain rfl | hq := (h.holds_withStone_active hp).mp hq
    · rw [h.connected_withStone hp hq.1, h.not_connected_of_empty hp hempty] at hflag
      cases hflag
    · exact h.connected_of_holds hp hq hflag
  refine ⟨rfl, rfl, ?_, fun _ _ _ => rfl, fun _ _ _ _ => rfl, fun q hq hflag => ?_, fun q hq => ?_,
    fun q hq hedge => ?_, fun q r hq hflag hqr hr hnot => ?_⟩
  · exact List.length_set.trans h.length_cells
  · exact h.reached_withStone hp (hold q hq hflag)
  · obtain ⟨hj, rfl⟩ : (b.withStone p).joins b.active p = true ∧ q = p := by
      split at hq <;> simp_all
    have hholds : (b.withStone q).Holds b.active q := (h.holds_withStone_active hp).mpr (.inl rfl)
    obtain hedge | ⟨r, hqr, hr⟩ := hjoins.mp hj
    · exact .of_firstEdge hholds hedge
    · exact (h.reached_withStone hp hr).tail hqr.symm hholds
  · cases hflag : ((b.withStone p).cell q).connected with
    | true => exact .inl rfl
    | false =>
      obtain rfl | hq' := (h.holds_withStone_active hp).mp hq
      · rw [if_pos (hjoins.mpr (.inl hedge))]
        exact .inr List.mem_cons_self
      · obtain rfl | hno := hnew q hq hflag
        · simp [hq'.2.2] at hempty
        · exact absurd (.of_firstEdge hq' hedge) hno
  · have hreached := hold q hq hflag
    have hrp : r = p := by
      obtain rfl | hr' := (h.holds_withStone_active hp).mp hr
      · rfl
      · exact (hnew r hr hnot).resolve_right (not_not.mpr (hreached.tail hqr hr'))
    subst hrp
    rw [if_pos (hjoins.mpr (.inr ⟨q, hqr.symm, hreached⟩))]
    refine ⟨List.mem_cons_self, fun above below heq => ?_⟩
    cases above with
    | nil =>
      obtain rfl : r = q := (List.cons.inj heq).1
      rw [hnot] at hflag
      cases hflag
    | cons x above => exact (List.cons.inj heq).1 ▸ List.mem_cons_self

theorem Exact.placeStone_spec :
    ∃ b', b.placeStone p = some b' ∧ Searching (b.withStone p) b.active b' [] := by
  have hsearch := h.searching hp hempty
  unfold placeStone
  split
  case isTrue hjoins =>
    rw [if_pos hjoins] at hsearch
    have hcount : (b.withStone p).unconnected ≤ b.size * b.size :=
      Nat.le_trans List.countP_le_length (Nat.le_of_eq hsearch.length_cells)
    exact connect_spec hsearch (by simp only [List.length_singleton]; omega)
  case isFalse hjoins =>
    rw [if_neg hjoins] at hsearch
    exact ⟨_, rfl, hsearch⟩

/-- A stone that is placed while no player has a chain keeps the flags right. -/
theorem Exact.of_searching (hnone : ∀ w, ¬b.HasChain w)
    (hs : Searching (b.withStone p) b.active b' []) : b'.Exact := by
  have hsize : b'.size = b.size := hs.size
  have hholds : ∀ player, b'.Holds player = (b.withStone p).Holds player := fun player => by
    funext q
    unfold Holds
    rw [hs.size]
    refine propext (and_congr_right fun hq => and_congr_right fun hq' => ?_)
    rw [hs.stone q (hs.size ▸ hq) (hs.size ▸ hq')]
  have hother : ∀ player q, player ≠ b.active → (b'.Reached player q ↔ b.Reached player q) := by
    intro player q hne
    unfold Reached
    rw [hholds, h.holds_withStone_other hp hempty hne]
  refine ⟨hsize ▸ h.size_pos, hs.length_cells, fun q hq hq' => ?_, fun v w hv hw => ?_⟩
  · by_cases hstone : (b'.cell q).stone = some b.active
    · rw [hs.connected_iff ⟨hq, hq', hstone⟩]
      refine ⟨fun hr => ⟨_, hr⟩, fun ⟨player, hr⟩ => ?_⟩
      rwa [Option.some.inj (hr.holds.2.2.symm.trans hstone)] at hr
    · have hqb : q.1 < b.size := hsize ▸ hq
      rw [hs.others q hq hq' hstone, h.connected_withStone hp hqb,
        h.connected_iff q hqb (hsize ▸ hq')]
      refine exists_congr fun player => ?_
      by_cases hne : player = b.active
      · refine iff_of_false (fun hr => ?_) fun hr => ?_
        · subst hne
          exact hstone (hholds b.active ▸ (h.reached_withStone hp hr).holds : b'.Holds _ q).2.2
        · exact hstone (hne ▸ hr.holds.2.2)
      · exact (hother player q hne).symm
  · have hactive : ∀ w, b'.HasChain w → w = b.active := fun w hw => by
      by_contra hne
      obtain ⟨q, hlast, hr⟩ := hw
      refine hnone w ⟨q, ?_, (hother w q hne).mp hr⟩
      cases w <;> exact hlast.trans hsize
    rw [hactive v hv, hactive w hw]

end Place

/-! ## The winner -/

/-- A player has a chain if one of the cells at their last edge is connected. -/
theorem Exact.hasChain_iff (h : b.Exact) {edge : Nat → Nat × Nat}
    (hedge : ∀ i < b.size, ((edge i).1 < b.size ∧ (edge i).2 < b.size) ∧ b.LastEdge player (edge i))
    (hall : ∀ q, b.Holds player q → b.LastEdge player q → ∃ i < b.size, q = edge i) :
    b.HasChain player ↔ ∃ i < b.size, (b.cell (edge i)).isConnected player = true := by
  constructor
  · rintro ⟨q, hlast, hr⟩
    obtain ⟨i, hi, rfl⟩ := hall q hr.holds hlast
    exact ⟨i, hi, (h.isConnected_iff (hedge i hi).1).mpr hr⟩
  · rintro ⟨i, hi, hflag⟩
    exact ⟨edge i, (hedge i hi).2, (h.isConnected_iff (hedge i hi).1).mp hflag⟩

theorem Exact.hasChain_one (h : b.Exact) :
    b.HasChain .one ↔ ∃ i < b.size, (b.cell (b.size - 1, i)).isConnected .one = true := by
  have hpos := h.size_pos
  refine h.hasChain_iff (fun i hi => ⟨⟨Nat.sub_lt hpos Nat.zero_lt_one, hi⟩, Nat.sub_add_cancel hpos⟩)
    fun q hq hlast => ⟨q.2, hq.2.1, Prod.ext ?_ rfl⟩
  exact Nat.eq_sub_of_add_eq hlast

theorem Exact.hasChain_two (h : b.Exact) :
    b.HasChain .two ↔ ∃ i < b.size, (b.cell (i, b.size - 1)).isConnected .two = true := by
  have hpos := h.size_pos
  refine h.hasChain_iff (fun i hi => ⟨⟨hi, Nat.sub_lt hpos Nat.zero_lt_one⟩, Nat.sub_add_cancel hpos⟩)
    fun q hq hlast => ⟨q.1, hq.1, Prod.ext rfl ?_⟩
  exact Nat.eq_sub_of_add_eq hlast

theorem Exact.winner_eq_none_iff (h : b.Exact) : b.winner = none ↔ ∀ w, ¬b.HasChain w := by
  have hcases : (∀ w, ¬b.HasChain w) ↔ ¬b.HasChain .one ∧ ¬b.HasChain .two :=
    ⟨fun hw => ⟨hw _, hw _⟩, fun hw w => by cases w <;> simp [hw]⟩
  rw [hcases, h.hasChain_one, h.hasChain_two, winner, List.findSome?_eq_none_iff]
  simp only [List.mem_range, not_exists, not_and, ← forall_and]
  refine forall_congr' fun i => ?_
  by_cases hone : (b.cell (b.size - 1, i)).isConnected .one = true <;>
    by_cases htwo : (b.cell (i, b.size - 1)).isConnected .two = true <;> simp [hone, htwo]

theorem Exact.winner_eq_some_iff (h : b.Exact) : b.winner = some player ↔ b.HasChain player := by
  have hsome : ∀ w, b.winner = some w → b.HasChain w := by
    intro w hw
    obtain ⟨i, hi, hw⟩ := List.exists_of_findSome?_eq_some hw
    have hi := List.mem_range.mp hi
    split at hw
    case isTrue hflag =>
      cases hw
      exact h.hasChain_one.mpr ⟨i, hi, hflag⟩
    case isFalse =>
      split at hw
      case isTrue hflag =>
        cases hw
        exact h.hasChain_two.mpr ⟨i, hi, hflag⟩
      case isFalse => cases hw
  refine ⟨hsome player, fun hchain => ?_⟩
  cases hw : b.winner with
  | none => exact absurd hchain (h.winner_eq_none_iff.mp hw player)
  | some w => rw [h.chain_unique w player (hsome w hw) hchain]

/-! ## Games -/

theorem makeMove_eq_ok {outcome : HexOutcome} (h : b.makeMove p = .ok (b', outcome)) :
    b.winner = none ∧ (p.1 < b.size ∧ p.2 < b.size) ∧ (b.cell p).stone = none ∧
      b.placeStone p = some b' := by
  unfold makeMove at h
  split at h
  · cases h
  case isFalse hw =>
    split at h
    · cases h
    case isFalse hp =>
      split at h
      · cases h
      case isFalse hs =>
        split at h
        · cases h
        case h_2 hplace =>
          refine ⟨not_not.mp hw, not_not.mp hp, not_not.mp hs, ?_⟩
          split at h <;> cases h <;> exact hplace

theorem Exact.makeMove (h : b.Exact) (hw : b.winner = none) (hp : p.1 < b.size ∧ p.2 < b.size)
    (hs : (b.cell p).stone = none) : ∃ result, b.makeMove p = .ok result := by
  obtain ⟨b', hplace, -⟩ := h.placeStone_spec hp hs
  simp only [Board.makeMove, hw, hp, hs, hplace, ne_eq, not_true_eq_false, and_self, if_false]
  split
  · exact ⟨_, rfl⟩
  · exact ⟨_, rfl⟩

theorem exact_new {size : Nat} (hsize : 0 < size) : (new size).Exact := by
  have hcell : ∀ p, (new size).cell p = {} := fun p => by
    simp only [new, cell, List.getD, List.getElem?_replicate]
    split <;> rfl
  have hno : ∀ player p, ¬(new size).Reached player p := fun player p hr => by
    have := hr.holds.2.2
    rw [hcell] at this
    cases this
  refine ⟨hsize, List.length_replicate, fun p _ _ => ?_, fun v _ ⟨p, _, hr⟩ => absurd hr (hno v p)⟩
  rw [hcell]
  exact iff_of_false Bool.false_ne_true fun ⟨player, hr⟩ => hno player p hr

theorem Exact.makeMoves {moves : List (Nat × Nat)} (h : b.Exact)
    (hmoves : b.makeMoves moves = .ok b') : b'.Exact ∧ b'.size = b.size := by
  induction moves generalizing b with
  | nil =>
    cases hmoves
    exact ⟨h, rfl⟩
  | cons p moves ih =>
    cases hmove : b.makeMove p with
    | error e =>
      rw [Board.makeMoves, hmove] at hmoves
      cases hmoves
    | ok result =>
      obtain ⟨b₁, outcome⟩ := result
      rw [Board.makeMoves, hmove] at hmoves
      obtain ⟨hw, hp, hs, hplace⟩ := makeMove_eq_ok hmove
      obtain ⟨b₂, hplace', hsearch⟩ := h.placeStone_spec hp hs
      obtain rfl : b₂ = b₁ := Option.some.inj (hplace'.symm.trans hplace)
      have hexact := h.of_searching hp hs (h.winner_eq_none_iff.mp hw) hsearch
      obtain ⟨hb', hsize⟩ := ih hexact hmoves
      exact ⟨hb', hsize.trans hsearch.size⟩

/-- On a full board one of the players has a chain. -/
theorem Exact.exists_chain (h : b.Exact)
    (hfull : ∀ p, p.1 < b.size → p.2 < b.size → (b.cell p).stone ≠ none) : ∃ w, b.HasChain w := by
  obtain ⟨a, d, ha, hd, had⟩ | ⟨a, d, ha, hd, had⟩ :=
    exists_linked_edges h.size_pos fun p => decide ((b.cell p).stone = some .one)
  · refine ⟨.one, d, hd, a, ha, had.mono fun p hp => ⟨hp.1, hp.2.1, ?_⟩⟩
    exact of_decide_eq_true hp.2.2
  · refine ⟨.two, d, hd, a, ha, had.mono fun p hp => ⟨hp.1, hp.2.1, ?_⟩⟩
    have hone := of_decide_eq_false hp.2.2
    have hsome := hfull p hp.1 hp.2.1
    cases hstone : (b.cell p).stone with
    | none => exact absurd hstone hsome
    | some player =>
      cases player with
      | one => exact absurd hstone hone
      | two => rfl

/-- After any moves, a flag says that the stone is joined to its player's first edge, the winner
is the player whose stones join the two edges, and a move fails only on an assertion. -/
theorem decided_correctly (size : Nat) (hsize : 0 < size) (moves : List (Nat × Nat)) (b : Board)
    (hmoves : (new size).makeMoves moves = .ok b) :
    (∀ p, p.1 < size → p.2 < size → ((b.cell p).connected = true ↔
      ∃ player, (b.cell p).stone = some player ∧
        ∃ e, FirstEdge player e ∧ Linked (b.Holds player) e p)) ∧
    (∀ player, b.winner = some player ↔
      ∃ e d, FirstEdge player e ∧ b.LastEdge player d ∧ Linked (b.Holds player) e d) ∧
    ∀ p, b.makeMove p ≠ .error .outOfRounds := by
  obtain ⟨h, hb⟩ := (exact_new hsize).makeMoves hmoves
  have hb : b.size = size := hb
  refine ⟨fun p hp hp' => ?_, fun player => ?_, fun p hp => ?_⟩
  · rw [h.connected_iff p (hb ▸ hp) (hb ▸ hp')]
    exact exists_congr fun player => ⟨fun hr => ⟨hr.holds.2.2, hr⟩, fun hr => hr.2⟩
  · rw [h.winner_eq_some_iff]
    exact ⟨fun ⟨d, hd, e, he, hed⟩ => ⟨e, d, he, hd, hed⟩,
      fun ⟨e, d, he, hd, hed⟩ => ⟨d, hd, e, he, hed⟩⟩
  · unfold Board.makeMove at hp
    split at hp
    · cases hp
    · split at hp
      · cases hp
      case isFalse hin =>
        split at hp
        · cases hp
        case isFalse hs =>
          obtain ⟨b', hplace, -⟩ := h.placeStone_spec (not_not.mp hin) (not_not.mp hs)
          rw [hplace] at hp
          dsimp only at hp
          split at hp <;> cases hp

/-- A stone on the right edge is flagged when the stone that joins it to the left one comes. -/
theorem decided_correctly_two_by_two :
    ∃ b, (new 2).makeMoves [(1, 0), (0, 0), (0, 1)] = .ok b ∧
      b.winner = some .one ∧ (b.cell (1, 0)).connected = true := by
  refine ⟨_, rfl, ?_, by decide⟩
  have h := decided_correctly 2 (by decide) [(1, 0), (0, 0), (0, 1)] _ rfl
  refine (h.2.1 .one).mpr ⟨(0, 1), (1, 0), rfl, rfl, ?_⟩
  exact (Linked.refl ⟨by decide, by decide, by decide⟩).tail (.inr (.inr (.inl ⟨rfl, rfl⟩)))
    ⟨by decide, by decide, by decide⟩

/-- While nobody has won there is an empty cell, and the active player can move there. -/
theorem never_a_draw (size : Nat) (hsize : 0 < size) (moves : List (Nat × Nat)) (b : Board)
    (hmoves : (new size).makeMoves moves = .ok b) (hwinner : b.winner = none) :
    ∃ p, p.1 < size ∧ p.2 < size ∧ (b.cell p).stone = none ∧
      ∃ result, b.makeMove p = .ok result := by
  obtain ⟨h, hb⟩ := (exact_new hsize).makeMoves hmoves
  have hb : b.size = size := hb
  have hnone := h.winner_eq_none_iff.mp hwinner
  have hempty : ∃ p, p.1 < b.size ∧ p.2 < b.size ∧ (b.cell p).stone = none := by
    by_contra hfull
    obtain ⟨w, hw⟩ := h.exists_chain fun p hp hp' hs => hfull ⟨p, hp, hp', hs⟩
    exact hnone w hw
  obtain ⟨p, hp, hp', hs⟩ := hempty
  exact ⟨p, hb ▸ hp, hb ▸ hp', hs, h.makeMove hwinner ⟨hp, hp'⟩ hs⟩

theorem never_a_draw_after_two_moves :
    ∃ b, (new 2).makeMoves [(1, 0), (0, 0)] = .ok b ∧
      ∃ p, p.1 < 2 ∧ p.2 < 2 ∧ (b.cell p).stone = none ∧ ∃ result, b.makeMove p = .ok result :=
  ⟨_, rfl, never_a_draw 2 (by decide) [(1, 0), (0, 0)] _ rfl (by decide)⟩

end Board

end Linera.Hex
