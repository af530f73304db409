import Mathlib
import Linera.Lib.BTreeMap

/-!
# Programs on many chains

A program runs on any number of chains, on each with a state of its own. It
executes operations, and the messages that it sends from one chain to another. A
message is in flight until it is executed: on its target or, if it is tracked and
the target has rejected it, on the chain that sent it, where it is said to bounce.
No message is executed twice.

`step_cases` says what a step can do. `weight` adds up a quantity over all chains
and all messages in flight, and `weight_update` says what a step does to it; this is
how conservation is proved.
-/

namespace Network

variable {κ σ μ ω ε : Type}

/-- A message to be sent. -/
structure Outgoing (κ μ : Type) where
  target : κ
  tracked : Bool
  payload : μ

/-- A message that has been sent and not been executed yet. -/
structure InFlight (κ μ : Type) extends Outgoing κ μ where
  sender : κ

/-- A program: what it does on a chain with an operation, and with a message, which may be
bouncing. -/
structure Program (κ σ μ ω ε : Type) where
  /-- The state on a chain where nothing has been executed. -/
  empty : σ
  operation : κ → σ → ω → Except ε (σ × List (Outgoing κ μ))
  message : κ → σ → (bouncing : Bool) → μ → Except ε (σ × List (Outgoing κ μ))

/-- All chains, and the messages in flight. -/
structure State (κ σ μ : Type) [LinearOrder κ] where
  chains : BTreeMap κ σ
  inFlight : List (InFlight κ μ)

inductive Event (κ ω : Type) where
  | operation (chain : κ) (operation : ω)
  /-- Executes a message on its target. -/
  | deliver (index : Nat)
  /-- Executes a rejected message on its sender. -/
  | bounce (index : Nat)

/-! ## Messages -/

section Messages

variable (v : μ → Nat)

def messageWeight (messages : List (Outgoing κ μ)) : Nat := (messages.map fun m => v m.payload).sum

variable {v}

@[simp] theorem messageWeight_nil : messageWeight v ([] : List (Outgoing κ μ)) = 0 := rfl

@[simp] theorem messageWeight_singleton (m : Outgoing κ μ) : messageWeight v [m] = v m.payload := by
  simp [messageWeight]

theorem messageWeight_append (l l' : List (Outgoing κ μ)) :
    messageWeight v (l ++ l') = messageWeight v l + messageWeight v l' := by
  simp [messageWeight]

theorem messageWeight_eraseIdx {l : List (InFlight κ μ)} {index : Nat} {m : InFlight κ μ}
    (h : l[index]? = some m) :
    messageWeight v ((l.eraseIdx index).map InFlight.toOutgoing) + v m.payload =
      messageWeight v (l.map InFlight.toOutgoing) := by
  obtain ⟨hlt, hm⟩ := List.getElem?_eq_some_iff.mp h
  have hperm := (List.getElem_cons_eraseIdx_perm hlt).map fun m : InFlight κ μ => v m.payload
  have hsum := hperm.sum_eq
  simp only [List.map_cons, List.sum_cons, hm] at hsum
  simp only [messageWeight, List.map_map, Function.comp_def]
  omega

end Messages

/-! ## Steps -/

variable [LinearOrder κ] (p : Program κ σ μ ω ε)

def State.chain (s : State κ σ μ) (c : κ) : σ := (s.chains.get c).getD p.empty

/-- The result of an execution on a chain, with the other messages that stay in flight. -/
def State.update (s : State κ σ μ) (c : κ) (r : σ × List (Outgoing κ μ))
    (rest : List (InFlight κ μ)) : State κ σ μ :=
  ⟨s.chains.insert c r.1, rest ++ r.2.map fun m => ⟨m, c⟩⟩

/-- Executes a message in flight on a chain. -/
def State.execute (s : State κ σ μ) (index : Nat) (c : κ) (bouncing : Bool)
    (m : InFlight κ μ) : Option (State κ σ μ) :=
  (p.message c (s.chain p c) bouncing m.payload).toOption.map fun r =>
    s.update c r (s.inFlight.eraseIdx index)

/-- An operation or a message that fails has no effect. Such steps are left out. -/
def step (s : State κ σ μ) : Event κ ω → Option (State κ σ μ)
  | .operation c op =>
    (p.operation c (s.chain p c) op).toOption.map fun r => s.update c r s.inFlight
  | .deliver index => s.inFlight[index]?.bind fun m => s.execute p index m.target false m
  | .bounce index => s.inFlight[index]?.bind fun m =>
      if m.tracked then s.execute p index m.sender true m else none

variable {p}

theorem execute_eq_some {s s' : State κ σ μ} {index : Nat} {c : κ} {bouncing : Bool}
    {m : InFlight κ μ} (h : s.execute p index c bouncing m = some s') :
    ∃ r, p.message c (s.chain p c) bouncing m.payload = .ok r ∧
      s' = s.update c r (s.inFlight.eraseIdx index) := by
  obtain ⟨r, hr, rfl⟩ := Option.map_eq_some_iff.mp h
  refine ⟨r, ?_, rfl⟩
  cases hm : p.message c (s.chain p c) bouncing m.payload with
  | error e => simp [hm, Except.toOption] at hr
  | ok r' =>
    simp only [hm, Except.toOption, Option.some.injEq] at hr
    rw [hr]

/-- A step executes an operation on a chain, or a message: on its target, or on its sender if it
bounces. -/
theorem step_cases {s s' : State κ σ μ} {event : Event κ ω} (h : step p s event = some s') :
    (∃ c op r, event = .operation c op ∧ p.operation c (s.chain p c) op = .ok r ∧
      s' = s.update c r s.inFlight) ∨
    ∃ index m r bouncing, s.inFlight[index]? = some m ∧
      event = (if bouncing then .bounce index else .deliver index) ∧
      p.message (if bouncing then m.sender else m.target)
        (s.chain p (if bouncing then m.sender else m.target)) bouncing m.payload = .ok r ∧
      s' = s.update (if bouncing then m.sender else m.target) r (s.inFlight.eraseIdx index) := by
  cases event with
  | operation c op =>
    obtain ⟨r, hr, rfl⟩ := Option.map_eq_some_iff.mp h
    refine .inl ⟨c, op, r, rfl, ?_, rfl⟩
    cases hop : p.operation c (s.chain p c) op with
    | error e => simp [hop, Except.toOption] at hr
    | ok r' =>
      simp only [hop, Except.toOption, Option.some.injEq] at hr
      rw [hr]
  | deliver index =>
    obtain ⟨m, hm, h⟩ := Option.bind_eq_some_iff.mp h
    obtain ⟨r, hr, rfl⟩ := execute_eq_some h
    exact .inr ⟨index, m, r, false, hm, rfl, hr, rfl⟩
  | bounce index =>
    obtain ⟨m, hm, h⟩ := Option.bind_eq_some_iff.mp h
    split at h
    · obtain ⟨r, hr, rfl⟩ := execute_eq_some h
      exact .inr ⟨index, m, r, true, hm, rfl, hr, rfl⟩
    · cases h

/-! ## Weights -/

section Weight

variable (w : σ → Nat) (v : μ → Nat)

def State.weight (s : State κ σ μ) : Nat :=
  s.chains.sumBy (fun _ => w) + messageWeight v (s.inFlight.map InFlight.toOutgoing)

variable {w v}

/-- What an execution on a chain does to the total: the chain has a new state, and there are new
messages. -/
theorem weight_update (hempty : w p.empty = 0) (s : State κ σ μ) (c : κ)
    (r : σ × List (Outgoing κ μ)) (rest : List (InFlight κ μ)) :
    (s.update c r rest).weight w v + w (s.chain p c) +
        messageWeight v (s.inFlight.map InFlight.toOutgoing) =
      s.weight w v + w r.1 + messageWeight v (rest.map InFlight.toOutgoing) +
        messageWeight v r.2 := by
  have hinsert := s.chains.sumBy_insert (fun _ => w) c r.1
  have hold : (s.chains.get c).elim 0 w = w (s.chain p c) := by
    unfold State.chain
    cases s.chains.get c with
    | none => exact hempty.symm
    | some state => rfl
  have hmap : (r.2.map fun m => (⟨m, c⟩ : InFlight κ μ)).map InFlight.toOutgoing = r.2 := by
    rw [List.map_map]
    exact List.map_id _
  simp only [State.weight, State.update, List.map_append, hmap, messageWeight_append]
  omega

theorem weight_chain_le (hempty : w p.empty = 0) (s : State κ σ μ) (c : κ) :
    w (s.chain p c) ≤ s.weight w v := by
  unfold State.chain State.weight
  cases hget : s.chains.get c with
  | none => simp [hempty]
  | some state => exact (BTreeMap.le_sumBy (fun _ => w) hget).trans (Nat.le_add_right ..)

/-- A chain and a message in flight are parts of the whole. -/
theorem weight_chain_add_le (hempty : w p.empty = 0) (s : State κ σ μ) (c : κ) {index : Nat}
    {m : InFlight κ μ} (h : s.inFlight[index]? = some m) :
    w (s.chain p c) + v m.payload ≤ s.weight w v := by
  have hmessages := messageWeight_eraseIdx (v := v) h
  have hchain : w (s.chain p c) ≤ s.chains.sumBy fun _ => w := by
    unfold State.chain
    cases hget : s.chains.get c with
    | none => simp [hempty]
    | some state => exact BTreeMap.le_sumBy (fun _ => w) hget
  unfold State.weight
  omega

end Weight

end Network
