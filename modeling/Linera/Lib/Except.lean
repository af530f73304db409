import Mathlib

/-!
# Computations that may fail

The source's `?` operator and its `ensure!` macro, for functions written with
`Except`. Each comes with the equivalence that takes a successful computation
apart, so that a proof peels a function step by step instead of unfolding it.

`Ensures` is partial correctness: what holds of the result if there is one. Its
rules follow the shape of a `do` block.
-/

/-- `ensure!(cond, error)`: goes on if `cond` holds and fails with `error` otherwise. -/
def ensure {ε : Type*} (cond : Prop) [Decidable cond] (error : ε) : Except ε Unit :=
  if cond then .ok () else .error error

namespace Except

universe u v

variable {ε ε' : Type u} {α β : Type v}

variable {cond : Prop} {x : Except ε α}

@[simp] theorem ensure_eq_ok [Decidable cond] {error : ε} {u : Unit} :
    ensure cond error = .ok u ↔ cond := by
  unfold ensure
  split <;> simp_all

@[simp] theorem ensure_eq_error [Decidable cond] {error e : ε} :
    ensure cond error = .error e ↔ ¬cond ∧ error = e := by
  unfold ensure
  split <;> simp_all

@[simp] theorem ensure_true {inst : Decidable True} (error : ε) :
    @ensure ε True inst error = .ok () := if_pos trivial

@[simp] theorem ensure_false {inst : Decidable False} (error : ε) :
    @ensure ε False inst error = .error error := if_neg id

theorem ensure_of [Decidable cond] (h : cond) (error : ε) :
    ensure cond error = .ok () := if_pos h

theorem ensure_of_not [Decidable cond] (h : ¬cond) (error : ε) :
    ensure cond error = .error error := if_neg h

@[simp] theorem ok_bind (a : α) (f : α → Except ε β) : (.ok a >>= f) = f a := rfl

@[simp] theorem error_bind (e : ε) (f : α → Except ε β) : (.error e >>= f) = .error e := rfl

@[simp] theorem bind_ok (x : Except ε α) : (x >>= fun a => .ok a) = x := by
  cases x <;> rfl

@[simp] theorem mapError_ok (f : ε → ε') (a : α) :
    (.ok a : Except ε α).mapError f = .ok a := rfl

@[simp] theorem mapError_error (f : ε → ε') (e : ε) :
    (.error e : Except ε α).mapError f = .error (f e) := rfl

@[simp] theorem pure_eq (a : α) : (pure a : Except ε α) = .ok a := rfl

@[simp] theorem throw_eq (e : ε) : (throw e : Except ε α) = .error e := rfl

theorem bind_eq_ok {f : α → Except ε β} {b : β} :
    x >>= f = .ok b ↔ ∃ a, x = .ok a ∧ f a = .ok b := by
  cases x <;> simp [Bind.bind, Except.bind]

theorem mapError_eq_ok {f : ε → ε'} {a : α} : x.mapError f = .ok a ↔ x = .ok a := by
  cases x <;> simp [Except.mapError]

theorem map_eq_ok {f : α → β} {b : β} : f <$> x = .ok b ↔ ∃ a, x = .ok a ∧ f a = b := by
  cases x <;> simp [Functor.map, Except.map]

theorem toOption_eq_some {a : α} : x.toOption = some a ↔ x = .ok a := by
  cases x <;> simp [Except.toOption]

/-- A loop whose steps all succeed. -/
theorem forM_eq_ok {α : Type} {l : List α} {f : α → Except ε PUnit}
    (h : ∀ a ∈ l, f a = .ok .unit) : l.forM f = .ok .unit := by
  induction l with
  | nil => rfl
  | cons a l ih =>
    change (f a >>= fun _ => l.forM f) = .ok .unit
    rw [h a List.mem_cons_self]
    exact ih fun b hb => h b (List.mem_cons_of_mem _ hb)

/-- The first component of a result, if there is one. -/
theorem toOption_fst_eq_some {x : Except ε (α × β)} {a : α} :
    (Prod.fst <$> x).toOption = some a ↔ ∃ b, x = .ok (a, b) := by
  cases x with
  | error e => simp [Except.toOption]
  | ok r => simp [Except.toOption, Prod.ext_iff]

/-- A loop whose body is a check followed by a computation that cannot fail. -/
theorem mapM_check_eq_ok {α β : Type} {check : α → Except ε Unit} {f : α → β} {l : List α}
    {l' : List β} : l.mapM (fun a => do check a; pure (f a)) = .ok l' ↔
      (∀ a ∈ l, check a = .ok ()) ∧ l' = l.map f := by
  induction l generalizing l' with
  | nil => simp [@eq_comm _ [] l']
  | cons a l ih =>
    rw [List.mapM_cons, bind_eq_ok]
    cases hcheck : check a with
    | error e => simp [hcheck]
    | ok u =>
      cases hl : l.mapM (fun a => do check a; pure (f a)) with
      | error e =>
        have hnot : ¬∀ a ∈ l, check a = .ok () := fun h => by
          rw [ih.mpr ⟨h, rfl⟩] at hl
          cases hl
        simp [hcheck, hnot]
      | ok rest =>
        obtain ⟨hall, rfl⟩ := ih.mp hl
        simp only [hcheck, ok_bind, pure_eq, ok.injEq, exists_eq_left', List.forall_mem_cons,
          List.map_cons, true_and]
        exact ⟨fun h => ⟨hall, h.symm⟩, fun h => h.2.symm⟩

/-! ## Partial correctness -/

/-- If the computation succeeds then its result satisfies `Q`. -/
def Ensures (x : Except ε α) (Q : α → Prop) : Prop := ∀ a, x = .ok a → Q a

namespace Ensures

variable {x : Except ε α} {f : α → Except ε β} {P Q : α → Prop} {R : β → Prop}

theorem ok {a : α} (h : Q a) : (Except.ok a : Except ε α).Ensures Q := by
  rintro _ ⟨⟩
  exact h

theorem error {e : ε} : (Except.error e : Except ε α).Ensures Q := by
  rintro _ ⟨⟩

theorem mono (h : x.Ensures P) (hPQ : ∀ a, P a → Q a) : x.Ensures Q :=
  fun a ha => hPQ a (h a ha)

/-- The rule for `let a ← x; f a`. -/
theorem bind (h : x.Ensures P) (hf : ∀ a, P a → (f a).Ensures R) : (x >>= f).Ensures R := by
  intro b hb
  obtain ⟨a, ha, hb⟩ := bind_eq_ok.mp hb
  exact hf a (h a ha) b hb

/-- The rule for `let a ← x; f a` if it does not matter what `x` returns. -/
theorem bind_any (hf : ∀ a, (f a).Ensures R) : (x >>= f).Ensures R :=
  bind (fun _ _ => trivial : x.Ensures fun _ => True) fun a _ => hf a

/-- The rule for `ensure!(cond, error); y`. -/
theorem guard {β : Type} {R : β → Prop} [Decidable cond] {e : ε} {f : Unit → Except ε β}
    (hf : cond → (f ()).Ensures R) : (ensure cond e >>= f).Ensures R :=
  bind (P := fun _ => cond) (fun _ h => ensure_eq_ok.mp h) fun _ h => hf h

theorem mapError {g : ε → ε'} (h : x.Ensures Q) : (x.mapError g).Ensures Q :=
  fun a ha => h a (mapError_eq_ok.mp ha)

end Ensures

end Except
