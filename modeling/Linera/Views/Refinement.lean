import Linera.Lib.Run
import Linera.Views.View

/-!
# Views and their storage

A view together with the storage it is loaded from, and the events of its life: changes are
staged, discarded or saved, and the view is loaded again. What a view stands for has two
versions: the one it shows, and the one that was saved last (`Versions`). A view type
refines a kind of contents if each event acts on the versions as it should (`Refines`).
-/

namespace Linera.Views

structure StoredView (V : ViewType) where
  store : KeyValueMap
  view : V.State

inductive ViewEvent (V : ViewType) where
  | stage (change : V.Change)
  | rollback
  /-- Flushes the view and writes the batch. -/
  | save
  /-- Drops the view and loads it from the storage. -/
  | reload

/-- What a view shows, and what has been saved. -/
structure Versions (β : Type*) where
  now : β
  saved : β

variable {V : ViewType} {β : Type*}

def StoredView.step (s : StoredView V) : ViewEvent V → Option (StoredView V)
  | .stage change => ((V.stage s.store s.view change).toOption).map fun view => ⟨s.store, view⟩
  | .rollback => some ⟨s.store, V.rollback s.view⟩
  | .save => (V.flush s.view).toOption.map fun r => ⟨Batch.apply ⟨r.2.1⟩ s.store, r.1⟩
  | .reload => (V.load (V.baseKey s.view) s.store).toOption.map fun view => ⟨s.store, view⟩

def Versions.step (change : β → V.Change → β) (a : Versions β) : ViewEvent V → Versions β
  | .stage c => ⟨change a.now c, a.saved⟩
  | .rollback => ⟨a.saved, a.saved⟩
  | .save => ⟨a.now, a.now⟩
  | .reload => ⟨a.saved, a.saved⟩

/-- The events act on the contents as `change` says, and only a save can fail. -/
structure Refines (V : ViewType) (change : β → V.Change → β) (R : StoredView V → Versions β → Prop) :
    Prop where
  stage : ∀ {s a}, R s a → ∀ c, ∃ view, V.stage s.store s.view c = .ok view ∧
    R ⟨s.store, view⟩ ⟨change a.now c, a.saved⟩
  rollback : ∀ {s a}, R s a → R ⟨s.store, V.rollback s.view⟩ ⟨a.saved, a.saved⟩
  save : ∀ {s a}, R s a → (V.flush s.view).Ensures fun r =>
    R ⟨Batch.apply ⟨r.2.1⟩ s.store, r.1⟩ ⟨a.now, a.now⟩
  reload : ∀ {s a}, R s a → V.load (V.baseKey s.view) s.store = .ok (V.rollback s.view)

namespace Refines

variable {change : β → V.Change → β} {R : StoredView V → Versions β → Prop}

theorem step (h : Refines V change R) {s s' : StoredView V} {a : Versions β} {event : ViewEvent V}
    (hs : R s a) (hstep : s.step event = some s') : R s' (a.step change event) := by
  cases event with
  | stage c =>
    obtain ⟨view, hview, hR⟩ := h.stage hs c
    simp only [StoredView.step, hview, Except.toOption, Option.map_some, Option.some.injEq] at hstep
    exact hstep ▸ hR
  | rollback =>
    cases hstep
    exact h.rollback hs
  | save =>
    obtain ⟨r, hr, rfl⟩ := Option.map_eq_some_iff.mp hstep
    exact h.save hs r (Except.toOption_eq_some.mp hr)
  | reload =>
    simp only [StoredView.step, h.reload hs, Except.toOption, Option.map_some,
      Option.some.injEq] at hstep
    exact hstep ▸ h.rollback hs

/-- After any events the view shows the contents on which they have acted. -/
theorem run (h : Refines V change R) {s s' : StoredView V} {a : Versions β}
    {events : List (ViewEvent V)} (hs : R s a) (hrun : Run.run StoredView.step s events = some s') :
    R s' (events.foldl (Versions.step change) a) := by
  have hstep : ∀ s a event s', R s a → StoredView.step s event = some s' →
      R s' (a.step change event) := fun s a event s' hs hstep => h.step hs hstep
  exact Run.simulates hstep hs hrun

theorem exists_step (h : Refines V change R) {s : StoredView V} {a : Versions β} (hs : R s a)
    {event : ViewEvent V} (hevent : event ≠ .save) : ∃ s', s.step event = some s' := by
  cases event with
  | stage c =>
    obtain ⟨view, hview, -⟩ := h.stage hs c
    exact ⟨⟨s.store, view⟩, by simp [StoredView.step, hview, Except.toOption]⟩
  | rollback => exact ⟨_, rfl⟩
  | save => exact absurd rfl hevent
  | reload => exact ⟨⟨s.store, V.rollback s.view⟩, by simp [StoredView.step, h.reload hs, Except.toOption]⟩

end Refines

end Linera.Views
