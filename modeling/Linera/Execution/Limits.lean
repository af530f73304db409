import Linera.Execution.Requests

/-!
# What the execution leaves alone

The size of the executed block is tracked by the chain, while it executes transactions. The
accounting functions that contracts and messages are charged by use the same tracker, and leave
the tracked size and its bound as they are.
-/

namespace Linera

namespace ResourceController

variable {A : Type}

variable [BalanceHolder A] (c : ResourceController A)

theorem updateBalance_limits (fees : Nat) :
    (c.updateBalance fees).Ensures fun c' => c'.limits = c.limits := by
  unfold updateBalance
  split
  · exact .ok rfl
  · exact .error

theorem mergeBalance_limits (initial other : Nat) :
    (c.mergeBalance initial other).Ensures fun c' => c'.limits = c.limits := by
  unfold mergeBalance
  split
  · exact c.updateBalance_limits _
  · exact .bind_any fun _ => .ok rfl

theorem trackOperation_limits (operation : Operation) :
    (c.trackOperation operation).Ensures fun c' => c'.limits = c.limits := by
  refine .bind_any fun _ => .bind (updateBalance_limits _ _) fun c₁ h₁ => ?_
  cases operation with
  | system operation => exact .ok h₁
  | user id bytes =>
    refine .bind_any fun _ => .bind_any fun _ => ?_
    exact (updateBalance_limits _ _).mono fun c₂ h₂ => h₂.trans h₁

theorem trackMessage_limits (message : Message) :
    (c.trackMessage message).Ensures fun c' => c'.limits = c.limits := by
  refine .bind_any fun _ => .bind (updateBalance_limits _ _) fun c₁ h₁ => ?_
  cases message with
  | system message => exact .ok h₁
  | user id bytes =>
    refine .bind_any fun _ => .bind_any fun _ => ?_
    exact (updateBalance_limits _ _).mono fun c₂ h₂ => h₂.trans h₁

theorem withStateAndGrant_limits (c : ResourceController (Option Owner))
    (s : SystemExecutionStateView) (grant : Option Nat)
    {f : ResourceController Sources → Except ExecutionError (ResourceController Sources)}
    (hf : ∀ c, (f c).Ensures fun c' => c'.limits = c.limits) :
    (c.withStateAndGrant s grant f).Ensures fun p => p.1.limits = c.limits :=
  .bind (hf _) fun _ h => .ok (Prod.ext rfl (Prod.ext_iff.mp h).2)

end ResourceController

/-- Contracts are charged by the same tracker, but they do not count towards the size. -/
theorem SyncRuntime.keepsLimits (hashing : Hashing) (root : UserApplicationId) :
    Preserved hashing root fun r r' =>
      r'.resourceController.limits = r.resourceController.limits where
  trans h h' := h'.trans h
  step h := h.stable.context.limits
  call hcalls _ h hleaves := (hleaves.context.limits.trans h).trans hcalls.context.limits
  start hstarts _ h hleaves := (hleaves.context.limits.trans h).trans hstarts.context.limits
  finalize _ _ := rfl

namespace ExecutionStateView

variable (context : ExecutionRuntimeContext) (hashing : Hashing) (s : ExecutionStateView)

theorem runUserAction_limits (id : UserApplicationId) (chainId : ChainId) (localTime : Nat)
    (action : UserAction) (refundGrantTo : Option Account) (grant : Option Nat)
    (t : TransactionTracker) (c : ResourceController (Option Owner)) :
    (s.runUserAction context hashing id chainId localTime action refundGrantTo grant t c).Ensures
      fun p => p.2.2.2.limits = c.limits := by
  refine .bind_any fun initialBalance => .bind_any fun loaded => ?_
  have hrule := SyncRuntime.keepsLimits hashing id
  refine .bind (hrule.runAction context _ (hrule.runCode context _) rfl chainId action) ?_
  intro r hr
  refine .bind (c.withStateAndGrant_limits _ _ fun c' => c'.mergeBalance_limits _ _) ?_
  rintro ⟨c₁, system, grant'⟩ h₁
  exact .ok (Prod.ext (Prod.ext_iff.mp h₁).1 (Prod.ext_iff.mp hr).2)

theorem executeOperation_limits (operationContext : OperationContext) (localTime : Nat)
    (operation : Operation) (t : TransactionTracker) (c : ResourceController (Option Owner)) :
    (s.executeOperation context hashing operationContext localTime operation t c).Ensures
      fun p => p.2.2.limits = c.limits := by
  refine .guard fun _ => ?_
  cases operation with
  | system operation =>
    refine .bind_any ?_
    rintro ⟨system, t', newApplication⟩
    cases newApplication with
    | none => exact .ok rfl
    | some created =>
      exact .bind (runUserAction_limits _ _ _ _ _ _ _ _ _ _ _) fun _ h => .ok h
  | user id bytes =>
    exact .bind (runUserAction_limits _ _ _ _ _ _ _ _ _ _ _) fun _ h => .ok h

theorem executeMessage_limits (messageContext : MessageContext) (localTime : Nat)
    (message : Message) (grant : Option Nat) (t : TransactionTracker)
    (c : ResourceController (Option Owner)) :
    (s.executeMessage context hashing messageContext localTime message grant t c).Ensures
      fun p => p.2.2.2.limits = c.limits := by
  refine .guard fun _ => ?_
  cases message with
  | system message => exact .bind_any fun _ => .bind_any fun _ => .ok rfl
  | user id bytes => exact s.runUserAction_limits context hashing _ _ _ _ _ _ _ _

end ExecutionStateView

end Linera
