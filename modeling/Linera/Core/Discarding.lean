import Linera.Core.CrossChain
import Linera.Chain.Execution
import Linera.Chain.Outbox
import Mathlib.Logic.Relation

/-!
# Discarding failing messages

A client stages a block by executing it. If an incoming bundle fails, then the bundle is
rejected and the block is executed again. A bundle that is rejected already can fail too,
for instance because the block gets too large with it: then rejecting it changes nothing,
and a deterministic executor fails in the same way again.
-/

namespace Linera

def MessageBundle.isProtected (b : MessageBundle) : Bool := b.messages.any PostedMessage.isProtected

namespace Block

def reject (b : Block) (index : Nat) (message : IncomingBundle) : Block :=
  { b with incomingBundles := b.incomingBundles.set index { message with action := .reject } }

def accepted (b : Block) : Nat := b.incomingBundles.countP fun message => message.action = .accept

end Block

namespace Discarding

variable {ρ : Type} (execute : Block → Except WorkerError ρ)

/-- How the loop ends. -/
inductive Ending (ρ : Type) where
  | returned (result : Except WorkerError ρ)
  /-- `expect("Message at given index should exist")`. -/
  | panicked

/-- `stage_block_execution_and_discard_failing_messages`, with a bound on the number of
executions. The result is `none` if they do not suffice. -/
def stageBlockExecutionAndDiscardFailingMessages : Nat → Block → Option (Ending ρ)
  | 0, _ => none
  | executions + 1, block =>
    match execute block with
    | .error (.chainError (.executionError error (.incomingBundle index))) =>
      match block.incomingBundles[index]? with
      | none => some .panicked
      | some message =>
        if message.bundle.isProtected then
          some (.returned (.error (.chainError (.executionError error (.incomingBundle index)))))
        else
          -- Reject the faulty message from the block and continue.
          stageBlockExecutionAndDiscardFailingMessages executions (block.reject index message)
    | result => some (.returned result)

/-- The executor has failed because of a bundle, which is then rejected. -/
def Rejects (block block' : Block) : Prop :=
  ∃ error index message,
    execute block = .error (.chainError (.executionError error (.incomingBundle index))) ∧
    block.incomingBundles[index]? = some message ∧ message.bundle.isProtected = false ∧
    block' = block.reject index message

/-- The executor has failed because of a bundle that is rejected already. -/
def FailsRejected (block : Block) : Prop :=
  ∃ error index message,
    execute block = .error (.chainError (.executionError error (.incomingBundle index))) ∧
    block.incomingBundles[index]? = some message ∧ message.bundle.isProtected = false ∧
    message.action = .reject

/-- The client comes to a block in which a bundle fails that is rejected already. -/
def ComesToRejected (block : Block) : Prop :=
  ∃ block', Relation.ReflTransGen (Rejects execute) block block' ∧ FailsRejected execute block'

/-- Errors are attributed to bundles of the block. -/
def Attributed : Prop :=
  ∀ block error index,
    execute block = .error (.chainError (.executionError error (.incomingBundle index))) →
      index < block.incomingBundles.length

variable {execute} {block block' : Block}

theorem Rejects.eq (h : Rejects execute block block') (executions : Nat) :
    stageBlockExecutionAndDiscardFailingMessages execute (executions + 1) block =
      stageBlockExecutionAndDiscardFailingMessages execute executions block' := by
  obtain ⟨error, index, message, hfailed, hmessage, hprotected, rfl⟩ := h
  rw [stageBlockExecutionAndDiscardFailingMessages, hfailed]
  simp only [hmessage, hprotected, Bool.false_eq_true, if_false]

/-- An execution ends the loop, or a bundle is rejected. -/
theorem returns_or_rejects (execute : Block → Except WorkerError ρ) (block : Block) :
    (∃ ending, (∀ executions, stageBlockExecutionAndDiscardFailingMessages execute (executions + 1)
      block = some ending) ∧ (Attributed execute → ending ≠ .panicked)) ∨
    ∃ block', Rejects execute block block' := by
  by_cases h : ∃ error index,
      execute block = .error (.chainError (.executionError error (.incomingBundle index)))
  · obtain ⟨error, index, hfailed⟩ := h
    cases hmessage : block.incomingBundles[index]? with
    | none =>
      -- The `expect` of the source, which attributed errors do not reach.
      refine .inl ⟨.panicked, fun executions => ?_, fun hattributed => ?_⟩
      · rw [stageBlockExecutionAndDiscardFailingMessages, hfailed]
        simp only [hmessage]
      · exact absurd (hattributed block error index hfailed)
          (Nat.not_lt.mpr (List.getElem?_eq_none_iff.mp hmessage))
    | some message =>
      cases hprotected : message.bundle.isProtected with
      | true =>
        refine .inl ⟨.returned (execute block), fun executions => ?_, fun _ => nofun⟩
        rw [stageBlockExecutionAndDiscardFailingMessages, hfailed]
        simp only [hmessage, hprotected, if_true]
      | false => exact .inr ⟨_, error, index, message, hfailed, hmessage, hprotected, rfl⟩
  · refine .inl ⟨.returned (execute block), fun executions => ?_, fun _ => nofun⟩
    rw [stageBlockExecutionAndDiscardFailingMessages]
    split
    · next error index hfailed => exact absurd ⟨error, index, hfailed⟩ h
    · rfl

/-- Rejecting a bundle once more is no change. -/
theorem FailsRejected.rejects (h : FailsRejected execute block) : Rejects execute block block := by
  obtain ⟨error, index, message, hfailed, hmessage, hprotected, haction⟩ := h
  obtain ⟨hindex, hget⟩ := List.getElem?_eq_some_iff.mp hmessage
  refine ⟨error, index, message, hfailed, hmessage, hprotected, ?_⟩
  have hsame : ({ message with action := .reject } : IncomingBundle) =
      block.incomingBundles[index] := by
    rw [hget, ← haction]
  rw [Block.reject, hsame, List.set_getElem_self]

/-- Rejecting a bundle that is accepted leaves fewer to reject. -/
theorem Rejects.failsRejected_or_lt (h : Rejects execute block block') :
    FailsRejected execute block ∨ block'.accepted < block.accepted := by
  obtain ⟨error, index, message, hfailed, hmessage, hprotected, rfl⟩ := h
  obtain ⟨hindex, hget⟩ := List.getElem?_eq_some_iff.mp hmessage
  cases haction : message.action with
  | reject => exact .inl ⟨error, index, message, hfailed, hmessage, hprotected, haction⟩
  | accept =>
    right
    have hpos : 0 < block.accepted :=
      List.countP_pos_iff.mpr ⟨message, hget ▸ List.getElem_mem hindex, by simp [haction]⟩
    unfold Block.accepted at hpos ⊢
    rw [Block.reject, List.countP_set hindex, hget]
    simp only [haction, decide_true, if_true, reduceCtorEq, decide_false, Bool.false_eq_true,
      if_false]
    omega

/-- More executions do not change how the loop ends. -/
theorem stage_mono {executions : Nat} {ending : Ending ρ}
    (h : stageBlockExecutionAndDiscardFailingMessages execute executions block = some ending)
    (more : Nat) : stageBlockExecutionAndDiscardFailingMessages execute (executions + more) block =
      some ending := by
  induction executions generalizing block with
  | zero => cases h
  | succ executions ih =>
    rw [Nat.succ_add]
    obtain ⟨ending', hending, -⟩ | ⟨block', hrejects⟩ := returns_or_rejects execute block
    · rw [hending] at h ⊢
      exact h
    · rw [hrejects.eq] at h ⊢
      exact ih h

/-- One execution for each accepted bundle, and one more. -/
theorem returns_of_not_comesToRejected (h : ¬ComesToRejected execute block) :
    ∃ ending, stageBlockExecutionAndDiscardFailingMessages execute (block.accepted + 1) block =
      some ending := by
  induction haccepted : block.accepted using Nat.strongRecOn generalizing block with
  | ind n ih =>
    obtain ⟨ending, hending, -⟩ | ⟨block', hrejects⟩ := returns_or_rejects execute block
    · exact ⟨ending, hending n⟩
    · rw [hrejects.eq]
      obtain hfails | hlt := hrejects.failsRejected_or_lt
      · exact absurd ⟨_, .refl, hfails⟩ h
      · -- The rest takes at most as many executions as bundles are still accepted.
        rw [haccepted] at hlt
        have hnot : ¬ComesToRejected execute block' := fun ⟨stuck, hreaches, hstuck⟩ =>
          h ⟨stuck, .head hrejects hreaches, hstuck⟩
        obtain ⟨ending, hending⟩ := ih block'.accepted hlt hnot rfl
        refine ⟨ending, ?_⟩
        have := stage_mono hending (n - (block'.accepted + 1))
        rwa [Nat.add_sub_cancel' hlt] at this

theorem never_of_comesToRejected (h : ComesToRejected execute block) (executions : Nat) :
    stageBlockExecutionAndDiscardFailingMessages execute executions block = none := by
  obtain ⟨stuck, hreaches, hstuck⟩ := h
  induction hreaches using Relation.ReflTransGen.head_induction_on generalizing executions with
  | refl =>
    -- From here on, every execution is of the same block.
    induction executions with
    | zero => rfl
    | succ executions ih => rw [hstuck.rejects.eq, ih]
  | head hrejects _ ih =>
    cases executions with
    | zero => rfl
    | succ executions => rw [hrejects.eq, ih]

/-- With attributed errors the index of a failing bundle exists. -/
theorem ne_panicked (h : Attributed execute) (executions : Nat) :
    stageBlockExecutionAndDiscardFailingMessages execute executions block ≠ some .panicked := by
  induction executions generalizing block with
  | zero => exact nofun
  | succ executions ih =>
    obtain ⟨ending, hending, hpanicked⟩ | ⟨block', hrejects⟩ := returns_or_rejects execute block
    · rw [hending]
      exact fun heq => hpanicked h (Option.some.inj heq)
    · rw [hrejects.eq]
      exact ih

/-- **Discarding failing messages terminates**, after at most one execution for each bundle and one
more, exactly if the client does not come to a block in which a bundle fails that is rejected
already. -/
theorem discards_within_bundles (execute : Block → Except WorkerError ρ)
    (hattributed : Attributed execute) (block : Block) :
    (¬ComesToRejected execute block → ∃ result, stageBlockExecutionAndDiscardFailingMessages execute
      (block.incomingBundles.length + 1) block = some (.returned result)) ∧
    (ComesToRejected execute block → ∀ executions,
      stageBlockExecutionAndDiscardFailingMessages execute executions block = none) := by
  refine ⟨fun h => ?_, fun h => never_of_comesToRejected h⟩
  obtain ⟨ending, hending⟩ := returns_of_not_comesToRejected h
  have hle : block.accepted ≤ block.incomingBundles.length := List.countP_le_length
  have hmore := stage_mono hending (block.incomingBundles.length - block.accepted)
  rw [show block.accepted + 1 + (block.incomingBundles.length - block.accepted) =
    block.incomingBundles.length + 1 by omega] at hmore
  cases ending with
  | panicked => exact absurd hmore (ne_panicked hattributed _)
  | returned result => exact ⟨result, hmore⟩

/-- An executor that fails in the first bundle, unless it is rejected. -/
def rejectFirst (block : Block) : Except WorkerError Unit :=
  match block.incomingBundles with
  | message :: _ =>
    if message.action = .accept
    then .error (.chainError (.executionError .executedBlockTooLarge (.incomingBundle 0)))
    else .ok ()
  | [] => .ok ()

/-- A bundle with a message from chain 3. -/
def oneBundle : IncomingBundle :=
  ⟨⟨⟨⟨3⟩⟩, .direct⟩, ⟨0, 0, ⟨0⟩, 0, [⟨none, 0, none, .simple, 0, .system (.credit none 1 none)⟩]⟩,
    .accept⟩

def oneBundleBlock : Block := ⟨⟨⟨0⟩⟩, 0, [oneBundle], [], 0, 0, none, none⟩

/-- The failing bundle is rejected in the second execution. -/
theorem discards_first_bundle :
    stageBlockExecutionAndDiscardFailingMessages rejectFirst 2 oneBundleBlock =
      some (.returned (.ok ())) ∧
    ∃ result, stageBlockExecutionAndDiscardFailingMessages rejectFirst 2 oneBundleBlock =
      some (.returned result) := by
  have hattributed : Attributed rejectFirst := by
    intro block error index hfailed
    unfold rejectFirst at hfailed
    split at hfailed
    · next message rest hbundles =>
      split at hfailed
      · cases hfailed
        rw [hbundles]
        exact Nat.zero_lt_succ _
      · cases hfailed
    · cases hfailed
  refine ⟨rfl, (discards_within_bundles rejectFirst hattributed oneBundleBlock).1 fun hstuck => ?_⟩
  have := never_of_comesToRejected hstuck 2
  cases this

/-- A chain on which no block may be larger than the empty one. -/
def tightChain : ChainStateView :=
  ChainStateView.activeChain.setSystem { ChainStateView.activeChain.executionState.system with
    committees := .ofList [(0, ⟨.empty, { ResourceControlPolicy.default with
      maximumExecutedBlockSize := emptyExecutedBlockSize }⟩)] }

def tightExecute (block : Block) : Except WorkerError BlockExecution :=
  (tightChain.executeBlock ChainStateView.simpleContext block 0 none).mapError .ofChainError

/-- The bundle makes the block too large, no matter whether it is rejected. -/
theorem never_done_discarding :
    ¬∃ executions ending, stageBlockExecutionAndDiscardFailingMessages tightExecute executions
      oneBundleBlock = some ending := by
  have hfailed : tightExecute oneBundleBlock =
      .error (.chainError (.executionError .executedBlockTooLarge (.incomingBundle 0))) ∧
    tightExecute (oneBundleBlock.reject 0 oneBundle) =
      .error (.chainError (.executionError .executedBlockTooLarge (.incomingBundle 0))) := by
    decide
  have hfirst : Rejects tightExecute oneBundleBlock (oneBundleBlock.reject 0 oneBundle) :=
    ⟨_, 0, oneBundle, hfailed.1, rfl, rfl, rfl⟩
  have hagain : FailsRejected tightExecute (oneBundleBlock.reject 0 oneBundle) :=
    ⟨_, 0, { oneBundle with action := .reject }, hfailed.2, rfl, rfl, rfl⟩
  rintro ⟨executions, ending, hending⟩
  rw [never_of_comesToRejected ⟨_, .single hfirst, hagain⟩] at hending
  cases hending

end Discarding

end Linera
