import Linera.Chain.BlockRule
import Linera.Chain.Outbox
import Linera.Core.ChainWorkerState

/-!
# Confirmed blocks are applied in order

Confirmed blocks may be delivered to a worker in any order and more than once.
As long as the storage takes what the worker saves, the worker applies each block
once, when the blocks before it have been applied: `confirmed_in_order` names the
calls that have an effect, and says that the others do not matter.

The flag that the chain is known to be active could make a difference: a first
attempt that fails may have set it. `Sequential.early` is what is needed of it: the
same certificate initializes the chain in the same way each time.

If a save fails, the view of the chain is ahead of the storage, and the next block
leaves a gap in the stored log (`log_entry_lost`).
-/

namespace Linera

/-! ## Saving -/

namespace StoredChain

@[simp] theorem register_self {α : Type} [DecidableEq α] (shown current : α) :
    register shown shown current = current := by
  unfold register
  split
  · next h => exact h.symm
  · rfl

/-- If the view shows what is stored, then saving it stores what it has become. -/
theorem write_self (shown current : ChainStateView) (missing : List Nat) :
    (StoredChain.mk shown missing).write shown current = ⟨current, missing⟩ := by
  simp [write]

end StoredChain

/-! ## One block -/

namespace ChainStateView

theorem executeInitMessage_ensures (context : ChainContext) (c : ChainStateView)
    (messageId : MessageId) (config : OpenChainConfig) (timestamp localTime : Nat) :
    (c.executeInitMessage context messageId config timestamp localTime).Ensures fun c' =>
      ∃ system, c.executionState.system.initializeChain messageId timestamp config = .ok system ∧
        c'.executionState = { c.executionState with system } := by
  refine .bind (P := fun system =>
    c.executionState.system.initializeChain messageId timestamp config = .ok system)
    (fun _ h => Except.mapError_eq_ok.mp h) fun system hsystem => ?_
  exact .bind_any fun _ => .ok ⟨system, hsystem, rfl⟩

variable (env : Environment) (c : ChainStateView)

theorem initializeBeforeCheck_initializes (block : Block) :
    (c.initializeBeforeCheck env block).Ensures c.Initializes := by
  unfold initializeBeforeCheck
  split
  · split
    · exact .ok (.refl c)
    · exact .mapError (c.executeInitMessage_initializes _ _ _ _ _)
  · exact .ok (.refl c)

theorem initializeBeforeCheck_sameTip (block : Block) :
    (c.initializeBeforeCheck env block).Ensures c.SameTip :=
  (c.initializeBeforeCheck_initializes env block).mono fun _ h => .of_initializes h

variable {env c} in
/-- How a block initializes the chain does not depend on the environment. -/
theorem initializeBeforeCheck_isActive_eq {env' : Environment} {block : Block}
    {c₁ c₂ : ChainStateView} (h₁ : c.initializeBeforeCheck env block = .ok c₁)
    (h₂ : c.initializeBeforeCheck env' block = .ok c₂) : c₁.isActive = c₂.isActive := by
  unfold initializeBeforeCheck at h₁ h₂
  split at h₁
  · next hfirst =>
    rw [if_pos hfirst] at h₂
    split at h₁
    · next hnone =>
      rw [hnone] at h₂
      rw [← Except.ok.inj h₁, ← Except.ok.inj h₂]
    · next incomingBundle postedMessage config hsome =>
      rw [hsome] at h₂
      obtain ⟨system₁, hsystem₁, hstate₁⟩ :=
        executeInitMessage_ensures _ c _ _ _ _ c₁ (Except.mapError_eq_ok.mp h₁)
      obtain ⟨system₂, hsystem₂, hstate₂⟩ :=
        executeInitMessage_ensures _ c _ _ _ _ c₂ (Except.mapError_eq_ok.mp h₂)
      have hsystem : system₁ = system₂ := Except.ok.inj (hsystem₁.symm.trans hsystem₂)
      rw [isActive, hstate₁, hsystem, isActive, hstate₂]
  · next hfirst =>
    rw [if_neg hfirst] at h₂
    rw [← Except.ok.inj h₁, ← Except.ok.inj h₂]

/-- A block that is applied advances the tip by one, and its hash ends the log. -/
theorem applyConfirmedBlock_tip (certificate : ConfirmedBlockCertificate) :
    (c.applyConfirmedBlock env certificate).Ensures fun c' =>
      c'.tipState.nextBlockHeight ≤ BlockHeight.max ∧
        c'.tipState.nextBlockHeight = c.tipState.nextBlockHeight + 1 ∧
        c'.tipState.blockHash = some (certificate.hash env.primitives) ∧
        c'.confirmedLog = c.confirmedLog ++ [certificate.hash env.primitives] := by
  refine .bind_any ?_
  rintro ⟨epoch, committee⟩
  refine .bind_any fun _ => .bind_any fun _ => .guard fun _ => .bind_any fun _ => ?_
  refine .bind (.mapError (SameTip.removeBundlesFromInboxes _ c _)) fun c₁ hc₁ => ?_
  refine .bind (.mapError (SameTip.executeBlock _ c₁ _ _ _)) fun execution hexecution => ?_
  refine .guard fun _ => .bind (P := fun c' =>
    c'.tipState.nextBlockHeight ≤ BlockHeight.max ∧
      c'.tipState.nextBlockHeight = c.tipState.nextBlockHeight + 1 ∧
      c'.tipState.blockHash = some (certificate.hash env.primitives) ∧
      c'.confirmedLog = c.confirmedLog ++ [certificate.hash env.primitives]) ?_
    fun c' hc' => .bind_any fun _ => .ok hc'
  have htip := hc₁.trans hexecution
  refine .bind (P := fun next => next ≤ BlockHeight.max ∧
    next = execution.chain.tipState.nextBlockHeight + 1) (.mapError fun next hnext => ?_)
    fun next hnext => .ok ⟨hnext.1, ?_, rfl, ?_⟩
  · exact ⟨BlockHeight.tryAddOne_le _ next hnext, BlockHeight.tryAddOne_ensures _ next hnext⟩
  · rw [← htip.tipState]
    exact hnext.2
  · rw [← htip.confirmedLog]

end ChainStateView

/-! ## One call -/

/-- A call of `process_confirmed_block`. -/
structure ConfirmedCall where
  env : Environment
  certificate : ConfirmedBlockCertificate

namespace ConfirmedCall

def block (call : ConfirmedCall) : Block := call.certificate.value.executedBlock.block

def height (call : ConfirmedCall) : Nat := call.block.height

def hash (call : ConfirmedCall) : CryptoHash := call.certificate.hash call.env.primitives

end ConfirmedCall

namespace ChainWorkerState

def confirm (w : ChainWorkerState) (call : ConfirmedCall) : ChainWorkerState :=
  (w.processConfirmedBlock call.env call.certificate).2

def confirmAll (w : ChainWorkerState) (calls : List ConfirmedCall) : ChainWorkerState :=
  calls.foldl confirm w

@[simp] theorem confirmAll_concat (w : ChainWorkerState) (calls : List ConfirmedCall)
    (call : ConfirmedCall) :
    w.confirmAll (calls ++ [call]) = (w.confirmAll calls).confirm call := by
  simp [confirmAll]

/-- Each of the calls succeeds. -/
def AllSucceed : ChainWorkerState → List ConfirmedCall → Prop
  | _, [] => True
  | w, call :: calls =>
    (w.processConfirmedBlock call.env call.certificate).1 = .ok () ∧
      AllSucceed (w.confirm call) calls

theorem allSucceed_concat {w : ChainWorkerState} {calls : List ConfirmedCall}
    {call : ConfirmedCall} (h : AllSucceed w calls)
    (hcall : ((w.confirmAll calls).processConfirmedBlock call.env call.certificate).1 = .ok ()) :
    AllSucceed w (calls ++ [call]) := by
  induction calls generalizing w with
  | nil => exact ⟨hcall, trivial⟩
  | cons first calls ih => exact ⟨h.1, ih h.2 hcall⟩

/-- The block is at the tip, and the chain is active once the block has initialized it, or is
taken to be so. -/
structure Attempts (w : ChainWorkerState) (call : ConfirmedCall) (chain : ChainStateView) :
    Prop where
  height : call.height = w.chain.tipState.nextBlockHeight
  initialized : w.chain.initializeBeforeCheck call.env call.block = .ok chain
  active : w.knowsChainIsActive = true ∨ chain.isActive = true

variable {w : ChainWorkerState} {call : ConfirmedCall}

theorem processConfirmedBlock_of_attempts {chain : ChainStateView} (h : w.Attempts call chain) :
    w.processConfirmedBlock call.env call.certificate =
      { w with knowsChainIsActive := true }.finish call.env
        (some <$> chain.applyConfirmedBlock call.env call.certificate) := by
  have hheight : call.certificate.value.executedBlock.block.height =
      w.chain.tipState.nextBlockHeight := h.height
  simp only [processConfirmedBlock, hheight, lt_irrefl, if_false]
  rw [show w.chain.initializeBeforeCheck call.env
    call.certificate.value.executedBlock.block = _ from h.initialized]
  obtain ⟨wchain, stored, knows⟩ := w
  simp only [whenActive]
  split
  · next hknows =>
    obtain rfl : knows = true := hknows
    rfl
  · next hknows =>
    have hactive : chain.isActive = true := h.active.resolve_left hknows
    rw [ChainStateView.ensureIsActive, (Except.ensure_eq_ok (u := ())).mpr hactive]

/-- A block that is not attempted changes nothing, and if there is no error then the block was
confirmed before. -/
theorem processConfirmedBlock_of_not_attempts (h : ∀ chain, ¬w.Attempts call chain) :
    w.confirm call = w ∧ ((w.processConfirmedBlock call.env call.certificate).1 = .ok () →
      call.height < w.chain.tipState.nextBlockHeight) := by
  simp only [confirm, processConfirmedBlock]
  split
  · exact ⟨rfl, fun h => (by cases h)⟩
  next hle =>
  split
  · next hlt => exact ⟨rfl, fun _ => hlt⟩
  next hge =>
  split
  · exact ⟨rfl, fun h => (by cases h)⟩
  · next chain hinit =>
    have hheight : call.height = w.chain.tipState.nextBlockHeight :=
      Nat.le_antisymm (Nat.le_of_not_lt hle) (Nat.le_of_not_lt hge)
    have hinactive : ¬(w.knowsChainIsActive = true ∨ chain.isActive = true) := fun hactive =>
      h chain ⟨hheight, hinit, hactive⟩
    rw [not_or] at hinactive
    simp only [whenActive, hinactive.1, Bool.false_eq_true, if_false]
    split
    · exact ⟨rfl, fun h => (by cases h)⟩
    · next hensure =>
      exact absurd (Except.ensure_eq_ok.mp hensure) hinactive.2

/-! ## All calls -/

/-- The calls in `applied` are the ones that had an effect. -/
structure Sequential (start : ChainWorkerState) (calls applied : List ConfirmedCall) : Prop where
  sublist : applied.Sublist calls
  heights : applied.map ConfirmedCall.height = List.range applied.length
  succeed : AllSucceed start applied
  chain : (start.confirmAll applied).chain = (start.confirmAll calls).chain
  inSync : (start.confirmAll calls).stored = ⟨(start.confirmAll calls).chain, []⟩
  inSync_applied : (start.confirmAll applied).stored = ⟨(start.confirmAll applied).chain, []⟩
  tip : (start.confirmAll calls).chain.tipState.nextBlockHeight = applied.length
  log : (start.confirmAll calls).chain.confirmedLog = applied.map ConfirmedCall.hash
  blockHash : (start.confirmAll calls).chain.tipState.blockHash =
    (applied.map ConfirmedCall.hash).getLast?
  knows : applied ≠ [] → (start.confirmAll applied).knowsChainIsActive = true
  /-- Before the first block, the flag is only set by a block that initializes the chain. -/
  early : applied = [] → (start.confirmAll calls).knowsChainIsActive = true →
    ∃ call ∈ calls, call.height = 0 ∧ ∃ chain,
      start.chain.initializeBeforeCheck call.env call.block = .ok chain ∧ chain.isActive = true

variable {start : ChainWorkerState} {calls applied : List ConfirmedCall}

section

variable (h : start.Sequential calls applied)

include h

/-- A call that changes nothing but, perhaps, the flag. -/
theorem Sequential.keep {flag : Bool}
    (hconfirm : (start.confirmAll calls).confirm call =
      { start.confirmAll calls with knowsChainIsActive := flag })
    (hflag : applied = [] → flag = true →
      (start.confirmAll calls).knowsChainIsActive = true ∨ call.height = 0 ∧ ∃ chain,
        start.chain.initializeBeforeCheck call.env call.block = .ok chain ∧
          chain.isActive = true) :
    start.Sequential (calls ++ [call]) applied := by
  refine ⟨h.sublist.trans (List.sublist_append_left _ _), h.heights, h.succeed, ?_, ?_,
    h.inSync_applied, ?_, ?_, ?_, h.knows, ?_⟩
  all_goals rw [confirmAll_concat, hconfirm]
  · exact h.chain
  · exact h.inSync
  · exact h.tip
  · exact h.log
  · exact h.blockHash
  · intro hnil hset
    rcases hflag hnil hset with hknows | hcall
    · obtain ⟨early, hmem, hearly⟩ := h.early hnil hknows
      exact ⟨early, List.mem_append_left _ hmem, hearly⟩
    · exact ⟨call, List.mem_append_right _ (List.mem_singleton_self _), hcall⟩

/-- A call without effect. -/
theorem Sequential.skip
    (hconfirm : (start.confirmAll calls).confirm call = start.confirmAll calls) :
    start.Sequential (calls ++ [call]) applied :=
  h.keep hconfirm fun _ hknows => .inl hknows

/-- A call that fails after the chain was found to be active. -/
theorem Sequential.fail {chain : ChainStateView}
    (hattempts : (start.confirmAll calls).Attempts call chain)
    (hconfirm : (start.confirmAll calls).confirm call =
      { start.confirmAll calls with knowsChainIsActive := true }) :
    start.Sequential (calls ++ [call]) applied := by
  refine h.keep hconfirm fun hnil _ => ?_
  subst hnil
  -- The flag was set by this call, unless it had been set by an earlier one.
  refine hattempts.active.imp_right fun hactive => ?_
  have hinit := hattempts.initialized
  rw [← h.chain] at hinit
  exact ⟨hattempts.height.trans h.tip, chain, hinit, hactive⟩

theorem Sequential.apply {chain chain' : ChainStateView}
    (hunique : ∀ call' ∈ calls, call'.height = call.height → call'.certificate = call.certificate)
    (hwrite : call.env.writeBatch = true) (hattempts : (start.confirmAll calls).Attempts call chain)
    (happly : chain.applyConfirmedBlock call.env call.certificate = .ok chain') :
    start.Sequential (calls ++ [call]) (applied ++ [call]) := by
  have hfinish : ∀ v : ChainWorkerState,
      v.finish call.env (some <$> chain.applyConfirmedBlock call.env call.certificate) =
        (.ok (), { v with chain := chain', stored := v.stored.write v.chain chain' }) := fun v => by
    rw [happly]
    exact if_pos hwrite
  -- Without the other calls, the block is attempted as well.
  have hattempts' : (start.confirmAll applied).Attempts call chain := by
    refine ⟨h.chain ▸ hattempts.height, h.chain ▸ hattempts.initialized, ?_⟩
    by_cases hnil : applied = []
    · obtain hknows | hactive := hattempts.active
      · obtain ⟨early, hmem, hheight, chain₁, hinit, hactive⟩ := h.early hnil hknows
        have hzero : call.height = 0 := by
          rw [hattempts.height, h.tip, hnil, List.length_nil]
        have hsame := hunique early hmem (hheight.trans hzero.symm)
        have hinit' := hattempts.initialized
        rw [← h.chain, hnil] at hinit'
        have hblock : early.block = call.block := by
          rw [ConfirmedCall.block, hsame, ConfirmedCall.block]
        rw [hblock] at hinit
        exact .inr ((ChainStateView.initializeBeforeCheck_isActive_eq hinit' hinit).trans hactive)
      · exact .inr hactive
    · exact .inl (h.knows hnil)
  have hconfirm := processConfirmedBlock_of_attempts hattempts
  have hconfirm' := processConfirmedBlock_of_attempts hattempts'
  rw [hfinish] at hconfirm hconfirm'
  have hsync : (start.confirmAll calls).confirm call = ⟨chain', ⟨chain', []⟩, true⟩ := by
    rw [confirm, hconfirm]
    simp only [h.inSync, StoredChain.write_self]
  have hsync' : (start.confirmAll applied).confirm call = ⟨chain', ⟨chain', []⟩, true⟩ := by
    rw [confirm, hconfirm']
    simp only [h.inSync_applied, StoredChain.write_self]
  obtain ⟨-, htip, hhash, hlog⟩ := chain.applyConfirmedBlock_tip call.env call.certificate chain' happly
  have hsame := (start.confirmAll calls).chain.initializeBeforeCheck_sameTip call.env call.block
    chain hattempts.initialized
  have hlength : chain.tipState.nextBlockHeight = applied.length := by rw [hsame.tipState, h.tip]
  refine ⟨h.sublist.append_right [call], ?_, allSucceed_concat h.succeed ?_, ?_, ?_, ?_, ?_, ?_, ?_,
    fun _ => ?_, fun hnil => absurd hnil (by simp)⟩
  · rw [List.map_append, h.heights, List.map_singleton, hattempts.height, h.tip,
      List.length_append, List.length_singleton, List.range_succ]
  · rw [hconfirm']
  all_goals simp only [confirmAll_concat, hsync, hsync']
  · rw [htip, hlength, List.length_append, List.length_singleton]
  · rw [hlog, hsame.confirmedLog, h.log, List.map_append]
    rfl
  · rw [hhash, List.map_append, List.map_singleton, List.getLast?_concat]
    rfl

end

/-- The invariant of all calls, by induction from the first to the last. -/
theorem sequential (hstart : start.Sequential [] [])
    (hunique : ∀ call ∈ calls, ∀ call' ∈ calls, call.height = call'.height →
      call.certificate = call'.certificate) (hwrites : ∀ call ∈ calls, call.env.writeBatch = true) :
    ∃ applied, start.Sequential calls applied := by
  induction calls using List.reverseRecOn with
  | nil => exact ⟨[], hstart⟩
  | append_singleton calls call ih =>
    obtain ⟨applied, h⟩ := ih
      (fun call₁ h₁ call₂ h₂ => hunique call₁ (List.mem_append_left _ h₁) call₂
        (List.mem_append_left _ h₂))
      (fun call₁ h₁ => hwrites call₁ (List.mem_append_left _ h₁))
    have hlast : call ∈ calls ++ [call] := List.mem_append_right _ (List.mem_singleton_self call)
    by_cases hattempts : ∃ chain, (start.confirmAll calls).Attempts call chain
    · obtain ⟨chain, hattempts⟩ := hattempts
      cases happly : chain.applyConfirmedBlock call.env call.certificate with
      | error error =>
        refine ⟨applied, h.fail hattempts ?_⟩
        rw [confirm, processConfirmedBlock_of_attempts hattempts, happly]
        rfl
      | ok chain' =>
        exact ⟨applied ++ [call], h.apply
          (fun call' hmem => hunique call' (List.mem_append_left _ hmem) call hlast)
          (hwrites call hlast) hattempts happly⟩
    · rw [not_exists] at hattempts
      exact ⟨applied, h.skip (processConfirmedBlock_of_not_attempts hattempts).1⟩

/-- Confirmed blocks are applied once and in order. Of certificates with at most one per height,
delivered in any order and any number of times, some have been applied, one for each height from
zero. The storage is as if only those had been delivered. -/
theorem confirmed_in_order {chain : ChainStateView} {calls : List ConfirmedCall}
    (hheight : chain.tipState.nextBlockHeight = 0) (hhash : chain.tipState.blockHash = none)
    (hlog : chain.confirmedLog = [])
    (hunique : ∀ call ∈ calls, ∀ call' ∈ calls, call.height = call'.height →
      call.certificate = call'.certificate)
    (hwrites : ∀ call ∈ calls, call.env.writeBatch = true) :
    ∃ applied, applied.Sublist calls ∧
      applied.map ConfirmedCall.height = List.range applied.length ∧
      AllSucceed (load chain) applied ∧
      ((load chain).confirmAll calls).stored = ((load chain).confirmAll applied).stored ∧
      ((load chain).confirmAll calls).stored.chain.tipState.nextBlockHeight = applied.length ∧
      ((load chain).confirmAll calls).stored.chain.confirmedLog.length = applied.length ∧
      (∀ i, ((load chain).confirmAll calls).stored.confirmedEntry i =
        (applied[i]?).map ConfirmedCall.hash) ∧
      ((load chain).confirmAll calls).stored.chain.tipState.blockHash =
        applied.getLast?.map ConfirmedCall.hash := by
  have hstart : (load chain).Sequential [] [] := by
    refine ⟨.refl _, rfl, trivial, rfl, rfl, rfl, hheight, hlog, hhash, ?_, ?_⟩
    · exact fun hnil => absurd rfl hnil
    · exact fun _ hknows => Bool.noConfusion hknows
  obtain ⟨applied, h⟩ := sequential hstart hunique hwrites
  refine ⟨applied, h.sublist, h.heights, h.succeed, ?_, ?_, ?_, fun i => ?_, ?_⟩
  · rw [h.inSync, h.inSync_applied, h.chain]
  · rw [h.inSync]
    exact h.tip
  · rw [h.inSync, h.log, List.length_map]
  · rw [h.inSync, StoredChain.confirmedEntry, if_neg List.not_mem_nil, h.log, List.getElem?_map]
  · rw [h.inSync, h.blockHash, List.getLast?_map]

/-! ## Two blocks -/

def oneValidatorChain : ChainStateView :=
  ChainStateView.activeChain.setSystem { ChainStateView.activeChain.executionState.system with
    committees := .ofList [(0, ⟨.ofList [(⟨1⟩, ⟨"", 1⟩)], .default⟩)] }

/-- An environment that is simple enough to compute with. -/
def simpleEnvironment (writeBatch : Bool) : Environment :=
  { ChainStateView.simpleContext with
    startTime := 0
    localTime := 0
    readBlobs blobIds := some (blobIds.map fun _ => none)
    writeBlobsAndCertificate _ _ := true
    maybeWriteBlobStates _ _ _ := true
    createNetworkActions _ := .ok ()
    writeBatch }

def deliver (height : Nat) (previousBlockHash : Option CryptoHash) (writeBatch : Bool) :
    ConfirmedCall where
  env := simpleEnvironment writeBatch
  certificate := ⟨⟨⟨⟨⟨⟨0⟩⟩, 0, [], [], height, height, none, previousBlockHash⟩,
    ⟨[], ⟨0⟩, [], []⟩⟩⟩, .fast, [(⟨1⟩, ⟨1⟩)]⟩

/-- Two blocks are delivered in the wrong order, and then again. -/
def outOfOrder : List ConfirmedCall :=
  [deliver 1 (some ⟨0⟩) true, deliver 0 none true, deliver 0 none true, deliver 1 (some ⟨0⟩) true]

theorem confirmed_in_order_two_blocks :
    ∃ applied : List ConfirmedCall, applied.Sublist outOfOrder ∧ applied.length = 2 ∧
      ((load oneValidatorChain).confirmAll outOfOrder).stored =
        ((load oneValidatorChain).confirmAll applied).stored := by
  have htwo : ((load oneValidatorChain).confirmAll
      outOfOrder).stored.chain.tipState.nextBlockHeight = 2 := by
    decide +kernel
  have hunique : ∀ call ∈ outOfOrder, ∀ call' ∈ outOfOrder, call.height = call'.height →
      call.certificate = call'.certificate := by
    intro call hcall call' hcall'
    simp only [outOfOrder, List.mem_cons, List.not_mem_nil, or_false] at hcall hcall'
    obtain rfl | rfl | rfl | rfl := hcall <;> obtain rfl | rfl | rfl | rfl := hcall' <;> decide
  have hwrites : ∀ call ∈ outOfOrder, call.env.writeBatch = true := by
    intro call hcall
    simp only [outOfOrder, List.mem_cons, List.not_mem_nil, or_false] at hcall
    obtain rfl | rfl | rfl | rfl := hcall <;> rfl
  obtain ⟨applied, hsublist, -, -, hstored, htip, -⟩ :=
    @confirmed_in_order oneValidatorChain outOfOrder rfl rfl rfl hunique hwrites
  exact ⟨applied, hsublist, htip.symm.trans htwo, hstored⟩

/-- The save of the first block fails. The worker goes on as if it had been saved, and the second
block is stored without the first one: the chain has height two, and its first block is unknown. -/
theorem log_entry_lost :
    ((load oneValidatorChain).confirmAll
      [deliver 0 none false, deliver 1 (some ⟨0⟩) true]).stored.chain.tipState.nextBlockHeight = 2 ∧
    ((load oneValidatorChain).confirmAll
      [deliver 0 none false, deliver 1 (some ⟨0⟩) true]).stored.confirmedEntry 0 = none := by
  decide +kernel

end ChainWorkerState

end Linera
