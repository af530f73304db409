import Linera.Base.DataTypes
import Linera.Lib.BTreeMap
import Linera.Lib.Run

/-!
# Blob states

The storage records for each blob the last certificate that used it. The workers of
all chains share the storage, and each calls `maybe_write_blob_states` when it
confirms a block. Such a call reads what is stored, decides what to replace, and
writes. Nothing keeps other calls from writing in between.
-/

namespace Linera.Storage

structure BlobState where
  lastUsedBy : CryptoHash
  /-- The chain that published the change. -/
  chainId : ChainId
  blockHeight : Nat
  /-- Epoch of the `lastUsedBy` certificate. -/
  epoch : Nat
deriving DecidableEq

/-- The arguments of `maybe_write_blob_states`. -/
structure Call where
  blobIds : List BlobId
  blobState : BlobState
  overwrite : Bool
deriving DecidableEq

namespace Call

/-- Whether the state of a blob is written, given the stored one, and the later of the two
epochs. -/
def compare (call : Call) : Option BlobState → Bool × Nat
  | none => (true, call.blobState.epoch)
  | some currentBlobState =>
    (call.overwrite && currentBlobState.epoch < call.blobState.epoch,
      max currentBlobState.epoch call.blobState.epoch)

def batch (call : Call) (maybeBlobStates : List (Option BlobState)) : List BlobId :=
  ((maybeBlobStates.zip call.blobIds).filter fun r => (call.compare r.1).1).map Prod.snd

def latestEpoches (call : Call) (maybeBlobStates : List (Option BlobState)) : List Nat :=
  (maybeBlobStates.zip call.blobIds).map fun r => (call.compare r.1).2

end Call

/-- How far a call has come. -/
inductive Progress where
  | reading
  /-- The call has read the stored states, and there is something to write. -/
  | writing (maybeBlobStates : List (Option BlobState))
  | returned (latestEpoches : List Nat)
deriving DecidableEq

/-- The storage, and the calls that have been made so far. -/
structure System where
  blobStates : BTreeMap BlobId BlobState
  calls : List (Call × Progress)

/-- A call is made, or the store executes the read or the write of a call. -/
inductive Event where
  | start (call : Call)
  | read (index : Nat)
  | write (index : Nat)

def writeBatch (blobStates : BTreeMap BlobId BlobState) (call : Call) (batch : List BlobId) :
    BTreeMap BlobId BlobState :=
  batch.foldl (fun blobStates blobId => blobStates.insert blobId call.blobState) blobStates

/-- The steps of `maybe_write_blob_states`. -/
def step (s : System) : Event → Option System
  | .start call =>
    let progress := if call.blobIds = [] then .returned [] else .reading
    some { s with calls := s.calls ++ [(call, progress)] }
  | .read index =>
    match s.calls[index]? with
    | some (call, .reading) =>
      let maybeBlobStates := call.blobIds.map s.blobStates.get
      let progress := if call.batch maybeBlobStates = [] then
          .returned (call.latestEpoches maybeBlobStates)
        else .writing maybeBlobStates
      some { s with calls := s.calls.set index (call, progress) }
    | _ => none
  | .write index =>
    match s.calls[index]? with
    | some (call, .writing maybeBlobStates) =>
      some ⟨writeBatch s.blobStates call (call.batch maybeBlobStates),
        s.calls.set index (call, .returned (call.latestEpoches maybeBlobStates))⟩
    | _ => none

/-! ## Epochs -/

/-- What is stored for a blob keeps its epoch, or gets a greater one. -/
def Forward (s s' : System) : Prop :=
  ∀ blobId state, s.blobStates.get blobId = some state →
    ∃ state', s'.blobStates.get blobId = some state' ∧ state.epoch ≤ state'.epoch

theorem Forward.refl (s : System) : Forward s s := fun _ state h => ⟨state, h, Nat.le_refl _⟩

theorem Forward.trans {s t u : System} (h : Forward s t) (h' : Forward t u) : Forward s u := by
  intro blobId state hstate
  obtain ⟨state', hstate', hle⟩ := h blobId state hstate
  obtain ⟨state'', hstate'', hle'⟩ := h' blobId state' hstate'
  exact ⟨state'', hstate'', hle.trans hle'⟩

/-- A call is about to write the state of a blob although one with a greater epoch is stored. -/
def Overtaken (s : System) : Event → Prop
  | .write index => ∃ call maybeBlobStates, s.calls[index]? = some (call, .writing maybeBlobStates) ∧
      ∃ r ∈ maybeBlobStates.zip call.blobIds, (call.compare r.1).1 ∧
        ∃ state, s.blobStates.get r.2 = some state ∧ call.blobState.epoch < state.epoch
  | _ => False

theorem get_writeBatch (blobStates : BTreeMap BlobId BlobState) (call : Call)
    (batch : List BlobId) (blobId : BlobId) : (writeBatch blobStates call batch).get blobId =
      if blobId ∈ batch then some call.blobState else blobStates.get blobId := by
  induction batch generalizing blobStates with
  | nil => simp [writeBatch]
  | cons b batch ih =>
    rw [writeBatch, List.foldl_cons]
    refine (ih _).trans ?_
    rw [BTreeMap.get_insert]
    by_cases hb : blobId = b <;> simp [hb]

/-- A state that is to be written had a smaller epoch when it was read. -/
theorem Call.lt_of_compare {call : Call} {state : BlobState}
    (h : (call.compare (some state)).1 = true) : state.epoch < call.blobState.epoch := by
  rw [Call.compare, Bool.and_eq_true, decide_eq_true_iff] at h
  exact h.2

theorem mem_batch {call : Call} {maybeBlobStates : List (Option BlobState)} {blobId : BlobId} :
    blobId ∈ call.batch maybeBlobStates ↔
      ∃ maybeBlobState, (maybeBlobState, blobId) ∈ maybeBlobStates.zip call.blobIds ∧
        (call.compare maybeBlobState).1 := by
  simp [Call.batch]

/-- One step. -/
theorem forward_iff (s : System) (event : Event) :
    (∀ s', step s event = some s' → Forward s s') ↔ ¬Overtaken s event := by
  cases event with
  | start call =>
    refine iff_of_true (fun s' h => ?_) id
    cases h
    exact Forward.refl s
  | read index =>
    -- A read changes what the call knows, and nothing in the storage.
    refine iff_of_true (fun s' h => ?_) id
    rw [step] at h
    split at h
    · cases h
      exact Forward.refl s
    · cases h
  | write index =>
    constructor
    · rintro hforward ⟨call, maybeBlobStates, hcall, r, hr, hwrite, state, hstate, hlt⟩
      -- The write puts the smaller epoch of the call in the place of `state`.
      have hstep := hforward _ (by rw [step, hcall])
      obtain ⟨state', hstate', hle⟩ := hstep r.2 state hstate
      rw [get_writeBatch, if_pos (mem_batch.mpr ⟨r.1, hr, hwrite⟩)] at hstate'
      cases hstate'
      omega
    · intro hnot s' h blobId state hstate
      rw [step] at h
      split at h
      · next call maybeBlobStates hcall =>
        cases h
        rw [get_writeBatch]
        split
        · next hmem =>
          obtain ⟨maybeBlobState, hr, hwrite⟩ := mem_batch.mp hmem
          refine ⟨call.blobState, rfl, ?_⟩
          by_contra hlt
          exact hnot ⟨call, maybeBlobStates, hcall, _, hr, hwrite, state, hstate,
            Nat.lt_of_not_le hlt⟩
        · exact ⟨state, hstate, Nat.le_refl _⟩
      · cases h

/-! ## The calls that overtake -/

/-- What is stored for the blob was written by another call, which has returned. -/
def WrittenByOther (s : System) (index : Nat) (blobId : BlobId) (state : BlobState) : Prop :=
  ∃ other call latestEpoches, other ≠ index ∧
    s.calls[other]? = some (call, .returned latestEpoches) ∧ blobId ∈ call.blobIds ∧
    call.blobState = state

/-- Between its read and its write, a call finds what it has read, or what another call has written
since. -/
def Current (s : System) : Prop :=
  ∀ index call maybeBlobStates, s.calls[index]? = some (call, .writing maybeBlobStates) →
    ∀ r ∈ maybeBlobStates.zip call.blobIds, s.blobStates.get r.2 = r.1 ∨
      ∃ state, s.blobStates.get r.2 = some state ∧ WrittenByOther s index r.2 state

theorem eq_of_mem_zip_map {f : BlobId → Option BlobState} {blobIds : List BlobId}
    {r : Option BlobState × BlobId} (h : r ∈ (blobIds.map f).zip blobIds) : f r.2 = r.1 := by
  induction blobIds with
  | nil => cases h
  | cons blobId blobIds ih =>
    obtain rfl | h := List.mem_cons.mp h
    · rfl
    · exact ih h

theorem getElem?_set_ne_of_progress {calls : List (Call × Progress)} {i j : Nat}
    {a b : Call × Progress} (hi : calls[i]? = some a) (hj : calls[j]? = some b) (hne : a ≠ b)
    (c : Call × Progress) : (calls.set i c)[j]? = some b := by
  rw [List.getElem?_set_ne, hj]
  rintro rfl
  exact hne (Option.some.inj (hi.symm.trans hj))

theorem Current.step {s s' : System} {event : Event} (hs : Current s)
    (h : step s event = some s') : Current s' := by
  cases event with
  | start call =>
    cases h
    intro index call' maybeBlobStates hcall r hr
    obtain hlt | hge := Nat.lt_or_ge index s.calls.length
    · rw [List.getElem?_append_left hlt] at hcall
      refine (hs index call' maybeBlobStates hcall r hr).imp_right ?_
      rintro ⟨state, hstate, other, call, latest, hne, hother, hmem⟩
      refine ⟨state, hstate, other, call, latest, hne, ?_, hmem⟩
      rw [List.getElem?_append_left (List.getElem?_eq_some_iff.mp hother).1, hother]
    · -- The new call has not read anything yet.
      have hnew := List.mem_of_getElem? ((List.getElem?_append_right hge).symm.trans hcall)
      have hprogress := congrArg Prod.snd (List.mem_singleton.mp hnew)
      dsimp only at hprogress
      split at hprogress <;> cases hprogress
  | read i =>
    rw [Storage.step] at h
    split at h
    · next call hcall =>
      cases h
      intro index call' maybeBlobStates hcall' r hr
      by_cases heq : i = index
      · -- The call has just read what is stored.
        subst heq
        obtain ⟨hlt, -⟩ := List.getElem?_eq_some_iff.mp hcall
        rw [List.getElem?_set_self hlt] at hcall'
        obtain ⟨rfl, hprogress⟩ := Prod.mk.inj (Option.some.inj hcall')
        split at hprogress
        · cases hprogress
        · cases hprogress
          exact .inl (eq_of_mem_zip_map hr)
      · rw [List.getElem?_set_ne heq] at hcall'
        refine (hs index call' maybeBlobStates hcall' r hr).imp_right ?_
        rintro ⟨state, hstate, other, written, latest, hne, hother, hmem⟩
        exact ⟨state, hstate, other, written, latest, hne,
          getElem?_set_ne_of_progress hcall hother (fun h => nomatch congrArg Prod.snd h) _, hmem⟩
    · cases h
  | write i =>
    rw [Storage.step] at h
    split at h
    · next call maybeBlobStates hcall =>
      cases h
      intro index call' maybeBlobStates' hcall' r hr
      obtain ⟨hlt, -⟩ := List.getElem?_eq_some_iff.mp hcall
      have hne : i ≠ index := by
        rintro rfl
        rw [List.getElem?_set_self hlt] at hcall'
        exact nomatch congrArg Prod.snd (Option.some.inj hcall')
      rw [List.getElem?_set_ne hne] at hcall'
      dsimp only
      rw [get_writeBatch]
      split
      · next hmem =>
        obtain ⟨maybeBlobState, hr', -⟩ := mem_batch.mp hmem
        exact .inr ⟨_, rfl, i, call, _, hne, List.getElem?_set_self hlt,
          (List.of_mem_zip hr').2, rfl⟩
      · refine (hs index call' maybeBlobStates' hcall' r hr).imp_right ?_
        rintro ⟨state, hstate, other, written, latest, hother_ne, hother, hmem⟩
        exact ⟨state, hstate, other, written, latest, hother_ne,
          getElem?_set_ne_of_progress hcall hother (fun h => nomatch congrArg Prod.snd h) _, hmem⟩
    · cases h

/-- **The epoch of a blob never goes back** exactly if no call is overtaken: between any two moments
of a run of any calls, the epochs of all blobs have stayed or grown. A call that is overtaken has
been so by another call, which has written the greater epoch after the first one has read a smaller
one or none. -/
theorem epochs_never_go_back_iff (s : System) (events : List Event) :
    ((∀ before between after, events = before ++ (between ++ after) →
      ∀ s₁ s₂, Run.run step s before = some s₁ → Run.run step s₁ between = some s₂ →
        Forward s₁ s₂) ↔
    Run.Along step (fun s event => ¬Overtaken s event) s events) ∧
    (s.calls = [] → ∀ s', Run.run step s events = some s' →
      ∀ index call maybeBlobStates, s'.calls[index]? = some (call, .writing maybeBlobStates) →
        ∀ r ∈ maybeBlobStates.zip call.blobIds, (call.compare r.1).1 →
          ∀ state, s'.blobStates.get r.2 = some state → call.blobState.epoch < state.epoch →
            s'.blobStates.get r.2 ≠ r.1 ∧ WrittenByOther s' index r.2 state) := by
  refine ⟨?_, fun hcalls s' hrun index call maybeBlobStates hcall r hr hwrite state hstate hlt =>
    ?_⟩
  · rw [← Run.along_iff_forall_between Forward.refl Forward.trans]
    exact iff_of_eq (congrArg (fun C => Run.Along step C s events)
      (funext fun s => funext fun event => propext (forward_iff s event)))
  · have hstart : Current s := by
      intro index call maybeBlobStates hcall
      rw [hcalls] at hcall
      cases hcall
    have hcurrent := Run.invariant (fun s event s' hs h => Current.step hs h) hstart hrun
    -- The state that was read has a smaller epoch.
    have hchanged : s'.blobStates.get r.2 ≠ r.1 := by
      intro heq
      rw [← heq, hstate] at hwrite
      have := Call.lt_of_compare hwrite
      omega
    refine ⟨hchanged, ?_⟩
    obtain heq | ⟨state', hstate', hother⟩ := hcurrent index call maybeBlobStates hcall r hr
    · exact absurd heq hchanged
    · rwa [← Option.some.inj (hstate.symm.trans hstate')] at hother

/-- The call for a block of the given epoch that uses one blob. -/
def useBlob (epoch : Nat) : Call :=
  ⟨[⟨.data, ⟨7⟩⟩], ⟨⟨epoch⟩, ⟨⟨epoch⟩⟩, 0, epoch⟩, true⟩

/-- Two calls read before either of them writes. The later write takes the blob from epoch 2 back to
epoch 1. -/
theorem epoch_goes_back :
    (Run.run step ⟨.empty, []⟩ [.start (useBlob 1), .start (useBlob 2), .read 0, .read 1,
      .write 1]).map (fun s => (s.blobStates.get ⟨.data, ⟨7⟩⟩).map BlobState.epoch) =
        some (some 2) ∧
    (Run.run step ⟨.empty, []⟩ [.start (useBlob 1), .start (useBlob 2), .read 0, .read 1,
      .write 1, .write 0]).map (fun s => (s.blobStates.get ⟨.data, ⟨7⟩⟩).map BlobState.epoch) =
        some (some 1) := by
  decide

end Linera.Storage
