import Linera.Core.ConfirmedBlocks

/-!
# Downloading certificates

A client that is behind asks a validator for certificates, from its own height on, processes them
in turn, and asks again from the height it has reached. The validator may answer anything. The
loop ends all the same, and panics exactly if all that is processed from an answer are certificates
of blocks that the client already had.
-/

namespace Linera

namespace Downloading

/-- What happens around one call of `handle_certificate`: if blobs are missing, the given ones are
stored and the certificate is processed once more. -/
structure Handling where
  env : Environment
  /-- Whether the cross-chain requests that follow from the certificate are handled without an
  error. -/
  delivers : Bool
  storeBlobs : Bool
  retryEnv : Environment
  retryDelivers : Bool

/-- What the local node does before the next certificate, like delivering messages. It does not
confirm blocks of the chain. -/
structure Meanwhile where
  apply : ChainWorkerState → ChainWorkerState
  height : ∀ w, (apply w).chain.tipState.nextBlockHeight = w.chain.tipState.nextBlockHeight

/-- A certificate from the validator, and what happens while it is processed. -/
structure Received where
  certificate : ConfirmedBlockCertificate
  handling : Handling
  /-- Whether the validator answers the request for missing blobs. -/
  downloadsBlobs : Bool
  handlingWithBlobs : Handling
  meanwhile : Meanwhile

namespace Received

def block (r : Received) : Block := r.certificate.value.executedBlock.block

end Received

/-- The answer to a query for certificates. -/
inductive Answer where
  | failed
  | refused
  | certificates (received : List Received)

/-- Processes a certificate, and then the cross-chain requests that follow from it. -/
def fullyHandleCertificate (w : ChainWorkerState) (certificate : ConfirmedBlockCertificate)
    (env : Environment) (delivers : Bool) : Except WorkerError Unit × ChainWorkerState :=
  match w.processConfirmedBlock env certificate with
  | (.ok (), w) => (if delivers then .ok () else .error .viewError, w)
  | result => result

def handleCertificate (w : ChainWorkerState) (certificate : ConfirmedBlockCertificate)
    (handling : Handling) : Except WorkerError Unit × ChainWorkerState :=
  match fullyHandleCertificate w certificate handling.env handling.delivers with
  | (.error (.blobsNotFound _), w) =>
    if handling.storeBlobs then
      fullyHandleCertificate w certificate handling.retryEnv handling.retryDelivers
    else (.error .viewError, w)
  | result => result

/-- Processes one certificate, with blobs from the validator if there are missing ones. -/
def handleReceived (w : ChainWorkerState) (r : Received) :
    Except WorkerError Unit × ChainWorkerState :=
  match handleCertificate w r.certificate r.handling with
  | (.error (.blobsNotFound blobIds), w) =>
    if r.downloadsBlobs then handleCertificate w r.certificate r.handlingWithBlobs
    else (.error (.blobsNotFound blobIds), w)
  | result => result

/-- The loop of `try_process_certificates`: the height in the chain info of the last certificate that
was processed. -/
def tryProcessCertificates (chainId : ChainId) (w : ChainWorkerState) (info : Option Nat) :
    List Received → Option Nat × ChainWorkerState
  | [] => (info, w)
  | r :: rest =>
    -- The certificate is not as expected. Give up.
    if r.block.chainId ≠ chainId then (info, w)
    else
      match handleReceived w r with
      -- The worker has a task of its own: if that panics, the client sees `JoinError`.
      | (.error _, w) => (info, w)
      | (.ok (), w) => tryProcessCertificates chainId (r.meanwhile.apply w)
        (some w.chain.tipState.nextBlockHeight) rest

/-- How the loop of `try_download_certificates_from` ends. -/
inductive Ending where
  /-- It waits for another answer. -/
  | waiting
  | finished
  | failed
  | panicked
deriving DecidableEq

/-- The body of the loop of `try_download_certificates_from`: the height to go on from, or how the
loop ends. -/
def downloadFrom (chainId : ChainId) (w : ChainWorkerState) (start : Nat) :
    Answer → Except Ending Nat × ChainWorkerState
  | .failed => (.error .failed, w)
  | .refused => (.error .finished, w)
  | .certificates received =>
    match tryProcessCertificates chainId w none received with
    | (none, w) => (.error .finished, w)
    | (some nextBlockHeight, w) =>
      -- `assert!(info.next_block_height > start)`
      (if start < nextBlockHeight then .ok nextBlockHeight else .error .panicked, w)

/-- The loop of `try_download_certificates_from`, with the answers to its queries. -/
def tryDownloadCertificatesFrom (chainId : ChainId) (stop : Nat) (w : ChainWorkerState)
    (start : Nat) : List Answer → Ending × ChainWorkerState
  | [] => (if start < stop then .waiting else .finished, w)
  | answer :: answers =>
    if start < stop then
      match downloadFrom chainId w start answer with
      | (.ok start, w) => tryDownloadCertificatesFrom chainId stop w start answers
      | (.error ending, w) => (ending, w)
    else (.finished, w)

/-! ## One certificate -/

def height (w : ChainWorkerState) : Nat := w.chain.tipState.nextBlockHeight

/-- What a call does to the height of the chain: it does not sink, and it ends above the block if
that was processed. A block that the chain already has changes nothing. -/
structure Heightens (block : Nat) (w : ChainWorkerState)
    (result : Except WorkerError Unit × ChainWorkerState) : Prop where
  le : height w ≤ height result.2
  above : result.1 = .ok () → block < height result.2
  old : block < height w → height result.2 = height w

theorem processConfirmedBlock_height (w : ChainWorkerState) (env : Environment)
    (certificate : ConfirmedBlockCertificate) :
    Heightens certificate.value.executedBlock.block.height w
      (w.processConfirmedBlock env certificate) := by
  let call : ConfirmedCall := ⟨env, certificate⟩
  -- A block is attempted only at the next height; otherwise nothing changes.
  by_cases hattempts : ∃ chain, w.Attempts call chain
  · obtain ⟨chain, hattempts⟩ := hattempts
    have hheight : certificate.value.executedBlock.block.height = height w := hattempts.height
    have htip := ChainStateView.initializeBeforeCheck_sameTip env w.chain _ chain
      hattempts.initialized
    rw [show w.processConfirmedBlock env certificate = _ from
      ChainWorkerState.processConfirmedBlock_of_attempts hattempts]
    cases happly : chain.applyConfirmedBlock call.env call.certificate with
    | error error =>
      refine ⟨Nat.le_refl _, nofun, fun _ => rfl⟩
    | ok chain' =>
      have hnext := (ChainStateView.applyConfirmedBlock_tip _ chain certificate chain' happly).2.1
      rw [htip.tipState] at hnext
      -- Even if the chain cannot be saved, the view shows the new height.
      have hresult : height (ChainWorkerState.finish call.env { w with knowsChainIsActive := true }
          (some <$> Except.ok chain')).2 = height w + 1 := by
        show height (ChainWorkerState.finish call.env { w with knowsChainIsActive := true }
          (.ok (some chain'))).2 = _
        rw [ChainWorkerState.finish]
        split <;> exact hnext
      exact ⟨by omega, fun _ => by omega, fun hlt => by omega⟩
  · obtain ⟨hsame, hold⟩ :=
      ChainWorkerState.processConfirmedBlock_of_not_attempts (not_exists.mp hattempts)
    have hsame : (w.processConfirmedBlock env certificate).2 = w := hsame
    refine ⟨by rw [hsame], fun hok => ?_, fun _ => by rw [hsame]⟩
    rw [hsame]
    exact hold hok

variable {w : ChainWorkerState}

/-- A second call after the first one. -/
theorem Heightens.trans {block : Nat} {result result' : Except WorkerError Unit × ChainWorkerState}
    (h : Heightens block w result) (h' : Heightens block result.2 result') :
    Heightens block w result' where
  le := h.le.trans h'.le
  above := h'.above
  old hlt := by
    have hfirst := h.old hlt
    rw [h'.old (by omega), hfirst]

theorem Heightens.fail {block : Nat} {result : Except WorkerError Unit × ChainWorkerState}
    (h : Heightens block w result) (error : WorkerError) :
    Heightens block w (.error error, result.2) :=
  ⟨h.le, nofun, h.old⟩

/-- If a cross-chain request fails, then the block stays. -/
theorem fullyHandleCertificate_height (w : ChainWorkerState)
    (certificate : ConfirmedBlockCertificate) (env : Environment) (delivers : Bool) :
    Heightens certificate.value.executedBlock.block.height w
      (fullyHandleCertificate w certificate env delivers) := by
  have hprocess := processConfirmedBlock_height w env certificate
  unfold fullyHandleCertificate
  split
  · next w₁ hresult =>
    rw [hresult] at hprocess
    cases delivers with
    | true => exact hprocess
    | false => exact hprocess.fail .viewError
  · exact hprocess

theorem handleCertificate_height (w : ChainWorkerState) (certificate : ConfirmedBlockCertificate)
    (handling : Handling) : Heightens certificate.value.executedBlock.block.height w
      (handleCertificate w certificate handling) := by
  have hfirst := fullyHandleCertificate_height w certificate handling.env handling.delivers
  unfold handleCertificate
  split
  · next blobIds w₁ hresult =>
    rw [hresult] at hfirst
    split
    · exact hfirst.trans (fullyHandleCertificate_height w₁ certificate _ _)
    · exact hfirst.fail .viewError
  · exact hfirst

theorem handleReceived_height (w : ChainWorkerState) (r : Received) :
    Heightens r.block.height w (handleReceived w r) := by
  have hfirst := handleCertificate_height w r.certificate r.handling
  unfold handleReceived
  split
  · next blobIds w₁ hresult =>
    rw [hresult] at hfirst
    split
    · exact hfirst.trans (handleCertificate_height w₁ r.certificate r.handlingWithBlobs)
    · exact hfirst
  · exact hfirst

/-! ## One answer -/

/-- A certificate for the given height or a greater one is processed. -/
def Reaches (chainId : ChainId) (start : Nat) (w : ChainWorkerState) : List Received → Prop
  | [] => False
  | r :: rest => r.block.chainId = chainId ∧ (handleReceived w r).1 = .ok () ∧
    (start ≤ r.block.height ∨
      Reaches chainId start (r.meanwhile.apply (handleReceived w r).2) rest)

variable (chainId : ChainId)

/-- The chain info is from a time since which the chain has not lost height. -/
theorem tryProcessCertificates_le {bound : Nat} {info : Option Nat} (hw : bound ≤ height w)
    (hinfo : ∀ h, info = some h → bound ≤ h ∧ h ≤ height w) (received : List Received) :
    height w ≤ height (tryProcessCertificates chainId w info received).2 ∧
      ∀ h, (tryProcessCertificates chainId w info received).1 = some h →
        bound ≤ h ∧ h ≤ height (tryProcessCertificates chainId w info received).2 := by
  induction received generalizing w info with
  | nil => exact ⟨Nat.le_refl _, hinfo⟩
  | cons r rest ih =>
    have hheight := handleReceived_height w r
    rw [tryProcessCertificates]
    split
    · -- A certificate of another chain: the client gives up with what it has.
      exact ⟨Nat.le_refl _, hinfo⟩
    · split
      · next error w₁ hresult =>
        rw [hresult] at hheight
        exact ⟨hheight.le, fun h heq => ⟨(hinfo h heq).1, (hinfo h heq).2.trans hheight.le⟩⟩
      · next w₁ hresult =>
        rw [hresult] at hheight
        have hle : height w ≤ height w₁ := hheight.le
        have hmeanwhile : height (r.meanwhile.apply w₁) = height w₁ := r.meanwhile.height w₁
        have hnew : ∀ h, some (height w₁) = some h →
            bound ≤ h ∧ h ≤ height (r.meanwhile.apply w₁) := by
          intro h heq
          have := Option.some.inj heq
          omega
        obtain ⟨hrest, hbound⟩ := ih (by omega) hnew
        exact ⟨hle.trans (hmeanwhile.symm.le.trans hrest), hbound⟩

/-- If the client had asked for the height it is at, the chain info is from a greater height exactly
if a certificate for such a height was processed. -/
theorem lt_info_iff_reaches {start : Nat} {info : Option Nat} (hw : height w = start)
    (hinfo : ∀ h, info = some h → h = start) {received : List Received} {h : Nat}
    (hresult : (tryProcessCertificates chainId w info received).1 = some h) :
    start < h ↔ Reaches chainId start w received := by
  induction received generalizing w info with
  | nil => exact iff_of_false (by rw [hinfo h hresult]; omega) id
  | cons r rest ih =>
    have hheight := handleReceived_height w r
    rw [tryProcessCertificates] at hresult
    split at hresult
    · next hother =>
      refine iff_of_false ?_ fun hreaches => hother hreaches.1
      rw [hinfo h hresult]
      omega
    · next hchain =>
      split at hresult
      · next error w₁ herror =>
        -- Nothing was processed after the last info.
        refine iff_of_false ?_ fun hreaches => ?_
        · rw [hinfo h hresult]
          omega
        · have hok := hreaches.2.1
          rw [herror] at hok
          cases hok
      · next w₁ hok =>
        rw [hok] at hheight
        have hmeanwhile : height (r.meanwhile.apply w₁) = height w₁ := r.meanwhile.height w₁
        by_cases hreached : start ≤ r.block.height
        · -- From here on, the chain stays above the height that was asked for.
          have habove : r.block.height < height w₁ := hheight.above rfl
          have hnew : ∀ h, some (height w₁) = some h →
              start + 1 ≤ h ∧ h ≤ height (r.meanwhile.apply w₁) := by
            intro h heq
            have := Option.some.inj heq
            omega
          have hlt := (tryProcessCertificates_le chainId (by omega) hnew rest).2 h hresult
          refine iff_of_true (by omega) ⟨not_not.mp hchain, by rw [hok], .inl hreached⟩
        · -- The client already had the block: nothing has changed.
          have hold : height w₁ = height w := hheight.old (by omega)
          have hinfo' : ∀ h, some (height w₁) = some h → h = start := by
            intro h heq
            rw [← Option.some.inj heq]
            omega
          have hrest := ih (by omega) hinfo' hresult
          rw [hrest, Reaches, hok]
          constructor
          · intro h
            exact ⟨not_not.mp hchain, rfl, .inr h⟩
          · rintro ⟨-, -, h | h⟩
            · exact absurd h hreached
            · exact h

/-! ## All answers -/

/-- The state in which the loop makes its next query, if it makes one. -/
def continues (stop : Nat) (s : ChainWorkerState × Nat) (answer : Answer) :
    Option (ChainWorkerState × Nat) :=
  if s.2 < stop then
    (downloadFrom chainId s.1 s.2 answer).1.toOption.map
      ((downloadFrom chainId s.1 s.2 answer).2, ·)
  else none

/-- The first certificate of an answer is processed. -/
def ProcessesFirst (w : ChainWorkerState) : List Received → Prop
  | [] => False
  | r :: _ => r.block.chainId = chainId ∧ (handleReceived w r).1 = .ok ()

/-- If the first certificate of the answer is processed, then the chain is already past the height
that was asked for, or a certificate for that height or a greater one is among what is
processed. -/
def Advances (stop : Nat) (s : ChainWorkerState × Nat) (answer : Answer) : Prop :=
  s.2 < stop → ∀ received, answer = .certificates received → ProcessesFirst chainId s.1 received →
    s.2 < height s.1 ∨ Reaches chainId s.2 s.1 received

/-- There is a chain info exactly if the first certificate is processed. -/
theorem processesFirst_iff {received : List Received} : ProcessesFirst chainId w received ↔
    ∃ h, (tryProcessCertificates chainId w none received).1 = some h := by
  have hsome : ∀ (received : List Received) (w : ChainWorkerState) (info : Nat),
      ∃ h, (tryProcessCertificates chainId w (some info) received).1 = some h := by
    intro received
    induction received with
    | nil => exact fun w info => ⟨info, rfl⟩
    | cons r rest ih =>
      intro w info
      rw [tryProcessCertificates]
      split
      · exact ⟨info, rfl⟩
      · split
        · exact ⟨info, rfl⟩
        · exact ih _ _
  cases received with
  | nil => exact iff_of_false id nofun
  | cons r rest =>
    rw [tryProcessCertificates]
    split
    · next hother => exact iff_of_false (fun hfirst => hother hfirst.1) nofun
    · next hchain =>
      split
      · next error w₁ herror =>
        refine iff_of_false (fun hfirst => ?_) nofun
        have hok := hfirst.2
        rw [herror] at hok
        cases hok
      · next w₁ hok => exact iff_of_true ⟨not_not.mp hchain, by rw [hok]⟩ (hsome rest _ _)

/-- The height in the chain info is greater than the one that was asked for exactly if the answer
advances the chain. -/
theorem lt_info_iff {start : Nat} (hstart : start ≤ height w) {received : List Received} {h : Nat}
    (hresult : (tryProcessCertificates chainId w none received).1 = some h) :
    start < h ↔ start < height w ∨ Reaches chainId start w received := by
  have hnone : ∀ P : Nat → Prop, ∀ h, none = some h → P h := by
    intro P h heq
    cases heq
  rcases Nat.lt_or_eq_of_le hstart with hpast | hat
  · -- The block that was asked for has been processed already.
    have hle := (tryProcessCertificates_le chainId (Nat.le_refl (height w)) (hnone _) received).2 h
      hresult
    exact iff_of_true (by omega) (.inl hpast)
  · rw [lt_info_iff_reaches chainId hat.symm (hnone _) hresult]
    constructor
    · exact .inr
    · rintro (hlt | hreaches)
      · omega
      · exact hreaches

/-- What one answer can do. -/
structure Downloads (stop : Nat) (w : ChainWorkerState) (start : Nat) (answer : Answer)
    (result : Except Ending Nat × ChainWorkerState) : Prop where
  le : height w ≤ height result.2
  progress : ∀ h, result.1 = .ok h → start < h ∧ h ≤ height result.2
  not_waiting : result.1 ≠ .error .waiting
  panicked_iff : result.1 = .error .panicked ↔ ¬Advances chainId stop (w, start) answer

theorem downloadFrom_spec {stop start : Nat} (hstart : start ≤ height w) (hstop : start < stop)
    (answer : Answer) :
    Downloads chainId stop w start answer (downloadFrom chainId w start answer) := by
  cases answer with
  | failed | refused =>
    exact ⟨Nat.le_refl _, nofun, nofun, iff_of_false nofun fun h => h fun _ => nofun⟩
  | certificates received =>
    have hadvances : Advances chainId stop (w, start) (.certificates received) ↔
        ∀ h, (tryProcessCertificates chainId w none received).1 = some h → start < h := by
      constructor
      · intro hreaches h heq
        exact (lt_info_iff chainId hstart heq).mpr
          (hreaches hstop received rfl ((processesFirst_iff chainId).mpr ⟨h, heq⟩))
      · rintro hlt - received' hanswer hfirst
        cases hanswer
        obtain ⟨h, heq⟩ := (processesFirst_iff chainId).mp hfirst
        exact (lt_info_iff chainId hstart heq).mp (hlt h heq)
    have hnone : ∀ h, none = some h → 0 ≤ h ∧ h ≤ height w := by
      intro h heq
      cases heq
    obtain ⟨hle, hinfo⟩ := tryProcessCertificates_le chainId (Nat.zero_le _) hnone received
    rw [downloadFrom]
    split
    · next w₁ hresult =>
      rw [hresult] at hadvances hle
      exact ⟨hle, nofun, nofun, iff_of_false nofun fun h => h (hadvances.mpr nofun)⟩
    · next h w₁ hresult =>
      rw [hresult] at hadvances hle hinfo
      by_cases hlt : start < h
      · rw [if_pos hlt]
        refine ⟨hle, fun h' heq => ?_, nofun, iff_of_false nofun fun hnot => hnot ?_⟩
        · cases heq
          exact ⟨hlt, (hinfo h rfl).2⟩
        · refine hadvances.mpr fun h' heq => ?_
          cases heq
          exact hlt
      · rw [if_neg hlt]
        exact ⟨hle, nofun, nofun, iff_of_true rfl fun h => hlt (hadvances.mp h _ rfl)⟩

/-- Whatever a validator answers, the client is done after as many answers as there are blocks
to download, and its chain does not lose height. It panics exactly if an answer does not advance
it. -/
theorem download_ends {stop start : Nat} {w : ChainWorkerState} (hstart : start ≤ height w)
    (answers : List Answer) :
    (stop - start ≤ answers.length →
      (tryDownloadCertificatesFrom chainId stop w start answers).1 ≠ .waiting) ∧
    height w ≤ height (tryDownloadCertificatesFrom chainId stop w start answers).2 ∧
    ((tryDownloadCertificatesFrom chainId stop w start answers).1 = .panicked ↔
      ¬Run.Along (continues chainId stop) (Advances chainId stop) (w, start) answers) := by
  induction answers generalizing w start with
  | nil =>
    rw [tryDownloadCertificatesFrom]
    refine ⟨fun hlength => ?_, Nat.le_refl _, iff_of_false ?_ fun h => h trivial⟩
    · rw [List.length_nil] at hlength
      rw [if_neg (by omega)]
      exact Ending.noConfusion
    · dsimp only
      split <;> exact Ending.noConfusion
  | cons answer answers ih =>
    rw [tryDownloadCertificatesFrom]
    by_cases hstop : start < stop
    case neg =>
      -- Nothing is asked for: there is no step of the run to speak of.
      have hnone : continues chainId stop (w, start) answer = none := if_neg hstop
      rw [if_neg hstop, Run.Along, hnone]
      refine ⟨fun _ => Ending.noConfusion, Nat.le_refl _, iff_of_false Ending.noConfusion ?_⟩
      refine not_not.mpr ⟨fun hlt => absurd hlt hstop, fun s' heq => ?_⟩
      cases heq
    case pos =>
      have hnext : continues chainId stop (w, start) answer =
          (downloadFrom chainId w start answer).1.toOption.map
            ((downloadFrom chainId w start answer).2, ·) := if_pos hstop
      have hspec := downloadFrom_spec chainId hstart hstop answer
      rw [if_pos hstop, Run.Along, hnext]
      rcases hresult : downloadFrom chainId w start answer with ⟨_ | h, w₁⟩
      · next ending =>
        rw [hresult] at hspec
        have hpanicked : ending = .panicked ↔ ¬Advances chainId stop (w, start) answer := by
          rw [← hspec.panicked_iff]
          exact ⟨congrArg _, Except.error.inj⟩
        refine ⟨fun _ h => hspec.not_waiting (congrArg _ h), hspec.le, hpanicked.trans ?_⟩
        refine not_congr ⟨fun h => ⟨h, fun s' heq => ?_⟩, fun h => h.1⟩
        cases heq
      · rw [hresult] at hspec
        -- One answer brings the client at least one height further.
        obtain ⟨hlt, hheight⟩ := hspec.progress h rfl
        obtain ⟨hwaiting, hle, hpanicked⟩ := ih hheight
        have hadvances : Advances chainId stop (w, start) answer := by
          by_contra hnot
          cases hspec.panicked_iff.mpr hnot
        refine ⟨fun hlength => hwaiting ?_, hspec.le.trans hle, hpanicked.trans ?_⟩
        · rw [List.length_cons] at hlength
          omega
        · refine not_congr ⟨fun h => ⟨hadvances, fun s' heq => ?_⟩, fun h => h.2 _ rfl⟩
          cases heq
          exact h

/-! ## A chain with one block -/

/-- A worker that has confirmed the first block of its chain. -/
def oneBlock : ChainWorkerState :=
  (ChainWorkerState.load ChainWorkerState.oneValidatorChain).confirmAll
    [ChainWorkerState.deliver 0 none true]

/-- A certificate that is processed while nothing else happens. -/
def receive (call : ConfirmedCall) : Received where
  certificate := call.certificate
  handling := ⟨call.env, true, false, call.env, true⟩
  downloadsBlobs := false
  handlingWithBlobs := ⟨call.env, true, false, call.env, true⟩
  meanwhile := ⟨id, fun _ => rfl⟩

/-- The validator sends the certificate of the second block, which is what the client needs. -/
theorem download_ends_second_block :
    height oneBlock = 1 ∧
    (tryDownloadCertificatesFrom ⟨⟨0⟩⟩ 2 oneBlock 1
      [.certificates [receive (ChainWorkerState.deliver 1 (some ⟨0⟩) true)]]).1 = .finished ∧
    Run.Along (continues ⟨⟨0⟩⟩ 2) (Advances ⟨⟨0⟩⟩ 2) (oneBlock, 1)
      [.certificates [receive (ChainWorkerState.deliver 1 (some ⟨0⟩) true)]] := by
  have hheight : height oneBlock = 1 := by decide +kernel
  have hfinished : (tryDownloadCertificatesFrom ⟨⟨0⟩⟩ 2 oneBlock 1
      [.certificates [receive (ChainWorkerState.deliver 1 (some ⟨0⟩) true)]]).1 = .finished := by
    decide +kernel
  refine ⟨hheight, hfinished, ?_⟩
  have hpanicked := (@download_ends ⟨⟨0⟩⟩ 2 1 oneBlock hheight.ge
    [.certificates [receive (ChainWorkerState.deliver 1 (some ⟨0⟩) true)]]).2.2
  rw [hfinished] at hpanicked
  by_contra hnot
  cases hpanicked.mpr hnot

/-- The client has the first block and asks for the second one. The validator sends the certificate
of the first one once more. It is processed without an error, as the block is known, and the client
panics because it is still at the same height. -/
theorem old_certificate_crashes_client :
    height oneBlock = 1 ∧
    (tryDownloadCertificatesFrom ⟨⟨0⟩⟩ 2 oneBlock 1
      [.certificates [receive (ChainWorkerState.deliver 0 none true)]]).1 = .panicked := by
  decide +kernel

end Downloading

end Linera
