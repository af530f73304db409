import Linera.Core.ChainWorkers

/-!
# Chains that cannot be loaded

An endpoint is registered before its chain is loaded. If the chain cannot be loaded, or
the caller drops the call meanwhile, the receiver is gone but the sender stays in the
cache. A call that already waits for the endpoint, or that finds it in the cache later,
panics: it expects that its request is received and answered.
-/

namespace Linera.Worker

/-- No call depends on an endpoint without a receiver. A lookup does not find one, and while a chain
is being loaded no other call has sent a request, or will send one, if the load comes to nothing. -/
def Unpoisoned (w : State) : Event → Prop
  | .lookup c => ∀ (chain : ChainId) (e : EndpointId) (channel : Channel),
      w.calls[c]? = some ⟨chain, .looking⟩ → w.endpointOf chain = some e →
      w.channels[e]? = some channel → channel.receiver ≠ .dropped
  | .loaded c false | .cancel c => ∀ (chain : ChainId) (e : EndpointId),
      w.calls[c]? = some ⟨chain, .loading e⟩ → ∀ (c' : CallId) (call : Call),
      w.calls[c']? = some call → call.phase ≠ .sending e ∧ call.phase ≠ .waiting e
  | _ => True

/-- What a call needs in its phase. A request that is not answered yet is with a receiver. Responses
come from an actor of the chain. -/
def State.Provides (w : State) (c : CallId) (call : Call) : Prop :=
  match call.phase with
  | .sending e => ∃ channel, w.channels[e]? = some channel ∧ channel.receiver ≠ .dropped
  | .waiting e => ∃ channel, w.channels[e]? = some channel ∧ channel.receiver ≠ .dropped ∧
      c ∈ channel.pending
  | .returned e => ∃ channel, w.channels[e]? = some channel ∧ channel.chain = call.chain
  | .panicked => False
  | _ => True

/-- The channels may change, as long as those that the call depends on keep what it needs. -/
theorem State.Provides.mono {w w' : State} {c : CallId} {call : Call} (h : w.Provides c call)
    (hchannels : ∀ e channel, w.channels[e]? = some channel →
      ∃ channel', w'.channels[e]? = some channel' ∧ channel'.chain = channel.chain ∧
        (call.phase = .sending e ∨ call.phase = .waiting e →
          channel.receiver ≠ .dropped → channel'.receiver ≠ .dropped) ∧
        (call.phase = .waiting e → c ∈ channel.pending → c ∈ channel'.pending)) :
    w'.Provides c call := by
  obtain ⟨chain, phase⟩ := call
  cases phase with
  | sending e =>
    obtain ⟨channel, he, hopen⟩ := h
    obtain ⟨channel', he', -, hkeeps, -⟩ := hchannels e channel he
    exact ⟨channel', he', hkeeps (.inl rfl) hopen⟩
  | waiting e =>
    obtain ⟨channel, he, hopen, hmem⟩ := h
    obtain ⟨channel', he', -, hkeeps, hpending⟩ := hchannels e channel he
    exact ⟨channel', he', hkeeps (.inr rfl) hopen, hpending rfl hmem⟩
  | returned e =>
    obtain ⟨channel, he, hkey⟩ := h
    obtain ⟨channel', he', hchain, -⟩ := hchannels e channel he
    exact ⟨channel', he', hchain.trans hkey⟩
  | panicked => exact h
  | _ => trivial

/-- No call has panicked or is going to. -/
structure Served (w : State) : Prop where
  calls : ∀ (c : CallId) (call : Call), w.calls[c]? = some call → w.Provides c call
  /-- Whoever has the receiver is loading the chain. -/
  loader : ∀ (e : EndpointId) (channel : Channel) (c : CallId), w.channels[e]? = some channel →
    channel.receiver = .loader c → ∃ chain, w.calls[c]? = some ⟨chain, .loading e⟩

namespace Served

variable {w w' : State} {event : Event} {c : CallId} {e : EndpointId} {chain : ChainId}
  {phase : Phase} {channel channel' : Channel}

theorem new (capacity : Nat) : Served (.new capacity) := by
  constructor <;> intros <;> simp_all [State.new]

theorem setCall (h : Served w) (hprovides : w.Provides c ⟨chain, phase⟩)
    (hloader : ∀ (e : EndpointId) (channel : Channel), w.channels[e]? = some channel →
      channel.receiver = .loader c → phase = .loading e) :
    Served (w.setCall c ⟨chain, phase⟩) where
  calls c' call hc' := by
    rcases State.of_calls_setCall hc' with ⟨rfl, rfl⟩ | ⟨-, hold⟩
    · exact hprovides
    · exact h.calls c' call hold
  loader e channel c' he hreceiver := by
    obtain ⟨chain', hc'⟩ := h.loader e channel c' he hreceiver
    by_cases heq : c' = c
    · subst heq
      obtain rfl := hloader e channel he hreceiver
      exact ⟨chain, getElem?_set_of_some hc'⟩
    · refine ⟨chain', ?_⟩
      show (w.calls.set c _)[c']? = _
      rw [List.getElem?_set_ne (Ne.symm heq)]
      exact hc'

/-- A call that does not load a chain has no receiver. -/
theorem not_loader {call : Call} (h : Served w) (hc : w.calls[c]? = some call)
    (hphase : ∀ e, call.phase ≠ .loading e) (e : EndpointId) (channel : Channel)
    (he : w.channels[e]? = some channel) : channel.receiver ≠ .loader c := by
  intro hreceiver
  obtain ⟨chain, hc'⟩ := h.loader e channel c he hreceiver
  rw [hc] at hc'
  exact hphase e (congrArg Call.phase (Option.some.inj hc'))

/-- A call that does not load a chain goes on. -/
theorem advance {call : Call} (h : Served w) (hc : w.calls[c]? = some call)
    (hold : ∀ e, call.phase ≠ .loading e) (hprovides : w.Provides c ⟨chain, phase⟩) :
    Served (w.setCall c ⟨chain, phase⟩) :=
  h.setCall hprovides fun e channel he hreceiver =>
    absurd hreceiver (h.not_loader hc hold e channel he)

/-- The receiver or the queue of a channel changes. -/
theorem setChannel (h : Served w) (he : w.channels[e]? = some channel)
    (hchain : channel'.chain = channel.chain)
    (hopen : (∃ (c : CallId) (call : Call), w.calls[c]? = some call ∧
      (call.phase = .sending e ∨ call.phase = .waiting e)) → channel'.receiver ≠ .dropped)
    (hpending : ∀ (c : CallId) (chain : ChainId), w.calls[c]? = some ⟨chain, .waiting e⟩ →
      c ∈ channel.pending → c ∈ channel'.pending)
    (hloader : ∀ c, channel'.receiver = .loader c → channel.receiver = .loader c) :
    Served (w.setChannel e channel') where
  calls c call hc := by
    refine (h.calls c call hc).mono fun e' old hold => ?_
    by_cases heq : e' = e
    · subst heq
      rw [he] at hold
      cases hold
      obtain ⟨chain, phase⟩ := call
      refine ⟨channel', State.channels_setChannel_self he, hchain,
        fun huses _ => hopen ⟨c, _, hc, huses⟩, ?_⟩
      rintro rfl hmem
      exact hpending c chain hc hmem
    · exact ⟨old, (State.channels_setChannel_of_ne heq).trans hold, rfl, fun _ => id, fun _ => id⟩
  loader e' changed c he' hreceiver := by
    rcases State.of_channels_setChannel he' with ⟨rfl, rfl⟩ | ⟨-, hold⟩
    · exact h.loader _ channel c he (hloader c hreceiver)
    · exact h.loader e' changed c hold hreceiver

/-- A call loads one chain only: when its channel gets another receiver, it has none. -/
theorem not_loader_setChannel (h : Served w) (hc : w.calls[c]? = some ⟨chain, .loading e⟩)
    (hreceiver : channel'.receiver ≠ .loader c) (e' : EndpointId) (changed : Channel)
    (he' : (w.setChannel e channel').channels[e']? = some changed) :
    changed.receiver ≠ .loader c := by
  rcases State.of_channels_setChannel he' with ⟨rfl, rfl⟩ | ⟨hne, hold⟩
  · exact hreceiver
  · intro hloader
    obtain ⟨chain', hc'⟩ := h.loader e' changed c hold hloader
    rw [hc] at hc'
    exact hne (by simpa using (congrArg Call.phase (Option.some.inj hc')).symm)

/-- A load that came to nothing closes the channel, which nobody else uses. -/
theorem loadFailed (h : Served w) (hc : w.calls[c]? = some ⟨chain, .loading e⟩)
    (he : w.channels[e]? = some channel)
    (hunused : ∀ (c' : CallId) (call : Call), w.calls[c']? = some call →
      call.phase ≠ .sending e ∧ call.phase ≠ .waiting e)
    (hprovides : (w.setChannel e ⟨channel.chain, [], .dropped⟩).Provides c ⟨chain, phase⟩) :
    Served ((w.setChannel e ⟨channel.chain, [], .dropped⟩).setCall c ⟨chain, phase⟩) := by
  have hclosed : Served (w.setChannel e ⟨channel.chain, [], .dropped⟩) := by
    refine h.setChannel he rfl ?_ ?_ (by simp)
    · rintro ⟨c', call, hc', hsending | hwaiting⟩
      · exact absurd hsending (hunused c' call hc').1
      · exact absurd hwaiting (hunused c' call hc').2
    · intro c' chain' hc'
      exact absurd rfl (hunused c' _ hc').2
  exact hclosed.setCall hprovides fun e' changed he' hreceiver =>
    absurd hreceiver (h.not_loader_setChannel hc (by simp) e' changed he')

end Served

variable {w w' : State} {event : Event} {c : CallId} {e : EndpointId} {chain : ChainId}

theorem served_step (hcons : Consistent w) (h : Served w) (hunpoisoned : Unpoisoned w event)
    (hstep : Step w event w') : Served w' := by
  cases hstep with
  | submit =>
    constructor
    · intro c call hc
      rcases State.of_calls_submit hc with hc | hlooking
      · exact h.calls c call hc
      · rw [State.Provides, hlooking]
        trivial
    · intro e channel c he hreceiver
      obtain ⟨chain, hc⟩ := h.loader e channel c he hreceiver
      refine ⟨chain, ?_⟩
      rw [List.getElem?_append_left (List.getElem?_eq_some_iff.mp hc).1]
      exact hc
  | @hit c chain e hc he =>
    obtain ⟨channel, hchannel, -⟩ := hcons.cached _ (hcons.endpointOf_eq_some.mp he)
    have hpromoted : Served { w with
        chainWorkers := (chain, e) :: w.chainWorkers.filter (fun p => p.1 ≠ chain) } :=
      ⟨h.calls, h.loader⟩
    exact hpromoted.advance hc (by simp)
      ⟨channel, hchannel, hunpoisoned chain e channel hc he hchannel⟩
  | @miss c chain room hc he hroom =>
    -- the new channel has a loader only once the call has its new phase
    constructor
    · intro c' call hc'
      rcases State.of_calls_setCall hc' with ⟨-, rfl⟩ | ⟨-, hold⟩
      · trivial
      · exact (h.calls c' call hold).mono fun e' channel hchannel =>
          ⟨channel, State.channels_append hchannel, rfl, fun _ => id, fun _ => id⟩
    · intro e' channel c' he' hreceiver
      have he' : (w.channels ++ [⟨chain, [], .loader c⟩])[e']? = some channel := he'
      rw [List.getElem?_append] at he'
      split at he'
      · obtain ⟨chain', hc'⟩ := h.loader e' channel c' he' hreceiver
        have hne : c ≠ c' := by
          rintro rfl
          exact h.not_loader hc (by simp) e' channel he' hreceiver
        refine ⟨chain', ?_⟩
        show (w.calls.set c _)[c']? = _
        rw [List.getElem?_set_ne hne]
        exact hc'
      · next hlen =>
        have hlast : e' = w.channels.length := by
          have hlt := (List.getElem?_eq_some_iff.mp he').1
          exact Nat.le_antisymm (Nat.sub_eq_zero_iff_le.mp (Nat.lt_one_iff.mp hlt))
            (Nat.le_of_not_lt hlen)
        rw [List.mem_singleton.mp (List.mem_of_getElem? he')] at hreceiver
        obtain rfl : c = c' := Receiver.loader.inj hreceiver
        rw [hlast]
        exact ⟨chain, getElem?_set_of_some hc⟩
  | full => exact h
  | timeout hc => exact h.advance hc (by simp) trivial
  | @loaded c chain e channel hc he =>
    obtain ⟨channel', he', hloader⟩ := hcons.loading c chain e hc
    rw [he] at he'
    cases he'
    have hactor : Served (w.setChannel e { channel with receiver := .actor none }) := by
      refine h.setChannel he rfl (by simp) (fun c' chain' hc' hmem => ?_) (by simp)
      simpa [Channel.pending, hloader] using hmem
    have hself : (w.setChannel e { channel with receiver := .actor none }).channels[e]? =
        some { channel with receiver := .actor none } := State.channels_setChannel_self he
    exact hactor.setCall ⟨_, hself, by simp⟩ fun e' changed he' hreceiver =>
      absurd hreceiver (h.not_loader_setChannel hc (by simp) e' changed he')
  | loadFailed hc he => exact h.loadFailed hc he (hunpoisoned _ _ hc) trivial
  | @sent c chain e channel hc he hopen =>
    have hself : (w.setChannel e { channel with queue := channel.queue ++ [c] }).channels[e]? =
        some { channel with queue := channel.queue ++ [c] } := State.channels_setChannel_self he
    have hmem : c ∈ Channel.pending { channel with queue := channel.queue ++ [c] } := by
      rw [pending_append]
      simp
    have hsent : Served (w.setChannel e { channel with queue := channel.queue ++ [c] }) := by
      refine h.setChannel he rfl (fun _ => hopen) (fun c' chain' hc' hmem => ?_) fun _ h => h
      rw [pending_append]
      exact List.mem_append_left _ hmem
    exact hsent.advance hc (by simp) ⟨_, hself, hopen, hmem⟩
  | @sendPanics c chain e channel hc he hclosed =>
    obtain ⟨channel', he', hopen⟩ := h.calls c _ hc
    rw [he] at he'
    exact absurd hclosed (Option.some.inj he' ▸ hopen)
  | receive he =>
    exact h.setChannel he rfl (by simp) (fun c' chain' hc' hmem => hmem) (by simp)
  | @respond e chain chain' c queue he hc =>
    have hresponded : Served (w.setCall c ⟨chain', .responded e⟩) :=
      h.advance hc (by simp) trivial
    refine hresponded.setChannel he rfl (by simp) (fun c' chain'' hc' hmem => ?_) (by simp)
    rcases State.of_calls_setCall hc' with ⟨-, heq⟩ | ⟨hne, -⟩
    · simp at heq
    · exact (List.mem_cons.mp hmem).resolve_left hne
  | @drop e chain c queue he hc =>
    refine h.setChannel he rfl (by simp) (fun c' chain' hc' hmem => ?_) (by simp)
    refine (List.mem_cons.mp hmem).resolve_left ?_
    rintro rfl
    exact hc chain' hc'
  | @stop e chain he hcount =>
    have hunheld : ∀ (c : CallId) (call : Call), w.calls[c]? = some call →
        call.phase.endpoint ≠ some e := by
      intro c call hc hheld
      have hpos : 0 < w.calls.countP (fun c => c.phase.endpoint = some e) :=
        List.countP_pos_iff.mpr ⟨call, List.mem_of_getElem? hc, decide_eq_true hheld⟩
      unfold State.strongCount at hcount
      omega
    refine h.setChannel he rfl ?_ (fun c' chain' hc' _ => ?_) (by simp)
    · rintro ⟨c, call, hc, hphase | hphase⟩
      · exact absurd (by rw [hphase]; rfl) (hunheld c call hc)
      · exact absurd (by rw [hphase]; rfl) (hunheld c call hc)
    · exact absurd rfl (hunheld c' _ hc')
  | @returned c chain e hc =>
    exact h.advance hc (by simp) (hcons.cached _ (hcons.held c _ e hc rfl))
  | @callbackDropped c chain e channel hc he hgone =>
    obtain ⟨channel', he', -, hmem⟩ := h.calls c _ hc
    rw [he] at he'
    exact absurd hmem (Option.some.inj he' ▸ hgone)
  | @cancelled c chain phase hc hphase =>
    refine h.advance hc ?_ trivial
    rcases hphase with rfl | ⟨e, rfl | rfl⟩ <;> simp
  | loaderCancelled hc =>
    obtain ⟨channel, he, -⟩ := hcons.loading _ _ _ hc
    rw [State.close, he]
    exact h.loadFailed hc he (hunpoisoned _ _ hc) trivial

/-! ## Requests are answered -/

/-- A step of the actor of a channel, or of the call that loads its chain. -/
def Serves (e : EndpointId) (event : Event) : Prop :=
  event = .receive e ∨ event = .respond e ∨ ∃ c, event = .loaded c true

/-- Such steps lead to the response for a call. -/
def State.Answers (w : State) (e : EndpointId) (c : CallId) (chain : ChainId) : Prop :=
  ∃ events w', (∀ event ∈ events, Serves e event) ∧ Run.run step w events = some w' ∧
    w'.calls[c]? = some ⟨chain, .responded e⟩

theorem State.Answers.done (hc : w.calls[c]? = some ⟨chain, .responded e⟩) : w.Answers e c chain :=
  ⟨[], w, List.forall_mem_nil _, rfl, hc⟩

theorem State.Answers.cons (hserves : Serves e event) (hstep : step w event = some w')
    (h : w'.Answers e c chain) : w.Answers e c chain := by
  obtain ⟨events, w'', hall, hrun, hdone⟩ := h
  exact ⟨event :: events, w'', List.forall_mem_cons.mpr ⟨hserves, hall⟩,
    Run.run_cons.mpr ⟨w', hstep, hrun⟩, hdone⟩

/-- The response to the request that the actor is processing. -/
theorem step_respond {queue : List CallId}
    (he : w.channels[e]? = some ⟨chain, queue, .actor (some c)⟩) :
    ∃ w', step w (.respond e) = some w' ∧ w'.channels[e]? = some ⟨chain, queue, .actor none⟩ ∧
      (∀ chain', w.calls[c]? = some ⟨chain', .waiting e⟩ →
        w'.calls[c]? = some ⟨chain', .responded e⟩) ∧
      ∀ c', c' ≠ c → w'.calls[c']? = w.calls[c']? := by
  have hself : (w.setChannel e ⟨chain, queue, .actor none⟩).channels[e]? =
      some ⟨chain, queue, .actor none⟩ := State.channels_setChannel_self he
  by_cases hwaiting : ∃ chain', w.calls[c]? = some ⟨chain', .waiting e⟩
  · obtain ⟨chain', hc⟩ := hwaiting
    refine ⟨(w.setChannel e ⟨chain, queue, .actor none⟩).setCall c ⟨chain', .responded e⟩,
      ?_, hself, fun chain'' hc' => ?_, fun c' hne => List.getElem?_set_ne (Ne.symm hne)⟩
    · simp [step, he, hc, State.setChannel]
    · rw [hc] at hc'
      obtain rfl := (Call.mk.inj (Option.some.inj hc')).1
      exact getElem?_set_of_some hc
  · refine ⟨w.setChannel e ⟨chain, queue, .actor none⟩, ?_, hself,
      fun chain' hc => absurd ⟨chain', hc⟩ hwaiting, fun _ _ => rfl⟩
    cases hc : w.calls[c]? with
    | none => simp [step, he, hc, State.setChannel]
    | some call =>
      obtain ⟨chain', phase⟩ := call
      cases phase with
      | waiting e' =>
        have hne : e' ≠ e := by
          rintro rfl
          exact hwaiting ⟨chain', hc⟩
        simp [step, he, hc, State.setChannel, hne]
      | _ => simp [step, he, hc, State.setChannel]

/-- The actor takes the requests one after the other. -/
theorem answered_from_queue {chain' : ChainId} {queue : List CallId}
    (he : w.channels[e]? = some ⟨chain, queue, .actor none⟩) (hmem : c ∈ queue)
    (hc : w.calls[c]? = some ⟨chain', .waiting e⟩) : w.Answers e c chain' := by
  induction queue generalizing w with
  | nil => simp at hmem
  | cons p queue ih =>
    have hreceive : step w (.receive e) = some (w.setChannel e ⟨chain, queue, .actor (some p)⟩) := by
      simp [step, he]
    have hself : (w.setChannel e ⟨chain, queue, .actor (some p)⟩).channels[e]? =
        some ⟨chain, queue, .actor (some p)⟩ := State.channels_setChannel_self he
    obtain ⟨w', hrespond, he', hanswer, hothers⟩ := step_respond hself
    by_cases heq : c = p
    · subst heq
      exact .cons (.inl rfl) hreceive (.cons (.inr (.inl rfl)) hrespond (.done (hanswer chain' hc)))
    · have hmem' : c ∈ queue := (List.mem_cons.mp hmem).resolve_left heq
      exact .cons (.inl rfl) hreceive
        (.cons (.inr (.inl rfl)) hrespond (ih he' hmem' ((hothers c heq).trans hc)))

/-- **Every request in a queue is answered** by the actor of its channel, once the chain is loaded. -/
theorem Served.answered_eventually (h : Served w)
    (hc : w.calls[c]? = some ⟨chain, .waiting e⟩) : w.Answers e c chain := by
  obtain ⟨⟨key, queue, receiver⟩, he, hopen, hmem⟩ := h.calls c _ hc
  cases receiver with
  | dropped => exact absurd rfl hopen
  | loader loader =>
    obtain ⟨chain', hloader⟩ := h.loader e _ loader he rfl
    have hne : c ≠ loader := by
      rintro rfl
      rw [hc] at hloader
      simp at hloader
    let next := (w.setChannel e ⟨key, queue, .actor none⟩).setCall loader ⟨chain', .sending e⟩
    have hload : step w (.loaded loader true) = some next := by
      simp [step, hloader, he, next]
    have hself : next.channels[e]? = some ⟨key, queue, .actor none⟩ :=
      State.channels_setChannel_self he
    have hc' : next.calls[c]? = some ⟨chain, .waiting e⟩ :=
      (List.getElem?_set_ne (Ne.symm hne)).trans hc
    exact .cons (.inr (.inr ⟨loader, rfl⟩)) hload (answered_from_queue hself hmem hc')
  | actor current =>
    cases current with
    | none => exact answered_from_queue he hmem hc
    | some p =>
      obtain ⟨w', hrespond, he', hanswer, hothers⟩ := step_respond he
      by_cases heq : c = p
      · subst heq
        exact .cons (.inr (.inl rfl)) hrespond (.done (hanswer chain hc))
      · have hmem' : c ∈ queue := (List.mem_cons.mp hmem).resolve_left heq
        exact .cons (.inr (.inl rfl)) hrespond
          (answered_from_queue he' hmem' ((hothers c heq).trans hc))

/-! ## Panics -/

/-- The state has a successor in which a call has panicked. -/
def PanicsNext (w : State) : Prop :=
  ∃ (event : Event) (w' : State) (c : CallId) (chain : ChainId), step w event = some w' ∧
    w'.calls[c]? = some ⟨chain, .panicked⟩

/-- A call that depends on an endpoint without a receiver panics when it goes on. -/
theorem panicsNext_of_closed {call : Call} {channel : Channel} (hc : w.calls[c]? = some call)
    (he : w.channels[e]? = some channel) (hclosed : channel.receiver = .dropped)
    (hphase : call.phase = .sending e ∨ call.phase = .waiting e ∧ c ∉ channel.pending) :
    PanicsNext w := by
  obtain ⟨chain, phase⟩ := call
  have hset : (w.setCall c ⟨chain, .panicked⟩).calls[c]? = some ⟨chain, .panicked⟩ :=
    getElem?_set_of_some hc
  rcases hphase with rfl | ⟨rfl, hgone⟩
  · refine ⟨.send c, w.setCall c ⟨chain, .panicked⟩, c, chain, ?_, hset⟩
    simp [step, hc, he, hclosed]
  · refine ⟨.resume c, w.setCall c ⟨chain, .panicked⟩, c, chain, ?_, hset⟩
    simp [step, hc, he, hgone]

/-- Where a load comes to nothing and another call depends on the endpoint. -/
theorem panicsNext_of_loadFailed {phase : Phase} {channel : Channel} {c' : CallId} {call : Call}
    (hc : w.calls[c]? = some ⟨chain, .loading e⟩) (he : w.channels[e]? = some channel)
    (hc' : w.calls[c']? = some call) (huses : call.phase = .sending e ∨ call.phase = .waiting e) :
    PanicsNext ((w.setChannel e ⟨channel.chain, [], .dropped⟩).setCall c ⟨chain, phase⟩) := by
  have hne : c ≠ c' := by
    rintro rfl
    rw [hc] at hc'
    rw [← Option.some.inj hc'] at huses
    simp at huses
  refine panicsNext_of_closed ((List.getElem?_set_ne hne).trans hc')
    (State.channels_setChannel_self he) rfl (huses.imp_right fun h => ⟨h, ?_⟩)
  simp [Channel.pending]

/-- The condition is exact: after a step that does not meet it, a call may panic. -/
theorem panicsNext_of_poisoned (hcons : Consistent w) (hstep : Step w event w')
    (hpoisoned : ¬Unpoisoned w event) : PanicsNext w' := by
  -- the steps on which there is a condition are those that look up or close an endpoint
  have hload : ∀ {c : CallId} {chain : ChainId} {e : EndpointId} {phase : Phase} {channel : Channel},
      w.calls[c]? = some ⟨chain, .loading e⟩ → w.channels[e]? = some channel →
      (¬∀ (chain : ChainId) (e : EndpointId), w.calls[c]? = some ⟨chain, .loading e⟩ →
        ∀ (c' : CallId) (call : Call), w.calls[c']? = some call →
        call.phase ≠ .sending e ∧ call.phase ≠ .waiting e) →
      PanicsNext ((w.setChannel e ⟨channel.chain, [], .dropped⟩).setCall c ⟨chain, phase⟩) := by
    intro c chain e phase channel hc he hused
    push Not at hused
    obtain ⟨chain', e', hloading, c', call, hc', huses⟩ := hused
    rw [hc] at hloading
    obtain rfl : e = e' := by simpa using congrArg Call.phase (Option.some.inj hloading)
    refine panicsNext_of_loadFailed hc he hc' ?_
    by_cases hsending : call.phase = .sending e
    · exact .inl hsending
    · exact .inr (huses hsending)
  cases hstep with
  | @hit c chain e hc he =>
    unfold Unpoisoned at hpoisoned
    push Not at hpoisoned
    obtain ⟨chain', e', channel, hc', he', hchannel, hclosed⟩ := hpoisoned
    rw [hc] at hc'
    obtain rfl := (Call.mk.inj (Option.some.inj hc')).1
    rw [he] at he'
    cases he'
    exact panicsNext_of_closed (getElem?_set_of_some hc) hchannel hclosed (.inl rfl)
  | @miss c chain room hc he hroom =>
    refine absurd (fun chain' e' channel hc' he' => ?_) hpoisoned
    rw [hc] at hc'
    obtain rfl := (Call.mk.inj (Option.some.inj hc')).1
    simp [he] at he'
  | @full c chain hc he hroom =>
    refine absurd (fun chain' e' channel hc' he' => ?_) hpoisoned
    rw [hc] at hc'
    obtain rfl := (Call.mk.inj (Option.some.inj hc')).1
    simp [he] at he'
  | loadFailed hc he => exact hload hc he hpoisoned
  | @cancelled c chain phase hc hphase =>
    refine absurd (fun chain' e' hc' => ?_) hpoisoned
    rw [hc] at hc'
    have hloading := (Call.mk.inj (Option.some.inj hc')).2
    rcases hphase with rfl | ⟨e, rfl | rfl⟩ <;> simp at hloading
  | loaderCancelled hc =>
    obtain ⟨channel, he, -⟩ := hcons.loading _ _ _ hc
    rw [State.close, he]
    exact hload hc he hpoisoned
  | _ => exact absurd trivial hpoisoned

/-- A chain that could not be loaded is loaded again, unless there is no room for it. -/
theorem loads_again (hcons : Consistent w) (hc : w.calls[c]? = some ⟨chain, .looking⟩)
    (hclosed : ∀ (e : EndpointId) (channel : Channel), w.channels[e]? = some channel →
      channel.chain = chain → channel.receiver = .dropped)
    (hunpoisoned : Unpoisoned w (.lookup c)) (hstep : Step w (.lookup c) w') :
    w' = w ∨ w'.calls[c]? = some ⟨chain, .loading w.channels.length⟩ := by
  cases hstep with
  | @hit _ chain' e hc' he =>
    rw [hc] at hc'
    obtain rfl := (Call.mk.inj (Option.some.inj hc')).1
    obtain ⟨channel, hchannel, hkey⟩ := hcons.cached _ (hcons.endpointOf_eq_some.mp he)
    exact absurd (hclosed e channel hchannel hkey) (hunpoisoned chain e channel hc he hchannel)
  | miss hc' he hroom =>
    rw [hc] at hc'
    obtain rfl := (Call.mk.inj (Option.some.inj hc')).1
    exact .inr (getElem?_set_of_some hc)
  | full hc' he hroom => exact .inl rfl

/-- **A load that fails, and the calls around it.** In a run in which no call depends on an endpoint
without a receiver, no call panics, every call that waits is answered by the actor of its chain, and
a chain that could not be loaded is loaded again by the next request. Otherwise a call may panic. -/
theorem failed_load_returns_error (capacity : Nat) {events : List Event} {w : State}
    (hrun : Run.run step (.new capacity) events = some w) :
    (Run.Along step Unpoisoned (.new capacity) events →
      (∀ (c : CallId) (chain : ChainId), w.calls[c]? ≠ some ⟨chain, .panicked⟩) ∧
      (∀ (c : CallId) (chain : ChainId) (e : EndpointId),
        w.calls[c]? = some ⟨chain, .waiting e⟩ →
        ∃ events' w', (∀ event ∈ events', Serves e event) ∧ Run.run step w events' = some w' ∧
          w'.calls[c]? = some ⟨chain, .responded e⟩) ∧
      (∀ (c : CallId) (chain : ChainId) (e : EndpointId),
        w.calls[c]? = some ⟨chain, .responded e⟩ ∨ w.calls[c]? = some ⟨chain, .returned e⟩ →
        ∃ channel, w.channels[e]? = some channel ∧ channel.chain = chain) ∧
      (∀ (c : CallId) (chain : ChainId) (w' : State), w.calls[c]? = some ⟨chain, .looking⟩ →
        (∀ (e : EndpointId) (channel : Channel), w.channels[e]? = some channel →
          channel.chain = chain → channel.receiver = .dropped) →
        Unpoisoned w (.lookup c) → step w (.lookup c) = some w' →
        w' = w ∨ w'.calls[c]? = some ⟨chain, .loading w.channels.length⟩)) ∧
    ∀ event w', step w event = some w' → ¬Unpoisoned w event → PanicsNext w' := by
  have hcons : Consistent w :=
    Run.invariant (fun _ _ _ hcons hstep => consistent_step hcons (step_cases hstep))
      (.new capacity) hrun
  refine ⟨fun hunpoisoned => ?_, fun event w' hstep hpoisoned =>
    panicsNext_of_poisoned hcons (step_cases hstep) hpoisoned⟩
  have hserved : Consistent w ∧ Served w := by
    refine Run.invariant_along (P := fun w => Consistent w ∧ Served w) ?_
      ⟨.new capacity, .new capacity⟩ hunpoisoned hrun
    rintro w event w' ⟨hcons, hserved⟩ hunpoisoned hstep
    exact ⟨consistent_step hcons (step_cases hstep),
      served_step hcons hserved hunpoisoned (step_cases hstep)⟩
  refine ⟨fun c chain => hserved.2.calls c _,
    fun c chain e hc => hserved.2.answered_eventually hc, ?_, ?_⟩
  · rintro c chain e (hc | hc)
    · exact hcons.cached _ (hcons.held c _ e hc rfl)
    · exact hserved.2.calls c _ hc
  · intro c chain w' hc hclosed hunpoisoned hstep
    exact loads_again hcons hc hclosed hunpoisoned (step_cases hstep)

/-- The chain cannot be loaded, and the call returns an error. -/
def failedLoad : List Event := [.submit ⟨⟨1⟩⟩, .lookup 0, .loaded 0 false]

theorem failed_load_returns_error_single :
    ∃ w, Run.run step (.new 1) failedLoad = some w ∧ w.calls = [⟨⟨⟨1⟩⟩, .failed⟩] ∧
      ∀ (c : CallId) (chain : ChainId), w.calls[c]? ≠ some ⟨chain, .panicked⟩ := by
  have hrun : ∃ w, Run.run step (.new 1) failedLoad = some w ∧ w.calls = [⟨⟨⟨1⟩⟩, .failed⟩] :=
    ⟨_, rfl, rfl⟩
  obtain ⟨w, hrun, hcalls⟩ := hrun
  refine ⟨w, hrun, hcalls, ((failed_load_returns_error 1 hrun).1 ?_).1⟩
  refine ⟨trivial, fun w hw => ⟨fun chain e channel _ he => ?_, fun w' hw' => ⟨?_, ?_⟩⟩⟩
  · cases hw
    simp [State.endpointOf, State.new] at he
  · cases hw
    cases hw'
    intro chain e _ c call hc
    have hcall : call = ⟨⟨⟨1⟩⟩, .loading 0⟩ := List.mem_singleton.mp (List.mem_of_getElem? hc)
    simp [hcall]
  · exact fun _ _ => trivial

/-- The second call finds the endpoint in the cache and panics. -/
theorem panics_after_failed_load :
    ∃ w, Run.run step (.new 10) [.submit ⟨⟨1⟩⟩, .lookup 0, .loaded 0 false, .submit ⟨⟨1⟩⟩, .lookup 1,
      .send 1] = some w ∧ w.calls = [⟨⟨⟨1⟩⟩, .failed⟩, ⟨⟨⟨1⟩⟩, .panicked⟩] :=
  ⟨_, rfl, rfl⟩

end Linera.Worker
