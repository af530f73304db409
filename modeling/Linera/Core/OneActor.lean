import Linera.Core.ChainWorkers

/-!
# One actor per chain

Two actors of one chain would change two copies of its state. An endpoint that a call
holds is not evicted, but a call of which the caller drops the future no longer holds
it, while its request is still in the queue or being processed. If the endpoint is
evicted then, the next request starts a second actor.
-/

namespace Linera.Worker

/-! ## One actor per chain -/

/-- The channel has an actor, which has requests to answer or can be sent one. -/
def State.CanProcess (w : State) (e : EndpointId) (channel : Channel) : Prop :=
  (∃ current, channel.receiver = .actor current) ∧ (channel.pending ≠ [] ∨ 0 < w.strongCount e)

/-- No two actors of a chain can both still process a request. -/
def OneActorPerChain (w : State) : Prop :=
  ∀ (e e' : EndpointId) (channel channel' : Channel), w.channels[e]? = some channel →
    w.channels[e']? = some channel' → channel.chain = channel'.chain →
    w.CanProcess e channel → w.CanProcess e' channel' → e = e'

def State.evicted (w : State) : Event → Option EndpointId
  | .lookup c =>
    match w.calls[c]? with
    | some ⟨chain, .looking⟩ =>
      if w.endpointOf chain = none ∧ w.capacity ≤ w.chainWorkers.length then
        w.chainToEvict.bind w.endpointOf
      else none
    | _ => none
  | _ => none

/-- An endpoint is only evicted when it has no requests. -/
def EvictsIdle (w : State) (event : Event) : Prop :=
  ∀ e ∈ w.evicted event, ∀ channel, w.channels[e]? = some channel → channel.pending = []

/-- No caller drops a call of which the actor has not answered the request. -/
def AwaitsResponses (w : State) (event : Event) : Prop :=
  ∀ (c : CallId) (chain : ChainId) (e : EndpointId) (channel : Channel), event = .cancel c →
    w.calls[c]? = some ⟨chain, .waiting e⟩ → w.channels[e]? = some channel → c ∉ channel.pending

/-- Endpoints with requests are in the cache. -/
def BusyCached (w : State) : Prop :=
  ∀ (e : EndpointId) (channel : Channel), w.channels[e]? = some channel → channel.pending ≠ [] →
    (channel.chain, e) ∈ w.chainWorkers

section OneActor

variable {w w' : State} {event : Event} {c : CallId} {e : EndpointId} {chain : ChainId}
  {channel channel' : Channel}

/-- What is evicted is not in the remaining cache. -/
theorem Consistent.evicted_eq (h : Consistent w) (hc : w.calls[c]? = some ⟨chain, .looking⟩)
    (he : w.endpointOf chain = none) {room : List (ChainId × EndpointId)}
    (hroom : w.makeRoom = some room) {p : ChainId × EndpointId} (hp : p ∈ w.chainWorkers)
    (hnot : p ∉ room) : w.evicted (.lookup c) = some p.2 := by
  have hevict := ((h.makeRoom_spec hroom).2 p hp hnot).1
  have hfull : w.capacity ≤ w.chainWorkers.length := by
    by_contra hlt
    rw [State.makeRoom, if_neg hlt] at hroom
    exact hnot (Option.some.inj hroom ▸ hp)
  simp only [State.evicted, hc, he, hfull, and_self, if_true, hevict, Option.bind_some]
  exact h.endpointOf_eq_some.mpr hp

/-- A channel that is changed was busy already, or is held by a call. -/
theorem BusyCached.setChannel (h : BusyCached w) (he : w.channels[e]? = some channel)
    (hchain : channel'.chain = channel.chain)
    (hbusy : channel'.pending ≠ [] → channel.pending ≠ [] ∨ (channel.chain, e) ∈ w.chainWorkers) :
    BusyCached (w.setChannel e channel') := by
  intro e' changed he' hpending
  rcases State.of_channels_setChannel he' with ⟨rfl, rfl⟩ | ⟨-, hold⟩
  · rw [hchain]
    rcases hbusy hpending with hbefore | hcached
    · exact h _ channel he hbefore
    · exact hcached
  · exact h e' changed hold hpending

theorem busyCached_step (hcons : Consistent w) (h : BusyCached w) (hidle : EvictsIdle w event)
    (hstep : Step w event w') : BusyCached w' := by
  cases hstep with
  | @hit c chain e hc he =>
    intro e' channel he' hpending
    have hmem := hcons.endpointOf_eq_some.mp he
    exact (hcons.mem_promote hmem _).mpr (h e' channel he' hpending)
  | @miss c chain room hc he hroom =>
    intro e' channel he' hpending
    have he' : (w.channels ++ [⟨chain, [], .loader c⟩])[e']? = some channel := he'
    rw [List.getElem?_append] at he'
    split at he'
    · have hmem := h e' channel he' hpending
      by_contra hnot
      have hout : (channel.chain, e') ∉ room := fun hin => hnot (List.mem_cons_of_mem _ hin)
      exact hpending (hidle e' (hcons.evicted_eq hc he hroom hmem hout) channel he')
    · rw [List.mem_singleton.mp (List.mem_of_getElem? he')] at hpending
      exact absurd rfl hpending
  | submit | full | timeout | sendPanics | returned | callbackDropped | cancelled => exact h
  | loaded hc he => exact h.setChannel he rfl fun _ => .inr (hcons.held_channel hc rfl he).2
  | loadFailed hc he => exact h.setChannel he rfl fun hpending => absurd rfl hpending
  | sent hc he hopen => exact h.setChannel he rfl fun _ => .inr (hcons.held_channel hc rfl he).2
  | receive he => exact h.setChannel he rfl fun _ => .inl (List.cons_ne_nil _ _)
  | respond he hc => exact h.setChannel he rfl fun _ => .inl (List.cons_ne_nil _ _)
  | drop he hc => exact h.setChannel he rfl fun _ => .inl (List.cons_ne_nil _ _)
  | stop he hcount => exact h.setChannel he rfl fun hpending => absurd rfl hpending
  | loaderCancelled hc =>
    obtain ⟨channel, he, -⟩ := hcons.loading _ _ _ hc
    rw [State.close, he]
    exact h.setChannel he rfl fun hpending => absurd rfl hpending

/-- An endpoint that can process a request is the one in the cache. -/
theorem cached_of_canProcess (hcons : Consistent w) (hbusy : BusyCached w)
    (he : w.channels[e]? = some channel) (h : w.CanProcess e channel) :
    (channel.chain, e) ∈ w.chainWorkers := by
  have hkey : ∀ k, (k, e) ∈ w.chainWorkers → (channel.chain, e) ∈ w.chainWorkers := by
    intro k hk
    rwa [hcons.chain_of_mem hk he]
  rcases h.2 with hpending | hcount
  · exact hbusy e channel he hpending
  · unfold State.strongCount at hcount
    rcases Nat.add_pos_iff_pos_or_pos.mp hcount with hcache | hcalls
    · obtain ⟨⟨k, e'⟩, hp, heq⟩ := List.countP_pos_iff.mp hcache
      obtain rfl : e' = e := of_decide_eq_true heq
      exact hkey k hp
    · obtain ⟨call, hcall, heq⟩ := List.countP_pos_iff.mp hcalls
      obtain ⟨c, hc⟩ := List.getElem?_of_mem hcall
      exact (hcons.held_channel hc (of_decide_eq_true heq) he).2

theorem oneActorPerChain_of_busyCached (hcons : Consistent w) (hbusy : BusyCached w) :
    OneActorPerChain w := by
  intro e e' channel channel' he he' hchain h h'
  have hcached := cached_of_canProcess hcons hbusy he h
  have hcached' := cached_of_canProcess hcons hbusy he' h'
  rw [← hchain] at hcached'
  exact hcons.eq_of_mem hcached hcached'

/-- Requests are answered to calls that wait for them. -/
structure Answerable (w : State) : Prop where
  waiting : ∀ (e : EndpointId) (channel : Channel) (c : CallId), w.channels[e]? = some channel →
    c ∈ channel.pending → ∃ chain, w.calls[c]? = some ⟨chain, .waiting e⟩
  nodup : ∀ (e : EndpointId) (channel : Channel), w.channels[e]? = some channel →
    channel.pending.Nodup

namespace Answerable

/-- A call that does not wait for a request changes. -/
theorem setCall {call : Call} (h : Answerable w)
    (hnot : ∀ (e : EndpointId) (channel : Channel), w.channels[e]? = some channel →
      c ∉ channel.pending) : Answerable (w.setCall c call) := by
  refine ⟨fun e channel c' he hpending => ?_, h.nodup⟩
  obtain ⟨chain, hc'⟩ := h.waiting e channel c' he hpending
  have hne : c ≠ c' := fun heq => hnot e channel he (heq ▸ hpending)
  refine ⟨chain, ?_⟩
  show (w.calls.set c call)[c']? = _
  rw [List.getElem?_set_ne hne]
  exact hc'

/-- Only a call that has sent its request is pending. -/
theorem not_pending {phase : Phase} (h : Answerable w) (hc : w.calls[c]? = some ⟨chain, phase⟩)
    (hphase : ∀ e, phase ≠ .waiting e) (e : EndpointId) (channel : Channel)
    (he : w.channels[e]? = some channel) : c ∉ channel.pending := by
  intro hpending
  obtain ⟨chain', hc'⟩ := h.waiting e channel c he hpending
  rw [hc] at hc'
  exact hphase e (Call.mk.inj (Option.some.inj hc')).2

theorem setChannel (h : Answerable w) (he : w.channels[e]? = some channel)
    (hperm : channel'.pending.Sublist channel.pending) : Answerable (w.setChannel e channel') := by
  constructor
  · intro e' changed c' he' hpending
    rcases State.of_channels_setChannel he' with ⟨rfl, rfl⟩ | ⟨-, hold⟩
    · exact h.waiting _ channel c' he (hperm.subset hpending)
    · exact h.waiting e' changed c' hold hpending
  · intro e' changed he'
    rcases State.of_channels_setChannel he' with ⟨rfl, rfl⟩ | ⟨-, hold⟩
    · exact (h.nodup _ channel he).sublist hperm
    · exact h.nodup e' changed hold

end Answerable

theorem answerable_step (hcons : Consistent w) (h : Answerable w) (hawaits : AwaitsResponses w event)
    (hstep : Step w event w') : Answerable w' := by
  cases hstep with
  | submit =>
    refine ⟨fun e channel c he hpending => ?_, h.nodup⟩
    obtain ⟨chain, hc⟩ := h.waiting e channel c he hpending
    refine ⟨chain, ?_⟩
    rw [List.getElem?_append_left (List.getElem?_eq_some_iff.mp hc).1]
    exact hc
  | @hit c chain e hc he =>
    have hnot := h.not_pending hc (by simp)
    have hpromoted : Answerable { w with
        chainWorkers := (chain, e) :: w.chainWorkers.filter (fun p => p.1 ≠ chain) } :=
      ⟨h.waiting, h.nodup⟩
    exact hpromoted.setCall hnot
  | @miss c chain room hc he hroom =>
    have hold : ∀ (e : EndpointId) (channel : Channel),
        (w.channels ++ [⟨chain, [], .loader c⟩])[e]? = some channel →
        w.channels[e]? = some channel ∨ channel.pending = [] := by
      intro e channel he
      rw [List.getElem?_append] at he
      split at he
      · exact .inl he
      · rw [List.mem_singleton.mp (List.mem_of_getElem? he)]
        exact .inr rfl
    have hregistered : Answerable { w with
        chainWorkers := (chain, w.channels.length) :: room
        channels := w.channels ++ [⟨chain, [], .loader c⟩] } := by
      constructor
      · intro e channel c' he hpending
        rcases hold e channel he with he | hnil
        · exact h.waiting e channel c' he hpending
        · simp [hnil] at hpending
      · intro e channel he
        rcases hold e channel he with he | hnil
        · exact h.nodup e channel he
        · simp [hnil]
    refine hregistered.setCall fun e channel he => ?_
    rcases hold e channel he with he | hnil
    · exact h.not_pending hc (by simp) e channel he
    · simp [hnil]
  | full => exact h
  | timeout hc => exact h.setCall (h.not_pending hc (by simp))
  | @loaded c chain e channel hc he =>
    have hset : Answerable (w.setCall c ⟨chain, .sending e⟩) :=
      h.setCall (h.not_pending hc (by simp))
    exact hset.setChannel he (pending_sublist_queue channel)
  | @loadFailed c chain e channel hc he =>
    have hset : Answerable (w.setCall c ⟨chain, .failed⟩) := h.setCall (h.not_pending hc (by simp))
    exact hset.setChannel he (List.nil_sublist _)
  | @sent c chain e channel hc he hopen =>
    have hnot := h.not_pending hc (by simp)
    have hnew : (w.calls.set c ⟨chain, .waiting e⟩)[c]? = some ⟨chain, .waiting e⟩ :=
      getElem?_set_of_some hc
    have hset : Answerable (w.setCall c ⟨chain, .waiting e⟩) := h.setCall hnot
    constructor
    · intro e' changed c' he' hpending
      rcases State.of_channels_setChannel he' with ⟨rfl, rfl⟩ | ⟨-, hold⟩
      · rw [pending_append, List.mem_append, List.mem_singleton] at hpending
        rcases hpending with hpending | rfl
        · exact hset.waiting _ channel c' he hpending
        · exact ⟨chain, hnew⟩
      · exact hset.waiting e' changed c' hold hpending
    · intro e' changed he'
      rcases State.of_channels_setChannel he' with ⟨rfl, rfl⟩ | ⟨-, hold⟩
      · rw [pending_append, List.nodup_append]
        refine ⟨h.nodup _ channel he, List.nodup_singleton c, fun a ha b hb => ?_⟩
        rw [List.mem_singleton.mp hb]
        exact fun heq => hnot _ channel he (heq ▸ ha)
      · exact h.nodup e' changed hold
  | sendPanics hc he hclosed => exact h.setCall (h.not_pending hc (by simp))
  | receive he => exact h.setChannel he (List.Sublist.refl _)
  | @respond e chain chain' c queue he hc =>
    have hchannel : Answerable (w.setChannel e ⟨chain, queue, .actor none⟩) :=
      h.setChannel he (List.sublist_cons_self ..)
    refine hchannel.setCall fun e' changed he' hpending => ?_
    rcases State.of_channels_setChannel he' with ⟨rfl, rfl⟩ | ⟨hne, hold⟩
    · exact (List.nodup_cons.mp (h.nodup _ _ he)).1 hpending
    · obtain ⟨chain'', hc''⟩ := h.waiting e' changed c hold hpending
      rw [hc] at hc''
      have hphase := (Call.mk.inj (Option.some.inj hc'')).2
      exact hne (Phase.waiting.inj hphase).symm
  | drop he hc => exact h.setChannel he (List.sublist_cons_self ..)
  | stop he hcount => exact h.setChannel he (List.nil_sublist _)
  | returned hc => exact h.setCall (h.not_pending hc (by simp))
  | @callbackDropped c chain e channel hc he hgone =>
    refine h.setCall fun e' changed he' hpending => ?_
    obtain ⟨chain', hc'⟩ := h.waiting e' changed c he' hpending
    rw [hc] at hc'
    obtain rfl := Phase.waiting.inj (Call.mk.inj (Option.some.inj hc')).2
    rw [he] at he'
    exact hgone (Option.some.inj he' ▸ hpending)
  | @cancelled c chain phase hc hphase =>
    refine h.setCall fun e' changed he' hpending => ?_
    obtain ⟨chain', hc'⟩ := h.waiting e' changed c he' hpending
    exact hawaits c chain' e' changed rfl hc' he' hpending
  | @loaderCancelled c chain e hc =>
    obtain ⟨channel, he, -⟩ := hcons.loading _ _ _ hc
    have hset : Answerable (w.setCall c ⟨chain, .cancelled⟩) :=
      h.setCall (h.not_pending hc (by simp))
    rw [State.close, he]
    exact hset.setChannel he (List.nil_sublist _)

/-- While every pending request has a waiting call, an endpoint with requests is not evicted. -/
theorem evictsIdle_of_answerable (hcons : Consistent w) (h : Answerable w) : EvictsIdle w event := by
  intro e hevicted channel he
  cases event with
  | lookup c =>
    unfold State.evicted at hevicted
    dsimp only at hevicted
    split at hevicted
    · split at hevicted
      · obtain ⟨k, hevict, hendpoint⟩ := Option.bind_eq_some_iff.mp hevicted
        have hcached := hcons.endpointOf_eq_some.mp hendpoint
        obtain ⟨p, hfind, rfl⟩ := Option.map_eq_some_iff.mp hevict
        have hp := List.mem_reverse.mp (List.mem_of_find?_eq_some hfind)
        obtain rfl : p.2 = e := hcons.eq_of_mem hp hcached
        have hcount : w.strongCount p.2 ≤ 1 := of_decide_eq_true (List.find?_some hfind :)
        by_contra hbusy
        obtain ⟨c', hpending⟩ := List.exists_mem_of_ne_nil _ hbusy
        obtain ⟨chain, hc'⟩ := h.waiting _ channel c' he hpending
        exact State.not_held_of_strongCount hcached hcount hc' rfl
      · simp at hevicted
    · simp at hevicted
  | _ => simp [State.evicted] at hevicted

end OneActor

/-- **One actor per chain.** Two actors of a chain can both still process a request only if an
endpoint was evicted while it had requests. This does not happen as long as no caller drops a call
before the actor has answered its request: the calls then hold the endpoint. -/
theorem one_actor_per_chain (capacity : Nat) {events : List Event} {w : State}
    (hrun : Run.run step (.new capacity) events = some w) :
    (Run.Along step EvictsIdle (.new capacity) events → OneActorPerChain w) ∧
      (Run.Along step AwaitsResponses (.new capacity) events →
        Run.Along step EvictsIdle (.new capacity) events) := by
  constructor
  · intro hidle
    have hinvariant : Consistent w ∧ BusyCached w := by
      refine Run.invariant_along (P := fun w => Consistent w ∧ BusyCached w) ?_ ?_ hidle hrun
      · rintro w event w' ⟨hcons, hbusy⟩ hidle hstep
        exact ⟨consistent_step hcons (step_cases hstep),
          busyCached_step hcons hbusy hidle (step_cases hstep)⟩
      · exact ⟨.new capacity, fun e channel he => by simp [State.new] at he⟩
    exact oneActorPerChain_of_busyCached hinvariant.1 hinvariant.2
  · refine Run.Along.imp (P := fun w => Consistent w ∧ Answerable w) ?_ ?_ ?_
    · rintro w event w' ⟨hcons, hanswerable⟩ hawaits hstep
      exact ⟨consistent_step hcons (step_cases hstep),
        answerable_step hcons hanswerable hawaits (step_cases hstep)⟩
    · rintro w event ⟨hcons, hanswerable⟩ -
      exact evictsIdle_of_answerable hcons hanswerable
    · exact ⟨.new capacity, fun e channel c he => by simp [State.new] at he,
        fun e channel he => by simp [State.new] at he⟩

/-- A run in which no caller drops a call. -/
theorem awaitsResponses_of_no_cancel {events : List Event} (h : ∀ c, .cancel c ∉ events) (w : State) :
    Run.Along step AwaitsResponses w events := by
  induction events generalizing w with
  | nil => trivial
  | cons event events ih =>
    refine ⟨fun c chain e channel hevent => ?_, fun w' _ => ih (fun c hc => ?_) w'⟩
    · exact absurd (hevent ▸ List.mem_cons_self) (h c)
    · exact h c (List.mem_cons_of_mem _ hc)

def chainA : ChainId := ⟨⟨1⟩⟩

def chainB : ChainId := ⟨⟨2⟩⟩

/-- A request is answered, and its chain worker makes room for another one. -/
def requestAndEviction : List Event :=
  [.submit chainA, .lookup 0, .loaded 0 true, .send 0, .receive 0, .respond 0, .resume 0,
    .submit chainB, .lookup 1]

theorem one_actor_per_chain_request :
    ∃ w, Run.run step (.new 1) requestAndEviction = some w ∧
      w.chainWorkers = [(chainB, 1)] ∧ OneActorPerChain w := by
  have hrun : ∃ w, Run.run step (.new 1) requestAndEviction = some w ∧
      w.chainWorkers = [(chainB, 1)] := ⟨_, rfl, rfl⟩
  obtain ⟨w, hrun, hcache⟩ := hrun
  have hone := one_actor_per_chain 1 hrun
  exact ⟨w, hrun, hcache, hone.1 (hone.2 (awaitsResponses_of_no_cancel (by
    simp [requestAndEviction]) _))⟩

/-- The caller of the first request drops it while the actor is processing it. Its endpoint is
evicted, and a second actor of the chain is started. -/
theorem two_actors_after_cancel :
    ∃ w, Run.run step (.new 1) [.submit chainA, .lookup 0, .loaded 0 true, .send 0, .receive 0,
      .cancel 0, .submit chainB, .lookup 1, .loaded 1 true, .send 1, .receive 1, .respond 1,
      .resume 1, .submit chainA, .lookup 2, .loaded 2 true, .send 2] = some w ∧
      w.channels[0]? = some ⟨chainA, [], .actor (some 0)⟩ ∧
      w.channels[2]? = some ⟨chainA, [2], .actor none⟩ ∧ ¬OneActorPerChain w := by
  refine ⟨_, rfl, rfl, rfl, fun h => ?_⟩
  have heq := h 0 2 _ _ rfl rfl rfl ⟨⟨_, rfl⟩, .inl (by decide)⟩ ⟨⟨_, rfl⟩, .inl (by decide)⟩
  simp at heq

end Linera.Worker
