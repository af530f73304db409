import Linera.Lib.Run
import Linera.Base.Identifiers

/-!
# Chain workers and their requests

A worker serves each chain by an actor with its own queue of requests. The endpoints
of the actors are in a cache of limited size, from which one that nobody else holds
is evicted when there is no room. A call looks up the endpoint of its chain; if there
is none it registers a new one and loads the chain, and then starts the actor. It
sends its request and waits for the response. Calls run concurrently, and their
callers may drop them at every point where they wait.

Two libraries are taken by their documentation. `lru::LruCache`: `get` makes an entry the
most recently used one, `push` on a full cache evicts the least recently used one, and
`iter` goes from the most to the least recently used. The channels of `tokio`: a request
is received once and in the order of sending, sending fails once the receiver is dropped,
and receiving ends when all senders are dropped and the queue is empty.

`step` is everything that can happen next, and `Step` lists its outcomes. In every run
the cache and the receivers are `Consistent`: in particular an endpoint is in the cache
as long as a call holds it.
-/

namespace Linera.Worker

/-! ## State -/

/-- Names of the channels to the actors, in the order in which they were created. -/
abbrev EndpointId := Nat

/-- Names of the calls of `query_chain_worker`, in the order in which they were made. -/
abbrev CallId := Nat

/-- How far a call of `query_chain_worker` has come. -/
inductive Phase where
  /-- In the loop of `get_chain_worker_endpoint`, without an endpoint. -/
  | looking
  | loading (endpoint : EndpointId)
  | sending (endpoint : EndpointId)
  /-- Has sent its request. -/
  | waiting (endpoint : EndpointId)
  /-- The actor has sent the response. -/
  | responded (endpoint : EndpointId)
  /-- Has returned the response of the actor. -/
  | returned (endpoint : EndpointId)
  /-- Has returned an error of its own: the cache is full, or the chain could not be loaded. -/
  | failed
  | panicked
  /-- The caller has dropped the future. -/
  | cancelled
deriving DecidableEq

/-- The endpoint of which the call holds a sender. -/
def Phase.endpoint : Phase → Option EndpointId
  | loading e | sending e | waiting e | responded e => some e
  | _ => none

structure Call where
  chain : ChainId
  phase : Phase
deriving DecidableEq

/-- Where the receiver of a channel is. -/
inductive Receiver where
  /-- With the call that loads the chain. -/
  | loader (call : CallId)
  /-- With the running actor, which may be processing a request. -/
  | actor (current : Option CallId)
  | dropped
deriving DecidableEq

structure Channel where
  chain : ChainId
  /-- The requests that were sent and not received, the oldest first. -/
  queue : List CallId
  receiver : Receiver
deriving DecidableEq

/-- The requests that an actor has to answer. -/
def Channel.pending (channel : Channel) : List CallId :=
  match channel.receiver with
  | .actor (some call) => call :: channel.queue
  | _ => channel.queue

theorem pending_append (channel : Channel) (c : CallId) :
    Channel.pending { channel with queue := channel.queue ++ [c] } = channel.pending ++ [c] := by
  unfold Channel.pending
  split <;> simp_all

theorem pending_sublist_queue (channel : Channel) : channel.queue.Sublist channel.pending := by
  unfold Channel.pending
  split
  · exact List.sublist_cons_self ..
  · exact List.Sublist.refl _

structure State where
  capacity : Nat
  /-- `chain_workers`, the most recently used first. -/
  chainWorkers : List (ChainId × EndpointId)
  channels : List Channel
  calls : List Call

def State.new (capacity : Nat) : State := ⟨capacity, [], [], []⟩

namespace State

variable (w : State)

/-- `strong_count`: the sender in the cache, and those of the calls. -/
def strongCount (e : EndpointId) : Nat :=
  w.chainWorkers.countP (fun p => p.2 = e) + w.calls.countP (fun c => c.phase.endpoint = some e)

def setCall (c : CallId) (call : Call) : State := { w with calls := w.calls.set c call }

def setChannel (e : EndpointId) (channel : Channel) : State :=
  { w with channels := w.channels.set e channel }

/-- Drops the receiver, and with it all requests in the queue. -/
def close (e : EndpointId) : State :=
  match w.channels[e]? with
  | some channel => w.setChannel e ⟨channel.chain, [], .dropped⟩
  | none => w

/-- `chain_workers.get`, without the promotion. -/
def endpointOf (chain : ChainId) : Option EndpointId :=
  (w.chainWorkers.find? fun p => p.1 = chain).map Prod.snd

/-- The least recently used chain of which nobody but the cache has a sender. -/
def chainToEvict : Option ChainId :=
  (w.chainWorkers.reverse.find? fun p => w.strongCount p.2 ≤ 1).map Prod.fst

def makeRoom : Option (List (ChainId × EndpointId)) :=
  if w.capacity ≤ w.chainWorkers.length then
    w.chainToEvict.map fun chain => w.chainWorkers.filter (fun p => p.1 ≠ chain)
  else some w.chainWorkers

/-- `try_get_chain_worker_endpoint`: an endpoint, and whether it is new, so that the call has the
receiver. -/
def tryGetChainWorkerEndpoint (c : CallId) (chain : ChainId) :
    Option ((EndpointId × Bool) × State) :=
  match w.endpointOf chain with
  | some e =>
    some ((e, false),
      { w with chainWorkers := (chain, e) :: w.chainWorkers.filter (fun p => p.1 ≠ chain) })
  | none =>
    w.makeRoom.map fun chainWorkers =>
      ((w.channels.length, true), { w with
        chainWorkers := (chain, w.channels.length) :: chainWorkers
        channels := w.channels ++ [⟨chain, [], .loader c⟩] })

end State

/-! ## Steps -/

/-- What happens next. -/
inductive Event where
  /-- A new call. -/
  | submit (chain : ChainId)
  /-- One turn of the loop of `get_chain_worker_endpoint`. -/
  | lookup (call : CallId)
  | timeout (call : CallId)
  /-- `ChainWorkerActor::load` returns. -/
  | loaded (call : CallId) (ok : Bool)
  | send (call : CallId)
  /-- The actor takes the next request. -/
  | receive (endpoint : EndpointId)
  /-- The actor has processed its request. -/
  | respond (endpoint : EndpointId)
  /-- The actor ends: nobody can send a request any more. -/
  | stop (endpoint : EndpointId)
  /-- A waiting call is woken up. -/
  | resume (call : CallId)
  /-- The caller drops the future, which is waiting for something. -/
  | cancel (call : CallId)
deriving DecidableEq

/-- The next state; `none` if the event cannot happen. -/
def step (w : State) : Event → Option State
  | .submit chain => some { w with calls := w.calls ++ [⟨chain, .looking⟩] }
  | .lookup c =>
    match w.calls[c]? with
    | some ⟨chain, .looking⟩ =>
      match w.tryGetChainWorkerEndpoint c chain with
      | some ((e, true), w) => some (w.setCall c ⟨chain, .loading e⟩)
      | some ((e, false), w) => some (w.setCall c ⟨chain, .sending e⟩)
      | none => some w
    | _ => none
  | .timeout c =>
    match w.calls[c]? with
    | some ⟨chain, .looking⟩ => some (w.setCall c ⟨chain, .failed⟩)
    | _ => none
  | .loaded c ok =>
    match w.calls[c]? with
    | some ⟨chain, .loading e⟩ =>
      match w.channels[e]? with
      | some channel =>
        if ok then
          some ((w.setChannel e { channel with receiver := .actor none }).setCall c
            ⟨chain, .sending e⟩)
        else some ((w.close e).setCall c ⟨chain, .failed⟩)
      | none => none
    | _ => none
  | .send c =>
    match w.calls[c]? with
    | some ⟨chain, .sending e⟩ =>
      match w.channels[e]? with
      | some channel =>
        -- the send fails if the receiver is gone, which `query_chain_worker` does not expect
        if channel.receiver = .dropped then some (w.setCall c ⟨chain, .panicked⟩)
        else
          some ((w.setChannel e { channel with queue := channel.queue ++ [c] }).setCall c
            ⟨chain, .waiting e⟩)
      | none => none
    | _ => none
  | .receive e =>
    match w.channels[e]? with
    | some ⟨chain, c :: queue, .actor none⟩ =>
      some (w.setChannel e ⟨chain, queue, .actor (some c)⟩)
    | _ => none
  | .respond e =>
    match w.channels[e]? with
    | some ⟨chain, queue, .actor (some c)⟩ =>
      let w := w.setChannel e ⟨chain, queue, .actor none⟩
      match w.calls[c]? with
      | some ⟨chain, .waiting e'⟩ =>
        -- the callback is the one of the request that was sent to this endpoint
        if e' = e then some (w.setCall c ⟨chain, .responded e⟩) else some w
      | _ => some w
    | _ => none
  | .stop e =>
    match w.channels[e]? with
    | some ⟨chain, [], .actor none⟩ =>
      if w.strongCount e = 0 then some (w.setChannel e ⟨chain, [], .dropped⟩) else none
    | _ => none
  | .resume c =>
    match w.calls[c]? with
    | some ⟨chain, .responded e⟩ => some (w.setCall c ⟨chain, .returned e⟩)
    | some ⟨chain, .waiting e⟩ =>
      match w.channels[e]? with
      | some channel =>
        -- the callback was dropped together with the request
        if c ∈ channel.pending then none else some (w.setCall c ⟨chain, .panicked⟩)
      | none => none
    | _ => none
  | .cancel c =>
    match w.calls[c]? with
    | some ⟨chain, .looking⟩ => some (w.setCall c ⟨chain, .cancelled⟩)
    | some ⟨chain, .loading e⟩ => some ((w.close e).setCall c ⟨chain, .cancelled⟩)
    | some ⟨chain, .waiting _⟩ => some (w.setCall c ⟨chain, .cancelled⟩)
    | some ⟨chain, .responded _⟩ => some (w.setCall c ⟨chain, .cancelled⟩)
    | _ => none

/-- The outcomes of a step. -/
inductive Step (w : State) : Event → State → Prop
  | submit {chain : ChainId} :
    Step w (.submit chain) { w with calls := w.calls ++ [⟨chain, .looking⟩] }
  | hit {c : CallId} {chain : ChainId} {e : EndpointId} (hc : w.calls[c]? = some ⟨chain, .looking⟩)
    (he : w.endpointOf chain = some e) :
    Step w (.lookup c) (State.setCall { w with
      chainWorkers := (chain, e) :: w.chainWorkers.filter (fun p => p.1 ≠ chain) } c
      ⟨chain, .sending e⟩)
  | miss {c : CallId} {chain : ChainId} {room : List (ChainId × EndpointId)}
    (hc : w.calls[c]? = some ⟨chain, .looking⟩) (he : w.endpointOf chain = none)
    (hroom : w.makeRoom = some room) :
    Step w (.lookup c) (State.setCall { w with
      chainWorkers := (chain, w.channels.length) :: room
      channels := w.channels ++ [⟨chain, [], .loader c⟩] } c ⟨chain, .loading w.channels.length⟩)
  | full {c : CallId} {chain : ChainId} (hc : w.calls[c]? = some ⟨chain, .looking⟩)
    (he : w.endpointOf chain = none) (hroom : w.makeRoom = none) : Step w (.lookup c) w
  | timeout {c : CallId} {chain : ChainId} (hc : w.calls[c]? = some ⟨chain, .looking⟩) :
    Step w (.timeout c) (w.setCall c ⟨chain, .failed⟩)
  | loaded {c : CallId} {chain : ChainId} {e : EndpointId} {channel : Channel}
    (hc : w.calls[c]? = some ⟨chain, .loading e⟩) (he : w.channels[e]? = some channel) :
    Step w (.loaded c true)
      ((w.setChannel e { channel with receiver := .actor none }).setCall c ⟨chain, .sending e⟩)
  | loadFailed {c : CallId} {chain : ChainId} {e : EndpointId} {channel : Channel}
    (hc : w.calls[c]? = some ⟨chain, .loading e⟩) (he : w.channels[e]? = some channel) :
    Step w (.loaded c false)
      ((w.setChannel e ⟨channel.chain, [], .dropped⟩).setCall c ⟨chain, .failed⟩)
  | sent {c : CallId} {chain : ChainId} {e : EndpointId} {channel : Channel}
    (hc : w.calls[c]? = some ⟨chain, .sending e⟩) (he : w.channels[e]? = some channel)
    (hopen : channel.receiver ≠ .dropped) :
    Step w (.send c)
      ((w.setChannel e { channel with queue := channel.queue ++ [c] }).setCall c
        ⟨chain, .waiting e⟩)
  | sendPanics {c : CallId} {chain : ChainId} {e : EndpointId} {channel : Channel}
    (hc : w.calls[c]? = some ⟨chain, .sending e⟩) (he : w.channels[e]? = some channel)
    (hclosed : channel.receiver = .dropped) :
    Step w (.send c) (w.setCall c ⟨chain, .panicked⟩)
  | receive {e : EndpointId} {chain : ChainId} {c : CallId} {queue : List CallId}
    (he : w.channels[e]? = some ⟨chain, c :: queue, .actor none⟩) :
    Step w (.receive e) (w.setChannel e ⟨chain, queue, .actor (some c)⟩)
  | respond {e : EndpointId} {chain chain' : ChainId} {c : CallId} {queue : List CallId}
    (he : w.channels[e]? = some ⟨chain, queue, .actor (some c)⟩)
    (hc : w.calls[c]? = some ⟨chain', .waiting e⟩) :
    Step w (.respond e)
      ((w.setChannel e ⟨chain, queue, .actor none⟩).setCall c ⟨chain', .responded e⟩)
  | drop {e : EndpointId} {chain : ChainId} {c : CallId} {queue : List CallId}
    (he : w.channels[e]? = some ⟨chain, queue, .actor (some c)⟩)
    (hc : ∀ chain', w.calls[c]? ≠ some ⟨chain', .waiting e⟩) :
    Step w (.respond e) (w.setChannel e ⟨chain, queue, .actor none⟩)
  | stop {e : EndpointId} {chain : ChainId}
    (he : w.channels[e]? = some ⟨chain, [], .actor none⟩) (hcount : w.strongCount e = 0) :
    Step w (.stop e) (w.setChannel e ⟨chain, [], .dropped⟩)
  | returned {c : CallId} {chain : ChainId} {e : EndpointId}
    (hc : w.calls[c]? = some ⟨chain, .responded e⟩) :
    Step w (.resume c) (w.setCall c ⟨chain, .returned e⟩)
  | callbackDropped {c : CallId} {chain : ChainId} {e : EndpointId} {channel : Channel}
    (hc : w.calls[c]? = some ⟨chain, .waiting e⟩) (he : w.channels[e]? = some channel)
    (hgone : c ∉ channel.pending) :
    Step w (.resume c) (w.setCall c ⟨chain, .panicked⟩)
  | cancelled {c : CallId} {chain : ChainId} {phase : Phase} (hc : w.calls[c]? = some ⟨chain, phase⟩)
    (hphase : phase = .looking ∨ ∃ e, phase = .waiting e ∨ phase = .responded e) :
    Step w (.cancel c) (w.setCall c ⟨chain, .cancelled⟩)
  | loaderCancelled {c : CallId} {chain : ChainId} {e : EndpointId}
    (hc : w.calls[c]? = some ⟨chain, .loading e⟩) :
    Step w (.cancel c) ((w.close e).setCall c ⟨chain, .cancelled⟩)

theorem step_cases {w w' : State} {event : Event} (h : step w event = some w') :
    Step w event w' := by
  cases event with
  | submit chain =>
    cases h
    exact .submit
  | lookup c =>
    simp only [step] at h
    split at h
    · next chain hc =>
      unfold State.tryGetChainWorkerEndpoint at h
      cases he : w.endpointOf chain with
      | some e =>
        simp only [he] at h
        cases h
        exact .hit hc he
      | none =>
        cases hroom : w.makeRoom with
        | some room =>
          simp only [he, hroom, Option.map_some] at h
          cases h
          exact .miss hc he hroom
        | none =>
          simp only [he, hroom, Option.map_none] at h
          cases h
          exact .full hc he hroom
    · simp at h
  | timeout c =>
    simp only [step] at h
    split at h
    · next hc =>
      cases h
      exact .timeout hc
    · simp at h
  | loaded c ok =>
    simp only [step] at h
    split at h
    · next chain e hc =>
      split at h
      · next channel he =>
        split at h
        · next hok =>
          subst hok
          cases h
          exact .loaded hc he
        · next hok =>
          obtain rfl : ok = false := by simpa using hok
          rw [State.close, he] at h
          cases h
          exact .loadFailed hc he
      · simp at h
    · simp at h
  | send c =>
    simp only [step] at h
    split at h
    · next chain e hc =>
      split at h
      · next channel he =>
        split at h
        · next hclosed =>
          cases h
          exact .sendPanics hc he hclosed
        · next hopen =>
          cases h
          exact .sent hc he hopen
      · simp at h
    · simp at h
  | receive e =>
    simp only [step] at h
    split at h
    · next he =>
      cases h
      exact .receive he
    · simp at h
  | respond e =>
    simp only [step] at h
    split at h
    · next chain queue c he =>
      split at h
      · next chain' e' hc =>
        split at h
        · next heq =>
          subst heq
          cases h
          exact .respond he hc
        · next hne =>
          cases h
          refine .drop he fun chain'' hc' => hne ?_
          have hcalls : w.calls[c]? = some ⟨chain', .waiting e'⟩ := hc
          rw [hcalls] at hc'
          simpa using congrArg Call.phase (Option.some.inj hc')
      · next hother =>
        cases h
        exact .drop he fun chain' hc => hother chain' e hc
    · simp at h
  | stop e =>
    simp only [step] at h
    split at h
    · next chain he =>
      split at h
      · next hcount =>
        cases h
        exact .stop he hcount
      · simp at h
    · simp at h
  | resume c =>
    simp only [step] at h
    split at h
    · next hc =>
      cases h
      exact .returned hc
    · next chain e hc =>
      split at h
      · next channel he =>
        split at h
        · simp at h
        · next hgone =>
          cases h
          exact .callbackDropped hc he hgone
      · simp at h
    · simp at h
  | cancel c =>
    simp only [step] at h
    split at h
    · next hc =>
      cases h
      exact .cancelled hc (.inl rfl)
    · next hc =>
      cases h
      exact .loaderCancelled hc
    · next e hc =>
      cases h
      exact .cancelled hc (.inr ⟨_, .inl rfl⟩)
    · next e hc =>
      cases h
      exact .cancelled hc (.inr ⟨_, .inr rfl⟩)
    · simp at h

/-! ## Lookups after an update -/

/-- What is found in a list after one element was replaced. -/
theorem of_getElem?_set {α : Type} {l : List α} {i j : Nat} {a b : α}
    (h : (l.set i a)[j]? = some b) : j = i ∧ b = a ∨ j ≠ i ∧ l[j]? = some b := by
  rw [List.getElem?_set] at h
  split at h
  · next heq =>
    split at h
    · exact .inl ⟨heq.symm, (Option.some.inj h).symm⟩
    · simp at h
  · next hne => exact .inr ⟨Ne.symm hne, h⟩

theorem getElem?_set_of_some {α : Type} {l : List α} {i : Nat} {a b : α} (h : l[i]? = some b) :
    (l.set i a)[i]? = some a := by
  have hlt := (List.getElem?_eq_some_iff.mp h).1
  simp [hlt]

namespace State

variable {w : State} {c c' : CallId} {call call' : Call} {e e' : EndpointId}
  {channel channel' : Channel}

theorem of_calls_setCall (h : (w.setCall c call).calls[c']? = some call') :
    c' = c ∧ call' = call ∨ c' ≠ c ∧ w.calls[c']? = some call' :=
  of_getElem?_set h

theorem of_calls_submit {chain : ChainId} (h : (w.calls ++ [⟨chain, .looking⟩])[c]? = some call) :
    w.calls[c]? = some call ∨ call.phase = .looking := by
  rw [List.getElem?_append] at h
  split at h
  · exact .inl h
  · rw [List.mem_singleton.mp (List.mem_of_getElem? h)]
    exact .inr rfl

theorem channels_append (h : w.channels[e]? = some channel) :
    (w.channels ++ [channel'])[e]? = some channel := by
  rw [List.getElem?_append_left (List.getElem?_eq_some_iff.mp h).1]
  exact h

theorem of_channels_setChannel (h : (w.setChannel e channel).channels[e']? = some channel') :
    e' = e ∧ channel' = channel ∨ e' ≠ e ∧ w.channels[e']? = some channel' :=
  of_getElem?_set h

theorem channels_setChannel_self (h : w.channels[e]? = some channel') :
    (w.setChannel e channel).channels[e]? = some channel :=
  getElem?_set_of_some h

theorem channels_setChannel_of_ne (h : e' ≠ e) :
    (w.setChannel e channel).channels[e']? = w.channels[e']? := by
  unfold setChannel
  simp [Ne.symm h]

/-- An endpoint that nobody but the cache holds. -/
theorem not_held_of_strongCount {chain : ChainId} (hcached : (chain, e) ∈ w.chainWorkers)
    (hcount : w.strongCount e ≤ 1) (hc : w.calls[c]? = some call) :
    call.phase.endpoint ≠ some e := by
  intro hheld
  have hcache : 0 < w.chainWorkers.countP (fun p => p.2 = e) :=
    List.countP_pos_iff.mpr ⟨(chain, e), hcached, decide_eq_true rfl⟩
  have hcalls : 0 < w.calls.countP (fun c => c.phase.endpoint = some e) :=
    List.countP_pos_iff.mpr ⟨call, List.mem_of_getElem? hc, decide_eq_true hheld⟩
  unfold strongCount at hcount
  omega

end State

/-! ## Invariants of all runs -/

/-- Which endpoints are in the cache, and who holds their receivers. -/
structure Consistent (w : State) : Prop where
  nodup : (w.chainWorkers.map Prod.fst).Nodup
  cached : ∀ p ∈ w.chainWorkers, ∃ channel, w.channels[p.2]? = some channel ∧ channel.chain = p.1
  /-- An endpoint stays in the cache as long as a call holds it. -/
  held : ∀ (c : CallId) (call : Call) (e : EndpointId), w.calls[c]? = some call →
    call.phase.endpoint = some e →
    (call.chain, e) ∈ w.chainWorkers
  loading : ∀ (c : CallId) (chain : ChainId) (e : EndpointId),
    w.calls[c]? = some ⟨chain, .loading e⟩ →
    ∃ channel : Channel, w.channels[e]? = some channel ∧ channel.receiver = .loader c

namespace Consistent

variable {w : State} {c c' : CallId} {call : Call} {e e' : EndpointId} {chain chain' : ChainId}
  {channel channel' : Channel}

theorem new (capacity : Nat) : Consistent (.new capacity) where
  nodup := List.nodup_nil
  cached := List.forall_mem_nil _
  held _ _ _ hc := by simp [State.new] at hc
  loading _ _ _ hc := by simp [State.new] at hc

section

variable (h : Consistent w)

include h

/-- The keys of the cache determine the endpoints. -/
theorem eq_of_mem (he : (chain, e) ∈ w.chainWorkers) (he' : (chain, e') ∈ w.chainWorkers) :
    e = e' :=
  congrArg Prod.snd (List.inj_on_of_nodup_map h.nodup he he' rfl)

theorem endpointOf_eq_some : w.endpointOf chain = some e ↔ (chain, e) ∈ w.chainWorkers := by
  unfold State.endpointOf
  constructor
  · intro hfind
    obtain ⟨⟨k, e'⟩, hp, rfl⟩ := Option.map_eq_some_iff.mp hfind
    obtain rfl : k = chain := of_decide_eq_true (List.find?_some hp :)
    exact List.mem_of_find?_eq_some hp
  · intro hmem
    cases hfind : w.chainWorkers.find? fun p => p.1 = chain with
    | none => exact absurd (List.find?_eq_none.mp hfind _ hmem) (by simp)
    | some p =>
      have hp : p.1 = chain := of_decide_eq_true (List.find?_some hfind :)
      have heq := List.inj_on_of_nodup_map h.nodup (List.mem_of_find?_eq_some hfind) hmem hp
      rw [heq]
      rfl

theorem chain_of_mem (hmem : (chain, e) ∈ w.chainWorkers) (he : w.channels[e]? = some channel) :
    channel.chain = chain := by
  obtain ⟨channel', he', hchain⟩ := h.cached _ hmem
  rw [show w.channels[e]? = some channel' from he'] at he
  cases he
  exact hchain

theorem held_channel (hc : w.calls[c]? = some call) (hheld : call.phase.endpoint = some e)
    (he : w.channels[e]? = some channel) :
    channel.chain = call.chain ∧ (channel.chain, e) ∈ w.chainWorkers := by
  have hmem := h.held c call e hc hheld
  have hchain := h.chain_of_mem hmem he
  exact ⟨hchain, hchain ▸ hmem⟩

theorem loader_unique (hc : w.calls[c]? = some ⟨chain, .loading e⟩)
    (hc' : w.calls[c']? = some ⟨chain', .loading e⟩) : c = c' := by
  obtain ⟨channel, he, hloader⟩ := h.loading c chain e hc
  obtain ⟨channel', he', hloader'⟩ := h.loading c' chain' e hc'
  rw [he] at he'
  cases he'
  exact Receiver.loader.inj (hloader.symm.trans hloader')

/-- Promoting an endpoint does not change what is in the cache. -/
theorem mem_promote (he : (chain, e) ∈ w.chainWorkers) (p : ChainId × EndpointId) :
    p ∈ (chain, e) :: w.chainWorkers.filter (fun p => p.1 ≠ chain) ↔ p ∈ w.chainWorkers := by
  rw [List.mem_cons, List.mem_filter]
  constructor
  · rintro (rfl | ⟨hp, -⟩)
    · exact he
    · exact hp
  · intro hp
    by_cases hkey : p.1 = chain
    · exact .inl (List.inj_on_of_nodup_map h.nodup hp he hkey)
    · exact .inr ⟨hp, decide_eq_true hkey⟩

theorem makeRoom_spec {room : List (ChainId × EndpointId)} (hroom : w.makeRoom = some room) :
    room.Sublist w.chainWorkers ∧
      ∀ p ∈ w.chainWorkers, p ∉ room → w.chainToEvict = some p.1 ∧ w.strongCount p.2 ≤ 1 := by
  unfold State.makeRoom at hroom
  split at hroom
  · obtain ⟨chain, hevict, rfl⟩ := Option.map_eq_some_iff.mp hroom
    refine ⟨List.filter_sublist, fun p hp hnot => ?_⟩
    have hkey : p.1 = chain := by
      by_contra hne
      exact hnot (List.mem_filter.mpr ⟨hp, decide_eq_true hne⟩)
    refine ⟨hkey ▸ hevict, ?_⟩
    obtain ⟨q, hfind, hq⟩ := Option.map_eq_some_iff.mp hevict
    have hmem := List.mem_reverse.mp (List.mem_of_find?_eq_some hfind)
    rw [List.inj_on_of_nodup_map h.nodup hp hmem (hkey.trans hq.symm)]
    exact of_decide_eq_true (List.find?_some hfind :)
  · cases hroom
    exact ⟨List.Sublist.refl _, fun p hp hnot => absurd hp hnot⟩

theorem setCall (hheld : ∀ e, call.phase.endpoint = some e → (call.chain, e) ∈ w.chainWorkers)
    (hloading : ∀ e, call.phase = .loading e →
      ∃ channel, w.channels[e]? = some channel ∧ channel.receiver = .loader c) :
    Consistent (w.setCall c call) where
  nodup := h.nodup
  cached := h.cached
  held c' call' e hc' he := by
    rcases State.of_calls_setCall hc' with ⟨-, rfl⟩ | ⟨-, hold⟩
    · exact hheld e he
    · exact h.held c' call' e hold he
  loading c' chain e hc' := by
    rcases State.of_calls_setCall hc' with ⟨rfl, rfl⟩ | ⟨-, hold⟩
    · exact hloading e rfl
    · exact h.loading c' chain e hold

theorem release (hnone : call.phase.endpoint = none) : Consistent (w.setCall c call) :=
  h.setCall (fun e he => by simp [hnone] at he) (fun e he => by simp [he, Phase.endpoint] at hnone)

/-- The call keeps its endpoint, and does not load the chain. -/
theorem proceed {phase : Phase} (hc : w.calls[c]? = some call)
    (hsame : phase.endpoint = call.phase.endpoint) (hphase : ∀ e, phase ≠ .loading e) :
    Consistent (w.setCall c ⟨call.chain, phase⟩) :=
  h.setCall (fun e he => h.held c call e hc (hsame ▸ he)) (fun e he => absurd he (hphase e))

theorem setChannel (he : w.channels[e]? = some channel) (hchain : channel'.chain = channel.chain)
    (hloader : ∀ c chain, w.calls[c]? = some ⟨chain, .loading e⟩ → channel'.receiver = .loader c) :
    Consistent (w.setChannel e channel') where
  nodup := h.nodup
  cached p hp := by
    obtain ⟨old, hold, hkey⟩ := h.cached p hp
    by_cases hpe : p.2 = e
    · rw [hpe, he] at hold
      cases hold
      refine ⟨channel', ?_, hchain.trans hkey⟩
      rw [hpe]
      exact State.channels_setChannel_self he
    · exact ⟨old, (State.channels_setChannel_of_ne hpe).trans hold, hkey⟩
  held := h.held
  loading c chain e' hc := by
    by_cases hee : e' = e
    · subst hee
      exact ⟨channel', State.channels_setChannel_self he, hloader c chain hc⟩
    · obtain ⟨old, hold, hreceiver⟩ := h.loading c chain e' hc
      exact ⟨old, (State.channels_setChannel_of_ne hee).trans hold, hreceiver⟩

/-- A channel that an actor serves is not being loaded. -/
theorem setActorChannel {current : Option CallId} (he : w.channels[e]? = some channel)
    (hactor : channel.receiver = .actor current) (hchain : channel'.chain = channel.chain) :
    Consistent (w.setChannel e channel') := by
  refine h.setChannel he hchain fun c chain hc => ?_
  obtain ⟨channel, he', hloader⟩ := h.loading c chain e hc
  rw [he] at he'
  cases he'
  simp [hactor] at hloader

/-- The call that loads the chain gives up the receiver. -/
theorem loaded {phase : Phase} (hc : w.calls[c]? = some ⟨chain, .loading e⟩)
    (he : w.channels[e]? = some channel) (hchain : channel'.chain = channel.chain)
    (hphase : phase.endpoint = none ∨ phase = .sending e) :
    Consistent ((w.setChannel e channel').setCall c ⟨chain, phase⟩) := by
  have hset : Consistent (w.setCall c ⟨chain, phase⟩) := by
    rcases hphase with hnone | rfl
    · exact h.release hnone
    · exact h.proceed hc rfl (by simp)
  refine hset.setChannel he hchain fun c' chain' hc' => ?_
  rcases State.of_calls_setCall hc' with ⟨-, heq⟩ | ⟨hne, hold⟩
  · obtain ⟨-, hloading⟩ := Call.mk.inj heq
    subst hloading
    rcases hphase with hnone | hsending
    · simp [Phase.endpoint] at hnone
    · simp at hsending
  · exact absurd (h.loader_unique hc hold).symm hne

end

end Consistent

/-- Every step keeps the cache and the receivers consistent. -/
theorem consistent_step {w w' : State} {event : Event} (h : Consistent w)
    (hstep : Step w event w') : Consistent w' := by
  cases hstep with
  | submit =>
    refine ⟨h.nodup, h.cached, fun c call e hc he => ?_, fun c chain e hc => ?_⟩
    · rcases State.of_calls_submit hc with hc | hlooking
      · exact h.held c call e hc he
      · simp [hlooking, Phase.endpoint] at he
    · rcases State.of_calls_submit hc with hc | hlooking
      · exact h.loading c chain e hc
      · simp at hlooking
  | @hit c chain e hc he =>
    have hmem := h.endpointOf_eq_some.mp he
    have hpromoted : Consistent { w with
        chainWorkers := (chain, e) :: w.chainWorkers.filter (fun p => p.1 ≠ chain) } := by
      refine ⟨?_, fun p hp => h.cached p ((h.mem_promote hmem p).mp hp),
        fun c call e' hc he' => (h.mem_promote hmem _).mpr (h.held c call e' hc he'), h.loading⟩
      rw [List.map_cons, List.nodup_cons]
      refine ⟨?_, h.nodup.sublist (List.filter_sublist.map _)⟩
      simp
    refine hpromoted.setCall (fun e' he' => ?_) (fun e' he' => by simp at he')
    obtain rfl : e = e' := by simpa [Phase.endpoint] using he'
    exact List.mem_cons_self
  | @miss c chain room hc he hroom =>
    obtain ⟨hsub, hevicted⟩ := h.makeRoom_spec hroom
    have hfresh : chain ∉ room.map Prod.fst := by
      intro hmem
      obtain ⟨p, hp, rfl⟩ := List.mem_map.mp hmem
      have hcached := h.endpointOf_eq_some.mpr (show (p.1, p.2) ∈ w.chainWorkers from hsub.subset hp)
      simp [hcached] at he
    have hnew : (w.channels ++ [⟨chain, [], .loader c⟩])[w.channels.length]? =
        some ⟨chain, [], .loader c⟩ := by simp
    have hregistered : Consistent { w with
        chainWorkers := (chain, w.channels.length) :: room
        channels := w.channels ++ [⟨chain, [], .loader c⟩] } := by
      refine ⟨?_, ?_, ?_, ?_⟩
      · exact List.nodup_cons.mpr ⟨hfresh, h.nodup.sublist (hsub.map _)⟩
      · intro p hp
        rcases List.mem_cons.mp hp with rfl | hp
        · exact ⟨_, hnew, rfl⟩
        · obtain ⟨channel, hchannel, hkey⟩ := h.cached p (hsub.subset hp)
          exact ⟨channel, State.channels_append hchannel, hkey⟩
      · intro c' call e' hc' he'
        have hmem := h.held c' call e' hc' he'
        by_contra hnot
        have hout : (call.chain, e') ∉ room := fun hin => hnot (List.mem_cons_of_mem _ hin)
        exact State.not_held_of_strongCount hmem (hevicted _ hmem hout).2 hc' he'
      · intro c' chain' e' hc'
        obtain ⟨channel, hchannel, hloader⟩ := h.loading c' chain' e' hc'
        exact ⟨channel, State.channels_append hchannel, hloader⟩
    refine hregistered.setCall (fun e' he' => ?_) (fun e' he' => ?_)
    · obtain rfl : w.channels.length = e' := by simpa [Phase.endpoint] using he'
      exact List.mem_cons_self
    · obtain rfl : w.channels.length = e' := by simpa using he'
      exact ⟨_, hnew, rfl⟩
  | full => exact h
  | timeout | sendPanics | returned | callbackDropped | cancelled => exact h.release rfl
  | loaded hc he => exact h.loaded hc he rfl (.inr rfl)
  | loadFailed hc he => exact h.loaded hc he rfl (.inl rfl)
  | @sent c chain e channel hc he hopen =>
    have hwaiting : Consistent (w.setCall c ⟨chain, .waiting e⟩) := h.proceed hc rfl (by simp)
    show Consistent ((w.setCall c ⟨chain, .waiting e⟩).setChannel e
      { channel with queue := channel.queue ++ [c] })
    refine hwaiting.setChannel he rfl fun c' chain' hc' => ?_
    rcases State.of_calls_setCall hc' with ⟨-, heq⟩ | ⟨-, hold⟩
    · simp at heq
    · obtain ⟨channel', he', hloader⟩ := h.loading c' chain' e hold
      rw [he] at he'
      cases he'
      exact hloader
  | receive he => exact h.setActorChannel he rfl rfl
  | @respond e chain chain' c queue he hc =>
    have hresponded : Consistent (w.setCall c ⟨chain', .responded e⟩) :=
      h.proceed hc rfl (by simp)
    show Consistent ((w.setCall c ⟨chain', .responded e⟩).setChannel e
      ⟨chain, queue, .actor none⟩)
    exact hresponded.setActorChannel he rfl rfl
  | drop he hc => exact h.setActorChannel he rfl rfl
  | stop he hcount => exact h.setActorChannel he rfl rfl
  | loaderCancelled hc =>
    obtain ⟨channel, he, -⟩ := h.loading _ _ _ hc
    rw [State.close, he]
    exact h.loaded hc he rfl (.inl rfl)

end Linera.Worker
