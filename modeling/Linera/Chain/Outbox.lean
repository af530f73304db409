import Linera.Chain.Locking
import Linera.Chain.Sending

/-!
# Outbox accounting

Messages in flight are recorded twice: in the outbox of each target, as a queue of
block heights, and in `outbox_counters`, which has for each height the number of
targets that still wait for it. `Accounted` says that the two agree. Every way of
scheduling messages goes through `schedule`, and `markMessagesAsReceived` is the
only way to take them out, so the run lemma `outboxes_accounted` needs two step
lemmas, `OutboxesAccounted.schedule` and `OutboxesAccounted.markMessagesAsReceived`;
everything else leaves the outboxes as they are.

The model is of a release build, in which machine integers wrap. The counters are the
exception: where one would pass 2^32 - 1 the run ends, as in a build with overflow
checks, so the results are about heights with fewer than 2^32 targets.
-/

namespace Linera

/-- The queue is strictly increasing and below the next height. -/
structure OutboxStateView.Ordered (o : OutboxStateView) : Prop where
  increasing : o.queue.Pairwise (· < ·)
  below : ∀ h ∈ o.queue, h < o.nextHeightToSchedule

theorem OutboxStateView.ordered_fresh : fresh.Ordered :=
  ⟨List.Pairwise.nil, fun _ h => by cases h⟩

/-! ## Outboxes and counters -/

/-- The number of targets whose queue contains the height. -/
def inFlight (outboxes : BTreeMap Target OutboxStateView) (h : Nat) : Nat :=
  outboxes.sumBy fun _ outbox => if h ∈ outbox.queue then 1 else 0

/-- The counter for a number of targets: there is none for no target. -/
def counterFor (n : Nat) : Option Nat := if n = 0 then none else some n

/-- The queues are in order, and the counters are right. -/
structure Accounted (outboxes : BTreeMap Target OutboxStateView) (counters : BTreeMap Nat Nat) :
    Prop where
  ordered : ∀ target outbox, outboxes.get target = some outbox → outbox.Ordered
  counters : ∀ h, counters.get h = counterFor (inFlight outboxes h)

theorem accounted_empty : Accounted .empty .empty where
  ordered _ _ h := by cases h
  counters _ := rfl

variable {outboxes : BTreeMap Target OutboxStateView} {counters : BTreeMap Nat Nat}

theorem Accounted.ordered_getD (hacc : Accounted outboxes counters) (target : Target) :
    ((outboxes.get target).getD .fresh).Ordered := by
  cases hget : outboxes.get target with
  | none => exact OutboxStateView.ordered_fresh
  | some outbox => exact hacc.ordered target outbox hget

/-- The share of one target in `inFlight`. -/
theorem elim_get_outboxes (outboxes : BTreeMap Target OutboxStateView) (target : Target) (h : Nat) :
    (outboxes.get target).elim 0 (fun outbox => if h ∈ outbox.queue then 1 else 0) =
      if h ∈ ((outboxes.get target).getD .fresh).queue then 1 else 0 := by
  cases outboxes.get target <;> simp [OutboxStateView.fresh]

theorem inFlight_insert (outboxes : BTreeMap Target OutboxStateView) (target : Target)
    (outbox : OutboxStateView) (h : Nat) : inFlight (outboxes.insert target outbox) h +
        (if h ∈ ((outboxes.get target).getD .fresh).queue then 1 else 0) =
      inFlight outboxes h + if h ∈ outbox.queue then 1 else 0 := by
  rw [← elim_get_outboxes]
  exact BTreeMap.sumBy_insert _ outboxes target outbox

theorem inFlight_remove (outboxes : BTreeMap Target OutboxStateView) (target : Target) (h : Nat) :
    inFlight (outboxes.remove target) h +
        (if h ∈ ((outboxes.get target).getD .fresh).queue then 1 else 0) =
      inFlight outboxes h := by
  rw [← elim_get_outboxes]
  exact BTreeMap.sumBy_remove _ outboxes target

theorem inFlight_pos_iff (outboxes : BTreeMap Target OutboxStateView) (h : Nat) :
    0 < inFlight outboxes h ↔
      ∃ target outbox, outboxes.get target = some outbox ∧ h ∈ outbox.queue := by
  rw [inFlight, BTreeMap.sumBy_pos_iff]
  refine exists_congr fun target => exists_congr fun outbox => and_congr_right fun _ => ?_
  split <;> simp_all

/-- Replacing the outbox of a target by one in order keeps all outboxes in order. -/
theorem Accounted.ordered_insert (hacc : Accounted outboxes counters) (target : Target)
    {outbox : OutboxStateView} (hordered : outbox.Ordered) :
    ∀ target' outbox', (outboxes.insert target outbox).get target' = some outbox' →
      outbox'.Ordered := by
  intro target' outbox' hget
  rw [BTreeMap.get_insert] at hget
  split at hget
  · cases hget
    exact hordered
  · exact hacc.ordered target' outbox' hget

/-! ## Scheduling -/

theorem BlockHeight.tryAddOne_ensures (height : Nat) :
    (BlockHeight.tryAddOne height).Ensures fun next => next = height + 1 := by
  unfold BlockHeight.tryAddOne
  split
  · exact .ok rfl
  · exact .error

theorem BlockHeight.tryAddOne_le (height : Nat) :
    (BlockHeight.tryAddOne height).Ensures fun next => next ≤ BlockHeight.max := by
  unfold BlockHeight.tryAddOne
  split
  · next hle => exact .ok hle
  · exact .error

theorem OutboxStateView.scheduleMessage_cases {o : OutboxStateView} {height : Nat}
    (ho : o.Ordered) : (o.scheduleMessage height).Ensures fun (o', changed) =>
      (changed = false ∧ o' = o) ∨
        (changed = true ∧ height ∉ o.queue ∧ o'.queue = o.queue ++ [height] ∧ o'.Ordered) := by
  unfold OutboxStateView.scheduleMessage
  split
  · exact .ok (.inl ⟨rfl, rfl⟩)
  · next hle =>
    refine .bind (BlockHeight.tryAddOne_ensures height) ?_
    rintro _ rfl
    have hbelow : ∀ h ∈ o.queue, h < height := fun h hmem => by
      have := ho.below h hmem
      omega
    refine .ok (.inr ⟨rfl, fun hmem => (hbelow _ hmem).ne rfl, rfl, ?_, ?_⟩)
    · rw [List.pairwise_append]
      refine ⟨ho.increasing, List.pairwise_singleton _ _, fun a ha b hb => ?_⟩
      rw [List.mem_singleton] at hb
      exact hb ▸ hbelow a ha
    · intro h hmem
      rcases List.mem_append.mp hmem with hmem | hmem
      · exact (hbelow h hmem).trans (Nat.lt_succ_self _)
      · rw [List.mem_singleton] at hmem
        exact hmem ▸ Nat.lt_succ_self _

/-- Loading an outbox may create it, but nothing else. -/
theorem Accounted.load (hacc : Accounted outboxes counters) (target : Target) :
    Accounted (outboxes.insert target ((outboxes.get target).getD .fresh)) counters := by
  refine ⟨hacc.ordered_insert target (hacc.ordered_getD target), fun h => ?_⟩
  have hcount := inFlight_insert outboxes target ((outboxes.get target).getD .fresh) h
  rw [hacc.counters, Nat.add_right_cancel hcount]

/-- A height that is new in the queue of a target is counted. -/
theorem Accounted.push (hacc : Accounted outboxes counters) {target : Target} {height : Nat}
    {outbox : OutboxStateView} (hnew : height ∉ ((outboxes.get target).getD .fresh).queue)
    (hqueue : outbox.queue = ((outboxes.get target).getD .fresh).queue ++ [height])
    (hordered : outbox.Ordered) : Accounted (outboxes.insert target outbox)
      (counters.insert height ((counters.get height).getD 0 + 1)) := by
  refine ⟨hacc.ordered_insert target hordered, fun h => ?_⟩
  have hcount := inFlight_insert outboxes target outbox h
  have hcounter := hacc.counters h
  simp only [hqueue, List.mem_append, List.mem_singleton] at hcount
  rw [BTreeMap.get_insert]
  by_cases hh : h = height
  · subst hh
    rw [if_neg hnew, if_pos (.inr rfl)] at hcount
    rw [if_pos rfl, hcounter, counterFor, counterFor]
    split <;> simp_all
  · simp only [hh, or_false] at hcount
    rw [if_neg hh, hcounter, Nat.add_right_cancel hcount]

/-! ## Delivery -/

/-- In an ordered queue, the heights that are left are the others. -/
theorem mem_dropWhile_iff {queue : List Nat} (hqueue : queue.Pairwise (· < ·)) (height h : Nat) :
    h ∈ queue.dropWhile (· ≤ height) ↔ h ∈ queue ∧ h ∉ queue.takeWhile (· ≤ height) := by
  have hsplit := List.takeWhile_append_dropWhile (p := (· ≤ height)) (l := queue)
  have hnodup : (queue.takeWhile (· ≤ height) ++ queue.dropWhile (· ≤ height)).Nodup := by
    rw [hsplit]
    exact hqueue.imp fun h => h.ne
  have hdisjoint := List.disjoint_of_nodup_append hnodup
  constructor
  · intro hmem
    exact ⟨(List.dropWhile_suffix _).mem hmem, fun htake => hdisjoint htake hmem⟩
  · rintro ⟨hmem, hnot⟩
    rw [← hsplit, List.mem_append] at hmem
    exact hmem.resolve_left hnot

theorem OutboxStateView.Ordered.mark {o : OutboxStateView} (ho : o.Ordered) (height : Nat) :
    (o.markMessagesAsReceived height).1.Ordered :=
  ⟨ho.increasing.sublist (List.dropWhile_sublist _),
    fun h hmem => ho.below h ((List.dropWhile_suffix _).mem hmem)⟩

/-- What is in flight once the messages of one target have been received up to a height. -/
theorem Accounted.inFlight_mark (hacc : Accounted outboxes counters) (target : Target)
    (height h : Nat) :
    let marked := ((outboxes.get target).getD .fresh).markMessagesAsReceived height
    inFlight (outboxes.insert target marked.1) h =
      inFlight outboxes h - if h ∈ marked.2 then 1 else 0 := by
  intro marked
  have hinsert := inFlight_insert outboxes target marked.1 h
  have hiff := mem_dropWhile_iff (hacc.ordered_getD target).increasing height h
  have hsub : h ∈ marked.2 → h ∈ ((outboxes.get target).getD .fresh).queue :=
    fun hmem => (List.takeWhile_prefix _).mem hmem
  simp only [marked, OutboxStateView.markMessagesAsReceived] at hinsert hsub ⊢
  generalize ((outboxes.get target).getD .fresh).queue = queue at hinsert hiff hsub ⊢
  by_cases hq : h ∈ queue <;> by_cases ht : h ∈ queue.takeWhile (· ≤ height) <;> simp_all
  omega

/-- A height that is taken out of a queue was in flight. -/
theorem inFlight_pos_of_mark (outboxes : BTreeMap Target OutboxStateView) (target : Target)
    (height h : Nat)
    (hmem : h ∈ (((outboxes.get target).getD .fresh).markMessagesAsReceived height).2) :
    0 < inFlight outboxes h := by
  have hqueue : h ∈ ((outboxes.get target).getD .fresh).queue :=
    (List.takeWhile_prefix _).mem hmem
  cases hget : outboxes.get target with
  | none =>
    rw [hget] at hqueue
    cases hqueue
  | some outbox =>
    rw [hget] at hqueue
    exact (inFlight_pos_iff outboxes h).mpr ⟨target, outbox, hget, hqueue⟩

namespace ChainStateView

/-- The outboxes and counters of a chain agree. -/
def OutboxesAccounted (c : ChainStateView) : Prop := Accounted c.outboxes c.outboxCounters

variable {c c' : ChainStateView}

theorem OutboxesAccounted.schedule (hc : c.OutboxesAccounted) (target : Target) (height : Nat) :
    (c.schedule target height).Ensures fun (c', _) => c'.OutboxesAccounted := by
  refine .bind (.mapError (OutboxStateView.scheduleMessage_cases (hc.ordered_getD target))) ?_
  rintro ⟨outbox, changed⟩ (⟨rfl, rfl⟩ | ⟨rfl, hnew, hqueue, hordered⟩)
  · exact .ok (hc.load target)
  · exact .guard fun _ => .ok (hc.push hnew hqueue hordered)

theorem OutboxesAccounted.scheduleAll (hc : c.OutboxesAccounted) (messages : List (Target × Nat)) :
    (c.scheduleAll messages).Ensures fun (c', _) => c'.OutboxesAccounted := by
  induction messages generalizing c with
  | nil => exact .ok hc
  | cons m messages ih =>
    refine .bind (hc.schedule m.1 m.2) ?_
    rintro ⟨c₁, _⟩ hc₁
    refine .bind (ih hc₁) ?_
    rintro ⟨c₂, _⟩ hc₂
    exact .ok hc₂

/-! ## What leaves the outboxes as they are -/

/-- The outboxes and their counters are the same. -/
structure SameOutboxes (c c' : ChainStateView) : Prop where
  outboxes : c'.outboxes = c.outboxes
  outboxCounters : c'.outboxCounters = c.outboxCounters

theorem SameOutboxes.accounted (h : SameOutboxes c c') (hc : c.OutboxesAccounted) :
    c'.OutboxesAccounted := by
  rw [OutboxesAccounted, h.outboxes, h.outboxCounters]
  exact hc

theorem SetsChannels.sameOutboxes (h : c.SetsChannels c') : SameOutboxes c c' := by
  rw [h]
  exact ⟨rfl, rfl⟩

theorem Initializes.sameOutboxes (h : c.Initializes c') : SameOutboxes c c' := by
  rw [h]
  exact ⟨rfl, rfl⟩

theorem Removes.sameOutboxes (h : c.Removes c') : SameOutboxes c c' := by
  rw [h]
  exact ⟨rfl, rfl⟩

/-! ## Sending and receiving -/

variable (context : ChainContext)

theorem OutboxesAccounted.processSubscribes (hc : c.OutboxesAccounted)
    (namesAndIds : List (ChannelName × ChainId)) (applicationId : GenericApplicationId) :
    (c.processSubscribes namesAndIds applicationId).Ensures
      fun (c', _) => c'.OutboxesAccounted :=
  .guard fun _ => ((c.addSubscribers_setsChannels _).sameOutboxes.accounted hc).scheduleAll _

theorem OutboxesAccounted.processRawExecutionOutcome {μ : Type} (hc : c.OutboxesAccounted)
    (applicationId : GenericApplicationId) (lift : μ → Message) (height : Nat)
    (rawOutcome : RawExecutionOutcome μ Nat) :
    (c.processRawExecutionOutcome applicationId lift height rawOutcome).Ensures
      fun (c', _) => c'.OutboxesAccounted := by
  refine .bind_any fun _ => .bind (hc.scheduleAll _) ?_
  rintro ⟨c₁, _⟩ hc₁
  refine .bind (c₁.processUnsubscribes_setsChannels _ _) fun c₂ hc₂ => ?_
  have hbroadcast := c₂.broadcast_setsChannels height
    ((channelBroadcasts rawOutcome.messages).keys.map (ChannelFullName.mk applicationId))
  have hc₃ := hbroadcast.sameOutboxes.accounted (hc₂.sameOutboxes.accounted hc₁)
  refine .bind (hc₃.scheduleAll _) ?_
  rintro ⟨c₄, _⟩ hc₄
  refine .bind (hc₄.processSubscribes _ _) ?_
  rintro ⟨c₅, _⟩ hc₅
  exact .ok hc₅

theorem OutboxesAccounted.processExecutionOutcome (hc : c.OutboxesAccounted) (height : Nat)
    (outcome : ExecutionOutcome) :
    (c.processExecutionOutcome height outcome).Ensures fun (c', _) => c'.OutboxesAccounted := by
  cases outcome <;> exact hc.processRawExecutionOutcome _ _ _ _

theorem OutboxesAccounted.receiveMessageBundle (hc : c.OutboxesAccounted) (origin : Origin)
    (bundle : MessageBundle) (localTime : Nat) (addToReceivedLog : Bool) :
    (c.receiveMessageBundle context origin bundle localTime addToReceivedLog).Ensures
      fun (c', _) => c'.OutboxesAccounted := by
  refine .guard fun _ => .bind (c.handleImmediateMessages_initializes context _ _ _ _) ?_
  rintro ⟨c₁, subscribes, unsubscribes⟩ ⟨hc₁, -⟩
  refine .bind (c₁.processUnsubscribes_setsChannels _ _) fun c₂ hc₂ => ?_
  have hacc₂ := hc₂.sameOutboxes.accounted (hc₁.sameOutboxes.accounted hc)
  refine .bind (hacc₂.processSubscribes _ _) ?_
  rintro ⟨c₃, newEntries⟩ hc₃
  refine .bind (c₃.addToInbox_removes origin bundle localTime) fun c₄ hc₄ => ?_
  have hacc := hc₄.sameOutboxes.accounted hc₃
  split
  · exact .ok hacc
  · exact .ok hacc

/-! ## Delivery -/

/-- Decrementing distinct counters that are all positive succeeds, and takes one from each. -/
theorem decrementCounters_ok {count : Nat → Nat} {updates : List Nat} (hnodup : updates.Nodup)
    (hpos : ∀ h ∈ updates, 0 < count h) {counters : BTreeMap Nat Nat}
    (hcounters : ∀ h, counters.get h = counterFor (count h)) :
    ∃ counters', decrementCounters counters updates = .ok counters' ∧
      ∀ h, counters'.get h = counterFor (count h - if h ∈ updates then 1 else 0) := by
  induction updates generalizing counters count with
  | nil => exact ⟨counters, rfl, by simpa using hcounters⟩
  | cons update updates ih =>
    obtain ⟨hnot, hnodup⟩ := List.nodup_cons.mp hnodup
    -- The counters after the first decrement are the ones of `count'`.
    let count' := fun h => count h - if h = update then 1 else 0
    have hpos' : ∀ h ∈ updates, 0 < count' h := by
      intro h hmem
      have hne : h ≠ update := fun heq => hnot (heq ▸ hmem)
      simpa [count', hne] using hpos h (List.mem_cons_of_mem _ hmem)
    have hfirst := hpos update List.mem_cons_self
    have hget : counters.get update = some (count update) := by
      rw [hcounters, counterFor, if_neg (by omega)]
    have hstep : ∃ counters₁, decrementCounters counters (update :: updates) =
        decrementCounters counters₁ updates ∧ ∀ h, counters₁.get h = counterFor (count' h) := by
      match hcount : count update with
      | 0 => omega
      | 1 =>
        refine ⟨counters.remove update, by simp [decrementCounters, hget, hcount], fun h => ?_⟩
        rw [BTreeMap.get_remove]
        by_cases hh : h = update <;> simp [hh, count', hcount, hcounters, counterFor]
      | n + 2 =>
        refine ⟨counters.insert update (n + 1), by simp [decrementCounters, hget, hcount],
          fun h => ?_⟩
        rw [BTreeMap.get_insert]
        by_cases hh : h = update <;> simp [hh, count', hcount, hcounters, counterFor]
    obtain ⟨counters₁, hdec, hcounters₁⟩ := hstep
    obtain ⟨counters', hrest, hcounters'⟩ := ih hnodup hpos' hcounters₁
    refine ⟨counters', by rw [hdec, hrest], fun h => ?_⟩
    rw [hcounters']
    by_cases hh : h = update
    · subst hh
      simp [count', hnot]
    · simp [count', hh]

/-- Marking messages as received never fails, and keeps the account. -/
theorem OutboxesAccounted.markMessagesAsReceived (hc : c.OutboxesAccounted) (target : Target)
    (height : Nat) : ∃ c' changed, c.markMessagesAsReceived target height = .ok (c', changed) ∧
      c'.OutboxesAccounted := by
  have hcount := fun h => hc.inFlight_mark target height h
  have hloaded := hc.ordered_getD target
  have hordered := hc.ordered_insert target (hloaded.mark height)
  have hpos := inFlight_pos_of_mark c.outboxes target height
  unfold ChainStateView.markMessagesAsReceived
  generalize hmarked :
    ((c.outboxes.get target).getD .fresh).markMessagesAsReceived height = marked at *
  obtain ⟨outbox, updates⟩ := marked
  simp only at *
  by_cases hempty : updates = []
  · refine ⟨_, _, by rw [if_pos hempty]; rfl, hordered, fun h => ?_⟩
    rw [hcount, hempty]
    simpa using hc.counters h
  · have hnodup : updates.Nodup := by
      have htaken : updates =
          ((c.outboxes.get target).getD .fresh).queue.takeWhile (· ≤ height) :=
        (congrArg Prod.snd hmarked).symm
      rw [htaken]
      exact (hloaded.increasing.sublist (List.takeWhile_sublist _)).imp fun h => h.ne
    obtain ⟨counters', hdec, hcounters'⟩ := decrementCounters_ok hnodup hpos hc.counters
    rw [if_neg hempty, hdec]
    refine ⟨_, _, rfl, ?_, fun h => ?_⟩
    · intro target' outbox' hget
      simp only at hget
      split at hget
      · rw [BTreeMap.get_remove] at hget
        split at hget
        · cases hget
        · exact hordered target' outbox' hget
      · exact hordered target' outbox' hget
    · simp only
      rw [hcounters', ← hcount]
      split
      · next hqueue =>
        -- An outbox without messages does not count.
        have hremove := inFlight_remove (c.outboxes.insert target outbox) target h
        simp only [BTreeMap.get_insert, if_true, Option.getD_some, hqueue, List.not_mem_nil,
          if_false, add_zero] at hremove
        rw [hremove]
      · rfl

/-! ## Runs -/

/-- What changes the outboxes of a chain: the outcome of an execution, a bundle from another
chain, or the confirmation that a target was updated. -/
inductive DeliveryEvent where
  | outcome (height : Nat) (outcome : ExecutionOutcome)
  | receive (origin : Origin) (bundle : MessageBundle) (localTime : Nat) (addToReceivedLog : Bool)
  | markReceived (target : Target) (height : Nat)

/-- One call, if it succeeds. -/
def deliveryStep (c : ChainStateView) : DeliveryEvent → Option ChainStateView
  | .outcome height outcome => (Prod.fst <$> c.processExecutionOutcome height outcome).toOption
  | .receive origin bundle localTime addToReceivedLog =>
    (Prod.fst <$> c.receiveMessageBundle context origin bundle localTime addToReceivedLog).toOption
  | .markReceived target height => (Prod.fst <$> c.markMessagesAsReceived target height).toOption

theorem OutboxesAccounted.deliveryStep {event : DeliveryEvent} (hc : c.OutboxesAccounted)
    (h : c.deliveryStep context event = some c') : c'.OutboxesAccounted := by
  cases event with
  | outcome height outcome =>
    obtain ⟨r, hr⟩ := Except.toOption_fst_eq_some.mp h
    exact hc.processExecutionOutcome height outcome _ hr
  | receive origin bundle localTime addToReceivedLog =>
    obtain ⟨r, hr⟩ := Except.toOption_fst_eq_some.mp h
    exact hc.receiveMessageBundle context origin bundle localTime addToReceivedLog _ hr
  | markReceived target height =>
    obtain ⟨changed, hr⟩ := Except.toOption_fst_eq_some.mp h
    obtain ⟨c₁, changed₁, hok, hacc⟩ := hc.markMessagesAsReceived target height
    rw [hok] at hr
    cases hr
    exact hacc

/-- The first counter is the lowest height in flight. -/
theorem OutboxesAccounted.allMessagesDeliveredUpTo_iff (hc : c.OutboxesAccounted) (height : Nat) :
    c.allMessagesDeliveredUpTo height = true ↔
      ∀ target outbox, c.outboxes.get target = some outbox → ∀ h ∈ outbox.queue, height < h := by
  have hkeys : ∀ h, (∃ n, (h, n) ∈ c.outboxCounters.entries) ↔ 0 < inFlight c.outboxes h := by
    intro h
    simp only [BTreeMap.mem_entries_iff, hc.counters, counterFor]
    split <;> simp_all [Nat.pos_iff_ne_zero]
  have hflight : (∀ target outbox, c.outboxes.get target = some outbox →
      ∀ h ∈ outbox.queue, height < h) ↔ ∀ h, 0 < inFlight c.outboxes h → height < h := by
    simp only [inFlight_pos_iff]
    exact ⟨fun hall h ⟨target, outbox, hget, hmem⟩ => hall target outbox hget h hmem,
      fun hall target outbox hget h hmem => hall h ⟨target, outbox, hget, hmem⟩⟩
  rw [hflight, allMessagesDeliveredUpTo]
  have hsorted := c.outboxCounters.sorted
  cases hentries : c.outboxCounters.entries with
  | nil =>
    have hnone : ∀ h, ¬0 < inFlight c.outboxes h := by
      intro h hpos
      obtain ⟨n, hmem⟩ := (hkeys h).mpr hpos
      rw [hentries] at hmem
      cases hmem
    simpa using fun h hpos => absurd hpos (hnone h)
  | cons first rest =>
    obtain ⟨key, n⟩ := first
    rw [hentries] at hkeys hsorted
    simp only [List.head?_cons, decide_eq_true_eq]
    refine ⟨fun hlt h hpos => ?_, fun hall => hall key ((hkeys key).mp ⟨n, by simp⟩)⟩
    obtain ⟨m, hmem⟩ := (hkeys h).mpr hpos
    rcases List.mem_cons.mp hmem with heq | hmem
    · cases heq
      exact hlt
    · exact hlt.trans (List.rel_of_pairwise_cons hsorted hmem)

/-- **Outbox accounting.** In every state that is reached from a fresh one, a height has a counter
if and only if some target waits for it, and then it is the number of these targets; the queues
are in order; marking messages as received cannot fail; and the test for delivered messages is
exact. -/
theorem outboxes_accounted {events : List DeliveryEvent} {c : ChainStateView}
    (hrun : Run.run (deliveryStep context) fresh events = some c) :
    (∀ h, (c.outboxCounters.containsKey h ↔
        ∃ target outbox, c.outboxes.get target = some outbox ∧ h ∈ outbox.queue) ∧
      ∀ n ∈ c.outboxCounters.get h, n = inFlight c.outboxes h) ∧
    (∀ target outbox, c.outboxes.get target = some outbox → outbox.Ordered) ∧
    (∀ target height, ∃ r, c.markMessagesAsReceived target height = .ok r) ∧
    ∀ height, c.allMessagesDeliveredUpTo height = true ↔
      ∀ target outbox, c.outboxes.get target = some outbox → ∀ h ∈ outbox.queue, height < h := by
  have hstart : fresh.OutboxesAccounted := accounted_empty
  have hacc : c.OutboxesAccounted :=
    Run.invariant (fun _ _ _ hc h => hc.deliveryStep context h) hstart hrun
  refine ⟨fun h => ⟨?_, fun n hn => ?_⟩, hacc.ordered, fun target height => ?_,
    hacc.allMessagesDeliveredUpTo_iff⟩
  · rw [← inFlight_pos_iff, BTreeMap.containsKey, hacc.counters, counterFor]
    split <;> simp_all [Nat.pos_iff_ne_zero]
  · rw [Option.mem_def, hacc.counters, counterFor] at hn
    split at hn
    · cases hn
    · exact (Option.some.inj hn).symm
  · obtain ⟨c', changed, hok, -⟩ := hacc.markMessagesAsReceived target height
    exact ⟨_, hok⟩

/-- An environment that is simple enough to compute with: there are no blobs and no contracts. -/
def simpleContext : ChainContext where
  chainId := ⟨⟨0⟩⟩
  blobs _ := none
  getUserContract _ := .error (.userError [])
  queryService _ _ _ := .error (.userError [])
  performHttpRequest _ := .error (.userError [])
  unstableOracles := false
  maxCallDepth := 0
  primitives := Validator.simplePrimitives
  cryptoHash _ := ⟨0⟩
  bundleSize _ := 1
  operationSize _ := 1
  resultsSize _ _ _ := 1
  proposalSize _ _ := 1

def activeChain : ChainStateView :=
  fresh.setSystem { SystemExecutionStateView.default with
    description := some (.root 0)
    epoch := some 0
    adminId := some ⟨⟨0⟩⟩
    committees := .ofList [(0, ⟨.empty, .default⟩)]
    ownership := Validator.superOwner }

/-- An outcome that sends a message to each of the given chains. -/
def creditChains (ids : List Nat) : ExecutionOutcome :=
  .system (RawExecutionOutcome.default.withMessages (ids.map fun id =>
    SystemExecutionStateView.plainMessage (.recipient ⟨⟨id⟩⟩) .tracked (.credit none 1 none)))

/-- After two blocks and one confirmation, the first block waits for one chain and the second one
for two. -/
theorem outboxes_accounted_two_blocks :
    ∃ c ∈ Run.run (deliveryStep simpleContext) fresh
        [.outcome 0 (creditChains [1, 2]), .outcome 1 (creditChains [1, 2]),
          .markReceived (.chain ⟨⟨1⟩⟩) 0],
      c.outboxCounters.get 0 = some 1 ∧ c.outboxCounters.get 1 = some 2 ∧
        ∀ target height, ∃ r, c.markMessagesAsReceived target height = .ok r := by
  obtain ⟨c, hrun, hcounters⟩ : ∃ c ∈ Run.run (deliveryStep simpleContext) fresh
      [.outcome 0 (creditChains [1, 2]), .outcome 1 (creditChains [1, 2]),
        .markReceived (.chain ⟨⟨1⟩⟩) 0],
      c.outboxCounters.get 0 = some 1 ∧ c.outboxCounters.get 1 = some 2 := by decide
  exact ⟨c, hrun, hcounters.1, hcounters.2, (outboxes_accounted simpleContext hrun).2.2.1⟩

end ChainStateView

end Linera
