import Linera.Chain.Outbox

/-!
# The unskippable bundles of a chain

A chain keeps a queue of the bundles that it must not skip, in the order in which
they arrived: the age of the first one is what lets the validators vote for the
fallback mode. Blocks consume the bundles of different origins in any order, so
a consumed bundle may still stand in the middle of the queue. It is then noted in
`removedUnskippableBundles`, and dropped once it gets to the front.

`Tracked` is the invariant that ties the queue, the set and all inboxes together.
Receiving a bundle and executing a block keep it, and `unskippable_exact` says
what it means: without the removed ones, the queue holds exactly the bundles that
wait in the inboxes.
-/

namespace Linera

/-! ## One inbox -/

namespace InboxStateView

/-- The bundles that are waiting in the inbox of an origin and cannot be skipped. -/
def unskippable (origin : Origin) (s : InboxStateView) : List BundleInInbox :=
  (s.addedBundles.filter fun b => !b.isSkippable).map (.new origin)

/-- The waiting bundles are in order, and below the next cursor to add. -/
structure Orderly (s : InboxStateView) : Prop where
  increasing : Increasing s.addedBundles
  below : ∀ b ∈ s.addedBundles, Cursor.ofBundle b < s.nextCursorToAdd

theorem orderly_fresh : fresh.Orderly := ⟨List.Pairwise.nil, fun _ h => by cases h⟩

/-- The entry of a bundle in the unskippable queue, if it has one. -/
def entryOf (origin : Origin) (bundle : MessageBundle) (present : Bool) : List BundleInInbox :=
  if present ∧ !bundle.isSkippable then [.new origin bundle] else []

variable {s : InboxStateView}

theorem mem_unskippable {origin : Origin} {e : BundleInInbox} : e ∈ s.unskippable origin ↔
      ∃ b ∈ s.addedBundles, b.isSkippable = false ∧ e = .new origin b := by
  simp only [unskippable, List.mem_map, List.mem_filter, Bool.not_eq_true', and_assoc,
    @eq_comm _ e]

theorem origin_of_mem_unskippable {origin : Origin} {e : BundleInInbox}
    (h : e ∈ s.unskippable origin) : e.origin = origin := by
  obtain ⟨b, -, -, rfl⟩ := mem_unskippable.mp h
  rfl

theorem Orderly.nodup_unskippable (hs : s.Orderly) (origin : Origin) :
    (s.unskippable origin).Nodup := by
  refine List.pairwise_map.mpr ((hs.increasing.filter _).imp fun {a b} hlt heq => ?_)
  exact hlt.ne (congrArg BundleInInbox.cursor heq)

/-- A new bundle comes after the ones that wait. -/
theorem Orderly.addBundle (hs : s.Orderly) (origin : Origin) (bundle : MessageBundle) :
    (s.addBundle bundle).Ensures fun p =>
      p.1.Orderly ∧ s.nextCursorToAdd ≤ .ofBundle bundle ∧
        p.1.nextCursorToAdd = (Cursor.ofBundle bundle).succ ∧
        p.1.unskippable origin = s.unskippable origin ++ entryOf origin bundle p.2 := by
  refine .guard fun hcursor => ?_
  have hbelow : ∀ b ∈ s.addedBundles, Cursor.ofBundle b < .ofBundle bundle :=
    fun b hb => (hs.below b hb).trans_le hcursor
  have hadvance : ∀ (s₁ : InboxStateView) (newlyAdded : Bool),
      s₁.addedBundles = s.addedBundles ++ (if newlyAdded then [bundle] else []) →
      ((Cursor.ofBundle bundle).tryAddOne.mapError InboxError.arithmeticError >>= fun next =>
        pure ({ s₁ with nextCursorToAdd := next }, newlyAdded)).Ensures fun p =>
          p.1.Orderly ∧ s.nextCursorToAdd ≤ .ofBundle bundle ∧
            p.1.nextCursorToAdd = (Cursor.ofBundle bundle).succ ∧
            p.1.unskippable origin = s.unskippable origin ++ entryOf origin bundle p.2 := by
    intro s₁ newlyAdded hadded
    refine .bind (.mapError (Cursor.tryAddOne_ensures _)) fun next hnext => .ok ?_
    subst hnext
    refine ⟨⟨?_, fun b hb => ?_⟩, hcursor, rfl, ?_⟩
    · change Increasing s₁.addedBundles
      rw [hadded]
      refine List.pairwise_append.mpr ⟨hs.increasing, by cases newlyAdded <;> simp, ?_⟩
      intro a ha b hb
      have hb : b = bundle := by cases newlyAdded <;> simp_all
      exact hb ▸ hbelow a ha
    · change b ∈ s₁.addedBundles at hb
      rw [hadded, List.mem_append] at hb
      rcases hb with hb | hb
      · exact Cursor.lt_succ_iff.mpr (hbelow b hb).le
      · have hb : b = bundle := by cases newlyAdded <;> simp_all
        exact Cursor.lt_succ_iff.mpr (hb ▸ le_rfl)
    · simp only [unskippable, hadded, List.filter_append, List.map_append, entryOf]
      cases newlyAdded <;> cases hskip : bundle.isSkippable <;> simp [hskip]
  dsimp only
  split
  · split
    · exact .guard fun _ => hadvance _ false (by simp)
    · exact .guard fun _ => hadvance _ false (by simp)
  · exact hadvance _ true (by simp)

/-- A bundle that is consumed was the first one of those that cannot be skipped. -/
theorem Orderly.removeBundle (hs : s.Orderly) (origin : Origin) (bundle : MessageBundle) :
    (s.removeBundle bundle).Ensures fun p =>
      p.1.Orderly ∧ p.1.nextCursorToAdd = s.nextCursorToAdd ∧
        s.unskippable origin = entryOf origin bundle p.2 ++ p.1.unskippable origin := by
  refine .guard fun _ => .bind (P := fun added => discardLower (.ofBundle bundle)
    s.addedBundles = .ok added) (fun _ h => h) fun added hdiscard => ?_
  obtain ⟨hskip, hadded⟩ := (discardLower_eq_ok_iff hs.increasing).mp hdiscard
  -- Only skippable bundles were discarded.
  have hkept : (s.addedBundles.filter fun b => !b.isSkippable) =
      added.filter fun b => !b.isSkippable := by
    rw [hadded, List.filter_filter]
    refine List.filter_congr fun b hb => ?_
    cases hb' : b.isSkippable with
    | true => simp
    | false =>
      have : ¬Cursor.ofBundle b < .ofBundle bundle := fun hlt => by
        simp [hskip b hb hlt] at hb'
      simpa using not_lt.mp this
  have hsub : added.Sublist s.addedBundles := hadded ▸ List.filter_sublist
  have hadvance : ∀ (s₁ : InboxStateView) (present : Bool),
      s₁.nextCursorToAdd = s.nextCursorToAdd →
      added = (if present then [bundle] else []) ++ s₁.addedBundles →
      ((Cursor.ofBundle bundle).tryAddOne.mapError InboxError.arithmeticError >>= fun next =>
        pure ({ s₁ with nextCursorToRemove := next }, present)).Ensures fun p =>
          p.1.Orderly ∧ p.1.nextCursorToAdd = s.nextCursorToAdd ∧
            s.unskippable origin = entryOf origin bundle p.2 ++ p.1.unskippable origin := by
    intro s₁ present hnext hsplit
    refine .bind_any fun next => .ok ?_
    have hsub₁ : s₁.addedBundles.Sublist s.addedBundles :=
      (hsplit ▸ List.sublist_append_right _ _ : s₁.addedBundles.Sublist added).trans hsub
    refine ⟨⟨hs.increasing.sublist hsub₁, fun b hb => ?_⟩, hnext, ?_⟩
    · exact (hs.below b (hsub₁.subset hb)).trans_eq hnext.symm
    · simp only [unskippable, hkept, hsplit, List.filter_append, List.map_append, entryOf]
      cases present <;> cases hskip : bundle.isSkippable <;> simp [hskip]
  cases added with
  | nil => exact hadvance _ false rfl rfl
  | cons previousBundle rest => exact .guard fun heq => hadvance _ true rfl (by rw [heq]; rfl)

end InboxStateView

namespace ChainStateView

variable {c c' : ChainStateView} {inbox : InboxStateView}

/-- The bundles of a block from one origin are consumed from the front of its inbox. -/
theorem removeBundles_unskippable (chainId : ChainId) (origin : Origin) (h : inbox.Orderly)
    (bundles : List MessageBundle) : (removeBundles chainId origin inbox bundles).Ensures fun p =>
      p.1.Orderly ∧ p.1.nextCursorToAdd = inbox.nextCursorToAdd ∧
        inbox.unskippable origin = p.2 ++ p.1.unskippable origin := by
  induction bundles generalizing inbox with
  | nil => exact .ok ⟨h, rfl, rfl⟩
  | cons bundle bundles ih =>
    refine .bind (.mapError (h.removeBundle origin bundle)) ?_
    rintro ⟨inbox₁, present⟩ ⟨h₁, hnext₁, hsplit₁⟩
    refine .bind (ih h₁) ?_
    rintro ⟨inbox₂, removed⟩ ⟨h₂, hnext₂, hsplit₂⟩
    dsimp only at hsplit₁ hsplit₂ hnext₁ hnext₂ ⊢
    have hsplit : inbox.unskippable origin =
        (InboxStateView.entryOf origin bundle present ++ removed) ++ inbox₂.unskippable origin := by
      rw [hsplit₁, hsplit₂, List.append_assoc]
    split
    · next hpresent =>
      rw [InboxStateView.entryOf, if_pos hpresent] at hsplit
      exact .ok ⟨h₂, hnext₂.trans hnext₁, hsplit⟩
    · next hpresent =>
      rw [InboxStateView.entryOf, if_neg hpresent] at hsplit
      exact .ok ⟨h₂, hnext₂.trans hnext₁, hsplit⟩

/-! ## All inboxes -/

/-- The inbox of an origin; it is empty before anything arrives. -/
def inboxOf (c : ChainStateView) (origin : Origin) : InboxStateView :=
  (c.inboxes.get origin).getD .fresh

/-- The bundle is waiting in the inbox of its origin and cannot be skipped. -/
def Waits (c : ChainStateView) (e : BundleInInbox) : Prop :=
  e ∈ (c.inboxOf e.origin).unskippable e.origin

/-- All inboxes are in order. -/
def Orderly (c : ChainStateView) : Prop := ∀ origin, (c.inboxOf origin).Orderly

def setInbox (c : ChainStateView) (origin : Origin) (inbox : InboxStateView) : ChainStateView :=
  { c with inboxes := c.inboxes.insert origin inbox }

theorem inboxOf_setInbox (c : ChainStateView) (origin origin' : Origin) (inbox : InboxStateView) :
    (c.setInbox origin inbox).inboxOf origin' =
      if origin' = origin then inbox else c.inboxOf origin' := by
  unfold inboxOf setInbox
  rw [BTreeMap.get_insert]
  split <;> rfl

theorem Orderly.setInbox (hc : c.Orderly) (origin : Origin) (h : inbox.Orderly) :
    (c.setInbox origin inbox).Orderly := by
  intro origin'
  rw [inboxOf_setInbox]
  split
  · exact h
  · exact hc origin'

/-- Consuming the bundles of a block takes some of the waiting ones away. -/
theorem removeFromInboxes_waits (context : ChainContext) (hc : c.Orderly)
    (bundles : List (Origin × List MessageBundle)) :
    (c.removeFromInboxes context bundles).Ensures fun p =>
      p.1.Orderly ∧
        (∀ origin, (p.1.inboxOf origin).nextCursorToAdd = (c.inboxOf origin).nextCursorToAdd) ∧
        (∀ e ∈ p.2, c.Waits e) ∧ ∀ e, p.1.Waits e ↔ c.Waits e ∧ e ∉ p.2 := by
  induction bundles generalizing c with
  | nil => exact .ok ⟨hc, fun _ => rfl, by simp, by simp⟩
  | cons first bundles ih =>
    obtain ⟨origin, bundles₁⟩ := first
    refine .bind (removeBundles_unskippable context.chainId origin (hc origin) bundles₁) ?_
    rintro ⟨inbox, removed⟩ ⟨hinbox, hnext, hsplit⟩
    dsimp only at hinbox hnext hsplit
    refine .bind (ih (hc.setInbox origin hinbox)) ?_
    rintro ⟨c', moreRemoved⟩ ⟨hc', hnext', hwaits', hiff'⟩
    have hnodup := (hc origin).nodup_unskippable origin
    rw [hsplit, List.nodup_append] at hnodup
    have hremoved : ∀ e ∈ removed, c.Waits e := by
      intro e he
      have hmem : e ∈ (c.inboxOf origin).unskippable origin := by simp [hsplit, he]
      have horigin := InboxStateView.origin_of_mem_unskippable hmem
      rw [Waits, horigin]
      exact hmem
    have hiff : ∀ e, (c.setInbox origin inbox).Waits e ↔ c.Waits e ∧ e ∉ removed := by
      intro e
      unfold Waits
      rw [inboxOf_setInbox]
      split
      · next horigin =>
        rw [horigin, hsplit, List.mem_append]
        refine ⟨fun h => ⟨.inr h, fun hmem => hnodup.2.2 e hmem e h rfl⟩, fun h => ?_⟩
        exact h.1.resolve_left h.2
      · next horigin =>
        refine ⟨fun h => ⟨h, fun hmem => horigin ?_⟩, fun h => h.1⟩
        exact InboxStateView.origin_of_mem_unskippable (s := c.inboxOf origin)
          (by simp [hsplit, hmem])
    refine .ok ⟨hc', fun origin' => ?_, fun e he => ?_, fun e => ?_⟩
    · rw [hnext' origin']
      change ((c.setInbox origin inbox).inboxOf origin').nextCursorToAdd = _
      rw [inboxOf_setInbox]
      split
      · next horigin => rw [horigin, hnext]
      · rfl
    · rcases List.mem_append.mp he with he | he
      · exact hremoved e he
      · exact ((hiff e).mp (hwaits' e he)).1
    · dsimp only
      rw [hiff' e, List.mem_append, not_or, ← and_assoc]
      exact and_congr_left' (hiff e)

/-! ## The queue -/

def queued (c : ChainStateView) : List BundleInInbox := c.unskippableBundles.map (·.entry)

/-- The queue drops a run of removed entries, and then stops at one that was not removed. -/
theorem deleteFront_spec {removed earlier : BTreeSet BundleInInbox}
    (hdisjoint : ∀ e ∈ removed.keys, e ∉ earlier.keys)
    {queue queue' : List TimestampedBundleInInbox} {removed' earlier' : BTreeSet BundleInInbox}
    (hnodup : (queue.map (·.entry)).Nodup)
    (h : deleteFront removed earlier queue = (queue', removed', earlier')) :
    ∃ deleted, queue = deleted ++ queue' ∧
      (∀ t ∈ deleted, t.entry ∈ removed.keys ∨ t.entry ∈ earlier.keys) ∧
      (∀ e, e ∈ removed'.keys ∨ e ∈ earlier'.keys ↔
        (e ∈ removed.keys ∨ e ∈ earlier.keys) ∧ e ∉ deleted.map (·.entry)) ∧
      ∀ t ∈ queue'.head?, t.entry ∉ removed'.keys ∧ t.entry ∉ earlier'.keys := by
  have hcontains : ∀ (s : BTreeSet BundleInInbox) e, s.containsKey e = true ↔ e ∈ s.keys :=
    fun s e => (s.mem_keys_iff e).symm
  induction queue generalizing removed earlier with
  | nil =>
    cases h
    exact ⟨[], rfl, by simp, by simp, by simp⟩
  | cons front queue ih =>
    have hnodup' := List.nodup_cons.mp hnodup
    simp only [deleteFront, hcontains] at h
    split at h
    · next hfront =>
      have hkeys := fun e => BTreeSet.mem_keys_remove removed front.entry e
      obtain ⟨deleted, rfl, hdeleted, hiff, hhead⟩ :=
        ih (fun e he => hdisjoint e ((hkeys e).mp he).2) hnodup'.2 h
      refine ⟨front :: deleted, rfl, fun t ht => ?_, fun e => ?_, hhead⟩
      · rcases List.mem_cons.mp ht with rfl | ht
        · exact .inl hfront
        · exact (hdeleted t ht).imp_left fun he => ((hkeys _).mp he).2
      · have hearlier : e ∈ earlier.keys → e ≠ front.entry :=
          fun he heq => hdisjoint _ hfront (heq ▸ he)
        have hothers : (e ≠ front.entry ∧ e ∈ removed.keys) ∨ e ∈ earlier.keys ↔
            e ≠ front.entry ∧ (e ∈ removed.keys ∨ e ∈ earlier.keys) := by
          rw [and_or_left, and_iff_right_of_imp hearlier]
        rw [hiff, hkeys, hothers, List.map_cons, List.mem_cons, not_or]
        exact and_assoc.trans and_left_comm
    · split at h
      · next hfront hfront' =>
        have hkeys := fun e => BTreeSet.mem_keys_remove earlier front.entry e
        obtain ⟨deleted, rfl, hdeleted, hiff, hhead⟩ :=
          ih (fun e he hmem => hdisjoint e he ((hkeys e).mp hmem).2) hnodup'.2 h
        refine ⟨front :: deleted, rfl, fun t ht => ?_, fun e => ?_, hhead⟩
        · rcases List.mem_cons.mp ht with rfl | ht
          · exact .inr hfront'
          · exact (hdeleted t ht).imp_right fun he => ((hkeys _).mp he).2
        · have hremoved : e ∈ removed.keys → e ≠ front.entry :=
            fun he heq => hfront (heq ▸ he)
          have hothers : e ∈ removed.keys ∨ (e ≠ front.entry ∧ e ∈ earlier.keys) ↔
              e ≠ front.entry ∧ (e ∈ removed.keys ∨ e ∈ earlier.keys) := by
            rw [and_or_left, and_iff_right_of_imp hremoved]
          rw [hiff, hkeys, hothers, List.map_cons, List.mem_cons, not_or]
          exact and_assoc.trans and_left_comm
      · next hfront hfront' =>
        cases h
        exact ⟨[], rfl, by simp, by simp, by simpa using ⟨hfront, hfront'⟩⟩

/-- Consumed entries are either dropped from the front of the queue or noted as removed. -/
theorem updateUnskippable_spec {removed : BTreeSet BundleInInbox}
    (hdisjoint : ∀ e ∈ removed.keys, e ∉ c.removedUnskippableBundles.keys) (hnodup : c.queued.Nodup)
    (hfront : ∀ t ∈ c.unskippableBundles.head?, t.entry ∉ c.removedUnskippableBundles.keys) :
    ∃ deleted, c.unskippableBundles = deleted ++ (c.updateUnskippable removed).unskippableBundles ∧
      (∀ t ∈ deleted, t.entry ∈ removed.keys ∨ t.entry ∈ c.removedUnskippableBundles.keys) ∧
      (∀ e, e ∈ (c.updateUnskippable removed).removedUnskippableBundles.keys ↔
        (e ∈ removed.keys ∨ e ∈ c.removedUnskippableBundles.keys) ∧
          e ∉ deleted.map (·.entry)) ∧
      ∀ t ∈ (c.updateUnskippable removed).unskippableBundles.head?,
        t.entry ∉ (c.updateUnskippable removed).removedUnskippableBundles.keys := by
  have hset : ∀ {queue removed' earlier'},
      (if c.unskippableBundles.head?.any fun front => removed.containsKey front.entry
        then deleteFront removed c.removedUnskippableBundles c.unskippableBundles
        else (c.unskippableBundles, removed, c.removedUnskippableBundles)) =
          (queue, removed', earlier') →
      (c.updateUnskippable removed).unskippableBundles = queue ∧
        ∀ e, e ∈ (c.updateUnskippable removed).removedUnskippableBundles.keys ↔
          e ∈ removed'.keys ∨ e ∈ earlier'.keys := by
    intro queue removed' earlier' h
    refine ⟨by rw [updateUnskippable, h], fun e => ?_⟩
    rw [updateUnskippable, h]
    refine (BTreeSet.mem_keys_foldl_insert id _ _ e).trans ?_
    rw [List.map_id]
  by_cases hany : c.unskippableBundles.head?.any fun front => removed.containsKey front.entry
  · obtain ⟨⟨queue, removed', earlier'⟩, hresult⟩ : ∃ r,
        deleteFront removed c.removedUnskippableBundles c.unskippableBundles = r := ⟨_, rfl⟩
    obtain ⟨hqueue, hkeys⟩ := hset (by rw [if_pos hany, hresult])
    obtain ⟨deleted, hsplit, hdeleted, hiff, hhead⟩ := deleteFront_spec hdisjoint hnodup hresult
    refine ⟨deleted, by rw [hqueue, hsplit], hdeleted, fun e => (hkeys e).trans (hiff e), ?_⟩
    intro t ht
    rw [hqueue] at ht
    rw [hkeys, not_or]
    exact hhead t ht
  · obtain ⟨hqueue, hkeys⟩ := hset (if_neg hany)
    refine ⟨[], by rw [hqueue]; rfl, by simp, fun e => by simp [hkeys e], fun t ht => ?_⟩
    rw [hqueue] at ht
    rw [hkeys, not_or]
    refine ⟨fun hmem => hany ?_, hfront t ht⟩
    rw [Option.any_eq_true]
    exact ⟨t, ht, (removed.mem_keys_iff _).mp hmem⟩

/-! ## The invariant -/

/-- The queue and the set of removed entries keep track of the unskippable bundles. -/
structure Tracked (c : ChainStateView) : Prop where
  orderly : c.Orderly
  nodup : c.queued.Nodup
  /-- An entry that is still in the queue is not added again. -/
  below : ∀ e ∈ c.queued, e.cursor < (c.inboxOf e.origin).nextCursorToAdd
  waits_iff : ∀ e, c.Waits e ↔ e ∈ c.queued ∧ e ∉ c.removedUnskippableBundles.keys
  subset : ∀ e ∈ c.removedUnskippableBundles.keys, e ∈ c.queued
  front : ∀ t ∈ c.unskippableBundles.head?, t.entry ∉ c.removedUnskippableBundles.keys

theorem tracked_fresh : fresh.Tracked where
  orderly _ := InboxStateView.orderly_fresh
  nodup := List.nodup_nil
  below _ h := by cases h
  waits_iff e := by
    have hwaits : ¬fresh.Waits e := fun h => by cases h
    exact iff_of_false hwaits fun h => by cases h.1
  subset _ h := by cases h
  front _ h := by cases h

section

variable (hc : c.Tracked)

include hc

/-- `Tracked` looks at the inboxes, the queue and the set only. -/
theorem Tracked.congr (hinboxes : c'.inboxes = c.inboxes)
    (hqueue : c'.unskippableBundles = c.unskippableBundles)
    (hset : c'.removedUnskippableBundles = c.removedUnskippableBundles) : c'.Tracked := by
  have hinbox : c'.inboxOf = c.inboxOf := by
    unfold inboxOf
    rw [hinboxes]
  have hqueued : c'.queued = c.queued := by rw [queued, hqueue, queued]
  have hwaits : c'.Waits = c.Waits := by
    unfold Waits
    rw [hinbox]
  refine ⟨fun origin => ?_, hqueued ▸ hc.nodup, ?_, ?_, ?_, ?_⟩
  · rw [hinbox]
    exact hc.orderly origin
  · rw [hqueued, hinbox]
    exact hc.below
  · rw [hqueued, hwaits, hset]
    exact hc.waits_iff
  · rw [hqueued, hset]
    exact hc.subset
  · rw [hqueue, hset]
    exact hc.front

theorem Tracked.initializes (h : c.Initializes c') : c'.Tracked :=
  hc.congr (by rw [h]) (by rw [h]) (by rw [h])

theorem Tracked.sends (h : c.Sends c') : c'.Tracked :=
  hc.congr (by rw [h]) (by rw [h]) (by rw [h])

/-- A bundle that enters the inbox of its origin also enters the queue, if it cannot be skipped. -/
theorem Tracked.enter {origin : Origin} {bundle : MessageBundle} {newlyAdded : Bool}
    (hadd : (c.inboxOf origin).addBundle bundle = .ok (inbox, newlyAdded)) (localTime : Nat) :
    { c.setInbox origin inbox with
      unskippableBundles := c.unskippableBundles ++
        (InboxStateView.entryOf origin bundle newlyAdded).map
          fun e => ⟨e, localTime⟩ : ChainStateView }.Tracked := by
  obtain ⟨hinbox, hcursor, hnext, hunskippable⟩ :=
    (hc.orderly origin).addBundle origin bundle _ hadd
  dsimp only at hinbox hnext hunskippable
  set entries := InboxStateView.entryOf origin bundle newlyAdded with hentries
  have hmem : ∀ e ∈ entries, e = .new origin bundle := by
    intro e he
    rw [hentries, InboxStateView.entryOf] at he
    split at he
    · exact List.mem_singleton.mp he
    · cases he
  -- The new bundle lies above everything that was added before.
  have hnew : ∀ e ∈ entries, e ∉ c.queued := by
    rintro e he hqueued
    obtain rfl := hmem e he
    exact absurd (hc.below _ hqueued) (not_lt.mpr hcursor)
  have hqueued : ∀ c' : ChainStateView, c'.unskippableBundles = c.unskippableBundles ++
      entries.map (fun e => ⟨e, localTime⟩) → c'.queued = c.queued ++ entries := by
    intro c' h
    rw [queued, h, List.map_append, List.map_map, queued]
    exact congrArg _ (List.map_id' _)
  have hwaits : ∀ e, (c.setInbox origin inbox).Waits e ↔ c.Waits e ∨ e ∈ entries := by
    intro e
    unfold Waits
    rw [inboxOf_setInbox]
    split
    · next horigin => rw [horigin, hunskippable, List.mem_append]
    · next horigin =>
      refine ⟨.inl, fun h => h.resolve_right fun he => horigin ?_⟩
      rw [hmem e he]
      rfl
  constructor
  case orderly => exact hc.orderly.setInbox origin hinbox
  case nodup =>
    rw [hqueued _ rfl]
    refine List.nodup_append.mpr ⟨hc.nodup, ?_, fun a ha b hb heq => hnew b hb (heq ▸ ha)⟩
    rw [hentries, InboxStateView.entryOf]
    split <;> simp
  case below =>
    intro e he
    rw [hqueued _ rfl, List.mem_append] at he
    change _ < ((c.setInbox origin inbox).inboxOf e.origin).nextCursorToAdd
    rw [inboxOf_setInbox]
    rcases he with he | he
    · split
      · next horigin =>
        have hlt := hc.below e he
        rw [horigin] at hlt
        rw [hnext]
        exact Cursor.lt_succ_iff.mpr (hlt.trans_le hcursor).le
      · exact hc.below e he
    · rw [hmem e he, BundleInInbox.new, if_pos rfl, hnext]
      exact Cursor.lt_succ_iff.mpr le_rfl
  case waits_iff =>
    intro e
    rw [hqueued _ rfl, List.mem_append]
    refine (hwaits e).trans ?_
    have hsubset := hc.subset e
    have hfresh := hnew e
    rw [hc.waits_iff]
    change _ ↔ (_ ∨ _) ∧ e ∉ c.removedUnskippableBundles.keys
    tauto
  case subset =>
    intro e he
    rw [hqueued _ rfl]
    exact List.mem_append_left _ (hc.subset e he)
  case front =>
    intro t ht
    change t ∈ (c.unskippableBundles ++ _).head? at ht
    change t.entry ∉ c.removedUnskippableBundles.keys
    cases hqueue : c.unskippableBundles with
    | nil =>
      -- The queue was empty, so nothing is noted as removed.
      intro hremoved
      have := hc.subset _ hremoved
      rw [queued, hqueue] at this
      cases this
    | cons front rest =>
      rw [hqueue] at ht
      exact hc.front t (by rw [hqueue]; exact ht)

theorem Tracked.addToInbox (origin : Origin) (bundle : MessageBundle) (localTime : Nat) :
    (c.addToInbox origin bundle localTime).Ensures Tracked := by
  unfold ChainStateView.addToInbox
  split
  · refine .bind (P := fun p => (c.inboxOf origin).addBundle bundle = .ok p) ?_ ?_
    · exact .mapError fun _ h => h
    · rintro ⟨inbox, newlyAdded⟩ hadd
      have hentered := hc.enter hadd localTime
      dsimp only
      rw [InboxStateView.entryOf] at hentered
      split
      · next h =>
        rw [if_pos h] at hentered
        exact .ok hentered
      · next h =>
        rw [if_neg h] at hentered
        exact .ok (hentered.congr rfl (by simp) rfl)
  · exact .ok hc

theorem Tracked.receiveMessageBundle (context : ChainContext) (origin : Origin)
    (bundle : MessageBundle) (localTime : Nat) (addToReceivedLog : Bool) :
    (c.receiveMessageBundle context origin bundle localTime addToReceivedLog).Ensures
      fun p => p.1.Tracked := by
  refine .guard fun _ => .bind (c.handleImmediateMessages_initializes context _ _ _ _) ?_
  rintro ⟨c₁, subscribes, unsubscribes⟩ ⟨h₁, -⟩
  refine .bind (c₁.processUnsubscribes_sends _ _) fun c₂ h₂ =>
    .bind (c₂.processSubscribes_sends _ _) ?_
  rintro ⟨c₃, newOutboxEntries⟩ h₃
  have hc₃ : c₃.Tracked := ((hc.initializes h₁).sends h₂).sends h₃
  refine .bind (hc₃.addToInbox origin bundle localTime) fun c₄ hc₄ => ?_
  split
  · exact .ok (hc₄.congr rfl rfl rfl)
  · exact .ok hc₄

/-- Consuming the bundles of a block keeps track of the other ones. -/
theorem Tracked.removeBundlesFromInboxes (context : ChainContext) (block : Block) :
    (c.removeBundlesFromInboxes context block).Ensures Tracked := by
  refine .bind_any fun byOrigin => .bind (P := fun p =>
    c.removeFromInboxes context byOrigin.entries = .ok p) (fun _ h => h) ?_
  rintro ⟨c₁, removed⟩ hremove
  obtain ⟨horderly, hnext, hremoved, hwaits⟩ :=
    removeFromInboxes_waits context hc.orderly _ _ hremove
  have hsame := c.removeFromInboxes_removes context _ _ hremove
  dsimp only at horderly hnext hremoved hwaits hsame
  set set' : BTreeSet BundleInInbox := .ofList (removed.map fun entry => (entry, ())) with hset'
  have hkeys : ∀ e, e ∈ set'.keys ↔ e ∈ removed := by
    intro e
    rw [hset', BTreeSet.mem_keys_ofList]
    simp
  have hqueue : c₁.unskippableBundles = c.unskippableBundles := by rw [hsame]
  have hqueued : c₁.queued = c.queued := by rw [queued, hqueue, queued]
  have hset : c₁.removedUnskippableBundles = c.removedUnskippableBundles := by rw [hsame]
  have hconsumed : ∀ e ∈ removed, e ∈ c.queued ∧ e ∉ c.removedUnskippableBundles.keys :=
    fun e he => (hc.waits_iff e).mp (hremoved e he)
  obtain ⟨deleted, hsplit, hdeleted, hiff, hhead⟩ := updateUnskippable_spec (c := c₁)
    (fun e he => hset ▸ (hconsumed e ((hkeys e).mp he)).2) (hqueued ▸ hc.nodup)
    (by rw [hqueue, hset]; exact hc.front)
  have hqueue' : c.queued = deleted.map (·.entry) ++ (c₁.updateUnskippable set').queued := by
    rw [← hqueued, queued, hsplit, List.map_append, queued]
  have hnodup := hc.nodup
  rw [hqueue', List.nodup_append] at hnodup
  have hmem : ∀ e, e ∈ c.queued ↔
      e ∈ deleted.map (·.entry) ∨ e ∈ (c₁.updateUnskippable set').queued := by
    intro e
    rw [hqueue', List.mem_append]
  refine .ok ?_
  constructor
  case orderly => exact horderly
  case nodup => exact hnodup.2.1
  case below =>
    intro e he
    exact (hc.below e ((hmem e).mpr (.inr he))).trans_eq (hnext e.origin).symm
  case waits_iff =>
    intro e
    refine (hwaits e).trans ?_
    rw [hc.waits_iff, hiff, hkeys, hset, hmem]
    have hdeleted' : e ∈ deleted.map (·.entry) →
        e ∈ removed ∨ e ∈ c.removedUnskippableBundles.keys := by
      intro he
      obtain ⟨t, ht, rfl⟩ := List.mem_map.mp he
      rw [← hkeys, ← hset]
      exact hdeleted t ht
    have hdisjoint : e ∈ deleted.map (·.entry) → e ∉ (c₁.updateUnskippable set').queued :=
      fun h h' => hnodup.2.2 e h e h' rfl
    tauto
  case subset =>
    intro e he
    rw [hiff, hkeys, hset] at he
    have hqueued : e ∈ c.queued := he.1.elim (fun h => (hconsumed e h).1) (hc.subset e)
    exact ((hmem e).mp hqueued).resolve_left he.2
  case front => exact hhead

end

/-! ## Runs -/

/-- What changes the inboxes of a chain: a bundle from another chain, or a block that consumes
bundles. -/
inductive InboxCall where
  | receive (origin : Origin) (bundle : MessageBundle) (localTime : Nat) (addToReceivedLog : Bool)
  | remove (block : Block)

def inboxStep (context : ChainContext) (c : ChainStateView) : InboxCall → Option ChainStateView
  | .receive origin bundle localTime addToReceivedLog =>
    (Prod.fst <$> c.receiveMessageBundle context origin bundle localTime addToReceivedLog).toOption
  | .remove block => (c.removeBundlesFromInboxes context block).toOption

theorem Tracked.inboxStep {context : ChainContext} {call : InboxCall} (hc : c.Tracked)
    (h : c.inboxStep context call = some c') : c'.Tracked := by
  cases call with
  | receive origin bundle localTime addToReceivedLog =>
    obtain ⟨r, hr⟩ := Except.toOption_fst_eq_some.mp h
    exact hc.receiveMessageBundle context origin bundle localTime addToReceivedLog _ hr
  | remove block => exact hc.removeBundlesFromInboxes context block _ (Except.toOption_eq_some.mp h)

/-- The entries of the queue that have not been removed. -/
def pending (c : ChainStateView) : List BundleInInbox :=
  c.queued.filter fun e => !c.removedUnskippableBundles.containsKey e

def waiting (c : ChainStateView) : List BundleInInbox :=
  c.inboxes.entries.flatMap fun (origin, inbox) => inbox.unskippable origin

theorem mem_waiting {e : BundleInInbox} : e ∈ c.waiting ↔ c.Waits e := by
  simp only [waiting, List.mem_flatMap, Prod.exists, BTreeMap.mem_entries_iff, Waits, inboxOf]
  constructor
  · rintro ⟨origin, inbox, hget, hmem⟩
    obtain rfl := InboxStateView.origin_of_mem_unskippable hmem
    rw [hget]
    exact hmem
  · intro h
    cases hget : c.inboxes.get e.origin with
    | none =>
      rw [hget] at h
      cases h
    | some inbox =>
      rw [hget] at h
      exact ⟨e.origin, inbox, hget, h⟩

theorem Orderly.nodup_waiting (hc : c.Orderly) : c.waiting.Nodup := by
  refine List.nodup_flatMap.mpr ⟨?_, c.inboxes.sorted.imp ?_⟩
  · rintro ⟨origin, inbox⟩ hmem
    have horderly := hc origin
    rw [inboxOf, (c.inboxes.mem_entries_iff origin inbox).mp hmem] at horderly
    exact horderly.nodup_unskippable origin
  · rintro ⟨origin, inbox⟩ ⟨origin', inbox'⟩ hlt e he he'
    have horigin := InboxStateView.origin_of_mem_unskippable he
    have horigin' := InboxStateView.origin_of_mem_unskippable he'
    exact hlt.ne (horigin.symm.trans horigin')

/-- **Tracking is exact.** In every state that is reached from a fresh one, the entries of the
queue that were not removed are the unskippable bundles that wait in the inboxes, each of them
once; only entries of the queue are noted as removed; and the front of the queue is not. -/
theorem unskippable_exact {context : ChainContext} {calls : List InboxCall} {c : ChainStateView}
    (hrun : Run.run (inboxStep context) fresh calls = some c) :
    (c.pending.Perm c.waiting ∧ c.waiting.Nodup) ∧
      (∀ e ∈ c.removedUnskippableBundles.keys, e ∈ c.queued) ∧
      ∀ t ∈ c.unskippableBundles.head?, t.entry ∉ c.removedUnskippableBundles.keys := by
  have hc : c.Tracked := Run.invariant (fun _ _ _ hc h => hc.inboxStep h) tracked_fresh hrun
  have hnodup := hc.orderly.nodup_waiting
  refine ⟨⟨?_, hnodup⟩, hc.subset, hc.front⟩
  refine (List.perm_ext_iff_of_nodup (hc.nodup.filter _) hnodup).mpr fun e => ?_
  rw [mem_waiting, hc.waits_iff, List.mem_filter, BTreeMap.mem_keys_iff,
    BTreeMap.containsKey]
  simp

/-- A bundle with a payment that cannot be skipped, sent by the block at the given height. -/
def trackedPayment (height : Nat) : MessageBundle :=
  ⟨height, 0, ⟨0⟩, 0, [⟨none, 0, none, .tracked, 0, .system (.credit none 1 none)⟩]⟩

/-- Another chain, and the payments that come from there. -/
def otherOrigin (id : Nat) : Origin := ⟨⟨⟨id⟩⟩, .direct⟩

def consuming (origin : Origin) (bundle : MessageBundle) : Block :=
  ⟨⟨⟨0⟩⟩, 0, [⟨origin, bundle, .accept⟩], [], 0, 0, none, none⟩

/-- Two chains pay; the second payment is consumed first, so it stays in the queue behind the
first one, and the next payment of the second chain gets behind it. -/
theorem unskippable_exact_out_of_order :
    ∃ c ∈ Run.run (inboxStep simpleContext) fresh
        [.receive (otherOrigin 1) (trackedPayment 0) 5 true,
          .receive (otherOrigin 2) (trackedPayment 0) 6 true,
          .remove (consuming (otherOrigin 2) (trackedPayment 0)),
          .receive (otherOrigin 2) (trackedPayment 1) 7 true],
      c.queued.length = 3 ∧ c.removedUnskippableBundles.keys.length = 1 ∧
        c.pending.Perm c.waiting := by
  obtain ⟨c, hrun, hlengths⟩ : ∃ c ∈ Run.run (inboxStep simpleContext) fresh
      [.receive (otherOrigin 1) (trackedPayment 0) 5 true,
        .receive (otherOrigin 2) (trackedPayment 0) 6 true,
        .remove (consuming (otherOrigin 2) (trackedPayment 0)),
        .receive (otherOrigin 2) (trackedPayment 1) 7 true],
      c.queued.length = 3 ∧ c.removedUnskippableBundles.keys.length = 1 := by decide +kernel
  exact ⟨c, hrun, hlengths.1, hlengths.2, (unskippable_exact hrun).1.1⟩

end ChainStateView

end Linera
