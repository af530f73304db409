import Linera.Apps.Market

/-!
# The indexes of the matching engine

Next to the book, the engine keeps for each owner the set of the owner's orders, and for
each id what is needed to find the order. An order that is filled or cancelled is taken
out of the set of its owner, but not out of the index by ids. So the owners' sets agree
with the book in every run, while the index by ids only does so as long as no order is
brought to zero (`indexes_agree_with_book`).
-/

namespace Linera.MatchingEngine

open PriceTime

/-! ## Orders in their levels -/

/-- The queue at a price on one side. -/
def MatchingEngineState.level (s : MatchingEngineState) : OrderNature → Price → List OrderEntry
  | .bid, price => s.bids.loadEntry price.toBid
  | .ask, price => s.asks.loadEntry price.toAsk

theorem mem_levelOrders_iff {κ : Type} [LinearOrder κ] {toPrice : κ → Price}
    (hinjective : Function.Injective toPrice) (levels : Levels κ) (key : κ) (account : Account)
    (orderId : OrderId) (amount : Nat) :
    (⟨toPrice key, account, orderId⟩, amount) ∈ levelOrders toPrice levels.entries ↔
      ⟨amount, account, orderId⟩ ∈ levels.loadEntry key := by
  simp only [levelOrders, queueOrders, List.mem_flatMap, List.mem_map, Prod.mk.injEq,
    Resting.mk.injEq]
  constructor
  · rintro ⟨⟨key', queue⟩, hlevel, ⟨amount', account', orderId'⟩, horder, ⟨hkey, rfl, rfl⟩, rfl⟩
    rw [← hinjective hkey, Levels.loadEntry, (levels.mem_entries_iff key' queue).mp hlevel]
    exact horder
  · intro horder
    rw [Levels.loadEntry] at horder
    cases hqueue : levels.get key with
    | none =>
      rw [hqueue] at horder
      cases horder
    | some queue =>
      rw [hqueue] at horder
      exact ⟨(key, queue), (levels.mem_entries_iff key queue).mpr hqueue, _, horder,
        ⟨rfl, rfl, rfl⟩, rfl⟩

variable {orderId : OrderId} {a : Resting} {s s' : MatchingEngineState} {nature : OrderNature}
  {owner : AccountOwner}

theorem mem_side_iff {price : Price} {account : Account} {amount : Nat} :
    (⟨price, account, orderId⟩, amount) ∈ s.side nature ↔
      ⟨amount, account, orderId⟩ ∈ s.level nature price := by
  cases nature with
  | bid => exact mem_levelOrders_iff PriceBid.toPrice_injective s.bids price.toBid ..
  | ask => exact mem_levelOrders_iff PriceAsk.toPrice_injective s.asks price.toAsk ..

/-! ## The sets of the owners -/

/-- How the indexes and the book go together: each order in the book is there once and has its
entry in the index by ids, and an owner's orders are those that are live. -/
structure Indexed (s : MatchingEngineState) : Prop where
  nodup : ∀ nature, ((s.side nature).map Prod.fst).Nodup
  entry : ∀ nature, ∀ a ∈ (s.side nature).map Prod.fst,
    s.orders.get a.orderId = some ⟨a.price, nature, a.account⟩
  fresh : ∀ orderId keyBook, s.orders.get orderId = some keyBook → orderId < s.nextOrderNumber
  owns : ∀ x, s.accountInfo.Owns x ↔
    ∃ nature, ∃ a ∈ (live (s.side nature)).map Prod.fst, a.ownerId = x

namespace Indexed

variable (h : Indexed s)

include h

theorem eq_of_orderId_eq {nature nature' : OrderNature} {a b : Resting}
    (ha : a ∈ (s.side nature).map Prod.fst) (hb : b ∈ (s.side nature').map Prod.fst)
    (hid : a.orderId = b.orderId) : nature = nature' ∧ a = b := by
  have heq := (h.entry nature a ha).symm.trans ((congrArg _ hid).trans (h.entry nature' b hb))
  obtain ⟨price, account, orderId⟩ := a
  obtain ⟨price', account', orderId'⟩ := b
  simp only [Option.some.injEq, KeyBook.mk.injEq] at heq hid
  exact ⟨heq.2.1, by rw [heq.1, heq.2.2, hid]⟩

theorem orderId_lt {a : Resting} (ha : a ∈ (s.side nature).map Prod.fst) :
    a.orderId < s.nextOrderNumber := h.fresh _ _ (h.entry nature a ha)

end Indexed

theorem mem_map_live {l : List (Resting × Nat)} (ha : a ∈ (live l).map Prod.fst) :
    a ∈ l.map Prod.fst := (List.filter_sublist.map _).subset ha

theorem mem_map_live_middle {front back : List (Resting × Nat)} {a x : Resting} {size : Nat} :
    a ∈ (live (front ++ (x, size) :: back)).map Prod.fst ↔
      a ∈ (live (front ++ back)).map Prod.fst ∨ a = x ∧ size ≠ 0 := by
  by_cases hsize : size = 0
  · simp [live, hsize]
  · simp only [live, List.filter_append, List.filter_cons, hsize, ne_eq, not_false_eq_true,
      decide_true, if_true, List.map_append, List.map_cons, List.mem_append, List.mem_cons,
      and_true]
    tauto

theorem OrderNature.ne_opposite (nature : OrderNature) : nature ≠ nature.opposite := by
  cases nature <;> simp [OrderNature.opposite]

namespace Insertion

variable {account : Account} {amount : Nat} {price : Price} {transfers : List Transfer}
  (i : Insertion s s' account amount nature price transfers)

include i

theorem opposite_sublist : ((s'.side nature.opposite).map Prod.fst).Sublist
    ((s.side nature.opposite).map Prod.fst) := by
  rw [i.before, i.after, List.map_append, List.map_append]
  exact i.swept.sublist.append (.refl _)

theorem mem_own_iff : a ∈ (s'.side nature).map Prod.fst ↔
    a ∈ (s.side nature).map Prod.fst ∨ i.left ≠ 0 ∧ a = ⟨price, account, s.nextOrderNumber⟩ := by
  rw [i.own_before, i.own_after]
  by_cases hleft : i.left = 0
  · simp [hleft]
  · simp only [hleft, if_false, List.map_append, List.mem_append, List.map_cons, List.map_nil,
      List.mem_singleton, ne_eq, not_false_eq_true, true_and]
    tauto

theorem mem_live_own_iff : a ∈ (live (s'.side nature)).map Prod.fst ↔
    a ∈ (live (s.side nature)).map Prod.fst ∨
      i.left ≠ 0 ∧ a = ⟨price, account, s.nextOrderNumber⟩ := by
  rw [i.own_before, i.own_after]
  by_cases hleft : i.left = 0
  · simp [hleft]
  · have hnew : live [((⟨price, account, s.nextOrderNumber⟩ : Resting), i.left)] =
        [(⟨price, account, s.nextOrderNumber⟩, i.left)] := by simp [live, hleft]
    simp only [hleft, if_false, live_append, hnew, List.map_append, List.mem_append, List.map_cons,
      List.map_nil, List.mem_singleton, ne_eq, not_false_eq_true, true_and]
    tauto

/-- An order of the other side is live after the insertion if it was live before and is not
removed. -/
theorem mem_live_opposite_iff (h : Indexed s) : a ∈ (live (s'.side nature.opposite)).map Prod.fst ↔
      a ∈ (live (s.side nature.opposite)).map Prod.fst ∧ a ∉ i.removed := by
  have hnodup := h.nodup nature.opposite
  rw [i.before, List.map_append, List.nodup_append] at hnodup
  rw [i.before, i.after, live_append, live_append, List.map_append, List.map_append,
    List.mem_append, List.mem_append]
  constructor
  · rintro (ha | ha)
    · obtain ⟨x, hx, rfl⟩ := List.mem_map.mp ha
      have hrest : x ∈ (sweep amount (live i.met)).rest := by rwa [i.sweep_met]
      obtain ⟨size, hsize⟩ := exists_of_mem_rest hrest
      exact ⟨.inl (List.mem_map.mpr ⟨_, hsize, rfl⟩), i.swept.not_mem_removed hnodup.1 ha⟩
    · refine ⟨.inr ha, fun hremoved => ?_⟩
      exact hnodup.2.2 a (i.swept.mem_before_of_removed hremoved) a (mem_map_live ha) rfl
  · rintro ⟨ha | ha, hremoved⟩
    · exact .inl ((i.swept.mem_live_or_mem_removed ha).resolve_right hremoved)
    · exact .inr ha

theorem removed_mem (ha : a ∈ i.removed) : a ∈ (s.side nature.opposite).map Prod.fst := by
  rw [i.before, List.map_append]
  exact List.mem_append_left _ (i.swept.mem_before_of_removed ha)

/-- The new entry of the index does not concern the orders that are there. -/
theorem orders_get (hid : orderId < s.nextOrderNumber) :
    s'.orders.get orderId = s.orders.get orderId := by
  rw [i.orders]
  split
  · rfl
  · rw [BTreeMap.get_insert, if_neg hid.ne]

theorem indexed (h : Indexed s) (hnext : s.nextOrderNumber + 1 < 2 ^ 64) : Indexed s' where
  nodup nature' := by
    rcases nature.eq_or_eq_opposite nature' with rfl | rfl
    · have hbefore := h.nodup nature'
      rw [i.own_before] at hbefore
      rw [i.own_after]
      by_cases hleft : i.left = 0
      · rwa [if_pos hleft, List.append_nil]
      · -- the id of the new order is not used yet
        have hnew : (⟨price, account, s.nextOrderNumber⟩ : Resting) ∉
            (i.front ++ i.back).map Prod.fst := by
          rw [← i.own_before]
          exact fun hmem => lt_irrefl _ (h.orderId_lt hmem)
        rw [if_neg hleft]
        simp only [List.map_append, List.map_cons, List.append_assoc, List.singleton_append] at hnew hbefore ⊢
        rw [List.nodup_middle, List.nodup_cons]
        exact ⟨hnew, hbefore⟩
    · exact (h.nodup _).sublist i.opposite_sublist
  entry nature' a ha := by
    rcases nature.eq_or_eq_opposite nature' with rfl | rfl
    · rcases i.mem_own_iff.mp ha with ha | ⟨hleft, rfl⟩
      · rw [i.orders_get (h.orderId_lt ha)]
        exact h.entry _ a ha
      · rw [i.orders, if_neg hleft, BTreeMap.get_insert, if_pos rfl]
    · have ha := i.opposite_sublist.subset ha
      rw [i.orders_get (h.orderId_lt ha)]
      exact h.entry _ a ha
  fresh orderId keyBook hget := by
    rw [i.nextOrderNumber, Nat.mod_eq_of_lt hnext]
    rw [i.orders] at hget
    split at hget
    · exact (h.fresh _ _ hget).trans (Nat.lt_succ_self _)
    · rw [BTreeMap.get_insert] at hget
      split at hget
      · rename_i hid
        rw [hid]
        exact Nat.lt_succ_self _
      · exact (h.fresh _ _ hget).trans (Nat.lt_succ_self _)
  owns x := by
    rw [i.owns, h.owns]
    constructor
    · rintro (⟨⟨nature', a, ha, rfl⟩, hremoved⟩ | ⟨hleft, rfl⟩)
      · refine ⟨nature', a, ?_, rfl⟩
        rcases nature.eq_or_eq_opposite nature' with rfl | rfl
        · exact i.mem_live_own_iff.mpr (.inl ha)
        · exact (i.mem_live_opposite_iff h).mpr
            ⟨ha, fun hmem => hremoved (List.mem_map.mpr ⟨a, hmem, rfl⟩)⟩
      · exact ⟨nature, _, i.mem_live_own_iff.mpr (.inr ⟨hleft, rfl⟩), rfl⟩
    · rintro ⟨nature', a, ha, rfl⟩
      rcases nature.eq_or_eq_opposite nature' with rfl | rfl
      · rcases i.mem_live_own_iff.mp ha with ha | ⟨hleft, rfl⟩
        · refine .inl ⟨⟨nature', a, ha, rfl⟩, fun hremoved => ?_⟩
          obtain ⟨b, hb, heq⟩ := List.mem_map.mp hremoved
          have := h.eq_of_orderId_eq (i.removed_mem hb) (mem_map_live ha) (congrArg Prod.snd heq)
          exact nature'.ne_opposite this.1.symm
        · exact .inr ⟨hleft, rfl⟩
      · obtain ⟨ha, hkept⟩ := (i.mem_live_opposite_iff h).mp ha
        refine .inl ⟨⟨_, a, ha, rfl⟩, fun hremoved => hkept ?_⟩
        obtain ⟨b, hb, heq⟩ := List.mem_map.mp hremoved
        have := h.eq_of_orderId_eq (i.removed_mem hb) (mem_map_live ha) (congrArg Prod.snd heq)
        rwa [← this.2]

end Insertion

namespace Reduction

variable {cancelAmount : ModifyAmount} {transfer : Transfer}
  (r : Reduction s s' orderId cancelAmount transfer)

include r

theorem mem_before : (⟨r.keyBook.price, r.account, orderId⟩ : Resting) ∈
    (s.side r.keyBook.nature).map Prod.fst := by
  rw [r.before, List.map_append]
  exact List.mem_append_right _ (.head _)

/-- Its account is the one that is paid back. -/
theorem account_eq (h : Indexed s) : r.account = r.keyBook.account := by
  have hentry := (h.entry _ _ r.mem_before).symm.trans r.orders_get
  exact congrArg KeyBook.account (Option.some.inj hentry)

/-- An order on the same side is live after the reduction if it was live before, unless it is the
one that is brought to zero. -/
theorem mem_live_own_iff (h : Indexed s) : a ∈ (live (s'.side r.keyBook.nature)).map Prod.fst ↔
      a ∈ (live (s.side r.keyBook.nature)).map Prod.fst ∧
        ¬(r.newAmount = 0 ∧ a = ⟨r.keyBook.price, r.account, orderId⟩) := by
  have hle := newAmount_le r.newAmount_eq
  have hnodup := h.nodup r.keyBook.nature
  rw [r.before, List.map_append, List.map_cons, List.nodup_middle, List.nodup_cons,
    ← List.map_append] at hnodup
  rw [r.after, r.before, mem_map_live_middle, mem_map_live_middle]
  by_cases ha : a = ⟨r.keyBook.price, r.account, orderId⟩
  · subst ha
    have hother : _ ∉ (live (r.front ++ r.back)).map Prod.fst :=
      fun hmem => hnodup.1 (mem_map_live hmem)
    simp only [hother, true_and, false_or, and_true]
    omega
  · simp [ha]

theorem indexed (h : Indexed s) : Indexed s' where
  nodup nature := by
    rcases r.keyBook.nature.eq_or_eq_opposite nature with rfl | rfl
    · exact (h.nodup _).sublist r.sublist
    · rw [r.opposite]
      exact h.nodup _
  entry nature a ha := by
    rw [r.orders]
    rcases r.keyBook.nature.eq_or_eq_opposite nature with rfl | rfl
    · exact h.entry _ a (r.sublist.subset ha)
    · rw [r.opposite] at ha
      exact h.entry _ a ha
  fresh := by
    rw [r.orders, r.nextOrderNumber]
    exact h.fresh
  owns x := by
    have hid : (⟨r.keyBook.price, r.account, orderId⟩ : Resting).ownerId =
        (r.keyBook.account.owner, orderId) := by
      rw [Resting.ownerId, r.account_eq h]
    rw [r.owns, h.owns, ← hid]
    constructor
    · rintro ⟨⟨nature, a, ha, rfl⟩, hkept⟩
      refine ⟨nature, a, ?_, rfl⟩
      rcases r.keyBook.nature.eq_or_eq_opposite nature with rfl | rfl
      · exact (r.mem_live_own_iff h).mpr ⟨ha, fun ⟨hzero, heq⟩ => hkept ⟨hzero, by rw [heq]⟩⟩
      · rwa [r.opposite]
    · rintro ⟨nature, a, ha, rfl⟩
      rcases r.keyBook.nature.eq_or_eq_opposite nature with rfl | rfl
      · obtain ⟨ha, hkept⟩ := (r.mem_live_own_iff h).mp ha
        refine ⟨⟨_, a, ha, rfl⟩, fun ⟨hzero, heq⟩ => hkept ⟨hzero, ?_⟩⟩
        exact (h.eq_of_orderId_eq (mem_map_live ha) r.mem_before (congrArg Prod.snd heq)).2
      · rw [r.opposite] at ha
        refine ⟨⟨_, a, ha, rfl⟩, fun ⟨_, heq⟩ => ?_⟩
        have := h.eq_of_orderId_eq (mem_map_live ha) r.mem_before (congrArg Prod.snd heq)
        exact r.keyBook.nature.ne_opposite this.1.symm

end Reduction

theorem Untouched.indexed (hstate : Untouched s s') (h : Indexed s) :
    Indexed s' where
  nodup nature := by
    rw [hstate.side]
    exact h.nodup nature
  entry nature := by
    rw [hstate.side, hstate.orders]
    exact h.entry nature
  fresh := by
    rw [hstate.orders, hstate.nextOrderNumber]
    exact h.fresh
  owns x := by
    simp only [hstate.side, hstate.accountInfo]
    exact h.owns x

/-- As long as the ids have not run out, they have been given out in sequence, and the indexes go
together with the book. -/
def IndexedUntilFull (e : Engine) : Prop :=
  e.arrived.length < 2 ^ 64 → e.state.nextOrderNumber = e.arrived.length ∧ Indexed e.state

theorem IndexedUntilFull.effect {e e' : Engine} (he : IndexedUntilFull e) (heffect : Effect e e') :
    IndexedUntilFull e' := by
  intro hfull
  cases heffect with
  | untouched hstate _ _ harrived =>
    rw [harrived] at hfull ⊢
    obtain ⟨hnext, h⟩ := he hfull
    exact ⟨hstate.nextOrderNumber.trans hnext, hstate.indexed h⟩
  | inserted i _ _ _ harrived =>
    rw [harrived, List.length_append, List.length_singleton] at hfull ⊢
    obtain ⟨hnext, h⟩ := he (Nat.lt_of_succ_lt hfull)
    rw [← hnext] at hfull ⊢
    exact ⟨i.nextOrderNumber.trans (Nat.mod_eq_of_lt hfull), i.indexed h hfull⟩
  | reduced r _ _ harrived =>
    rw [harrived] at hfull ⊢
    obtain ⟨hnext, h⟩ := he hfull
    exact ⟨r.nextOrderNumber.trans hnext, r.indexed h⟩

/-! ## The index by ids -/

/-- An order that brings no order of the book to zero: a new order is smaller than the first one
that it meets, and an order is not cancelled as a whole. -/
def Order.Leaves (s : MatchingEngineState) : Order → Prop
  | .insert _ amount nature price =>
    ∀ x ∈ ((live (s.side nature.opposite)).filter (crosses nature price)).head?, amount < x.2
  | .cancel _ _ => False
  | .modify _ orderId cancelAmount =>
    ∀ nature, ∀ x ∈ s.side nature, x.1.orderId = orderId → cancelAmount < x.2

/-- An execution brings no order of the book to zero. -/
def Event.Leaves (e : Engine) : Event → Prop
  | .operation _ (.executeOrder order) => order.Leaves e.state
  | .operation _ .closeChain => e.state.orders.keys = []
  | .message _ _ (.executeOrder order) => order.Leaves e.state

/-- Every id of the index stands for a live order. -/
def AllLive (s : MatchingEngineState) : Prop :=
  ∀ orderId keyBook, s.orders.get orderId = some keyBook →
    (⟨keyBook.price, keyBook.account, orderId⟩ : Resting) ∈
      (live (s.side keyBook.nature)).map Prod.fst

/-- The ids stay in the index of live orders when an order is inserted that brings none to zero. -/
theorem Insertion.allLive {account : Account} {amount : Nat} {price : Price}
    {transfers : List Transfer} (i : Insertion s s' account amount nature price transfers)
    (hleaves : (Order.insert owner amount nature price).Leaves s) (h : AllLive s) : AllLive s' := by
  have hkept : ∀ nature', ∀ a ∈ (live (s.side nature')).map Prod.fst,
      a ∈ (live (s'.side nature')).map Prod.fst := by
    intro nature' a ha
    rcases nature.eq_or_eq_opposite nature' with rfl | rfl
    · exact i.mem_live_own_iff.mpr (.inl ha)
    · have hmet : (live i.remaining).map Prod.fst = (live i.met).map Prod.fst := by
        have hrest : (sweep amount (live i.met)).rest.map Prod.fst = _ :=
          map_fst_rest_of_lt (by
            rw [← i.filter_crosses]
            exact hleaves)
        rwa [i.sweep_met] at hrest
      rw [i.before, live_append, List.map_append] at ha
      rwa [i.after, live_append, List.map_append, hmet]
  intro orderId keyBook hget
  rw [i.orders] at hget
  split at hget
  · exact hkept _ _ (h _ _ hget)
  · rename_i hleft
    rw [BTreeMap.get_insert] at hget
    split at hget
    · rename_i hid
      cases hget
      rw [hid]
      exact i.mem_live_own_iff.mpr (.inr ⟨hleft, rfl⟩)
    · exact hkept _ _ (h _ _ hget)

theorem Reduction.allLive {cancelled : Nat} {transfer : Transfer}
    (r : Reduction s s' orderId (.partly cancelled) transfer)
    (hleaves : (Order.modify owner orderId cancelled).Leaves s) (h : AllLive s) : AllLive s' := by
  have hlt : cancelled < r.amount :=
    hleaves r.keyBook.nature (⟨r.keyBook.price, r.account, orderId⟩, r.amount)
      (by rw [r.before]; simp) rfl
  have hnew := Amount.trySub_eq_ok.mp (Except.mapError_eq_ok.mp r.newAmount_eq)
  have hne : r.newAmount ≠ 0 ∧ r.amount ≠ 0 := by omega
  intro orderId' keyBook hget
  rw [r.orders] at hget
  have hlive := h _ _ hget
  rcases r.keyBook.nature.eq_or_eq_opposite keyBook.nature with hnature | hnature
  · rw [hnature, r.before, mem_map_live_middle] at hlive
    rw [hnature, r.after, mem_map_live_middle]
    exact hlive.imp_right fun heq => ⟨heq.1, hne.1⟩
  · rw [hnature] at hlive ⊢
    rwa [r.opposite]

theorem AllLive.executeOrderLocal {runtime : Runtime} {e e' : Engine} {order : Order}
    {chainId : ChainId} (he : AllLive e.state) (hleaves : order.Leaves e.state)
    (h : executeOrderLocal runtime e order chainId = .ok e') : AllLive e'.state := by
  cases order with
  | insert owner amount nature price =>
    obtain ⟨_, _, _, ⟨i⟩, -⟩ := executeOrderLocal_insert h
    exact i.allLive hleaves he
  | cancel owner orderId => exact hleaves.elim
  | modify owner orderId cancelAmount =>
    obtain ⟨_, ⟨r⟩, -⟩ := modifyOrderCheck_reduction h
    exact r.allLive hleaves he

theorem AllLive.step {e e' : Engine} {event : Event} (he : AllLive e.state)
    (hleaves : event.Leaves e) (h : step e event = some e') : AllLive e'.state := by
  rcases step_cases h with rfl | ⟨_, order, _, hbrings, hlocal⟩ | ⟨_, rfl, hcancel⟩
  · exact he
  · have hleaves : order.Leaves e.state := by
      rcases hbrings with ⟨_, rfl⟩ | ⟨_, _, rfl⟩ <;> exact hleaves
    exact he.executeOrderLocal hleaves hlocal
  · -- There is nothing to cancel.
    replace hleaves : e.state.orders.keys = [] := hleaves
    rw [MatchingEngineState.orderIds, hleaves] at hcancel
    cases hcancel
    exact he

/-- An order with the id and a non-zero amount is in the level that the index by ids names. -/
def InLevel (s : MatchingEngineState) (orderId : OrderId) (keyBook : KeyBook) : Prop :=
  ∃ order ∈ s.level keyBook.nature keyBook.price, order.orderId = orderId ∧ order.amount ≠ 0

theorem Indexed.inLevel_iff (h : Indexed s) {keyBook : KeyBook}
    (hget : s.orders.get orderId = some keyBook) :
    InLevel s orderId keyBook ↔ (⟨keyBook.price, keyBook.account, orderId⟩ : Resting) ∈
      (live (s.side keyBook.nature)).map Prod.fst := by
  constructor
  · rintro ⟨⟨amount, account, _⟩, horder, rfl, hamount⟩
    have hside := mem_side_iff.mpr horder
    have hentry := h.entry _ _ (List.mem_map.mpr ⟨_, hside, rfl⟩)
    have hkeyBook := Option.some.inj (hget.symm.trans hentry)
    have haccount : keyBook.account = account := congrArg KeyBook.account hkeyBook
    rw [haccount]
    exact List.mem_map.mpr ⟨_, mem_live.mpr ⟨hside, hamount⟩, rfl⟩
  · intro hlive
    obtain ⟨⟨_, amount⟩, hlive, rfl⟩ := List.mem_map.mp hlive
    obtain ⟨hside, hamount⟩ := mem_live.mp hlive
    exact ⟨_, mem_side_iff.mp hside, rfl, hamount⟩

theorem Indexed.owns_iff (h : Indexed s) : s.accountInfo.Owns (owner, orderId) ↔
      ∃ keyBook, s.orders.get orderId = some keyBook ∧ keyBook.account.owner = owner ∧
        InLevel s orderId keyBook := by
  rw [h.owns]
  constructor
  · rintro ⟨nature, a, ha, heq⟩
    obtain ⟨price, account, _⟩ := a
    cases heq
    have hget := h.entry nature _ (mem_map_live ha)
    exact ⟨_, hget, rfl, (h.inLevel_iff hget).mpr ha⟩
  · rintro ⟨keyBook, hget, rfl, hlevel⟩
    exact ⟨keyBook.nature, _, (h.inLevel_iff hget).mp hlevel, rfl⟩

/-- As long as ids are left, the orders of an owner are those of the index by ids that are in the
book. If no order has been brought to zero, these are all orders of the index by ids. -/
theorem indexes_agree_with_book (events : List Event) {e : Engine}
    (h : Run.run step Engine.new events = some e) (hfull : e.arrived.length < 2 ^ 64) :
    (∀ owner orderId, e.state.accountInfo.Owns (owner, orderId) ↔
        ∃ keyBook, e.state.orders.get orderId = some keyBook ∧ keyBook.account.owner = owner ∧
          InLevel e.state orderId keyBook) ∧
      (Run.Along step (fun e event => event.Leaves e) Engine.new events →
        ∀ orderId keyBook, e.state.orders.get orderId = some keyBook →
          e.state.accountInfo.Owns (keyBook.account.owner, orderId) ∧
            InLevel e.state orderId keyBook) := by
  have hnew : IndexedUntilFull Engine.new := by
    refine fun _ => ⟨rfl, fun nature => ?_, fun nature a ha => ?_, fun _ _ hget => ?_, fun x => ?_⟩
    · cases nature <;> exact .nil
    · cases nature <;> cases ha
    · cases hget
    · constructor
      · rintro ⟨_, hget, -⟩
        cases hget
      · rintro ⟨nature, a, ha, -⟩
        cases nature <;> cases ha
  have hindexed : Indexed e.state :=
    (Run.invariant (P := IndexedUntilFull)
      (fun _ _ _ => step_preserves IndexedUntilFull.effect) hnew h hfull).2
  refine ⟨fun owner orderId => hindexed.owns_iff, fun hleaves orderId keyBook hget => ?_⟩
  have hlive : AllLive e.state :=
    Run.invariant_along (P := fun e => AllLive e.state) (fun _ _ _ he hevent => he.step hevent)
      (fun _ _ hget => by cases hget) hleaves h
  have hlevel := (hindexed.inLevel_iff hget).mpr (hlive _ _ hget)
  exact ⟨hindexed.owns_iff.mpr ⟨keyBook, hget, rfl, hlevel⟩, hlevel⟩

/-- Alice's order is filled, and its id stays in the index. -/
theorem filled_order_stays_indexed :
    ∃ e, Run.run step Engine.new
        [signed alice (.insert (.user alice) 5 .ask ⟨2⟩),
          signed bob (.insert (.user bob) 5 .bid ⟨2⟩)] = some e ∧
      e.state.orders.get 0 = some ⟨⟨2⟩, .ask, ⟨exampleChain, .user alice⟩⟩ ∧
      (e.state.accountInfo.get (.user alice)).map BTreeMap.keys = some [] ∧
      e.state.side .ask = [] :=
  ⟨_, rfl, rfl, rfl, rfl⟩

theorem indexes_agree_with_book_trade :
    ∃ e, Run.run step Engine.new exampleTrade = some e ∧ e.arrived.length < 2 ^ 64 ∧
      Run.Along step (fun e event => event.Leaves e) Engine.new exampleTrade ∧
      e.state.accountInfo.Owns (.user alice, 0) := by
  have halong : Run.Along step (fun e event => event.Leaves e) Engine.new exampleTrade := by
    refine ⟨?_, fun e₁ h₁ => ⟨?_, fun e₂ h₂ => ⟨?_, fun _ _ => trivial⟩⟩⟩
    · intro x hx
      cases hx
    · cases h₁
      intro x hx
      cases hx
      decide
    · cases h₁
      cases h₂
      intro x hx
      cases hx
  exact ⟨_, rfl, by decide, halong,
    ((indexes_agree_with_book exampleTrade rfl (by decide)).2 halong 0 _ rfl).1⟩

end Linera.MatchingEngine
