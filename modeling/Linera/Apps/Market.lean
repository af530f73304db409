import Linera.Apps.OrderBook

/-!
# The market over whole runs

Two things hold after every sequence of orders. The engine holds what the orders in the
book are backed by (`custody_backs_book`). The book is never crossed, and an inserted
order is filled in price-time priority (`filled_in_priority`).
-/

namespace Linera.MatchingEngine

open PriceTime

/-! ## Custody -/

def transferred (tokenIdx : Fin 2) (transfers : List Transfer) : Nat :=
  (transfers.map fun t => if t.tokenIdx = tokenIdx then t.amount else 0).sum

/-- What the orders in the book are backed by: the bids by their prices in token 0, the asks by
their amounts of token 1. -/
def backing (s : MatchingEngineState) : Fin 2 → Nat
  | 0 => total (fun order => order.price.price.toNat) (s.side .bid)
  | 1 => total (fun _ => 1) (s.side .ask)

theorem backing_zero (s : MatchingEngineState) :
    backing s 0 = total (fun order => order.price.price.toNat) (s.side .bid) := rfl

theorem backing_one (s : MatchingEngineState) :
    backing s 1 = total (fun _ => 1) (s.side .ask) := rfl

variable (tokenIdx : Fin 2)

theorem transferred_self (account : Account) (amount : Nat) :
    transferred tokenIdx [⟨account, amount, tokenIdx⟩] = amount := by
  simp [transferred]

theorem transferred_of_ne {tokenIdx idx : Fin 2} (h : idx ≠ tokenIdx) (account : Account)
    (amount : Nat) : transferred tokenIdx [⟨account, amount, idx⟩] = 0 := by
  simp [transferred, h]

@[simp] theorem transferred_append (transfers transfers' : List Transfer) :
    transferred tokenIdx (transfers ++ transfers') =
      transferred tokenIdx transfers + transferred tokenIdx transfers' := by
  simp [transferred]

/-- What is paid in a token for each unit of a fill. -/
def payout : OrderNature → Price → Fin 2 → Resting → Nat
  | .bid, price, 0, _ => price.price.toNat
  | .ask, _, 0, order => order.price.price.toNat
  | _, _, 1, _ => 1

variable {nature : OrderNature} {s s' : MatchingEngineState} {e e' : Engine}

theorem transferred_settlement {price : Price} {fill : Resting × Nat}
    (hcrosses : crosses nature price fill = true) (account : Account) (tokenIdx : Fin 2) :
    transferred tokenIdx (settlement nature account price fill) =
      payout nature price tokenIdx fill.1 * fill.2 := by
  cases nature with
  | bid => fin_cases tokenIdx <;> simp [transferred, settlement, payout]
  | ask =>
    by_cases hprice : fill.1.price = price
    · fin_cases tokenIdx <;> simp [transferred, settlement, payout, hprice]
    · -- the price of the new order and the difference add up to the price of the resting one
      have hle : price.price ≤ fill.1.price.price := of_decide_eq_true hcrosses
      have hsum : price.price.toNat + (fill.1.price.price - price.price).toNat =
          fill.1.price.price.toNat := by
        rw [UInt64.toNat_sub_of_le _ _ hle]
        exact Nat.add_sub_cancel' (UInt64.le_iff_toNat_le.mp hle)
      fin_cases tokenIdx
      · simp [transferred, settlement, payout, hprice, ← Nat.add_mul, hsum]
      · simp [transferred, settlement, payout, hprice]

theorem transferred_flatMap_settlement {price : Price} {fills : List (Resting × Nat)}
    (hcrosses : ∀ fill ∈ fills, crosses nature price fill = true) (account : Account)
    (tokenIdx : Fin 2) : transferred tokenIdx (fills.flatMap (settlement nature account price)) =
      total (payout nature price tokenIdx) fills := by
  induction fills with
  | nil => rfl
  | cons fill fills ih =>
    rw [List.flatMap_cons, transferred_append, total_cons,
      transferred_settlement (hcrosses fill (.head _)), ih fun f hf => hcrosses f (.tail _ hf)]

namespace Insertion

variable {s s' : MatchingEngineState} {account : Account} {amount : Nat} {nature : OrderNature}
  {price : Price} {transfers : List Transfer}
  (i : Insertion s s' account amount nature price transfers)

include i

theorem sweep_met : sweep amount (live i.met) = ⟨i.fills, live i.remaining, i.left⟩ :=
  i.swept.sweep_eq

theorem inPriority : InPriority amount (live i.met) i.fills (live i.remaining) i.left := by
  have h := sweep_inPriority amount (live i.met)
  rwa [i.sweep_met] at h

theorem crosses_fills : ∀ fill ∈ i.fills, crosses nature price fill = true := by
  intro fill hfill
  have hmem : fill ∈ (sweep amount (live i.met)).fills := by rwa [i.sweep_met]
  obtain ⟨size, hsize⟩ := exists_of_mem_fills hmem
  exact i.crosses_met (fill.1, size) (mem_live.mp hsize).1

theorem transferred_eq :
    transferred tokenIdx transfers = total (payout nature price tokenIdx) i.fills :=
  (congrArg _ i.transfers_eq).trans
    (transferred_flatMap_settlement i.crosses_fills account tokenIdx)

theorem total_opposite (weight : Resting → Nat) :
    total weight i.fills + total weight (s'.side nature.opposite) =
      total weight (s.side nature.opposite) := by
  have h := total_sweep weight amount (live i.met)
  simp only [i.sweep_met, total_live] at h
  rw [i.before, i.after, total_append, total_append]
  omega

theorem total_own (weight : Resting → Nat) : total weight (s'.side nature) =
      total weight (s.side nature) + weight ⟨price, account, s.nextOrderNumber⟩ * i.left := by
  rw [i.own_before, i.own_after]
  by_cases hleft : i.left = 0
  · simp [hleft]
  · simp only [hleft, if_false, total_append, total_cons, total_nil]
    omega

/-- What an order brings is paid to the orders that fill it, or backs what is left of it. -/
theorem balance {size : Nat} {idx : Fin 2}
    (hsize : getAmountIdx nature price amount = .ok (size, idx)) (source : Account)
    (tokenIdx : Fin 2) : transferred tokenIdx [⟨source, size, idx⟩] + backing s tokenIdx =
      transferred tokenIdx transfers + backing s' tokenIdx := by
  rw [i.transferred_eq]
  have hamount := i.inPriority.amount_eq
  cases nature with
  | bid =>
    obtain ⟨size0, hsize0, hsize⟩ := Except.bind_eq_ok.mp hsize
    cases hsize
    match tokenIdx with
    | 0 =>
      have hown : total _ (s'.side .bid) = total _ (s.side .bid) + price.price.toNat * i.left :=
        i.total_own fun order => order.price.price.toNat
      have hpaid : total (payout .bid price 0) i.fills =
          price.price.toNat * total (fun _ => 1) i.fills := total_const _ _
      have hreceived : size = price.price.toNat * (total (fun _ => 1) i.fills + i.left) :=
        (productPriceAmount_eq hsize0).trans (congrArg _ hamount.symm)
      rw [Nat.mul_add] at hreceived
      rw [transferred_self, backing_zero, backing_zero]
      omega
    | 1 =>
      have hopposite : total (payout .bid price 1) i.fills + total _ (s'.side .ask) =
        total _ (s.side .ask) := i.total_opposite fun _ => 1
      rw [transferred_of_ne (by decide), backing_one, backing_one]
      omega
  | ask =>
    cases hsize
    match tokenIdx with
    | 0 =>
      have hopposite : total (payout .ask price 0) i.fills + total _ (s'.side .bid) =
        total _ (s.side .bid) := i.total_opposite fun order => order.price.price.toNat
      rw [transferred_of_ne (by decide), backing_zero, backing_zero]
      omega
    | 1 =>
      have hown := i.total_own fun _ => 1
      have hpaid : total (payout .ask price 1) i.fills = total (fun _ => 1) i.fills := rfl
      rw [transferred_self, backing_one, backing_one]
      omega

end Insertion

namespace Reduction

variable {s s' : MatchingEngineState} {orderId : OrderId} {cancelAmount : ModifyAmount}
  {transfer : Transfer} (r : Reduction s s' orderId cancelAmount transfer)

include r

theorem total_own (weight : Resting → Nat) : total weight (s'.side r.keyBook.nature) +
        weight ⟨r.keyBook.price, r.account, orderId⟩ * (r.amount - r.newAmount) =
      total weight (s.side r.keyBook.nature) := by
  have hle := newAmount_le r.newAmount_eq
  have hsplit : weight ⟨r.keyBook.price, r.account, orderId⟩ * r.amount =
      weight ⟨r.keyBook.price, r.account, orderId⟩ * r.newAmount +
        weight ⟨r.keyBook.price, r.account, orderId⟩ * (r.amount - r.newAmount) := by
    rw [← Nat.mul_add, Nat.add_sub_cancel' hle]
  rw [← total_live, r.after, total_live, r.before]
  simp only [total_append, total_cons]
  omega

/-- What is taken from an order is paid back. -/
theorem balance : backing s tokenIdx = transferred tokenIdx [transfer] + backing s' tokenIdx := by
  have htransfer := r.transfer_eq
  have hown := r.total_own
  have hopposite := r.opposite
  cases hnature : r.keyBook.nature with
  | bid =>
    simp only [hnature, OrderNature.opposite] at htransfer hown hopposite
    match tokenIdx with
    | 0 =>
      have hown : total _ (s'.side .bid) + r.keyBook.price.price.toNat * (r.amount - r.newAmount) =
        total _ (s.side .bid) := hown fun order => order.price.price.toNat
      rw [htransfer, transferred_self, backing_zero, backing_zero]
      omega
    | 1 =>
      rw [htransfer, transferred_of_ne (by decide), backing_one, backing_one, hopposite,
        Nat.zero_add]
  | ask =>
    simp only [hnature, OrderNature.opposite] at htransfer hown hopposite
    match tokenIdx with
    | 0 =>
      rw [htransfer, transferred_of_ne (by decide), backing_zero, backing_zero, hopposite,
        Nat.zero_add]
    | 1 =>
      have hown := hown fun _ => 1
      rw [htransfer, transferred_self, backing_one, backing_one]
      omega

end Reduction

/-- What the engine has received and not sent is what the orders are backed by. -/
def Backed (e : Engine) : Prop :=
  ∀ tokenIdx, transferred tokenIdx e.received =
    transferred tokenIdx e.sent + backing e.state tokenIdx

theorem Backed.effect (he : Backed e) (heffect : Effect e e') : Backed e' := by
  intro tokenIdx
  have he := he tokenIdx
  cases heffect with
  | untouched hstate hreceived hsent =>
    rw [hreceived, hsent, he]
    match tokenIdx with
    | 0 => rw [backing_zero, backing_zero, hstate.side]
    | 1 => rw [backing_one, backing_one, hstate.side]
  | @inserted _ _ _ _ _ source _ _ i hsize hreceived hsent =>
    rw [hreceived, hsent, transferred_append, transferred_append]
    have := i.balance hsize source tokenIdx
    omega
  | reduced r hreceived hsent =>
    rw [hreceived, hsent, transferred_append]
    have := r.balance tokenIdx
    omega

/-- The engine holds exactly what its orders are backed by: of token 1 the amounts of the asks, and
of token 0 for each bid the price times the amount. -/
theorem custody_backs_book (events : List Event) {e : Engine}
    (h : Run.run step Engine.new events = some e) :
    transferred 1 e.received - transferred 1 e.sent = total (fun _ => 1) (e.state.side .ask) ∧
      transferred 1 e.sent ≤ transferred 1 e.received ∧
      transferred 0 e.received - transferred 0 e.sent =
        total (fun order => order.price.price.toNat) (e.state.side .bid) ∧
      transferred 0 e.sent ≤ transferred 0 e.received := by
  have hnew : Backed Engine.new := by
    intro tokenIdx
    match tokenIdx with
    | 0 => rfl
    | 1 => rfl
  have hbacked : Backed e :=
    Run.invariant (P := Backed) (fun _ _ _ => step_preserves Backed.effect) hnew h
  have h₀ := hbacked 0
  have h₁ := hbacked 1
  rw [backing_zero] at h₀
  rw [backing_one] at h₁
  omega

def exampleChain : ChainId := ⟨⟨0⟩⟩

def exampleApplication : ApplicationId := ⟨⟨⟨1⟩, ⟨2⟩⟩, ⟨exampleChain, 0, 0⟩⟩

/-- The engine's chain, with all transfers going through. -/
def exampleRuntime (signer : Owner) : Runtime :=
  ⟨exampleChain, exampleChain, exampleApplication, some signer, none, fun _ => exampleApplication,
    fun _ _ => true, false⟩

def signed (signer : Owner) (order : Order) : Event :=
  .operation (exampleRuntime signer) (.executeOrder order)

def alice : Owner := ⟨⟨7⟩⟩

def bob : Owner := ⟨⟨8⟩⟩

/-- Alice asks for 2 a piece, Bob bids 4 for a part of it, and then 1 for more. -/
def exampleTrade : List Event :=
  [signed alice (.insert (.user alice) 5 .ask ⟨2⟩), signed bob (.insert (.user bob) 3 .bid ⟨4⟩),
    signed bob (.insert (.user bob) 2 .bid ⟨1⟩)]

theorem custody_backs_book_trade :
    ∃ e, Run.run step Engine.new exampleTrade = some e ∧
      transferred 1 e.received - transferred 1 e.sent = total (fun _ => 1) (e.state.side .ask) ∧
      total (fun _ => 1) (e.state.side .ask) = 2 ∧
      total (fun order => order.price.price.toNat) (e.state.side .bid) = 2 :=
  ⟨_, rfl, (custody_backs_book exampleTrade rfl).1, rfl, rfl⟩

/-! ## Priority -/

/-- Every bid is below every ask. -/
def Uncrossed (s : MatchingEngineState) : Prop :=
  ∀ b ∈ live (s.side .bid), ∀ a ∈ live (s.side .ask), b.1.price.price < a.1.price.price

theorem OrderNature.eq_or_eq_opposite (n n' : OrderNature) : n' = n ∨ n' = n.opposite := by
  cases n <;> cases n' <;> simp [OrderNature.opposite]

/-- The live orders of a side were there before. -/
def Narrowed (s s' : MatchingEngineState) (nature : OrderNature) : Prop :=
  ∀ x ∈ live (s'.side nature), ∃ size, (x.1, size) ∈ live (s.side nature)

theorem Uncrossed.narrowed (h : Uncrossed s) (hbid : Narrowed s s' .bid)
    (hask : Narrowed s s' .ask) : Uncrossed s' := by
  intro b hb a ha
  obtain ⟨_, hb⟩ := hbid b hb
  obtain ⟨_, ha⟩ := hask a ha
  have := h _ hb _ ha
  exact this

theorem Narrowed.of_eq (h : s'.side nature = s.side nature) : Narrowed s s' nature := by
  intro x hx
  rw [h] at hx
  exact ⟨x.2, hx⟩

namespace Insertion

variable {s s' : MatchingEngineState} {account : Account} {amount : Nat} {nature : OrderNature}
  {price : Price} {transfers : List Transfer}
  (i : Insertion s s' account amount nature price transfers)

include i

theorem narrowed : Narrowed s s' nature.opposite := by
  intro x hx
  rw [i.after, live_append, List.mem_append] at hx
  rw [i.before]
  simp only [live_append, List.mem_append]
  rcases hx with hx | hx
  · have hrest : x ∈ (sweep amount (live i.met)).rest := by rwa [i.sweep_met]
    obtain ⟨size, hsize⟩ := exists_of_mem_rest hrest
    exact ⟨size, .inl hsize⟩
  · exact ⟨x.2, .inr hx⟩

theorem filter_crosses :
    (live (s.side nature.opposite)).filter (crosses nature price) = live i.met := by
  rw [i.before, live_append, List.filter_append,
    List.filter_eq_self.mpr fun x hx => i.crosses_met x (mem_live.mp hx).1,
    List.filter_eq_nil_iff.mpr fun x hx => by simp [i.crosses_others x (mem_live.mp hx).1],
    List.append_nil]

theorem filter_not_crosses :
    (live (s.side nature.opposite)).filter (fun x => !crosses nature price x) = live i.others := by
  rw [i.before, live_append, List.filter_append,
    List.filter_eq_nil_iff.mpr fun x hx => by simp [i.crosses_met x (mem_live.mp hx).1],
    List.filter_eq_self.mpr fun x hx => by simp [i.crosses_others x (mem_live.mp hx).1],
    List.nil_append]

/-- An order on the side of the new one was there before, or it is the new one, and then it crosses
no order of the other side. -/
theorem own_cases {x : Resting × Nat} (hx : x ∈ live (s'.side nature)) : x ∈ live (s.side nature) ∨
      x.1.price = price ∧ ∀ y ∈ live (s'.side nature.opposite), crosses nature price y = false := by
  rw [i.own_after] at hx
  rw [i.own_before]
  by_cases hleft : i.left = 0
  · rw [if_pos hleft, List.append_nil] at hx
    exact .inl hx
  · simp only [hleft, if_false, live_append, List.mem_append] at hx ⊢
    rcases hx with (hx | hx) | hx
    · exact .inl (.inl hx)
    · obtain rfl := List.mem_singleton.mp (mem_live.mp hx).1
      refine .inr ⟨rfl, fun y hy => ?_⟩
      -- something is left, so no order that matches is
      rw [i.after, live_append, i.inPriority.all_or_rest.resolve_left hleft, List.nil_append] at hy
      exact i.crosses_others y (mem_live.mp hy).1
    · exact .inl (.inr hx)

end Insertion

theorem Reduction.narrowed {orderId : OrderId} {cancelAmount : ModifyAmount} {transfer : Transfer}
    (r : Reduction s s' orderId cancelAmount transfer) (nature : OrderNature) :
    Narrowed s s' nature := by
  have hown : Narrowed s s' r.keyBook.nature := by
    intro x hx
    rw [r.after] at hx
    obtain ⟨hx, hsize⟩ := mem_live.mp hx
    simp only [r.before, mem_live, List.mem_append, List.mem_cons] at hx ⊢
    have hle := newAmount_le r.newAmount_eq
    rcases hx with hx | rfl | hx
    · exact ⟨x.2, .inl hx, hsize⟩
    · exact ⟨r.amount, .inr (.inl rfl), by simp only at hsize ⊢; omega⟩
    · exact ⟨x.2, .inr (.inr hx), hsize⟩
  rcases r.keyBook.nature.eq_or_eq_opposite nature with rfl | rfl
  · exact hown
  · exact .of_eq r.opposite

theorem Uncrossed.effect (he : Uncrossed e.state) (heffect : Effect e e') : Uncrossed e'.state := by
  cases heffect with
  | untouched hstate => exact he.narrowed (.of_eq (hstate.side _)) (.of_eq (hstate.side _))
  | @inserted _ _ nature price _ _ _ _ i =>
    intro b hb a ha
    cases nature with
    | bid =>
      obtain ⟨_, ha'⟩ := i.narrowed a ha
      rcases i.own_cases hb with hb | ⟨hprice, hcrosses⟩
      · have := he b hb _ ha'
        exact this
      · have hnot : ¬a.1.price.price ≤ price.price := of_decide_eq_false (hcrosses a ha)
        rw [hprice]
        exact UInt64.not_le.mp hnot
    | ask =>
      obtain ⟨_, hb'⟩ := i.narrowed b hb
      rcases i.own_cases ha with ha | ⟨hprice, hcrosses⟩
      · exact he _ hb' a ha
      · have hnot : ¬b.1.price.price ≥ price.price := of_decide_eq_false (hcrosses b hb)
        rw [hprice]
        exact UInt64.not_le.mp hnot
  | reduced r => exact he.narrowed (r.narrowed .bid) (r.narrowed .ask)

/-- The first price is at least as good as the second one for those who meet the orders. -/
def NoWorse (nature : OrderNature) (p q : Price) : Prop :=
  match nature with
  | .bid => q.price ≤ p.price
  | .ask => p.price ≤ q.price

theorem pairwise_levelOrders {κ : Type} [LinearOrder κ] {toPrice : κ → Price}
    {R : Price → Price → Prop} (hrefl : ∀ p, R p p)
    (hlt : ∀ k k', k < k' → R (toPrice k) (toPrice k')) {levels : List (κ × List OrderEntry)}
    (hlevels : levels.Pairwise fun a b => a.1 < b.1) :
    (levelOrders toPrice levels).Pairwise fun x y => R x.1.price y.1.price := by
  induction levels with
  | nil => exact .nil
  | cons level levels ih =>
    rw [List.pairwise_cons] at hlevels
    rw [levelOrders_cons, List.pairwise_append]
    refine ⟨?_, ih hlevels.2, ?_⟩
    · refine List.pairwise_iff_forall_sublist.mpr fun {x y} hxy => ?_
      rw [price_of_mem_queueOrders (hxy.subset (by simp)),
        price_of_mem_queueOrders (hxy.subset (by simp))]
      exact hrefl _
    · intro x hx y hy
      obtain ⟨level', hlevel', hprice⟩ := exists_of_mem_levelOrders hy
      rw [price_of_mem_queueOrders hx, hprice]
      exact hlt _ _ (hlevels.1 level' hlevel')

/-- The orders of a side are in the order of their prices, the best one first. -/
theorem side_pairwise (s : MatchingEngineState) (nature : OrderNature) :
    (s.side nature).Pairwise fun x y => NoWorse nature x.1.price y.1.price := by
  cases nature with
  | bid =>
    exact pairwise_levelOrders (fun p => UInt64.le_refl p.price)
      (fun k k' h => UInt64.le_of_lt (PriceBid.lt_iff.mp h)) s.bids.sorted
  | ask =>
    exact pairwise_levelOrders (fun p => UInt64.le_refl p.price)
      (fun k k' h => UInt64.le_of_lt (PriceAsk.lt_iff.mp h)) s.asks.sorted

/-- The orders of a side at one price. -/
def atPrice (price : Price) (orders : List (Resting × Nat)) : List Resting :=
  (orders.map Prod.fst).filter fun order => order.price = price

/-- The orders at one price are in the sequence of their arrival. -/
def InSequence (e : Engine) : Prop :=
  ∀ nature price,
    ((atPrice price (e.state.side nature)).map (Prod.mk nature)).Sublist e.arrived

theorem InSequence.of_sublist (he : InSequence e)
    (hside : ((e'.state.side nature).map Prod.fst).Sublist ((e.state.side nature).map Prod.fst))
    (harrived : e.arrived.Sublist e'.arrived) (price : Price) :
    ((atPrice price (e'.state.side nature)).map (Prod.mk nature)).Sublist e'.arrived :=
  (((hside.filter _).map _).trans (he nature price)).trans harrived

theorem InSequence.effect (he : InSequence e) (heffect : Effect e e') : InSequence e' := by
  cases heffect with
  | untouched hstate _ _ harrived =>
    intro nature
    exact he.of_sublist (by rw [hstate.side]) (by rw [harrived])
  | @inserted account _ nature price _ _ _ _ i _ _ _ harrived =>
    intro nature' p
    rcases nature.eq_or_eq_opposite nature' with rfl | rfl
    · have hbefore := he nature' p
      rw [i.own_before] at hbefore
      rw [i.own_after, harrived]
      by_cases hleft : i.left = 0
      · rw [if_pos hleft, List.append_nil]
        exact hbefore.trans (List.sublist_append_left ..)
      · rw [if_neg hleft]
        by_cases hp : price = p
        · -- the new order is the last one at its price
          have hback : atPrice p i.back = [] := by
            rw [atPrice, List.filter_eq_nil_iff]
            intro order horder
            obtain ⟨x, hx, rfl⟩ := List.mem_map.mp horder
            simpa [← hp] using i.price_back x hx
          simp only [atPrice, List.map_append, List.filter_append] at hbefore hback ⊢
          rw [hback, List.map_nil, List.append_nil] at hbefore ⊢
          simpa [hp] using hbefore
        · simp only [atPrice, List.map_append, List.filter_append, List.map_cons, List.map_nil,
            List.filter_cons, hp, decide_false, Bool.false_eq_true, if_false, List.filter_nil,
            List.append_nil] at hbefore ⊢
          exact hbefore.trans (List.sublist_append_left ..)
    · refine he.of_sublist ?_ ?_ p
      · rw [i.before, i.after, List.map_append, List.map_append]
        exact i.swept.sublist.append (.refl _)
      · rw [harrived]
        exact List.sublist_append_left ..
  | reduced r _ _ harrived =>
    intro nature
    refine he.of_sublist ?_ (by rw [harrived])
    rcases r.keyBook.nature.eq_or_eq_opposite nature with rfl | rfl
    · exact r.sublist
    · rw [r.opposite]

/-- The book is never crossed, and it is served in price-time priority. The orders of a side are in
the order of their prices, those at one price in the sequence of their arrival. An order that is
inserted is filled from the orders that it crosses, in this order; what is left of it is the last
order at its price. -/
theorem filled_in_priority (events : List Event) {e : Engine}
    (h : Run.run step Engine.new events = some e) :
    Uncrossed e.state ∧
      (∀ nature, (e.state.side nature).Pairwise fun x y => NoWorse nature x.1.price y.1.price) ∧
      InSequence e ∧
      ∀ runtime owner amount nature price chainId e',
        executeOrderLocal runtime e (.insert owner amount nature price) chainId = .ok e' →
        ∃ fills rest left,
          InPriority amount ((live (e.state.side nature.opposite)).filter (crosses nature price))
            fills rest left ∧
          live (e'.state.side nature.opposite) = rest ++
            (live (e.state.side nature.opposite)).filter (fun x => !crosses nature price x) ∧
          e'.sent = e.sent ++ fills.flatMap (settlement nature ⟨chainId, owner⟩ price) ∧
          ∃ front back, e.state.side nature = front ++ back ∧
            e'.state.side nature = front ++
              (if left = 0 then []
                else [(⟨price, ⟨chainId, owner⟩, e.state.nextOrderNumber⟩, left)]) ++ back ∧
            ∀ x ∈ back, x.1.price ≠ price := by
  refine ⟨?_, side_pairwise e.state, ?_, ?_⟩
  · exact Run.invariant (P := fun e => Uncrossed e.state)
      (fun _ _ _ => step_preserves Uncrossed.effect) (by intro b hb; cases hb) h
  · exact Run.invariant (P := InSequence) (fun _ _ _ => step_preserves InSequence.effect)
      (by intro nature price; cases nature <;> exact .slnil) h
  · intro runtime owner amount nature price chainId e' hexecute
    obtain ⟨transfers, -, -, ⟨i⟩, -, -, hsent, -⟩ := executeOrderLocal_insert hexecute
    refine ⟨i.fills, live i.remaining, i.left, ?_, ?_, ?_, i.front, i.back, i.own_before,
      i.own_after, i.price_back⟩
    · rw [i.filter_crosses]
      exact i.inPriority
    · rw [i.filter_not_crosses, i.after, live_append]
    · rw [hsent]
      exact congrArg _ i.transfers_eq

/-- Bob buys what is left at Alice's price, and bids for one more. -/
theorem filled_in_priority_trade :
    ∃ e e', Run.run step Engine.new exampleTrade = some e ∧
      executeOrderLocal (exampleRuntime bob) e (.insert (.user bob) 3 .bid ⟨2⟩) exampleChain =
        .ok e' ∧
      Uncrossed e.state ∧
      ∃ fills rest left, InPriority 3
        ((live (e.state.side .ask)).filter (crosses .bid ⟨2⟩)) fills rest left := by
  obtain ⟨e', hrun⟩ : ∃ e', (Run.run step Engine.new exampleTrade).bind (fun e =>
      (executeOrderLocal (exampleRuntime bob) e (.insert (.user bob) 3 .bid ⟨2⟩)
        exampleChain).toOption) = some e' := ⟨_, rfl⟩
  obtain ⟨e, he, he'⟩ := Option.bind_eq_some_iff.mp hrun
  have he' := Except.toOption_eq_some.mp he'
  have h := filled_in_priority exampleTrade he
  obtain ⟨fills, rest, left, hfilled, -⟩ := h.2.2.2 _ _ _ _ _ _ e' he'
  exact ⟨e, e', he, he', h.1, fills, rest, left, hfilled⟩

end Linera.MatchingEngine
