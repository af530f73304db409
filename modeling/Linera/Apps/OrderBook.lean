import Linera.Apps.MatchingEngine
import Linera.Lib.PriceTime

/-!
# What an order does to the book

Each side of the book is flattened to the list of its orders, from the best price to the
worst and from the oldest order to the newest. On these lists the nested loops of an
insertion are one `PriceTime.sweep` of the orders that match (`Insertion`), and a
cancellation lowers the amount of one order (`Reduction`). An execution has one of these
effects, or none (`Effect`); what they preserve holds in every run (`step_preserves`).
-/

namespace Linera.MatchingEngine

open PriceTime

/-! ## The sides of the book as lists -/

variable (price : Price)

def queueOrders (queue : List OrderEntry) : List (Resting × Nat) :=
  queue.map fun order => (⟨price, order.account, order.orderId⟩, order.amount)

def levelOrders {κ : Type} (toPrice : κ → Price) (levels : List (κ × List OrderEntry)) :
    List (Resting × Nat) :=
  levels.flatMap fun level => queueOrders (toPrice level.1) level.2

/-- All orders of one side, with those of amount zero that are still in a queue. -/
def MatchingEngineState.side (s : MatchingEngineState) : OrderNature → List (Resting × Nat)
  | .bid => levelOrders PriceBid.toPrice s.bids.entries
  | .ask => levelOrders PriceAsk.toPrice s.asks.entries

def OrderNature.opposite : OrderNature → OrderNature
  | bid => ask
  | ask => bid

/-- Whether an order at this price can be filled by a resting order. -/
def crosses (nature : OrderNature) (price : Price) (order : Resting × Nat) : Bool :=
  match nature with
  | .bid => order.1.price.price ≤ price.price
  | .ask => order.1.price.price ≥ price.price

def Resting.ownerId (order : Resting) : AccountOwner × OrderId := (order.account.owner, order.orderId)

@[simp] theorem queueOrders_nil : queueOrders price [] = [] := rfl

@[simp] theorem queueOrders_cons (order : OrderEntry) (queue : List OrderEntry) :
    queueOrders price (order :: queue) =
      (⟨price, order.account, order.orderId⟩, order.amount) :: queueOrders price queue := rfl

@[simp] theorem queueOrders_append (queue queue' : List OrderEntry) :
    queueOrders price (queue ++ queue') = queueOrders price queue ++ queueOrders price queue' :=
  List.map_append

section levels

variable {κ : Type} {toPrice : κ → Price}

@[simp] theorem levelOrders_nil : levelOrders toPrice [] = [] := rfl

@[simp] theorem levelOrders_cons (level : κ × List OrderEntry)
    (levels : List (κ × List OrderEntry)) :
    levelOrders toPrice (level :: levels) =
      queueOrders (toPrice level.1) level.2 ++ levelOrders toPrice levels := rfl

@[simp] theorem levelOrders_append (levels levels' : List (κ × List OrderEntry)) :
    levelOrders toPrice (levels ++ levels') =
      levelOrders toPrice levels ++ levelOrders toPrice levels' :=
  List.flatMap_append

theorem price_of_mem_queueOrders {price : Price} {queue : List OrderEntry} {e : Resting × Nat}
    (he : e ∈ queueOrders price queue) : e.1.price = price := by
  obtain ⟨order, -, rfl⟩ := List.mem_map.mp he
  rfl

theorem exists_of_mem_levelOrders {levels : List (κ × List OrderEntry)} {e : Resting × Nat}
    (he : e ∈ levelOrders toPrice levels) : ∃ level ∈ levels, e.1.price = toPrice level.1 := by
  obtain ⟨level, hlevel, he⟩ := List.mem_flatMap.mp he
  exact ⟨level, hlevel, price_of_mem_queueOrders he⟩

end levels

/-- Clearing away the oldest orders of amount zero does not touch the live ones. -/
theorem live_removeZeroOrders (queue : List OrderEntry) :
    live (queueOrders price (removeZeroOrdersFromLevel queue)) = live (queueOrders price queue) := by
  induction queue with
  | nil => rfl
  | cons order queue ih =>
    rw [removeZeroOrdersFromLevel] at ih ⊢
    by_cases hzero : order.amount = 0
    · rw [List.dropWhile_cons_of_pos (by simpa using hzero), ih]
      simp [live, hzero]
    · rw [List.dropWhile_cons_of_neg (by simpa using hzero)]

theorem removeZeroOrders_sublist (queue : List OrderEntry) :
    (queueOrders price (removeZeroOrdersFromLevel queue)).Sublist (queueOrders price queue) :=
  (List.dropWhile_sublist _).map _

/-! ## Fills -/

variable {orderId : OrderId} {nature : OrderNature} {cancelAmount : ModifyAmount}
  {transfers : List Transfer} {price : Price} {account : Account} {info info' : AccountInfo}
  {order : OrderEntry}

theorem productPriceAmount_eq {count amount : Nat}
    (h : productPriceAmount price count = .ok amount) : amount = price.price.toNat * count := by
  have hmul := Except.mapError_eq_ok.mp h
  rw [Amount.tryMul] at hmul
  split at hmul
  · rw [Nat.mul_comm]
    exact (Except.ok.inj hmul).symm
  · cases hmul

theorem getTransfers_eq {fill : Nat} {priceLevel priceInsert : Price}
    (h : getTransfers nature fill account order priceLevel priceInsert = .ok transfers) :
    transfers =
      settlement nature account priceInsert (⟨priceLevel, order.account, order.orderId⟩, fill) := by
  cases nature with
  | bid =>
    obtain ⟨-, -, h⟩ := Except.bind_eq_ok.mp h
    obtain ⟨fill0, hfill0, h⟩ := Except.bind_eq_ok.mp h
    cases h
    rw [productPriceAmount_eq hfill0]
    rfl
  | ask =>
    obtain ⟨-, -, h⟩ := Except.bind_eq_ok.mp h
    obtain ⟨fill0, hfill0, h⟩ := Except.bind_eq_ok.mp h
    by_cases hprice : priceLevel = priceInsert
    · rw [if_pos hprice] at h
      cases h
      simp [settlement, hprice, productPriceAmount_eq hfill0]
    · rw [if_neg hprice] at h
      obtain ⟨bonus, hbonus, h⟩ := Except.bind_eq_ok.mp h
      cases h
      simp [settlement, hprice, productPriceAmount_eq hfill0, productPriceAmount_eq hbonus]

section clearing

variable {account : Account} {nature : OrderNature} {priceLevel priceInsert : Price}

theorem fillTransfers_eq {fill : Nat}
    (h : fillTransfers account nature priceLevel priceInsert fill order = .ok transfers) :
    transfers = (if fill > 0 then [(⟨priceLevel, order.account, order.orderId⟩, fill)] else []).flatMap
      (settlement nature account priceInsert) := by
  rw [fillTransfers] at h
  by_cases hfill : fill > 0
  · rw [if_pos hfill] at h ⊢
    rw [getTransfers_eq h, List.flatMap_singleton]
  · rw [if_neg hfill] at h ⊢
    cases h
    rfl

/-- The loop over a queue is a sweep of its orders. -/
theorem clearQueue_swept {queue : List OrderEntry} {amount : Nat} {c : Cleared}
    (h : clearQueue account nature priceLevel priceInsert queue amount = .ok c) :
    ∃ fills removed, Swept (queueOrders priceLevel queue) (queueOrders priceLevel c.queue) amount
        c.amount fills removed ∧
      c.transfers = fills.flatMap (settlement nature account priceInsert) ∧
      c.removeOrder = removed.map Resting.ownerId := by
  induction queue generalizing amount c with
  | nil =>
    cases h
    exact ⟨[], [], .nil amount, rfl, rfl⟩
  | cons order orders ih =>
    obtain ⟨transfers, htransfers, h⟩ := Except.bind_eq_ok.mp h
    have hfirst :=
      Swept.single (⟨priceLevel, order.account, order.orderId⟩ : Resting) order.amount amount
    have hremove : (if order.amount - min order.amount amount = 0 then
          [(order.account.owner, order.orderId)] else []) =
        (if order.amount - min order.amount amount = 0 then
          [(⟨priceLevel, order.account, order.orderId⟩ : Resting)] else []).map Resting.ownerId := by
      split <;> rfl
    by_cases hleft : amount - min order.amount amount = 0
    · simp only [hleft, if_true] at h
      cases h
      rw [hleft] at hfirst
      refine ⟨_, _, hfirst.append (.refl (queueOrders priceLevel orders)), ?_, ?_⟩
      · rw [List.append_nil]
        exact fillTransfers_eq htransfers
      · rw [List.append_nil]
        exact hremove
    · simp only [hleft, if_false] at h
      obtain ⟨later, hlater, h⟩ := Except.bind_eq_ok.mp h
      cases h
      obtain ⟨fills, removed, hswept, hpaid, hremoved⟩ := ih hlater
      refine ⟨_, _, hfirst.append hswept, ?_, ?_⟩
      · rw [List.flatMap_append, ← hpaid]
        exact congrArg (· ++ later.transfers) (fillTransfers_eq htransfers)
      · rw [List.map_append, ← hremoved]
        exact congrArg (· ++ later.removeOrder) hremove

theorem levelClearing_swept {queue : List OrderEntry} {amount : Nat} {c : Cleared}
    (h : levelClearing account nature priceLevel priceInsert queue amount = .ok c) :
    ∃ fills removed, Swept (queueOrders priceLevel queue) (queueOrders priceLevel c.queue) amount
        c.amount fills removed ∧
      c.transfers = fills.flatMap (settlement nature account priceInsert) ∧
      c.removeOrder = removed.map Resting.ownerId := by
  obtain ⟨cleared, hcleared, h⟩ := Except.bind_eq_ok.mp h
  cases h
  obtain ⟨fills, removed, hswept, hpaid, hremoved⟩ := clearQueue_swept hcleared
  exact ⟨fills, removed, hswept.of_live_eq (live_removeZeroOrders _ _)
    (removeZeroOrders_sublist _ _), hpaid, hremoved⟩

end clearing

/-! ## The orders of an owner -/

/-- An order is in the information on its owner. -/
def AccountInfo.Owns (info : AccountInfo) (entry : AccountOwner × OrderId) : Prop :=
  ∃ orders, info.get entry.1 = some orders ∧ entry.2 ∈ orders.keys

theorem removeOrderId_owns {entry : AccountOwner × OrderId}
    (h : removeOrderId info entry = .ok info') (x : AccountOwner × OrderId) :
    info'.Owns x ↔ info.Owns x ∧ x ≠ entry := by
  rw [removeOrderId] at h
  split at h
  · cases h
  · rename_i orders horders
    cases h
    have hext : x = entry ↔ x.1 = entry.1 ∧ x.2 = entry.2 := Prod.ext_iff
    simp only [AccountInfo.Owns, BTreeMap.get_insert, ne_eq, hext]
    by_cases howner : x.1 = entry.1
    · simp only [howner, if_true, horders, Option.some.injEq, exists_eq_left',
        BTreeSet.mem_keys_remove]
      tauto
    · simp [howner]

theorem removeOrderIds_owns {entries : List (AccountOwner × OrderId)}
    (h : removeOrderIds info entries = .ok info') (x : AccountOwner × OrderId) :
    info'.Owns x ↔ info.Owns x ∧ x ∉ entries := by
  induction entries generalizing info with
  | nil =>
    cases h
    simp
  | cons entry entries ih =>
    obtain ⟨info₁, hfirst, h⟩ := Except.bind_eq_ok.mp h
    rw [ih h, removeOrderId_owns hfirst, List.mem_cons]
    tauto

theorem insertOrder_owns {s : MatchingEngineState} (x : AccountOwner × OrderId) :
    (insertOrder s account nature orderId price).accountInfo.Owns x ↔
      s.accountInfo.Owns x ∨ x = (account.owner, orderId) := by
  have hext : x = (account.owner, orderId) ↔ x.1 = account.owner ∧ x.2 = orderId := Prod.ext_iff
  simp only [AccountInfo.Owns, insertOrder, BTreeMap.get_insert, hext]
  by_cases howner : x.1 = account.owner
  · simp only [howner, if_true, Option.some.injEq, exists_eq_left', BTreeSet.mem_keys_insert]
    cases s.accountInfo.get account.owner with
    | none => simp [BTreeMap.keys, BTreeMap.empty]
    | some orders => simp [or_comm]
  · simp [howner]

/-! ## Clearing levels -/

section levels

variable {κ : Type} [LinearOrder κ] {toPrice : κ → Price} {account : Account}
  {nature : OrderNature} {price : Price}

variable {front back : List (κ × List OrderEntry)} {levels : Levels κ}

theorem Levels.loadEntry_of_split {key : κ} {queue : List OrderEntry}
    (h : levels.entries = front ++ (key, queue) :: back) : levels.loadEntry key = queue := by
  rw [Levels.loadEntry, BTreeMap.get_of_split h]
  rfl

/-- The level that has been cleared is put back at its place, unless it is empty. -/
theorem exists_level_of_split (toPrice : κ → Price) {key : κ} {queue : List OrderEntry}
    (h : levels.entries = front ++ (key, queue) :: back) (queue' : List OrderEntry) :
    ∃ level, (if queue' = [] then levels.remove key else levels.insert key queue').entries =
        (front ++ level) ++ back ∧
      levelOrders toPrice level = queueOrders (toPrice key) queue' := by
  by_cases hempty : queue' = []
  · refine ⟨[], ?_, by rw [hempty]; rfl⟩
    rw [if_pos hempty, BTreeMap.entries_remove_of_split h, List.append_nil]
  · refine ⟨[(key, queue')], ?_, List.append_nil _⟩
    rw [if_neg hempty, BTreeMap.entries_insert_of_split h, List.append_assoc]
    rfl

/-- The loop over the levels is a sweep of all their orders. -/
theorem clearLevels_swept {todo : List (κ × List OrderEntry)} {info : AccountInfo} {amount : Nat}
    {c : Clearing κ} (hsplit : levels.entries = front ++ (todo ++ back))
    (h : clearLevels account nature toPrice price (todo.map Prod.fst) levels info amount = .ok c) :
    ∃ done fills removed, c.levels.entries = front ++ (done ++ back) ∧
      Swept (levelOrders toPrice todo) (levelOrders toPrice done) amount c.amount fills removed ∧
      c.transfers = fills.flatMap (settlement nature account price) ∧
      ∀ x, c.accountInfo.Owns x ↔ info.Owns x ∧ x ∉ removed.map Resting.ownerId := by
  induction todo generalizing levels info amount c front with
  | nil =>
    cases h
    exact ⟨[], [], [], hsplit, .nil amount, rfl, by simp⟩
  | cons level todo ih =>
    obtain ⟨key, queue⟩ := level
    replace hsplit : levels.entries = front ++ (key, queue) :: (todo ++ back) := hsplit
    rw [List.map_cons, clearLevels, Levels.loadEntry_of_split hsplit] at h
    obtain ⟨cleared, hcleared, h⟩ := Except.bind_eq_ok.mp h
    obtain ⟨info₁, hinfo, h⟩ := Except.bind_eq_ok.mp h
    obtain ⟨fills, removed, hswept, hpaid, hremoved⟩ := levelClearing_swept hcleared
    obtain ⟨level', hentries, hlevel⟩ :=
      exists_level_of_split toPrice hsplit cleared.queue
    have howns := removeOrderIds_owns hinfo
    rw [hremoved] at howns
    by_cases hzero : cleared.amount = 0
    · -- the new order is filled: the other levels stay
      rw [if_pos hzero] at h
      cases h
      rw [hzero] at hswept
      refine ⟨level' ++ todo, fills, removed, ?_, ?_, hpaid, howns⟩
      · rw [hentries]
        simp only [List.append_assoc]
      · have := hswept.append (.refl (levelOrders toPrice todo))
        rwa [List.append_nil, List.append_nil, ← hlevel, ← levelOrders_append] at this
    · rw [if_neg hzero] at h
      obtain ⟨later, hlater, h⟩ := Except.bind_eq_ok.mp h
      cases h
      obtain ⟨done, fills', removed', hentries', hswept', hpaid', howns'⟩ := ih hentries hlater
      refine ⟨level' ++ done, fills ++ fills', removed ++ removed', ?_, ?_, ?_, ?_⟩
      · rw [hentries']
        simp only [List.append_assoc]
      · have := hswept.append hswept'
        rwa [← hlevel, ← levelOrders_append] at this
      · rw [List.flatMap_append, ← hpaid, ← hpaid']
      · intro x
        rw [howns', howns, List.map_append, List.mem_append]
        tauto

/-- In a list that is ordered by how well the elements match, none matches after the first that
does not. -/
theorem eq_false_of_mem_dropWhile {α : Type*} {R : α → α → Prop} {p : α → Bool} {l : List α}
    (hl : l.Pairwise R) (hp : ∀ a b, R a b → p b = true → p a = true) {a : α}
    (ha : a ∈ l.dropWhile p) : p a = false := by
  induction l with
  | nil => cases ha
  | cons first rest ih =>
    rw [List.pairwise_cons] at hl
    cases hfirst : p first with
    | true =>
      rw [List.dropWhile_cons_of_pos hfirst] at ha
      exact ih hl.2 ha
    | false =>
      rw [List.dropWhile_cons_of_neg (by simp [hfirst])] at ha
      rcases List.mem_cons.mp ha with rfl | ha
      · exact hfirst
      · rw [← Bool.not_eq_true]
        intro hmatch
        rw [hp _ _ (hl.1 a ha) hmatch] at hfirst
        cases hfirst

/-- The levels that match are cleared; these are the levels of the orders that the new one crosses. -/
theorem clearLevels_crosses {p : κ → Bool} {info : AccountInfo} {amount : Nat} {c : Clearing κ}
    (hp : ∀ k k', k < k' → p k' = true → p k = true)
    (hcrosses : ∀ k (e : Resting × Nat), e.1.price = toPrice k → crosses nature price e = p k)
    (h : clearLevels account nature toPrice price (levels.keys.takeWhile p) levels info amount =
      .ok c) : ∃ met others remaining fills removed,
      levelOrders toPrice levels.entries = met ++ others ∧
      levelOrders toPrice c.levels.entries = remaining ++ others ∧
      (∀ e ∈ met, crosses nature price e = true) ∧
      (∀ e ∈ others, crosses nature price e = false) ∧
      Swept met remaining amount c.amount fills removed ∧
      c.transfers = fills.flatMap (settlement nature account price) ∧
      ∀ x, c.accountInfo.Owns x ↔ info.Owns x ∧ x ∉ removed.map Resting.ownerId := by
  have hsplit : levels.entries = [] ++ (levels.entries.takeWhile (p ∘ Prod.fst) ++
      levels.entries.dropWhile (p ∘ Prod.fst)) := List.takeWhile_append_dropWhile.symm
  rw [BTreeMap.keys, List.takeWhile_map] at h
  obtain ⟨done, fills, removed, hentries, hswept, hpaid, howns⟩ := clearLevels_swept hsplit h
  refine ⟨_, levelOrders toPrice (levels.entries.dropWhile (p ∘ Prod.fst)), _, fills, removed, ?_,
    ?_, ?_, ?_, hswept, hpaid, howns⟩
  · rw [← levelOrders_append]
    exact congrArg _ hsplit
  · rw [hentries, List.nil_append, levelOrders_append]
  · intro e he
    obtain ⟨level, hlevel, hprice⟩ := exists_of_mem_levelOrders he
    rw [hcrosses _ e hprice]
    exact List.mem_takeWhile_imp (p := p ∘ Prod.fst) hlevel
  · intro e he
    obtain ⟨level, hlevel, hprice⟩ := exists_of_mem_levelOrders he
    rw [hcrosses _ e hprice]
    exact eq_false_of_mem_dropWhile levels.sorted (fun a b => hp a.1 b.1) hlevel

section

variable (hinjective : Function.Injective toPrice)

include hinjective

theorem exists_split_of_level (levels : Levels κ) (key : κ) :
    ∃ front back, levelOrders toPrice levels.entries =
        front ++ queueOrders (toPrice key) (levels.loadEntry key) ++ back ∧
      (∀ queue, levelOrders toPrice (levels.insert key queue).entries =
        front ++ queueOrders (toPrice key) queue ++ back) ∧
      ∀ e ∈ back, e.1.price ≠ toPrice key := by
  obtain ⟨front, back, -, hback, hentries, hinsert⟩ := BTreeMap.exists_split key levels.sorted
  have hqueue : levelOrders toPrice ((BTreeMap.lookup key levels.entries).map (Prod.mk key)).toList =
      queueOrders (toPrice key) (levels.loadEntry key) := by
    rw [Levels.loadEntry, BTreeMap.get]
    cases BTreeMap.lookup key levels.entries with
    | none => rfl
    | some queue => exact List.append_nil _
  refine ⟨levelOrders toPrice front, levelOrders toPrice back, ?_, fun queue => ?_, ?_⟩
  · rw [← hqueue, ← levelOrders_append, ← levelOrders_append, ← hentries]
  · show levelOrders toPrice (BTreeMap.insertEntry key queue levels.entries) = _
    rw [hinsert, levelOrders_append, levelOrders_cons, List.append_assoc]
  · intro e he hprice
    obtain ⟨level, hlevel, hlevelPrice⟩ := exists_of_mem_levelOrders he
    have hkey : key = level.1 := hinjective (hprice.symm.trans hlevelPrice)
    exact (hback level hlevel).ne hkey

theorem levelOrders_insert_loadEntry (levels : Levels κ) (key : κ) :
    levelOrders toPrice (levels.insert key (levels.loadEntry key)).entries =
      levelOrders toPrice levels.entries := by
  obtain ⟨front, back, hbefore, hafter, -⟩ := exists_split_of_level hinjective levels key
  rw [hbefore, hafter]

/-- A new order is the last one at its price. -/
theorem exists_split_of_push (levels : Levels κ) (key : κ) (order : OrderEntry) :
    ∃ front back, levelOrders toPrice levels.entries = front ++ back ∧
      levelOrders toPrice (levels.insert key (levels.loadEntry key ++ [order])).entries =
        front ++ (⟨toPrice key, order.account, order.orderId⟩, order.amount) :: back ∧
      ∀ e ∈ back, e.1.price ≠ toPrice key := by
  obtain ⟨front, back, hbefore, hafter, hback⟩ := exists_split_of_level hinjective levels key
  refine ⟨front ++ queueOrders (toPrice key) (levels.loadEntry key), back, hbefore, ?_, hback⟩
  rw [hafter, queueOrders_append]
  simp only [List.append_assoc]
  rfl

/-- An order of a level is given a new amount, and orders of amount zero are cleared away. -/
theorem exists_split_of_modify (levels : Levels κ) (key : κ) {older newer : List OrderEntry}
    (hqueue : levels.loadEntry key = older ++ order :: newer) (newAmount : Nat) :
    ∃ front back, levelOrders toPrice levels.entries =
        front ++ (⟨toPrice key, order.account, order.orderId⟩, order.amount) :: back ∧
      ∀ queue, queue = removeZeroOrdersFromLevel
          (older ++ { order with amount := newAmount } :: newer) →
        live (levelOrders toPrice (levels.insert key queue).entries) =
          live (front ++ (⟨toPrice key, order.account, order.orderId⟩, newAmount) :: back) ∧
        ((levelOrders toPrice (levels.insert key queue).entries).map Prod.fst).Sublist
          ((levelOrders toPrice levels.entries).map Prod.fst) := by
  obtain ⟨front, back, hbefore, hafter, -⟩ := exists_split_of_level hinjective levels key
  rw [hqueue] at hbefore
  refine ⟨front ++ queueOrders (toPrice key) older, queueOrders (toPrice key) newer ++ back, ?_,
    ?_⟩
  · rw [hbefore]
    simp
  · rintro queue rfl
    rw [hafter]
    constructor
    · rw [live_append, live_append, live_removeZeroOrders, ← live_append, ← live_append]
      simp
    · have hkept := (removeZeroOrders_sublist (toPrice key)
        (older ++ { order with amount := newAmount } :: newer)).map Prod.fst
      rw [hbefore]
      simp only [List.map_append]
      refine ((List.Sublist.refl _).append ?_).append (.refl _)
      simpa using hkept

end

end levels

/-! ## What an insertion does -/

/-- The effect of inserting an order: the orders of the other side that it meets are swept, and
what is left of it is the last order at its price. -/
structure Insertion (s s' : MatchingEngineState) (account : Account) (amount : Nat)
    (nature : OrderNature) (price : Price) (transfers : List Transfer) where
  /-- The orders of the other side that match, and those that do not. -/
  met : List (Resting × Nat)
  others : List (Resting × Nat)
  remaining : List (Resting × Nat)
  left : Nat
  fills : List (Resting × Nat)
  removed : List Resting
  /-- The orders before and after the new one, on its own side. -/
  front : List (Resting × Nat)
  back : List (Resting × Nat)
  before : s.side nature.opposite = met ++ others
  after : s'.side nature.opposite = remaining ++ others
  crosses_met : ∀ e ∈ met, crosses nature price e = true
  crosses_others : ∀ e ∈ others, crosses nature price e = false
  swept : Swept met remaining amount left fills removed
  transfers_eq : transfers = fills.flatMap (settlement nature account price)
  own_before : s.side nature = front ++ back
  own_after : s'.side nature = front ++
    (if left = 0 then [] else [(⟨price, account, s.nextOrderNumber⟩, left)]) ++ back
  price_back : ∀ e ∈ back, e.1.price ≠ price
  orders : s'.orders =
    if left = 0 then s.orders else s.orders.insert s.nextOrderNumber ⟨price, nature, account⟩
  owns : ∀ x, s'.accountInfo.Owns x ↔ s.accountInfo.Owns x ∧ x ∉ removed.map Resting.ownerId ∨
    left ≠ 0 ∧ x = (account.owner, s.nextOrderNumber)
  nextOrderNumber : s'.nextOrderNumber = (s.nextOrderNumber + 1) % 2 ^ 64

theorem PriceAsk.toPrice_injective : Function.Injective PriceAsk.toPrice := by
  rintro ⟨_⟩ ⟨_⟩ h
  cases h
  rfl

theorem PriceBid.toPrice_injective : Function.Injective PriceBid.toPrice := by
  rintro ⟨_⟩ ⟨_⟩ h
  cases h
  rfl

/-- What is left of an order becomes the last order at its price. -/
structure Rested (s s' : MatchingEngineState) (account : Account) (left : Nat) (orderId : OrderId)
    (nature : OrderNature) (price : Price) : Prop where
  own : ∃ front back, s.side nature = front ++ back ∧
    s'.side nature = front ++ (if left = 0 then [] else [(⟨price, account, orderId⟩, left)]) ++ back ∧
    ∀ e ∈ back, e.1.price ≠ price
  opposite : s'.side nature.opposite = s.side nature.opposite
  orders : s'.orders =
    if left = 0 then s.orders else s.orders.insert orderId ⟨price, nature, account⟩
  owns : ∀ x, s'.accountInfo.Owns x ↔
    s.accountInfo.Owns x ∨ left ≠ 0 ∧ x = (account.owner, orderId)
  nextOrderNumber : s'.nextOrderNumber = s.nextOrderNumber

/-- An order is put at the end of its level, and then recorded. -/
theorem Rested.of_push {s s₁ : MatchingEngineState} {left : Nat} (hleft : left ≠ 0)
    (hown : ∃ front back, s.side nature = front ++ back ∧
      s₁.side nature = front ++ (⟨price, account, orderId⟩, left) :: back ∧
      ∀ e ∈ back, e.1.price ≠ price) (hopposite : s₁.side nature.opposite = s.side nature.opposite)
    (horders : s₁.orders = s.orders) (hinfo : s₁.accountInfo = s.accountInfo)
    (hnext : s₁.nextOrderNumber = s.nextOrderNumber) :
    Rested s (insertOrder s₁ account nature orderId price) account left orderId nature price := by
  obtain ⟨front, back, hbefore, hafter, hback⟩ := hown
  have hside : ∀ nature', (insertOrder s₁ account nature orderId price).side nature' =
      s₁.side nature' := by
    intro nature'
    cases nature' <;> rfl
  refine ⟨⟨front, back, hbefore, ?_, hback⟩, ?_, ?_, fun x => ?_, hnext⟩
  · rw [hside, hafter, if_neg hleft, List.append_assoc]
    rfl
  · rw [hside, hopposite]
  · rw [if_neg hleft, ← horders]
    rfl
  · rw [insertOrder_owns, hinfo]
    simp [hleft]

section rest

variable (s : MatchingEngineState) (account : Account) (left : Nat) (orderId : OrderId)
  (price : Price)

theorem Rested.zero (nature : OrderNature) : Rested s s account 0 orderId nature price where
  own := ⟨s.side nature, [], by simp, by simp, by simp⟩
  opposite := rfl
  orders := rfl
  owns x := by simp
  nextOrderNumber := rfl

theorem restBid_rested :
    Rested s (restBid s account left orderId price) account left orderId .bid price := by
  rw [restBid]
  by_cases hzero : left = 0
  · rw [if_pos hzero, hzero]
    exact .zero s account orderId price .bid
  · rw [if_neg hzero]
    exact .of_push hzero (exists_split_of_push PriceBid.toPrice_injective s.bids price.toBid
      ⟨left, account, orderId⟩) rfl rfl rfl rfl

theorem restAsk_rested :
    Rested s (restAsk s account left orderId price) account left orderId .ask price := by
  rw [restAsk]
  by_cases hzero : left = 0
  · rw [if_pos hzero, hzero]
    exact .zero s account orderId price .ask
  · rw [if_neg hzero]
    exact .of_push hzero (exists_split_of_push PriceAsk.toPrice_injective s.asks price.toAsk
      ⟨left, account, orderId⟩) rfl rfl rfl rfl

end rest

theorem insertAndUncrossMarket_insertion {s s' : MatchingEngineState} {amount : Nat}
    (h : insertAndUncrossMarket s account amount nature price = .ok (s', transfers)) :
    Nonempty (Insertion s s' account amount nature price transfers) := by
  cases nature with
  | bid =>
    obtain ⟨c, hc, h⟩ := Except.bind_eq_ok.mp h
    cases h
    obtain ⟨met, others, remaining, fills, removed, hbefore, hafter, hmet, hothers, hswept, hpaid,
      howns⟩ := clearLevels_crosses (fun k k' hlt hk' => by
        simp only [decide_eq_true_eq] at hk' ⊢
        exact UInt64.le_trans (UInt64.le_of_lt (PriceAsk.lt_iff.mp hlt)) hk')
        (fun k e he => by rw [crosses, he]) hc
    obtain ⟨⟨front, back, hown, hown', hback⟩, hopposite, horders, hrestowns, hnext⟩ :=
      restBid_rested { s with
          nextOrderNumber := (s.nextOrderNumber + 1) % 2 ^ 64, asks := c.levels
          accountInfo := c.accountInfo } account c.amount s.nextOrderNumber price
    exact ⟨⟨met, others, remaining, c.amount, fills, removed, front, back, hbefore,
      hopposite.trans hafter, hmet, hothers, hswept, hpaid, hown, hown', hback, horders,
      fun x => (hrestowns x).trans (or_congr_left (howns x)), hnext⟩⟩
  | ask =>
    obtain ⟨c, hc, h⟩ := Except.bind_eq_ok.mp h
    cases h
    obtain ⟨met, others, remaining, fills, removed, hbefore, hafter, hmet, hothers, hswept, hpaid,
      howns⟩ := clearLevels_crosses (fun k k' hlt hk' => by
        simp only [decide_eq_true_eq] at hk' ⊢
        exact UInt64.le_trans hk' (UInt64.le_of_lt (PriceBid.lt_iff.mp hlt)))
        (fun k e he => by rw [crosses, he]) hc
    obtain ⟨⟨front, back, hown, hown', hback⟩, hopposite, horders, hrestowns, hnext⟩ :=
      restAsk_rested { s with
          nextOrderNumber := (s.nextOrderNumber + 1) % 2 ^ 64, bids := c.levels
          accountInfo := c.accountInfo } account c.amount s.nextOrderNumber price
    exact ⟨⟨met, others, remaining, c.amount, fills, removed, front, back, hbefore,
      hopposite.trans hafter, hmet, hothers, hswept, hpaid, hown, hown', hback, horders,
      fun x => (hrestowns x).trans (or_congr_left (howns x)), hnext⟩⟩

/-! ## What a cancellation does -/

/-- The effect of a cancellation: the order that the id stands for has a new amount, and what has
been taken from it is paid back. -/
structure Reduction (s s' : MatchingEngineState) (orderId : OrderId) (cancelAmount : ModifyAmount)
    (transfer : Transfer) where
  keyBook : KeyBook
  front : List (Resting × Nat)
  back : List (Resting × Nat)
  account : Account
  amount : Nat
  newAmount : Nat
  orders_get : s.orders.get orderId = some keyBook
  newAmount_eq : cancelAmount.newAmount amount = .ok newAmount
  before : s.side keyBook.nature =
    front ++ (⟨keyBook.price, account, orderId⟩, amount) :: back
  after : live (s'.side keyBook.nature) =
    live (front ++ (⟨keyBook.price, account, orderId⟩, newAmount) :: back)
  sublist : ((s'.side keyBook.nature).map Prod.fst).Sublist
    ((s.side keyBook.nature).map Prod.fst)
  opposite : s'.side keyBook.nature.opposite = s.side keyBook.nature.opposite
  orders : s'.orders = s.orders
  owns : ∀ x, s'.accountInfo.Owns x ↔ s.accountInfo.Owns x ∧
    ¬(newAmount = 0 ∧ x = (keyBook.account.owner, orderId))
  nextOrderNumber : s'.nextOrderNumber = s.nextOrderNumber
  transfer_eq : transfer =
    match keyBook.nature with
    | .bid => ⟨keyBook.account, keyBook.price.price.toNat * (amount - newAmount), 0⟩
    | .ask => ⟨keyBook.account, amount - newAmount, 1⟩

theorem newAmount_le {amount newAmount : Nat} (h : cancelAmount.newAmount amount = .ok newAmount) :
    newAmount ≤ amount := by
  cases cancelAmount with
  | all =>
    cases h
    exact Nat.zero_le _
  | partly cancelled =>
    have := Amount.trySub_eq_ok.mp (Except.mapError_eq_ok.mp h)
    omega

theorem modifyQueue_split {queue queue' : List OrderEntry} {cancelled newAmount : Nat}
    (h : modifyQueue orderId cancelAmount queue = .ok (some (queue', cancelled, newAmount))) :
    ∃ older order newer, queue = older ++ order :: newer ∧ order.orderId = orderId ∧
      queue' = older ++ { order with amount := newAmount } :: newer ∧
      cancelAmount.newAmount order.amount = .ok newAmount ∧
      cancelled = order.amount - newAmount := by
  induction queue generalizing queue' with
  | nil => cases h
  | cons first queue ih =>
    rw [modifyQueue] at h
    by_cases hid : first.orderId = orderId
    · rw [if_pos hid] at h
      obtain ⟨amount, hamount, h⟩ := Except.bind_eq_ok.mp h
      cases h
      exact ⟨[], first, queue, rfl, hid, rfl, hamount, rfl⟩
    · rw [if_neg hid] at h
      obtain ⟨modified, hmodified, h⟩ := Except.bind_eq_ok.mp h
      cases modified with
      | none => cases h
      | some m =>
        obtain ⟨queue₁, cancelled₁, newAmount₁⟩ := m
        cases h
        obtain ⟨older, order, newer, rfl, hid', rfl, hrest⟩ := ih hmodified
        exact ⟨first :: older, order, newer, rfl, hid', rfl, hrest⟩

theorem removeIfEmpty_owns {entry : AccountOwner × OrderId} {isEmpty : Bool}
    (h : removeIfEmpty info entry isEmpty = .ok info') (x : AccountOwner × OrderId) :
    info'.Owns x ↔ info.Owns x ∧ ¬(isEmpty = true ∧ x = entry) := by
  cases isEmpty with
  | true =>
    rw [removeOrderId_owns h]
    simp
  | false =>
    cases h
    simp

/-- An id without an order: at most an empty level has come up. -/
structure Untouched (s s' : MatchingEngineState) : Prop where
  side : ∀ nature, s'.side nature = s.side nature
  orders : s'.orders = s.orders
  accountInfo : s'.accountInfo = s.accountInfo
  nextOrderNumber : s'.nextOrderNumber = s.nextOrderNumber

theorem modifyOrder_cases {s s' : MatchingEngineState} {transfer : Option Transfer}
    (h : modifyOrder s orderId cancelAmount = .ok (s', transfer)) :
    transfer = none ∧ Untouched s s' ∨
      ∃ t, transfer = some t ∧ Nonempty (Reduction s s' orderId cancelAmount t) := by
  rw [modifyOrder] at h
  split at h
  · cases h
    exact .inl ⟨rfl, fun _ => rfl, rfl, rfl, rfl⟩
  · rename_i keyBook horders
    obtain ⟨price, nature, account⟩ := keyBook
    cases nature with
    | bid =>
      obtain ⟨level, hlevel, h⟩ := Except.bind_eq_ok.mp h
      obtain ⟨modified, hmodified, hlevel⟩ := Except.bind_eq_ok.mp hlevel
      cases modified with
      | none =>
        cases hlevel
        cases h
        refine .inl ⟨rfl, fun nature => ?_, rfl, rfl, rfl⟩
        cases nature with
        | bid => exact levelOrders_insert_loadEntry PriceBid.toPrice_injective _ _
        | ask => rfl
      | some m =>
        obtain ⟨queue, cancelled, newAmount⟩ := m
        cases hlevel
        obtain ⟨info, hinfo, h⟩ := Except.bind_eq_ok.mp h
        obtain ⟨refund, hrefund, h⟩ := Except.bind_eq_ok.mp h
        cases h
        obtain ⟨older, order, newer, hqueue, rfl, rfl, hnew, rfl⟩ := modifyQueue_split hmodified
        obtain ⟨front, back, hbefore, hafter⟩ := exists_split_of_modify
          PriceBid.toPrice_injective s.bids price.toBid hqueue newAmount
        obtain ⟨hlive, hsublist⟩ := hafter _ rfl
        have howns := removeIfEmpty_owns hinfo
        simp only [decide_eq_true_eq] at howns
        refine .inr ⟨_, rfl, ⟨⟨⟨price, .bid, account⟩, front, back, order.account, order.amount,
          newAmount, horders, hnew, hbefore, hlive, hsublist, rfl, rfl, howns, rfl, ?_⟩⟩⟩
        rw [productPriceAmount_eq hrefund]
    | ask =>
      obtain ⟨level, hlevel, h⟩ := Except.bind_eq_ok.mp h
      obtain ⟨modified, hmodified, hlevel⟩ := Except.bind_eq_ok.mp hlevel
      cases modified with
      | none =>
        cases hlevel
        cases h
        refine .inl ⟨rfl, fun nature => ?_, rfl, rfl, rfl⟩
        cases nature with
        | bid => rfl
        | ask => exact levelOrders_insert_loadEntry PriceAsk.toPrice_injective _ _
      | some m =>
        obtain ⟨queue, cancelled, newAmount⟩ := m
        cases hlevel
        obtain ⟨info, hinfo, h⟩ := Except.bind_eq_ok.mp h
        cases h
        obtain ⟨older, order, newer, hqueue, rfl, rfl, hnew, rfl⟩ := modifyQueue_split hmodified
        obtain ⟨front, back, hbefore, hafter⟩ := exists_split_of_modify
          PriceAsk.toPrice_injective s.asks price.toAsk hqueue newAmount
        obtain ⟨hlive, hsublist⟩ := hafter _ rfl
        have howns := removeIfEmpty_owns hinfo
        simp only [decide_eq_true_eq] at howns
        exact .inr ⟨_, rfl, ⟨⟨⟨price, .ask, account⟩, front, back, order.account, order.amount,
          newAmount, horders, hnew, hbefore, hlive, hsublist, rfl, rfl, howns, rfl, rfl⟩⟩⟩

/-! ## What an execution does -/

/-- The effect of an execution, or of one of the cancellations when a chain is closed. -/
inductive Effect (e e' : Engine) : Prop
  | untouched (state : Untouched e.state e'.state) (received : e'.received = e.received)
      (sent : e'.sent = e.sent) (arrived : e'.arrived = e.arrived)
  | inserted {account : Account} {amount : Nat} {nature : OrderNature} {price : Price}
      {transfers : List Transfer} {source : Account} {size : Nat} {tokenIdx : Fin 2}
      (insertion : Insertion e.state e'.state account amount nature price transfers)
      (size_eq : getAmountIdx nature price amount = .ok (size, tokenIdx))
      (received : e'.received = e.received ++ [⟨source, size, tokenIdx⟩])
      (sent : e'.sent = e.sent ++ transfers)
      (arrived : e'.arrived =
        e.arrived ++ [(nature, ⟨price, account, e.state.nextOrderNumber⟩)])
  | reduced {orderId : OrderId} {cancelAmount : ModifyAmount} {transfer : Transfer}
      (reduction : Reduction e.state e'.state orderId cancelAmount transfer)
      (received : e'.received = e.received) (sent : e'.sent = e.sent ++ [transfer])
      (arrived : e'.arrived = e.arrived)

section execution

variable {runtime : Runtime} {e e' : Engine}

theorem sendTo_eq {t : Transfer} (h : sendTo runtime e t = .ok e') :
    e' = { e with sent := e.sent ++ [t] } := by
  obtain ⟨-, -, h⟩ := Except.bind_eq_ok.mp h
  exact (Except.ok.inj h).symm

theorem foldlM_sendTo_eq (h : transfers.foldlM (sendTo runtime) e = .ok e') :
    e' = { e with sent := e.sent ++ transfers } := by
  induction transfers generalizing e with
  | nil =>
    cases h
    simp
  | cons t transfers ih =>
    obtain ⟨e₁, hfirst, h⟩ := Except.bind_eq_ok.mp h
    rw [ih h, sendTo_eq hfirst]
    simp

theorem executeOrderLocal_insert {owner : AccountOwner} {amount : Nat} {chainId : ChainId}
    (h : executeOrderLocal runtime e (.insert owner amount nature price) chainId = .ok e') :
    ∃ transfers size tokenIdx,
      Nonempty (Insertion e.state e'.state ⟨chainId, owner⟩ amount nature price transfers) ∧
      getAmountIdx nature price amount = .ok (size, tokenIdx) ∧
      e'.received = e.received ++ [⟨⟨runtime.chainId, owner⟩, size, tokenIdx⟩] ∧
      e'.sent = e.sent ++ transfers ∧
      e'.arrived = e.arrived ++ [(nature, ⟨price, ⟨chainId, owner⟩, e.state.nextOrderNumber⟩)] := by
  obtain ⟨e₁, hreceive, h⟩ := Except.bind_eq_ok.mp h
  obtain ⟨⟨size, tokenIdx⟩, hsize, hreceive⟩ := Except.bind_eq_ok.mp hreceive
  obtain ⟨-, -, hreceive⟩ := Except.bind_eq_ok.mp hreceive
  cases hreceive
  obtain ⟨⟨state, transfers⟩, hinsert, h⟩ := Except.bind_eq_ok.mp h
  rw [foldlM_sendTo_eq h]
  exact ⟨transfers, size, tokenIdx, insertAndUncrossMarket_insertion hinsert, hsize, rfl, rfl, rfl⟩

theorem modifyOrderCheck_reduction {owner : AccountOwner}
    (h : modifyOrderCheck runtime e orderId cancelAmount owner = .ok e') :
    ∃ t, Nonempty (Reduction e.state e'.state orderId cancelAmount t) ∧
      e'.received = e.received ∧ e'.sent = e.sent ++ [t] ∧ e'.arrived = e.arrived := by
  obtain ⟨-, -, h⟩ := Except.bind_eq_ok.mp h
  obtain ⟨⟨state, transfer⟩, hmodify, h⟩ := Except.bind_eq_ok.mp h
  rcases modifyOrder_cases hmodify with ⟨rfl, -⟩ | ⟨t, rfl, hreduction⟩
  · cases h
  · rw [sendTo_eq h]
    exact ⟨t, hreduction, rfl, rfl, rfl⟩

theorem executeOrderLocal_effect {order : Order} {chainId : ChainId}
    (h : executeOrderLocal runtime e order chainId = .ok e') : Effect e e' := by
  cases order with
  | insert owner amount nature price =>
    obtain ⟨transfers, size, tokenIdx, ⟨insertion⟩, hsize, hreceived, hsent, harrived⟩ :=
      executeOrderLocal_insert h
    exact .inserted insertion hsize hreceived hsent harrived
  | cancel | modify =>
    obtain ⟨t, ⟨reduction⟩, hreceived, hsent, harrived⟩ := modifyOrderCheck_reduction h
    exact .reduced reduction hreceived hsent harrived

theorem cancelForClosing_effect (h : cancelForClosing runtime e orderId = .ok e') :
    Effect e e' := by
  obtain ⟨⟨state, transfer⟩, hmodify, h⟩ := Except.bind_eq_ok.mp h
  rcases modifyOrder_cases hmodify with ⟨rfl, huntouched⟩ | ⟨t, rfl, ⟨reduction⟩⟩
  · cases h
    exact .untouched huntouched rfl rfl rfl
  · rw [sendTo_eq h]
    exact .reduced reduction rfl rfl rfl

/-- The orders of a chain that is closed are cancelled one after another. -/
theorem foldlM_cancelForClosing_preserves {P : Engine → Prop}
    (hP : ∀ {e e'}, P e → Effect e e' → P e') {orderIds : List OrderId} (he : P e)
    (h : orderIds.foldlM (cancelForClosing runtime) e = .ok e') : P e' := by
  induction orderIds generalizing e with
  | nil =>
    cases h
    exact he
  | cons orderId orderIds ih =>
    obtain ⟨e₁, hfirst, h⟩ := Except.bind_eq_ok.mp h
    exact ih (hP he (cancelForClosing_effect hfirst)) h

/-- The order that an event brings. -/
def Event.Brings (event : Event) (order : Order) : Prop :=
  (∃ runtime, event = .operation runtime (.executeOrder order)) ∨
    ∃ runtime origin, event = .message runtime origin (.executeOrder order)

/-- A step forwards an order to another chain, executes an order, or cancels all orders. -/
theorem step_cases {event : Event} (h : step e event = some e') : e' = e ∨
    (∃ runtime order chainId, event.Brings order ∧
      executeOrderLocal runtime e order chainId = .ok e') ∨
    ∃ runtime, event = .operation runtime .closeChain ∧
      e.state.orderIds.foldlM (cancelForClosing runtime) e = .ok e' := by
  cases event with
  | operation runtime operation =>
    obtain ⟨outcome, houtcome⟩ := Except.toOption_fst_eq_some.mp h
    cases operation with
    | executeOrder order =>
      obtain ⟨-, -, houtcome⟩ := Except.bind_eq_ok.mp houtcome
      split at houtcome
      · obtain ⟨e₁, hlocal, houtcome⟩ := Except.bind_eq_ok.mp houtcome
        cases houtcome
        exact .inr (.inl ⟨runtime, order, _, .inl ⟨runtime, rfl⟩, hlocal⟩)
      · obtain ⟨message, -, houtcome⟩ := Except.bind_eq_ok.mp houtcome
        cases houtcome
        exact .inl rfl
    | closeChain =>
      obtain ⟨e₁, hcancel, houtcome⟩ := Except.bind_eq_ok.mp houtcome
      obtain ⟨-, -, houtcome⟩ := Except.bind_eq_ok.mp houtcome
      cases houtcome
      exact .inr (.inr ⟨runtime, rfl, hcancel⟩)
  | message runtime origin message =>
    have h := Except.toOption_eq_some.mp h
    obtain ⟨-, -, h⟩ := Except.bind_eq_ok.mp h
    cases message with
    | executeOrder order =>
      obtain ⟨-, -, h⟩ := Except.bind_eq_ok.mp h
      exact .inr (.inl ⟨runtime, order, _, .inr ⟨runtime, origin, rfl⟩, h⟩)

theorem step_preserves {P : Engine → Prop} (hP : ∀ {e e'}, P e → Effect e e' → P e')
    {event : Event} (he : P e) (h : step e event = some e') : P e' := by
  rcases step_cases h with rfl | ⟨_, _, _, -, hlocal⟩ | ⟨_, -, hcancel⟩
  · exact he
  · exact hP he (executeOrderLocal_effect hlocal)
  · exact foldlM_cancelForClosing_preserves hP he hcancel

end execution

end Linera.MatchingEngine
