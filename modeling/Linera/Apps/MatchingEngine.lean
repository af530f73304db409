import Linera.Apps.Fungible
import Linera.Lib.LittleEndian

/-!
# Matching engine

Orders to buy or sell token 1 for token 0. A price level is a queue of the orders at one
price; the levels of the bids and of the asks are kept in the order of the serialized
prices, which is from the best price to the worst. An order that is inserted is first
filled from the other side of the book; what is left of it becomes a resting order.

An order that has been filled or cancelled has amount zero and is taken out of its queue
once it is at the front. The contract calls the two token applications to collect what
an order needs and to pay out; a call that fails makes the whole execution fail.
-/

namespace Linera.MatchingEngine

abbrev Account := Fungible.Account

/-- The asking or bidding price of token 1 in units of token 0. -/
structure Price where
  price : UInt64
deriving DecidableEq

structure PriceAsk where
  price : UInt64

structure PriceBid where
  price : UInt64

namespace Price

def toBid (p : Price) : PriceBid := ⟨p.price⟩

def toAsk (p : Price) : PriceAsk := ⟨p.price⟩

end Price

/-! ## Serialized prices -/

/-- The bytes of a number, the most significant one first. -/
def shortKey (n : UInt64) : Bytes := (Bytes.ofLittleEndian 8 n.toNat).reverse

theorem littleEndian_reverse_shortKey (n : UInt64) :
    Bytes.littleEndian (shortKey n).reverse = n.toNat := by
  rw [shortKey, List.reverse_reverse, Bytes.littleEndian_ofLittleEndian]
  exact Nat.mod_eq_of_lt n.toNat_lt

theorem shortKey_lt_iff {m n : UInt64} : shortKey m < shortKey n ↔ m < n :=
  (Bytes.reverse_ofLittleEndian_lt_iff m.toNat_lt n.toNat_lt).trans UInt64.lt_iff_toNat_lt.symm

namespace PriceAsk

def toPrice (p : PriceAsk) : Price := ⟨p.price⟩

/-- The order of the serialization corresponds to the order of the prices. -/
def toCustomBytes (p : PriceAsk) : Bytes := shortKey p.price

def fromCustomBytes (shortKey : Bytes) : PriceAsk := ⟨.ofNat (Bytes.littleEndian shortKey.reverse)⟩

theorem fromCustomBytes_toCustomBytes (p : PriceAsk) : fromCustomBytes p.toCustomBytes = p := by
  rw [fromCustomBytes, toCustomBytes, littleEndian_reverse_shortKey, UInt64.ofNat_toNat]

/-- Collections are in the order of the serialized keys. -/
instance instLinearOrderPriceAsk : LinearOrder PriceAsk :=
  LinearOrder.lift' toCustomBytes fun p q h => by
    rw [← fromCustomBytes_toCustomBytes p, h, fromCustomBytes_toCustomBytes]

/-- The best ask is the lowest. -/
theorem lt_iff {p q : PriceAsk} : p < q ↔ p.price < q.price := shortKey_lt_iff

end PriceAsk

namespace PriceBid

def toPrice (p : PriceBid) : Price := ⟨p.price⟩

/-- The price is subtracted from the largest one, to reverse the order. -/
def toCustomBytes (p : PriceBid) : Bytes := shortKey (.ofNat (2 ^ 64 - 1) - p.price)

def fromCustomBytes (shortKey : Bytes) : PriceBid :=
  ⟨.ofNat (2 ^ 64 - 1) - .ofNat (Bytes.littleEndian shortKey.reverse)⟩

theorem fromCustomBytes_toCustomBytes (p : PriceBid) : fromCustomBytes p.toCustomBytes = p := by
  rw [fromCustomBytes, toCustomBytes, littleEndian_reverse_shortKey, UInt64.ofNat_toNat,
    sub_sub_cancel]

instance instLinearOrderPriceBid : LinearOrder PriceBid :=
  LinearOrder.lift' toCustomBytes fun p q h => by
    rw [← fromCustomBytes_toCustomBytes p, h, fromCustomBytes_toCustomBytes]

theorem toNat_max_sub (n : UInt64) : (.ofNat (2 ^ 64 - 1) - n : UInt64).toNat =
    2 ^ 64 - 1 - n.toNat := by
  have hle : n ≤ .ofNat (2 ^ 64 - 1) := by
    rw [UInt64.le_iff_toNat_le]
    have := n.toNat_lt
    simp
    omega
  rw [UInt64.toNat_sub_of_le _ _ hle]
  rfl

/-- The best bid is the highest. -/
theorem lt_iff {p q : PriceBid} : p < q ↔ q.price < p.price := by
  show p.toCustomBytes < q.toCustomBytes ↔ _
  rw [toCustomBytes, toCustomBytes, shortKey_lt_iff, UInt64.lt_iff_toNat_lt, UInt64.lt_iff_toNat_lt, toNat_max_sub, toNat_max_sub]
  have := p.price.toNat_lt
  have := q.price.toNat_lt
  omega

end PriceBid

/-! ## State -/

/-- An identifier for a buy or sell order. -/
abbrev OrderId := Nat

inductive OrderNature where
  /-- A bid for buying token 1 and paying in token 0. -/
  | bid
  /-- An ask for selling token 1, to be paid in token 0. -/
  | ask
deriving DecidableEq

inductive Order where
  | insert (owner : AccountOwner) (amount : Nat) (nature : OrderNature) (price : Price)
  | cancel (owner : AccountOwner) (orderId : OrderId)
  /-- Only decreasing is allowed. -/
  | modify (owner : AccountOwner) (orderId : OrderId) (cancelAmount : Nat)

structure OrderEntry where
  /-- The number of token 1 being bought or sold. -/
  amount : Nat
  /-- The one who has created the order. -/
  account : Account
  orderId : OrderId
deriving DecidableEq

/-- What is known of an order by its id. -/
structure KeyBook where
  price : Price
  nature : OrderNature
  /-- The owner used for checks. -/
  account : Account
deriving DecidableEq

/-- The price levels of one side: at each price a queue, from the oldest order to the newest. -/
abbrev Levels (κ : Type) [LinearOrder κ] := BTreeMap κ (List OrderEntry)

abbrev AccountInfo := BTreeMap AccountOwner (BTreeSet OrderId)

structure MatchingEngineState where
  nextOrderNumber : OrderId
  bids : Levels PriceBid
  asks : Levels PriceAsk
  orders : BTreeMap OrderId KeyBook
  accountInfo : AccountInfo

/-- Transfer operation back to the owners. -/
structure Transfer where
  /-- Beneficiary of the transfer. -/
  account : Account
  amount : Nat
  /-- Index of the token being transferred. -/
  tokenIdx : Fin 2
deriving DecidableEq

inductive ModifyAmount where
  | all
  | partly (amount : Nat)

/-- What makes an execution fail. -/
inductive MatchingEngineError where
  /-- "Unauthorized" -/
  | unauthorized
  /-- "Action can only be executed on the chain that created the matching engine" -/
  | notOnEngineChain
  /-- "product" -/
  | product
  /-- "Order is not present therefore cannot be cancelled" -/
  | notPresent
  /-- "The owner of the order is not matching with the owner put" -/
  | ownerMismatch
  /-- "Attempt to cancel a larger amount than available" -/
  | cancelTooLarge
  /-- The prices of a fill do not match. -/
  | assertionFailed
  /-- There is no information on the owner of an order. -/
  | noAccountInfo
  | tokenCall
  /-- "The application does not have permissions to close the chain." -/
  | mayNotClose
deriving DecidableEq

def productPriceAmount (price : Price) (count : Nat) : Except MatchingEngineError Nat :=
  (Amount.tryMul count price.price.toNat).mapError fun _ => .product

def Levels.loadEntry {κ : Type} [LinearOrder κ] (levels : Levels κ) (key : κ) : List OrderEntry :=
  (levels.get key).getD []

variable (info : AccountInfo)

def removeOrderId (entry : AccountOwner × OrderId) : Except MatchingEngineError AccountInfo :=
  match info.get entry.1 with
  | none => .error .noAccountInfo
  | some orders => .ok (info.insert entry.1 (orders.remove entry.2))

def removeOrderIds (entries : List (AccountOwner × OrderId)) :
    Except MatchingEngineError AccountInfo :=
  entries.foldlM removeOrderId info

/-- Removes the orders of amount zero that are the oldest; others stay. -/
def removeZeroOrdersFromLevel (queue : List OrderEntry) : List OrderEntry :=
  queue.dropWhile fun order => order.amount = 0

/-! ## Cancellations -/

/-- The amount of an order after a cancellation. -/
def ModifyAmount.newAmount (amount : Nat) : ModifyAmount → Except MatchingEngineError Nat
  | all => .ok 0
  | partly cancelAmount => (Amount.trySub amount cancelAmount).mapError fun _ => .cancelTooLarge

/-- Applies a cancellation to the first order with the id. Returns the queue, what has been
cancelled and what remains of the order. -/
def modifyQueue (orderId : OrderId) (cancelAmount : ModifyAmount) :
    List OrderEntry → Except MatchingEngineError (Option (List OrderEntry × Nat × Nat))
  | [] => .ok none
  | order :: orders =>
    if order.orderId = orderId then do
      let newAmount ← cancelAmount.newAmount order.amount
      return some ({ order with amount := newAmount } :: orders, order.amount - newAmount,
        newAmount)
    else do
      let modified ← modifyQueue orderId cancelAmount orders
      return modified.map fun m => (order :: m.1, m.2)

/-- Looks for the order in a level. Returns the level, what has been cancelled and whether nothing
remains of the order. -/
def modifyOrderLevel (view : List OrderEntry) (orderId : OrderId) (cancelAmount : ModifyAmount) :
    Except MatchingEngineError (Option (List OrderEntry × Nat × Bool)) := do
  let modified ← modifyQueue orderId cancelAmount view
  return modified.map fun m => (removeZeroOrdersFromLevel m.1, m.2.1, m.2.2 = 0)

def removeIfEmpty (entry : AccountOwner × OrderId) (isEmpty : Bool) :
    Except MatchingEngineError AccountInfo :=
  if isEmpty then removeOrderId info entry else .ok info

variable (s : MatchingEngineState)

/-- Modifies the order from the id. Returns the transfer to be done, unless there is no such
order. -/
def modifyOrder (orderId : OrderId) (cancelAmount : ModifyAmount) :
    Except MatchingEngineError (MatchingEngineState × Option Transfer) :=
  match s.orders.get orderId with
  | none => .ok (s, none)
  | some keyBook =>
    match keyBook.nature with
    | .bid => do
      let key := keyBook.price.toBid
      let view := s.bids.loadEntry key
      match ← modifyOrderLevel view orderId cancelAmount with
      -- loading the level has created it
      | none => return ({ s with bids := s.bids.insert key view }, none)
      | some (view, cancelAmount, isEmpty) =>
        let info ← removeIfEmpty s.accountInfo (keyBook.account.owner, orderId) isEmpty
        let cancelAmount0 ← productPriceAmount keyBook.price cancelAmount
        return ({ s with bids := s.bids.insert key view, accountInfo := info },
          some ⟨keyBook.account, cancelAmount0, 0⟩)
    | .ask => do
      let key := keyBook.price.toAsk
      let view := s.asks.loadEntry key
      match ← modifyOrderLevel view orderId cancelAmount with
      | none => return ({ s with asks := s.asks.insert key view }, none)
      | some (view, cancelCount, isEmpty) =>
        let info ← removeIfEmpty s.accountInfo (keyBook.account.owner, orderId) isEmpty
        return ({ s with asks := s.asks.insert key view, accountInfo := info },
          some ⟨keyBook.account, cancelCount, 1⟩)

/-! ## Insertions -/

/-- Creates the transfers for a fill. The order that provides the liquidity gets the difference
between the prices. -/
def getTransfers (nature : OrderNature) (fill : Nat) (account : Account) (orderLevel : OrderEntry)
    (priceLevel priceInsert : Price) : Except MatchingEngineError (List Transfer) :=
  match nature with
  | .bid => do
    ensure (priceInsert.price ≥ priceLevel.price) .assertionFailed
    let fill0 ← productPriceAmount priceInsert fill
    return [⟨account, fill, 1⟩, ⟨orderLevel.account, fill0, 0⟩]
  | .ask => do
    ensure (priceInsert.price ≤ priceLevel.price) .assertionFailed
    let fill0 ← productPriceAmount priceInsert fill
    if priceLevel = priceInsert then
      return [⟨orderLevel.account, fill, 1⟩, ⟨account, fill0, 0⟩]
    else do
      let bonus ← productPriceAmount ⟨priceLevel.price - priceInsert.price⟩ fill
      return [⟨orderLevel.account, fill, 1⟩, ⟨account, fill0, 0⟩, ⟨orderLevel.account, bonus, 0⟩]

/-- What the clearing of a level leaves. -/
structure Cleared where
  queue : List OrderEntry
  /-- What remains of the new order. -/
  amount : Nat
  transfers : List Transfer
  removeOrder : List (AccountOwner × OrderId)

section clearing

variable (account : Account) (nature : OrderNature) (priceLevel priceInsert : Price)

def fillTransfers (fill : Nat) (order : OrderEntry) : Except MatchingEngineError (List Transfer) :=
  if fill > 0 then getTransfers nature fill account order priceLevel priceInsert else .ok []

def clearQueue : List OrderEntry → Nat → Except MatchingEngineError Cleared
  | [], amount => .ok ⟨[], amount, [], []⟩
  | order :: orders, amount => do
    let fill := min order.amount amount
    let amount := amount - fill
    let order := { order with amount := order.amount - fill }
    let transfers ← fillTransfers account nature priceLevel priceInsert fill order
    let removeOrder :=
      if order.amount = 0 then [(order.account.owner, order.orderId)] else []
    if amount = 0 then return ⟨order :: orders, 0, transfers, removeOrder⟩
    else do
      let later ← clearQueue orders amount
      return ⟨order :: later.queue, later.amount, transfers ++ later.transfers,
        removeOrder ++ later.removeOrder⟩

/-- A price level is cleared starting from the oldest order. -/
def levelClearing (view : List OrderEntry) (amount : Nat) : Except MatchingEngineError Cleared := do
  let cleared ← clearQueue account nature priceLevel priceInsert view amount
  return { cleared with queue := removeZeroOrdersFromLevel cleared.queue }

end clearing

/-- What the clearing of several levels leaves. -/
structure Clearing (κ : Type) [LinearOrder κ] where
  levels : Levels κ
  accountInfo : AccountInfo
  amount : Nat
  transfers : List Transfer

/-- Clears the levels with the given keys, until the new order is filled. -/
def clearLevels {κ : Type} [LinearOrder κ] (account : Account) (nature : OrderNature)
    (toPrice : κ → Price) (price : Price) :
    List κ → Levels κ → AccountInfo → Nat → Except MatchingEngineError (Clearing κ)
  | [], levels, info, amount => .ok ⟨levels, info, amount, []⟩
  | key :: keys, levels, info, amount => do
    let cleared ← levelClearing account nature (toPrice key) price (levels.loadEntry key) amount
    let levels :=
      if cleared.queue = [] then levels.remove key else levels.insert key cleared.queue
    let info ← removeOrderIds info cleared.removeOrder
    if cleared.amount = 0 then return ⟨levels, info, 0, cleared.transfers⟩
    else do
      let later ← clearLevels account nature toPrice price keys levels info cleared.amount
      return { later with transfers := cleared.transfers ++ later.transfers }

/-- Enters an order in the information by owners and by ids. -/
def insertOrder (account : Account) (nature : OrderNature) (orderId : OrderId) (price : Price) :
    MatchingEngineState :=
  let orders := (s.accountInfo.get account.owner).getD .empty
  { s with
    accountInfo := s.accountInfo.insert account.owner (orders.insert orderId ())
    orders := s.orders.insert orderId ⟨price, nature, account⟩ }

def restBid (account : Account) (amount : Nat) (orderId : OrderId) (price : Price) :
    MatchingEngineState :=
  if amount = 0 then s
  else
    let queue := s.bids.loadEntry price.toBid ++ [⟨amount, account, orderId⟩]
    insertOrder { s with bids := s.bids.insert price.toBid queue } account .bid orderId price

def restAsk (account : Account) (amount : Nat) (orderId : OrderId) (price : Price) :
    MatchingEngineState :=
  if amount = 0 then s
  else
    let queue := s.asks.loadEntry price.toAsk ++ [⟨amount, account, orderId⟩]
    insertOrder { s with asks := s.asks.insert price.toAsk queue } account .ask orderId price

/-- Inserts an order into the matching engine: the price levels that match are cleared from the
best price to the least good one. -/
def insertAndUncrossMarket (account : Account) (amount : Nat) (nature : OrderNature)
    (price : Price) : Except MatchingEngineError (MatchingEngineState × List Transfer) :=
  let orderId := s.nextOrderNumber
  let s := { s with nextOrderNumber := (s.nextOrderNumber + 1) % 2 ^ 64 }
  match nature with
  | .bid => do
    let matching := s.asks.keys.takeWhile fun key => key.toPrice.price ≤ price.price
    let c ← clearLevels account .bid PriceAsk.toPrice price matching s.asks s.accountInfo amount
    return (restBid { s with asks := c.levels, accountInfo := c.accountInfo } account c.amount
      orderId price, c.transfers)
  | .ask => do
    let matching := s.bids.keys.takeWhile fun key => key.toPrice.price ≥ price.price
    let c ← clearLevels account .ask PriceBid.toPrice price matching s.bids s.accountInfo amount
    return (restAsk { s with bids := c.levels, accountInfo := c.accountInfo } account c.amount
      orderId price, c.transfers)

/-! ## The contract -/

inductive Operation where
  | executeOrder (order : Order)
  | closeChain

inductive Message where
  | executeOrder (order : Order)

/-- What an execution is told of its surroundings. -/
structure Runtime where
  chainId : ChainId
  applicationCreatorChainId : ChainId
  applicationId : ApplicationId
  authenticatedSigner : Option Owner
  authenticatedCallerId : Option ApplicationId
  tokens : Fin 2 → ApplicationId
  /-- Whether a call to an application goes through. -/
  callApplication : ApplicationId → Fungible.Operation → Bool
  mayCloseChain : Bool

/-- A resting order is told from others at its price by its account and its id. -/
structure Resting where
  price : Price
  account : Account
  orderId : OrderId
deriving DecidableEq

/-- The engine, with the transfers to and from its account, and the orders in the sequence of their
arrival. -/
structure Engine where
  state : MatchingEngineState
  received : List Transfer
  sent : List Transfer
  arrived : List (OrderNature × Resting)

variable (runtime : Runtime)

def getOwner : Order → AccountOwner
  | .insert owner _ _ _ => owner
  | .cancel owner _ => owner
  | .modify owner _ _ => owner

/-- Authenticates the originator of the message. -/
def checkAccountAuthentication : AccountOwner → Except MatchingEngineError Unit
  | .user address => ensure (runtime.authenticatedSigner = some address) .unauthorized
  | .application id => ensure (runtime.authenticatedCallerId = some id) .unauthorized

def transfer (owner : AccountOwner) (amount : Nat) (targetAccount : Account) (tokenIdx : Fin 2) :
    Except MatchingEngineError Unit :=
  ensure (runtime.callApplication (runtime.tokens tokenIdx) (.transfer owner amount targetAccount))
    .tokenCall

/-- The tokens that need to be transferred to the engine when an order is added. -/
def getAmountIdx (nature : OrderNature) (price : Price) (amount : Nat) :
    Except MatchingEngineError (Nat × Fin 2) :=
  match nature with
  | .bid => do
    let size0 ← productPriceAmount price amount
    return (size0, 0)
  | .ask => .ok (amount, 1)

variable (e : Engine)

/-- Calls the token application to receive tokens from the given account. -/
def receiveFromAccount (owner : AccountOwner) (amount : Nat) (nature : OrderNature)
    (price : Price) : Except MatchingEngineError Engine := do
  let (amount, tokenIdx) ← getAmountIdx nature price amount
  transfer runtime owner amount ⟨runtime.chainId, .application runtime.applicationId⟩ tokenIdx
  return { e with received := e.received ++ [⟨⟨runtime.chainId, owner⟩, amount, tokenIdx⟩] }

/-- Transfers tokens from the funds in custody. -/
def sendTo (t : Transfer) : Except MatchingEngineError Engine := do
  transfer runtime (.application runtime.applicationId) t.amount t.account t.tokenIdx
  return { e with sent := e.sent ++ [t] }

/-- Checks that the order exists and has been issued by the claimed owner. -/
def checkOrderId (orderId : OrderId) (owner : AccountOwner) : Except MatchingEngineError Unit :=
  match s.orders.get orderId with
  | none => .error .notPresent
  | some value => ensure (value.account.owner = owner) .ownerMismatch

def modifyOrderCheck (orderId : OrderId) (cancelAmount : ModifyAmount) (owner : AccountOwner) :
    Except MatchingEngineError Engine := do
  checkOrderId e.state orderId owner
  match ← modifyOrder e.state orderId cancelAmount with
  | (_, none) => throw .notPresent
  | (state, some transfer) => sendTo runtime { e with state := state } transfer

def executeOrderLocal (order : Order) (chainId : ChainId) : Except MatchingEngineError Engine :=
  match order with
  | .insert owner amount nature price => do
    let e ← receiveFromAccount runtime e owner amount nature price
    let account : Account := ⟨chainId, owner⟩
    let (state, transfers) ← insertAndUncrossMarket e.state account amount nature price
    let arrived := e.arrived ++ [(nature, ⟨price, account, e.state.nextOrderNumber⟩)]
    transfers.foldlM (sendTo runtime) { e with state := state, arrived := arrived }
  | .cancel owner orderId => modifyOrderCheck runtime e orderId .all owner
  | .modify owner orderId cancelAmount =>
    modifyOrderCheck runtime e orderId (.partly cancelAmount) owner

/-- The funds move to the engine's chain under the same owner, and a message carries the order. -/
def executeOrderRemote (order : Order) :
    Except MatchingEngineError (Network.Outgoing ChainId (Message × Option Owner)) := do
  let chainId := runtime.applicationCreatorChainId
  match order with
  | .insert owner amount nature price =>
    let (amount, tokenIdx) ← getAmountIdx nature price amount
    transfer runtime owner amount ⟨chainId, owner⟩ tokenIdx
  | _ => pure ()
  return ⟨chainId, false, (.executeOrder order, runtime.authenticatedSigner)⟩

/-- The ids of the index in the order of their serialized keys, which is not that of the numbers. -/
def MatchingEngineState.orderIds : List OrderId :=
  s.orders.keys.insertionSort fun a b => Bytes.ofLittleEndian 8 a ≤ Bytes.ofLittleEndian 8 b

def cancelForClosing (orderId : OrderId) : Except MatchingEngineError Engine := do
  match ← modifyOrder e.state orderId .all with
  | (state, none) => return { e with state := state }
  | (state, some transfer) => sendTo runtime { e with state := state } transfer

def executeOperation (operation : Operation) :
    Except MatchingEngineError (Engine × List (Network.Outgoing ChainId (Message × Option Owner))) :=
  match operation with
  | .executeOrder order => do
    checkAccountAuthentication runtime (getOwner order)
    if runtime.chainId = runtime.applicationCreatorChainId then
      let e ← executeOrderLocal runtime e order runtime.chainId
      return (e, [])
    else
      let message ← executeOrderRemote runtime order
      return (e, [message])
  | .closeChain => do
    let e ← e.state.orderIds.foldlM (cancelForClosing runtime) e
    ensure runtime.mayCloseChain .mayNotClose
    return (e, [])

/-- The message comes from the chain `origin`. -/
def executeMessage (origin : ChainId) (message : Message) : Except MatchingEngineError Engine := do
  ensure (runtime.chainId = runtime.applicationCreatorChainId) .notOnEngineChain
  match message with
  | .executeOrder order =>
    checkAccountAuthentication runtime (getOwner order)
    executeOrderLocal runtime e order origin

/-- What is executed on the engine's chain. -/
inductive Event where
  | operation (runtime : Runtime) (operation : Operation)
  | message (runtime : Runtime) (origin : ChainId) (message : Message)

/-- An execution that fails has no effect; it is not a step. -/
def step : Event → Option Engine
  | .operation runtime operation => (Prod.fst <$> executeOperation runtime e operation).toOption
  | .message runtime origin message => (executeMessage runtime e origin message).toOption

/-- An engine that has not received an order. -/
def Engine.new : Engine := ⟨⟨0, .empty, .empty, .empty, .empty⟩, [], [], []⟩

/-- What is paid for a fill of a resting order by a new order. -/
def settlement (nature : OrderNature) (account : Account) (price : Price) (fill : Resting × Nat) :
    List Transfer :=
  match nature with
  | .bid => [⟨account, fill.2, 1⟩, ⟨fill.1.account, price.price.toNat * fill.2, 0⟩]
  | .ask =>
    [⟨fill.1.account, fill.2, 1⟩, ⟨account, price.price.toNat * fill.2, 0⟩] ++
      if fill.1.price = price then []
      else [⟨fill.1.account, (fill.1.price.price - price.price).toNat * fill.2, 0⟩]

end Linera.MatchingEngine
