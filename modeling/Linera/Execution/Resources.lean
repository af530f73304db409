import Linera.Execution.System

/-!
# Resource control

How the use of resources is counted and paid for. The account that pays is a
`BalanceHolder`: an amount while a contract runs, and otherwise the funding
sources of the chain (`Sources`): the grant of the message or the balance of the
chain, then the account of the signer.
-/

namespace Linera

/-- Resources that an application may spend. -/
structure Resources where
  fuel : Nat
  readOperations : Nat
  writeOperations : Nat
  bytesToRead : Nat
  bytesToWrite : Nat
  messages : Nat
  messageSize : Nat
  storageSizeDelta : Nat
deriving DecidableEq

/-- The resources used so far by an execution process. -/
structure ResourceTracker where
  blocks : Nat
  executedBlockSize : Nat
  fuel : Nat
  readOperations : Nat
  writeOperations : Nat
  bytesRead : Nat
  bytesWritten : Nat
  operations : Nat
  operationBytes : Nat
  messages : Nat
  messageBytes : Nat
  grants : Nat
deriving DecidableEq

/-- `ResourceTracker::default`. -/
def ResourceTracker.default : ResourceTracker := ⟨0, 0, 0, 0, 0, 0, 0, 0, 0, 0, 0, 0⟩

namespace ResourceControlPolicy

variable (p : ResourceControlPolicy)

def fuelPrice (fuel : Nat) : Except ArithmeticError Nat :=
  Amount.tryMul p.fuelUnit fuel

def readOperationsPrice (count : Nat) : Except ArithmeticError Nat :=
  Amount.tryMul p.readOperation count

def writeOperationsPrice (count : Nat) : Except ArithmeticError Nat :=
  Amount.tryMul p.writeOperation count

def bytesReadPrice (count : Nat) : Except ArithmeticError Nat :=
  Amount.tryMul p.byteRead count

def bytesWrittenPrice (count : Nat) : Except ArithmeticError Nat :=
  Amount.tryMul p.byteWritten count

def bytesStoredPrice (count : Nat) : Except ArithmeticError Nat :=
  Amount.tryMul p.byteStored count

def operationBytesPrice (size : Nat) : Except ArithmeticError Nat :=
  Amount.tryMul p.operationByte size

def messageBytesPrice (size : Nat) : Except ArithmeticError Nat :=
  Amount.tryMul p.messageByte size

/-- The price of everything that a message may spend on the other side. -/
def totalPrice (resources : Resources) : Except ArithmeticError Nat := do
  let amount ← Amount.tryAdd 0 (← p.fuelPrice resources.fuel)
  let amount ← Amount.tryAdd amount (← p.readOperationsPrice resources.readOperations)
  let amount ← Amount.tryAdd amount (← p.writeOperationsPrice resources.writeOperations)
  let amount ← Amount.tryAdd amount (← p.bytesReadPrice resources.bytesToRead)
  let amount ← Amount.tryAdd amount (← p.bytesWrittenPrice resources.bytesToWrite)
  let amount ← Amount.tryAdd amount (← Amount.tryMul p.message resources.messages)
  let amount ← Amount.tryAdd amount (← p.messageBytesPrice resources.messageSize)
  Amount.tryAdd amount (← p.bytesStoredPrice resources.storageSizeDelta)

/-- How much fuel can be paid with the given balance. -/
def remainingFuel (balance : Nat) : Nat :=
  -- `saturating_div` by zero is the largest amount.
  min (if p.fuelUnit = 0 then Amount.max else balance / p.fuelUnit) u64Max

end ResourceControlPolicy

/-- How to access the balance of an account. A debit that fails may still change the account, so
its error comes with what is left. -/
class BalanceHolder (A : Type) where
  balance : A → Except ArithmeticError Nat
  tryAddAssign : A → Nat → Except ArithmeticError A
  trySubAssign : A → Nat → Except (ArithmeticError × A) A

structure AmountAccount where
  amount : Nat
deriving DecidableEq

instance : BalanceHolder AmountAccount where
  balance a := .ok a.amount
  tryAddAssign a other := (Amount.tryAdd a.amount other).map .mk
  trySubAssign a other :=
    match Amount.trySub a.amount other with
    | .ok amount => .ok ⟨amount⟩
    | .error error => .error (error, a)

/-- Funding sources, in the order in which they are used. -/
structure Sources where
  sources : List Nat
deriving DecidableEq

namespace Sources

def balance (s : Sources) : Except ArithmeticError Nat := s.sources.foldlM Amount.tryAdd 0

/-- Credits the last source: the owner account, if there is one. -/
def tryAddAssign : List Nat → Nat → Except ArithmeticError (List Nat)
  | [], _ => .ok []  -- There is at least one source.
  | [source], other => (Amount.tryAdd source other).map fun source => [source]
  | source :: sources, other => (tryAddAssign sources other).map (source :: ·)

/-- Debits the sources one after the other until `other` is paid. If they do not suffice, they are
all empty afterwards. -/
def trySubAssign : List Nat → Nat → Except (ArithmeticError × List Nat) (List Nat)
  | [], other => if other > 0 then .error (.underflow, []) else .ok []
  | source :: sources, other =>
    if other ≤ source then .ok ((source - other) :: sources)
    else
      match trySubAssign sources (other - source) with
      | .ok sources => .ok (0 :: sources)
      | .error (error, sources) => .error (error, 0 :: sources)

instance : BalanceHolder Sources where
  balance := balance
  tryAddAssign s other := (tryAddAssign s.sources other).map .mk
  trySubAssign s other :=
    match trySubAssign s.sources other with
    | .ok sources => .ok ⟨sources⟩
    | .error (error, sources) => .error (error, ⟨sources⟩)

end Sources

/-- Controls the resources that an execution uses, and charges an account for them. -/
structure ResourceController (A : Type) where
  policy : ResourceControlPolicy
  tracker : ResourceTracker
  account : A
deriving DecidableEq

namespace ResourceController

section accounting

variable {A : Type} [BalanceHolder A] (c : ResourceController A)

/-- `checked_add` of a counter. -/
def count (bound a b : Nat) : Except ExecutionError Nat :=
  match checkedAdd bound a b with
  | some n => .ok n
  | none => .error (.arithmeticError .overflow)

def price (p : Except ArithmeticError Nat) : Except ExecutionError Nat :=
  p.mapError .arithmeticError

/-- The balance of an account, or the largest amount if it overflows. -/
def balanceOrMax (account : A) : Nat :=
  match BalanceHolder.balance account with
  | .ok balance => balance
  | .error _ => Amount.max

/-- Subtracts an amount from a balance and reports an error if that is impossible. -/
def updateBalance (fees : Nat) : Except ExecutionError (ResourceController A) :=
  match BalanceHolder.trySubAssign c.account fees with
  | .ok account => .ok { c with account }
  | .error (_, account) =>
    .error (.systemError (.insufficientFundingForFees (balanceOrMax account)))

/-- Operates a 3-way merge by transferring the difference between `initial` and `other`. -/
def mergeBalance (initial other : Nat) : Except ExecutionError (ResourceController A) :=
  if other ≤ initial then c.updateBalance (initial - other)
  else do
    let account ← (BalanceHolder.tryAddAssign c.account (other - initial)).mapError .arithmeticError
    return { c with account }

/-- The amount of fuel that could be spent by consuming the entire balance. -/
def remainingFuel : Nat :=
  min (c.policy.remainingFuel (balanceOrMax c.account))
    (c.policy.maximumFuelPerBlock - c.tracker.fuel)

def trackGrant (grant : Nat) : Except ExecutionError (ResourceController A) := do
  let grants ← price (Amount.tryAdd c.tracker.grants grant)
  updateBalance { c with tracker := { c.tracker with grants } } grant

def trackBlock : Except ExecutionError (ResourceController A) := do
  let blocks ← count u32Max c.tracker.blocks 1
  updateBalance { c with tracker := { c.tracker with blocks } } c.policy.block

def trackOperation (operation : Operation) : Except ExecutionError (ResourceController A) := do
  let operations ← count u32Max c.tracker.operations 1
  let c ← updateBalance { c with tracker := { c.tracker with operations } } c.policy.operation
  match operation with
  | .system _ => return c
  | .user _ bytes =>
    let operationBytes ← count u64Max c.tracker.operationBytes bytes.length
    updateBalance { c with tracker := { c.tracker with operationBytes } }
      (← price (c.policy.operationBytesPrice bytes.length))

def trackMessage (message : Message) : Except ExecutionError (ResourceController A) := do
  let messages ← count u32Max c.tracker.messages 1
  let c ← updateBalance { c with tracker := { c.tracker with messages } } c.policy.message
  match message with
  | .system _ => return c
  | .user _ bytes =>
    let messageBytes ← count u64Max c.tracker.messageBytes bytes.length
    updateBalance { c with tracker := { c.tracker with messageBytes } }
      (← price (c.policy.messageBytesPrice bytes.length))

/-- Tracks a number of fuel units used. -/
def trackFuel (fuel : Nat) : Except ExecutionError (ResourceController A) := do
  let total ← count u64Max c.tracker.fuel fuel
  ensure (total ≤ c.policy.maximumFuelPerBlock) .maximumFuelExceeded
  updateBalance { c with tracker := { c.tracker with fuel := total } }
    (← price (c.policy.fuelPrice fuel))

def trackReadOperations (n : Nat) : Except ExecutionError (ResourceController A) := do
  let readOperations ← count u32Max c.tracker.readOperations n
  updateBalance { c with tracker := { c.tracker with readOperations } }
    (← price (c.policy.readOperationsPrice n))

def trackWriteOperations (n : Nat) : Except ExecutionError (ResourceController A) := do
  let writeOperations ← count u32Max c.tracker.writeOperations n
  updateBalance { c with tracker := { c.tracker with writeOperations } }
    (← price (c.policy.writeOperationsPrice n))

def trackBytesRead (n : Nat) : Except ExecutionError (ResourceController A) := do
  let bytesRead ← count u64Max c.tracker.bytesRead n
  ensure (bytesRead < c.policy.maximumBytesReadPerBlock) .excessiveRead
  updateBalance { c with tracker := { c.tracker with bytesRead } }
    (← price (c.policy.bytesReadPrice n))

def trackBytesWritten (n : Nat) : Except ExecutionError (ResourceController A) := do
  let bytesWritten ← count u64Max c.tracker.bytesWritten n
  ensure (bytesWritten < c.policy.maximumBytesWrittenPerBlock) .excessiveWrite
  updateBalance { c with tracker := { c.tracker with bytesWritten } }
    (← price (c.policy.bytesWrittenPrice n))

end accounting

section size

variable {A : Type} (c : ResourceController A)

def trackExecutedBlockSize (size : Nat) : Except ExecutionError (ResourceController A) := do
  match checkedAdd u64Max c.tracker.executedBlockSize size with
  | none => throw .executedBlockTooLarge
  | some executedBlockSize =>
    ensure (executedBlockSize ≤ c.policy.maximumExecutedBlockSize) .executedBlockTooLarge
    return { c with tracker := { c.tracker with executedBlockSize } }

/-- The number of bits of a number: `BITS - leading_zeros`. -/
def bitLength (n : Nat) : Nat := if n = 0 then 0 else n.log2 + 1

/-- Tracks the extension of a sequence in an executed block. The sequence length is
ULEB128-encoded, so extending a sequence can add an additional byte. -/
def trackExecutedBlockSizeSequenceExtension (oldLen delta : Nat) :
    Except ExecutionError (ResourceController A) :=
  if delta = 0 then .ok c
  else
    let newLen := oldLen + delta
    -- ULEB128 uses one byte per 7 bits of the number. It always uses at least one byte.
    let oldSize := max (bitLength oldLen / 7) 1
    let newSize := max (bitLength newLen / 7) 1
    if newSize > oldSize then c.trackExecutedBlockSize (newSize - oldSize) else .ok c

end size

end ResourceController

/-- The account that pays on a chain: the grant or the chain's balance, then the account of the
signer, if there is one. -/
def SystemExecutionStateView.sources (s : SystemExecutionStateView) (account : Option Owner)
    (grant : Option Nat) : Sources :=
  ⟨grant.getD s.balance :: (account.bind fun owner => s.balances.get (.user owner)).toList⟩

/-- Puts back the amounts of `SystemExecutionStateView.sources`. -/
def SystemExecutionStateView.putSources (s : SystemExecutionStateView) (account : Option Owner)
    (grant : Option Nat) (sources : Sources) : SystemExecutionStateView × Option Nat :=
  let s := match account, sources.sources[1]? with
    | some owner, some balance => { s with balances := s.balances.insert (.user owner) balance }
    | _, _ => s
  match grant, sources.sources.head? with
  | some _, some balance => (s, some balance)
  | none, some balance => ({ s with balance }, none)
  | grant, none => (s, grant)

namespace ResourceController

/-- Runs accounting functions with the funding sources of the current state and an optional
grant. -/
def withStateAndGrant (c : ResourceController (Option Owner)) (s : SystemExecutionStateView)
    (grant : Option Nat)
    (f : ResourceController Sources → Except ExecutionError (ResourceController Sources)) :
    Except ExecutionError
      (ResourceController (Option Owner) × SystemExecutionStateView × Option Nat) := do
  let c' ← f ⟨c.policy, c.tracker, s.sources c.account grant⟩
  let (s, grant) := s.putSources c.account grant c'.account
  return ({ c with tracker := c'.tracker }, s, grant)

/-- Runs accounting functions with the funding sources of the current state. -/
def withState (c : ResourceController (Option Owner)) (s : SystemExecutionStateView)
    (f : ResourceController Sources → Except ExecutionError (ResourceController Sources)) :
    Except ExecutionError (ResourceController (Option Owner) × SystemExecutionStateView) := do
  let (c, s, _) ← c.withStateAndGrant s none f
  return (c, s)

end ResourceController

end Linera
