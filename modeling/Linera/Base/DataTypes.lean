import Linera.Base.Identifiers

/-!
# Core data types

Amounts and the other numbers of `linera-base`, with the arithmetic the source
uses on them. A machine integer is a natural number; every operation that can
leave the range of the source's type says what happens there: a checked
operation fails, a saturating one stops at the bound.
-/

namespace Linera

/-- `u32::MAX`. -/
def u32Max : Nat := 2 ^ 32 - 1

/-- `u64::MAX`. -/
def u64Max : Nat := 2 ^ 64 - 1

/-- `checked_add` of an unsigned type whose largest value is `bound`. -/
def checkedAdd (bound a b : Nat) : Option Nat := if a + b ≤ bound then some (a + b) else none

theorem checkedAdd_eq_some {bound a b c : Nat} :
    checkedAdd bound a b = some c ↔ a + b ≤ bound ∧ c = a + b := by
  unfold checkedAdd
  split <;> simp_all [eq_comm]

/-- `saturating_add` of an unsigned type whose largest value is `bound`. -/
def saturatingAdd (bound a b : Nat) : Nat := min (a + b) bound

/-- `saturating_mul` of an unsigned type whose largest value is `bound`. -/
def saturatingMul (bound a b : Nat) : Nat := min (a * b) bound

inductive ArithmeticError where
  | overflow
  | underflow
deriving DecidableEq, Repr

-- Amounts of tokens, counted in attos (`u128`).

namespace Amount

def max : Nat := 2 ^ 128 - 1

def tryAdd (a b : Nat) : Except ArithmeticError Nat :=
  if a + b ≤ max then .ok (a + b) else .error .overflow

def trySub (a b : Nat) : Except ArithmeticError Nat :=
  if b ≤ a then .ok (a - b) else .error .underflow

theorem trySub_eq_ok {a b c : Nat} : trySub a b = .ok c ↔ c + b = a := by
  unfold trySub
  split
  · rw [Except.ok.injEq]
    omega
  · simp only [reduceCtorEq, false_iff]
    omega

def tryMul (a : Nat) (n : Nat) : Except ArithmeticError Nat :=
  if a * n ≤ max then .ok (a * n) else .error .overflow

def saturatingAdd (a b : Nat) : Nat := min (a + b) max

end Amount

/-- `BlockHeight::try_add_one`. -/
def BlockHeight.tryAddOne (h : Nat) : Except ArithmeticError Nat :=
  if h + 1 ≤ BlockHeight.max then .ok (h + 1) else .error .overflow

structure ApplicationPermissions where
  /-- If this is `none`, all system and application operations are allowed. Otherwise only
  operations from the listed applications are, and no system operations. -/
  executeOperations : Option (List ApplicationId)
  /-- Each of these applications must occur in every block. -/
  mandatoryApplications : List ApplicationId
  closeChain : List ApplicationId
deriving DecidableEq

namespace ApplicationPermissions

/-- `ApplicationPermissions::default`. -/
def default : ApplicationPermissions := ⟨none, [], []⟩

def canExecuteOperations (p : ApplicationPermissions) (appId : GenericApplicationId) : Bool :=
  match appId, p.executeOperations with
  | _, none => true
  | .system, some _ => false
  | .user appId, some appIds => appIds.contains appId

def canCloseChain (p : ApplicationPermissions) (appId : ApplicationId) : Bool :=
  p.closeChain.contains appId

end ApplicationPermissions

inductive OracleResponse where
  | service (response : Bytes)
  | http (response : Bytes)
  | blob (blobId : BlobId)
  | assert
deriving DecidableEq

structure UserApplicationDescription where
  bytecodeId : BytecodeId
  creation : MessageId
  parameters : Bytes
  requiredApplicationIds : List UserApplicationId
deriving DecidableEq

/-- `UserApplicationId::from`. -/
def UserApplicationDescription.applicationId (d : UserApplicationDescription) : UserApplicationId :=
  ⟨d.bytecodeId, d.creation⟩

end Linera
