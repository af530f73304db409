import Linera.Lib.Except
import Linera.Views.KeyValueStoreView

/-!
# Views

A view keeps in memory a picture of what is stored under its base key, and the
changes staged over it. `ViewType` is the trait: how a view is loaded, changed,
flushed into a batch and rolled back. What can be read differs from view to view.
-/

namespace Linera.Views

/-! ## Keys and values -/

def baseTag (baseKey : Bytes) (tag : UInt8) : Bytes := baseKey ++ [tag]

def baseTagIndex (baseKey : Bytes) (tag : UInt8) (index : Bytes) : Bytes := baseKey ++ tag :: index

section Values

variable {α : Type} (codec : Bcs.Codec α)

/-- `bcs::to_bytes`. -/
def toBytes (value : α) : Except ViewError Bytes :=
  match codec.write value with
  | some bytes => .ok bytes
  | none => .error .bcsError

def deriveTagKey (baseKey : Bytes) (tag : UInt8) (index : α) : Except ViewError Bytes := do
  return baseTagIndex baseKey tag (← toBytes codec index)

/-- Deserializes an optional value. -/
def fromBytesOption : Option Bytes → Except ViewError (Option α)
  | none => .ok none
  | some bytes =>
    match codec.fromBytes bytes with
    | some value => .ok (some value)
    | none => .error .bcsError

def fromBytesOptionOrDefault [Inhabited α] (bytes : Option Bytes) : Except ViewError α := do
  return (← fromBytesOption codec bytes).getD default

variable {codec}

theorem toBytes_eq_ok {value : α} {bytes : Bytes} :
    toBytes codec value = .ok bytes ↔ codec.write value = some bytes := by
  unfold toBytes
  split <;> simp_all

theorem deriveTagKey_eq_ok {baseKey key : Bytes} {tag : UInt8} {index : α} :
    deriveTagKey codec baseKey tag index = .ok key ↔
      ∃ bytes, codec.write index = some bytes ∧ key = baseTagIndex baseKey tag bytes := by
  simp only [deriveTagKey, Except.bind_eq_ok, toBytes_eq_ok, Except.pure_eq, Except.ok.injEq]
  simp only [eq_comm]

theorem fromBytesOption_of_write {value : α} {bytes : Bytes} (h : codec.write value = some bytes) :
    fromBytesOption codec (some bytes) = .ok (some value) := by
  simp [fromBytesOption, codec.fromBytes_of_write h]

end Values

/-- The tags of the keys of a view. -/
def firstTag : UInt8 := 1

def secondTag : UInt8 := 2

/-! ## Views -/

structure ViewType where
  State : Type
  /-- What can be staged. -/
  Change : Type
  baseKey : State → Bytes
  /-- The keys needed for loading the view. -/
  preLoad : Bytes → List Bytes
  /-- Loads a view from the values under these keys. -/
  postLoad : Bytes → List (Option Bytes) → Except ViewError State
  /-- Discards all pending changes. -/
  rollback : State → State
  /-- Persists changes to a batch. Returns whether the operation removes the view. -/
  flush : State → Except ViewError (State × List WriteOperation × Bool)
  stage : KeyValueMap → State → Change → Except ViewError State

namespace ViewType

variable (V : ViewType)

def load (baseKey : Bytes) (store : KeyValueMap) : Except ViewError V.State :=
  V.postLoad baseKey ((V.preLoad baseKey).map store.get)

end ViewType

end Linera.Views
