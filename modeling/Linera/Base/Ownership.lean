import Linera.Base.DataTypes
import Linera.Lib.BTreeMap

/-!
# Rounds and chain ownership

The consensus rounds in their order, and `ChainOwnership`: who may propose
blocks, and which round follows which. The main fact is that `next_round` is the
successor of the round order as far as the configuration goes
(`ChainOwnership.lt_nextRound`): whatever proposal is made on top of a round is
made in a later one.
-/

namespace Linera

/-- An identifier for successive attempts to decide a value. -/
inductive Round where
  | fast
  | multiLeader (r : Nat)
  | singleLeader (r : Nat)
  | validator (r : Nat)
deriving DecidableEq

namespace Round

def isFast : Round → Bool
  | .fast => true
  | _ => false

@[simp] theorem isFast_iff {r : Round} : r.isFast = true ↔ r = fast := by
  cases r <;> simp [isFast]

def isMultiLeader : Round → Bool
  | .multiLeader _ => true
  | _ => false

def number : Round → Nat
  | .fast => 0
  | .multiLeader r | .singleLeader r | .validator r => r

/-- The position of a round's kind in the enumeration. -/
def rank : Round → Nat
  | .fast => 0
  | .multiLeader _ => 1
  | .singleLeader _ => 2
  | .validator _ => 3

instance : LinearOrder Round :=
  LinearOrder.lift' (β := Nat ×ₗ Nat) (fun r => toLex (r.rank, r.number))
    fun a b h => by cases a <;> cases b <;> simp_all [rank, number]

theorem lt_iff {a b : Round} : a < b ↔ a.rank < b.rank ∨ a.rank = b.rank ∧ a.number < b.number :=
  Prod.Lex.lt_iff

theorem le_iff {a b : Round} : a ≤ b ↔ a.rank < b.rank ∨ a.rank = b.rank ∧ a.number ≤ b.number :=
  Prod.Lex.le_iff

theorem fast_le (r : Round) : fast ≤ r := by
  rw [← not_lt, lt_iff]
  cases r <;> simp [rank, number]

end Round

/-- How long fast, multi-leader and single-leader rounds last, in microseconds. -/
structure TimeoutConfig where
  fastRoundDuration : Option Nat
  baseTimeout : Nat
  timeoutIncrement : Nat
  fallbackDuration : Nat
deriving DecidableEq

/-- `TimeoutConfig::default`. -/
def TimeoutConfig.default : TimeoutConfig where
  fastRoundDuration := none
  baseTimeout := 10 * 1000000
  timeoutIncrement := 1 * 1000000
  fallbackDuration := 60 * 60 * 24 * 1000000

structure ChainOwnership where
  superOwners : BTreeMap Owner PublicKey
  owners : BTreeMap Owner (PublicKey × Nat)
  multiLeaderRounds : Nat
  timeoutConfig : TimeoutConfig
deriving DecidableEq

namespace ChainOwnership

/-- `ChainOwnership::default`. -/
def default : ChainOwnership := ⟨.empty, .empty, 0, .default⟩

variable (o : ChainOwnership)

def isActive : Bool :=
  !o.superOwners.isEmpty || !o.owners.isEmpty || o.timeoutConfig.fallbackDuration == 0

def verifyOwner (owner : Owner) : Option PublicKey :=
  match o.superOwners.get owner with
  | some publicKey => some publicKey
  | none => (o.owners.get owner).map Prod.fst

def roundTimeout : Round → Option Nat
  | .fast => o.timeoutConfig.fastRoundDuration
  | .multiLeader r =>
    if saturatingAdd u32Max r 1 = o.multiLeaderRounds then some o.timeoutConfig.baseTimeout
    else none
  | .singleLeader r | .validator r =>
    let increment := saturatingMul u64Max o.timeoutConfig.timeoutIncrement r
    some (saturatingAdd u64Max o.timeoutConfig.baseTimeout increment)

def firstRound : Round :=
  if !o.superOwners.isEmpty then .fast
  else if o.owners.isEmpty then .validator 0
  else if o.multiLeaderRounds > 0 then .multiLeader 0
  else .singleLeader 0

def nextRound : Round → Option Round
  | .fast => some (if o.multiLeaderRounds = 0 then .singleLeader 0 else .multiLeader 0)
  | .multiLeader r =>
    match (checkedAdd u32Max r 1).filter (· < o.multiLeaderRounds) with
    | some r => some (.multiLeader r)
    | none => some (.singleLeader 0)
  | .singleLeader r =>
    match checkedAdd u32Max r 1 with
    | some r => some (.singleLeader r)
    | none => some (.validator 0)
  | .validator r => (checkedAdd u32Max r 1).map .validator

theorem lt_nextRound {o : ChainOwnership} {r r' : Round} (h : o.nextRound r = some r') :
    r < r' := by
  rw [Round.lt_iff]
  cases r with
  | fast =>
    simp only [nextRound, Option.some.injEq] at h
    subst h
    split <;> simp [Round.rank]
  | multiLeader n =>
    simp only [nextRound] at h
    split at h
    · next m hm =>
      obtain ⟨hm, -⟩ := Option.filter_eq_some_iff.mp hm
      cases h
      simp [Round.rank, Round.number, (checkedAdd_eq_some.mp hm).2]
    · cases h
      simp [Round.rank]
  | singleLeader n =>
    simp only [nextRound] at h
    split at h
    · next m hm =>
      cases h
      simp [Round.rank, Round.number, (checkedAdd_eq_some.mp hm).2]
    · cases h
      simp [Round.rank]
  | validator n =>
    obtain ⟨m, hm, rfl⟩ := Option.map_eq_some_iff.mp h
    simp [Round.rank, Round.number, (checkedAdd_eq_some.mp hm).2]

/-- A later round is followed by a round that is no earlier; after the last one, that one is
taken again. -/
theorem nextRound_mono {r r' : Round} (h : r ≤ r') :
    (o.nextRound r).getD (.validator u32Max) ≤ (o.nextRound r').getD (.validator u32Max) := by
  have hfast : (o.nextRound .fast).getD (.validator u32Max) =
      if o.multiLeaderRounds = 0 then .singleLeader 0 else .multiLeader 0 := rfl
  have hmulti : ∀ n, (o.nextRound (.multiLeader n)).getD (.validator u32Max) =
      if n + 1 ≤ u32Max ∧ n + 1 < o.multiLeaderRounds then .multiLeader (n + 1)
      else .singleLeader 0 := by
    intro n
    by_cases hle : n + 1 ≤ u32Max <;> by_cases hlt : n + 1 < o.multiLeaderRounds <;>
      simp [nextRound, checkedAdd, Option.filter, hle, hlt]
  have hsingle : ∀ n, (o.nextRound (.singleLeader n)).getD (.validator u32Max) =
      if n + 1 ≤ u32Max then .singleLeader (n + 1) else .validator 0 := by
    intro n
    simp only [nextRound, checkedAdd]
    split_ifs <;> rfl
  have hvalidator : ∀ n, (o.nextRound (.validator n)).getD (.validator u32Max) =
      .validator (min (n + 1) u32Max) := by
    intro n
    simp only [nextRound, checkedAdd]
    split_ifs with hn
    · exact congrArg Round.validator (Nat.min_eq_left hn).symm
    · exact congrArg Round.validator (Nat.min_eq_right (Nat.le_of_not_le hn)).symm
  rw [Round.le_iff] at h
  cases r <;> cases r' <;> simp only [Round.rank, Round.number, true_and] at h <;>
    simp only [hfast, hmulti, hsingle, hvalidator] <;> (try split_ifs) <;>
    rw [Round.le_iff] <;> simp only [Round.rank, Round.number, true_and] <;> omega

end ChainOwnership

end Linera
