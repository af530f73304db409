import Linera.Base.Ownership

/-!
# Committees

The validators of an epoch with their voting rights, and the two thresholds that
`Committee::new` computes from the total. A committee is only ever built by
`Committee::new` (its deserialiser recomputes the thresholds), so the thresholds
are functions of the validators here and cannot disagree with them.
-/

namespace Linera

/-- `Epoch::try_add_one`. -/
def Epoch.tryAddOne (e : Nat) : Except ArithmeticError Nat :=
  match checkedAdd u32Max e 1 with
  | some e => .ok e
  | none => .error .overflow

structure ValidatorState where
  networkAddress : String
  votes : Nat
deriving DecidableEq

/-- Prices and limits of the resources that a block may use. -/
structure ResourceControlPolicy where
  block : Nat
  fuelUnit : Nat
  readOperation : Nat
  writeOperation : Nat
  byteRead : Nat
  byteWritten : Nat
  byteStored : Nat
  operation : Nat
  operationByte : Nat
  message : Nat
  messageByte : Nat
  maximumFuelPerBlock : Nat
  maximumExecutedBlockSize : Nat
  maximumBytecodeSize : Nat
  maximumBlobSize : Nat
  maximumBlockProposalSize : Nat
  maximumBytesReadPerBlock : Nat
  maximumBytesWrittenPerBlock : Nat
deriving DecidableEq

/-- `ResourceControlPolicy::default`: everything is free and nothing is limited. -/
def ResourceControlPolicy.default : ResourceControlPolicy where
  block := 0
  fuelUnit := 0
  readOperation := 0
  writeOperation := 0
  byteRead := 0
  byteWritten := 0
  byteStored := 0
  operation := 0
  operationByte := 0
  message := 0
  messageByte := 0
  maximumFuelPerBlock := u64Max
  maximumExecutedBlockSize := u64Max
  maximumBytecodeSize := u64Max
  maximumBlobSize := u64Max
  maximumBlockProposalSize := u64Max
  maximumBytesReadPerBlock := u64Max
  maximumBytesWrittenPerBlock := u64Max

/-- A set of validators, identified by their public keys, and their voting rights. -/
structure Committee where
  validators : BTreeMap ValidatorName ValidatorState
  policy : ResourceControlPolicy
deriving DecidableEq

namespace Committee

variable (c : Committee)

/-- The sum of all voting rights, in `u64` arithmetic. -/
def totalVotes : Nat :=
  c.validators.values.foldl (fun sum state => (sum + state.votes) % 2 ^ 64) 0

def quorumThreshold : Nat := 2 * c.totalVotes % 2 ^ 64 / 3 + 1

def validityThreshold : Nat := (c.totalVotes + 2) % 2 ^ 64 / 3

/-- The voting rights of a validator. -/
def weight (author : ValidatorName) : Nat :=
  match c.validators.get author with
  | some state => state.votes
  | none => 0

def keysAndWeights : List (PublicKey × Nat) :=
  c.validators.entries.map fun (name, validator) => (name, validator.votes)

theorem quorumThreshold_pos : 0 < c.quorumThreshold := Nat.succ_pos _

/-- The sum of all voting rights. -/
def votingRights : Nat := c.validators.sumBy fun _ state => state.votes

/-- The sum that `u64` arithmetic computes is the real one, unless it overflows. -/
theorem totalVotes_eq {c : Committee} (h : c.votingRights < 2 ^ 64) :
    c.totalVotes = c.votingRights := by
  have hfold : ∀ (states : List ValidatorState) (sum : Nat),
      states.foldl (fun sum state => (sum + state.votes) % 2 ^ 64) (sum % 2 ^ 64) =
        (sum + (states.map (·.votes)).sum) % 2 ^ 64 := by
    intro states
    induction states with
    | nil => simp
    | cons state rest ih =>
      intro sum
      rw [List.foldl_cons, Nat.mod_add_mod, ih, List.map_cons, List.sum_cons, add_assoc]
  have hvotes : (c.validators.values.map (·.votes)).sum = c.votingRights := by
    rw [votingRights, BTreeMap.sumBy, BTreeMap.values, List.map_map]
    rfl
  rw [totalVotes, ← Nat.zero_mod (2 ^ 64), hfold, zero_add, hvotes,
    Nat.mod_eq_of_lt h]

/-- The validators together have all the voting rights. -/
theorem sum_weight_keys : (c.validators.keys.map c.weight).sum = c.votingRights := by
  rw [votingRights, BTreeMap.sumBy, BTreeMap.keys, List.map_map]
  congr 1
  refine List.map_congr_left fun e he => ?_
  have hget : c.validators.get e.1 = some e.2 := (c.validators.mem_entries_iff e.1 e.2).mp he
  simp [weight, hget]

theorem sum_weight_le (names : Finset ValidatorName) :
    ∑ name ∈ names, c.weight name ≤ c.votingRights := by
  have hnodup : c.validators.keys.Nodup := c.validators.pairwise_keys.imp ne_of_lt
  rw [← c.sum_weight_keys, ← List.sum_toFinset _ hnodup]
  refine Finset.sum_le_sum_of_ne_zero fun name _ hweight => ?_
  rw [List.mem_toFinset, BTreeMap.mem_keys_iff]
  cases hget : c.validators.get name with
  | none => simp [weight, hget] at hweight
  | some state => rfl

theorem quorumThreshold_eq {c : Committee} (h : 2 * c.votingRights < 2 ^ 64) :
    c.quorumThreshold = 2 * c.votingRights / 3 + 1 := by
  rw [quorumThreshold, totalVotes_eq (by omega), Nat.mod_eq_of_lt h]

theorem validityThreshold_eq {c : Committee} (h : 2 * c.votingRights < 2 ^ 64) :
    c.validityThreshold = (c.votingRights + 2) / 3 := by
  rw [validityThreshold, totalVotes_eq (by omega), Nat.mod_eq_of_lt (by omega)]

end Committee

end Linera
