import Mathlib.Data.List.Sort
import NoirNet.Lib.Wire
import NoirNet.Types

/-!
# Validators and validator sets

`noirnet_types::validator`.  Stakes are `u128` and add modulo `2 ^ 128`, as in
the release profile.
-/

namespace NoirNet

def ValidatorRegistration.validatorId (registration : ValidatorRegistration) : ValidatorId :=
  registration.blsPubkey

def ValidatorState.totalStake (v : ValidatorState) : U128 := v.ownStake + v.delegatedStake

structure StakeEntry where
  blsPubkey : Bytes48
  networkPubkey : Bytes32
  totalStake : U128
  status : ValidatorStatus
  epochJoined : UInt64
  deriving DecidableEq

/-- `StakeEntry::id`: the first 32 bytes of the BLS key. -/
def StakeEntry.id (entry : StakeEntry) : Bytes32 := entry.blsPubkey.take 32

structure ValidatorSet where
  epoch : UInt64
  validators : List StakeEntry
  totalStake : U128
  quorumThreshold : Nat
  deriving DecidableEq

namespace ValidatorSet

/-- `ValidatorSet::new`: the active entries, by stake, largest first. -/
def new (epoch : UInt64) (validators : List StakeEntry) : ValidatorSet :=
  let active := validators.filter fun v => v.status = .active
  let sorted := active.insertionSort fun a b => b.totalStake ≤ a.totalStake
  let totalStake := sorted.foldl (fun sum v => sum + v.totalStake) 0
  { epoch, validators := sorted, totalStake, quorumThreshold := sorted.length * 2 / 3 + 1 }

def isEmpty (vals : ValidatorSet) : Bool := vals.validators.isEmpty

def len (vals : ValidatorSet) : Nat := vals.validators.length

def getById (vals : ValidatorSet) (id : Bytes32) : Option StakeEntry :=
  vals.validators.find? fun v => v.id = id

def hasQuorum (vals : ValidatorSet) (signedCount : Nat) : Bool :=
  signedCount ≥ vals.quorumThreshold

/-- The loop of `elect_leader`: the first entry whose cumulative stake exceeds
the threshold. -/
def electFrom (threshold : U128) : U128 → List StakeEntry → Option StakeEntry
  | _, [] => none
  | cumulative, v :: rest =>
      let cumulative := cumulative + v.totalStake
      if threshold < cumulative then some v else electFrom threshold cumulative rest

def electLeader (vals : ValidatorSet) (vrfOutput : Bytes32) (_epoch : UInt64) :
    Option StakeEntry :=
  if vals.isEmpty then none
  else
    let randVal : U128 := BitVec.ofNat 128 (Lib.Wire.leValue (vrfOutput.toList.take 16))
    -- `total_stake.max(1)`
    let threshold := randVal % (if vals.totalStake = 0 then 1 else vals.totalStake)
    match electFrom threshold 0 vals.validators with
    | some v => some v
    | none => vals.validators.head?

theorem getById_mem {vals : ValidatorSet} {id : Bytes32} {entry : StakeEntry}
    (h : vals.getById id = some entry) : entry ∈ vals.validators ∧ entry.id = id :=
  ⟨List.mem_of_find?_eq_some h, by simpa using List.find?_some h⟩

end ValidatorSet

end NoirNet
