import NoirNet.Validator

/-!
# The leader selector

`noirnet_consensus::leader`.
-/

namespace NoirNet

open Lib.Wire

structure LeaderSelector where
  activeValidators : List ValidatorState
  deriving DecidableEq

namespace LeaderSelector

/-- `LeaderSelector::new`: the validators, in the order of their ids. -/
def new (validators : List ValidatorState) : LeaderSelector where
  activeValidators := validators.insertionSort fun a b =>
    (compare a.registration.validatorId b.registration.validatorId).isLE

def seed [Blake3] (entropy : Bytes32) (round : UInt32) : Bytes32 :=
  Blake3.hash ("NoirNet_leader_selection_v1".toUTF8.toList ++ entropy.toList ++ putU32 round)

def totalStake (validators : List ValidatorState) : U128 :=
  validators.foldl (fun sum v => sum + v.totalStake) 0

/-- The loop of `select_leader`: the first validator whose cumulative stake exceeds the
target. -/
def selectFrom (target : U128) : U128 → List ValidatorState → Option ValidatorId
  | _, [] => none
  | cumulative, v :: rest =>
      let cumulative := cumulative + v.totalStake
      if cumulative > target then some v.registration.validatorId
      else selectFrom target cumulative rest

/-- `LeaderSelector::select_leader`; an error is the panic's text. -/
def selectLeader [Blake3] (selector : LeaderSelector) (entropy : Bytes32) (round : UInt32) :
    Except String ValidatorId :=
  match selector.activeValidators with
  | [] => .error "No active validators"
  | v :: rest =>
      let seed := seed entropy round
      let total := totalStake (v :: rest)
      if total = 0 then
        let idx := leValue (seed.toList.take 4) % (v :: rest).length
        .ok ((v :: rest).get ⟨idx, Nat.mod_lt _ (Nat.succ_pos _)⟩).registration.validatorId
      else
        let target := BitVec.ofNat 128 (leValue (seed.toList.take 16)) % total
        match selectFrom target 0 (v :: rest) with
        | some id => .ok id
        | none => .ok ((v :: rest).getLast (List.cons_ne_nil v rest)).registration.validatorId

end LeaderSelector

end NoirNet
