import NoirNet.Consensus.Execution
import NoirNet.Crypto.Stealth

/-!
# The token contract

`contracts/token`, on the two storage functions of `noirnet_vm::host`.  Events
are left out, because nothing reads them.  Gas, fuel and traps are the runtime's:
an execution that does not complete is a `VmError`, and what it wrote is gone.
-/

namespace NoirNet

open Lib Lib.Wire

/-- The storage of an `ExecutionContext`, as a running contract sees it. -/
structure HostState where
  stateDiff : Table Bytes Bytes := ∅
  existingState : Table Bytes Bytes

namespace HostState

/-- `storage_get`: the contract's own writes first; `none` is -1. -/
def storageGet (host : HostState) (key : Bytes) : Option Bytes :=
  match host.stateDiff[key]? with
  | some value => some value
  | none => host.existingState[key]?

def storageSet (host : HostState) (key value : Bytes) : HostState :=
  { host with stateDiff := host.stateDiff.insert key value }

end HostState

namespace Token

def balancePrefix : Bytes := "bal:".toUTF8.toList

def balanceKey (account : Bytes32) : Bytes := balancePrefix ++ account.toList

def totalSupplyKey : Bytes := "TOTAL_SUPPLY".toUTF8.toList

/-- A missing entry is a balance of 0; the others fill a buffer of eight zeros. -/
def getBalance (host : HostState) (account : Bytes32) : UInt64 :=
  match host.storageGet (balanceKey account) with
  | some value => UInt64.ofNat (leValue (slice 8 value 0).toList)
  | none => 0

def setBalance (host : HostState) (account : Bytes32) (amount : UInt64) : HostState :=
  host.storageSet (balanceKey account) (putU64 amount)

def treasury : Bytes32 := Vector.replicate 32 0

def recipient : Bytes32 := Vector.replicate 32 1

def totalSupply : UInt64 := 1000000000

def init (host : HostState) : HostState :=
  ((((setBalance host treasury totalSupply).storageSet
    totalSupplyKey (putU64 totalSupply)).storageSet
    "DECIMALS".toUTF8.toList [8]).storageSet
    "SYMBOL".toUTF8.toList "NOIR".toUTF8.toList).storageSet
    "NAME".toUTF8.toList "NoirNet Token".toUTF8.toList

def amount : UInt64 := 1000

def transfer (host : HostState) : HostState :=
  let fromBalance := getBalance host treasury
  if fromBalance < amount then host
  else
    let toBalance := getBalance host recipient
    let host := setBalance host treasury (fromBalance - amount)
    setBalance host recipient (toBalance + amount)

/-! ## Keys -/

theorem ne_of_prefixed {key key' : Bytes} (h : balancePrefix.isPrefixOf key = false)
    (h' : balancePrefix <+: key') : key ≠ key' := by
  rintro rfl
  rw [List.isPrefixOf_iff_prefix.mpr h'] at h
  cases h

theorem isPrefixOf_totalSupplyKey : balancePrefix.isPrefixOf totalSupplyKey = false := by
  decide +kernel

theorem metadataKeys_apart :
    ∀ key ∈ ["DECIMALS".toUTF8.toList, "SYMBOL".toUTF8.toList, "NAME".toUTF8.toList],
      key ≠ totalSupplyKey ∧ balancePrefix.isPrefixOf key = false := by
  decide +kernel

/-! ## Exports -/

inductive Export where
  | init
  | transfer
  deriving DecidableEq

def Export.run : Export → HostState → HostState
  | .init => Token.init
  | .transfer => Token.transfer

def exported : String → Option Export
  | "init" => some .init
  | "transfer" => some .transfer
  | _ => none

/-- A runtime that runs the compiled contract returns what the called export wrote.
It may fail at any call, for lack of gas or otherwise. -/
def Runs (vm : WasmRuntime) (bytecode : Bytes) : Prop :=
  ∀ method args ctx r, vm bytecode method args ctx = some r →
    ∃ f, exported method = some f ∧
      r.stateChanges = (f.run { existingState := ctx.existingState }).stateDiff

end Token

end NoirNet
