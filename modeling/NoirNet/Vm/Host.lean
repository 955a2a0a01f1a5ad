import NoirNet.Lib.Span
import NoirNet.Lib.Table
import NoirNet.Primitives

/-!
# The host functions of the VM

`noirnet_vm::host` and the `ExecutionContext` its functions work on.  A host
function reads its arguments from the guest's memory, charges gas for them and
then has its effect; what it has changed before it fails stays changed.

* `HostCall.perform_eq`: the common course of the four functions.
-/

namespace NoirNet.Vm

open Lib

/-! ## The context -/

structure ContractEvent where
  contract : Hash32
  data : Bytes
  deriving DecidableEq

inductive VmError where
  | wasmtime (e : String)
  | outOfGas
  | memoryViolation
  | invalidModule
  deriving DecidableEq

def VmError.message : VmError → String
  | .wasmtime e => "Wasmtime error: " ++ e
  | .outOfGas => "Out of gas"
  | .memoryViolation => "Memory access violation"
  | .invalidModule => "Invalid WASM module"

/-- `wasmtime::Memory`, a handle; the contents belong to the store. -/
inductive Memory where
  | exported
  deriving DecidableEq

structure ExecutionContext where
  contractId : Hash32
  callerCommitment : Bytes32
  gasRemaining : UInt64
  stateDiff : Table Bytes Bytes
  existingState : Table Bytes Bytes
  events : List ContractEvent
  memory : Option Memory

/-- The context the engine makes for a call. -/
def ExecutionContext.fresh (contractId : Hash32) (callerCommitment : Bytes32) (gasLimit : UInt64)
    (existingState : Table Bytes Bytes) : ExecutionContext where
  contractId := contractId
  callerCommitment := callerCommitment
  gasRemaining := gasLimit
  stateDiff := ∅
  existingState := existingState
  events := []
  memory := none

def ExecutionContext.chargeGas (ctx : ExecutionContext) (amount : UInt64) :
    Except VmError ExecutionContext :=
  if ctx.gasRemaining < amount then .error .outOfGas
  else .ok { ctx with gasRemaining := ctx.gasRemaining - amount }

/-- `wasmtime::Store<ExecutionContext>`: the context, the guest's linear memory and
its fuel counter as `get_fuel` reads it, zero once it is past zero.  `consumed` and
`charged` add up the fuel that instructions have cost and the amounts that went through
`charge_gas`; nothing reads them. -/
structure Store where
  data : ExecutionContext
  memory : Bytes := []
  fuel : Nat := 0
  consumed : Nat := 0
  charged : Nat := 0

/-- Why a guest ends before it returns. -/
inductive Stop where
  | trap (message : String)
  | panic (message : String)
  deriving DecidableEq

def vmTrap (e : VmError) : Stop := .trap e.message

/-- A host function: the store is left as it is when the function stops. -/
abbrev HostM := ExceptT Stop (StateM Store)

def HostM.on {α : Type} (f : HostM α) (store : Store) : Except Stop α × Store := f.run.run store

/-! ## Gas and memory -/

/-- `charge_gas` on the data of the store. -/
def chargeGas (amount : UInt64) : HostM Unit := do
  let store ← get
  match store.data.chargeGas amount with
  | .error e => throw (vmTrap e)
  | .ok data => set { store with data, charged := store.charged + amount.toNat }

def readMemory (ptr len : UInt32) : HostM Bytes := do
  let store ← get
  match store.data.memory with
  | none => throw (.panic "Memory not initialized")
  | some .exported =>
      if ptr.toNat + len.toNat > store.memory.length then throw (vmTrap .memoryViolation)
      return Span.read store.memory ptr.toNat len.toNat

def writeMemory (ptr : UInt32) (bytes : Bytes) : HostM Unit := do
  let store ← get
  match store.data.memory with
  | none => throw (.panic "Memory not initialized")
  | some .exported =>
      if ptr.toNat + bytes.length > store.memory.length then throw (vmTrap .memoryViolation)
      set { store with memory := Span.write store.memory ptr.toNat bytes }

/-! ## The functions -/

def storageSet (kPtr kLen vPtr vLen : UInt32) : HostM Unit := do
  let key ← readMemory kPtr kLen
  let val ← readMemory vPtr vLen
  chargeGas (500 + UInt64.ofNat val.length * 10)
  modify fun store =>
    { store with data.stateDiff := store.data.stateDiff.insert key val }

def emitEvent (dPtr dLen : UInt32) : HostM Unit := do
  let data ← readMemory dPtr dLen
  chargeGas (100 + UInt64.ofNat data.length * 5)
  modify fun store =>
    { store with data.events := store.data.events ++ [⟨store.data.contractId, data⟩] }

def sha3_256 [Blake3] (inPtr inLen outPtr : UInt32) : HostM Unit := do
  let data ← readMemory inPtr inLen
  chargeGas (50 + UInt64.ofNat data.length * 5)
  let hash := blake3Of data
  writeMemory outPtr hash.toList

/-- The length as an `i32`; -1 if there is no value. -/
def storageGet (kPtr kLen outPtr : UInt32) : HostM Int32 := do
  let key ← readMemory kPtr kLen
  chargeGas (200 + UInt64.ofNat key.length * 5)
  let store ← get
  -- the writes of this execution first, then the state it began with
  let value :=
    match store.data.stateDiff[key]? with
    | some v => some v
    | none => store.data.existingState[key]?
  match value with
  | some val =>
      let len := Int32.ofNat val.length
      writeMemory outPtr val
      return len
  | none => return -1

inductive HostCall where
  | storageSet (kPtr kLen vPtr vLen : UInt32)
  | emitEvent (dPtr dLen : UInt32)
  | sha3_256 (inPtr inLen outPtr : UInt32)
  | storageGet (kPtr kLen outPtr : UInt32)
  deriving DecidableEq

def HostCall.perform [Blake3] : HostCall → HostM (Option Int32)
  | .storageSet kPtr kLen vPtr vLen => do
      Vm.storageSet kPtr kLen vPtr vLen
      return none
  | .emitEvent dPtr dLen => do
      Vm.emitEvent dPtr dLen
      return none
  | .sha3_256 inPtr inLen outPtr => do
      Vm.sha3_256 inPtr inLen outPtr
      return none
  | .storageGet kPtr kLen outPtr => do
      return some (← Vm.storageGet kPtr kLen outPtr)

/-! ## The steps of a function -/

namespace Store

/-- The bytes of the guest's memory that a pointer and a length name. -/
def bytesAt (store : Store) (ptr len : UInt32) : Bytes :=
  Span.read store.memory ptr.toNat len.toNat

def charge (store : Store) (amount : UInt64) : Store :=
  { store with
    data.gasRemaining := store.data.gasRemaining - amount
    charged := store.charged + amount.toNat }

def lookup (store : Store) (key : Bytes) : Option Bytes :=
  store.data.stateDiff[key]?.or store.data.existingState[key]?

theorem lookup_eq (store : Store) (key : Bytes) :
    store.lookup key =
      match store.data.stateDiff[key]? with
      | some v => some v
      | none => store.data.existingState[key]? := by
  unfold lookup
  cases store.data.stateDiff[key]? with
  | some v => rfl
  | none => rfl

end Store

namespace HostM

variable {α β : Type}

@[simp] theorem on_throw (stop : Stop) (store : Store) :
    (throw stop : HostM α).on store = (.error stop, store) := rfl

@[simp] theorem on_get (store : Store) : (get : HostM Store).on store = (.ok store, store) := rfl

@[simp] theorem on_set (store' store : Store) :
    (set store' : HostM Unit).on store = (.ok (), store') := rfl

theorem on_bind (f : HostM α) (g : α → HostM β) (store : Store) :
    (f >>= g).on store =
      match f.on store with
      | (.ok a, store) => (g a).on store
      | (.error stop, store) => (.error stop, store) := by
  unfold HostM.on
  rw [ExceptT.run_bind, StateT.run_bind]
  cases f.run.run store with
  | mk r s =>
      cases r with
      | ok a => rfl
      | error stop => rfl

theorem on_bind_of_ok {f : HostM α} {store store' : Store} {a : α}
    (h : f.on store = (.ok a, store')) (g : α → HostM β) :
    (f >>= g).on store = (g a).on store' := by
  rw [on_bind, h]

theorem on_bind_of_error {f : HostM α} {store store' : Store} {stop : Stop}
    (h : f.on store = (.error stop, store')) (g : α → HostM β) :
    (f >>= g).on store = (.error stop, store') := by
  rw [on_bind, h]

end HostM

variable {α : Type} {store : Store}

theorem on_chargeGas_bind (amount : UInt64) (g : Unit → HostM α) (store : Store) :
    (chargeGas amount >>= g).on store =
      if store.data.gasRemaining < amount then (.error (vmTrap .outOfGas), store)
      else (g ()).on (store.charge amount) := by
  rw [chargeGas, bind_assoc, HostM.on_bind_of_ok (HostM.on_get store), ExecutionContext.chargeGas]
  by_cases hgas : store.data.gasRemaining < amount
  · rw [if_pos hgas, if_pos hgas]
    exact HostM.on_bind_of_error (HostM.on_throw _ store) g
  · rw [if_neg hgas, if_neg hgas]
    exact HostM.on_bind_of_ok (HostM.on_set _ store) g

theorem on_readMemory_bind (hmemory : store.data.memory = some .exported) (ptr len : UInt32)
    (g : Bytes → HostM α) :
    (readMemory ptr len >>= g).on store =
      if store.memory.length < ptr.toNat + len.toNat then (.error (vmTrap .memoryViolation), store)
      else (g (store.bytesAt ptr len)).on store := by
  rw [readMemory, bind_assoc, HostM.on_bind_of_ok (HostM.on_get store), hmemory]
  by_cases hout : store.memory.length < ptr.toNat + len.toNat
  · rw [if_pos hout]
    simp only [hout, if_true]
    exact HostM.on_bind_of_error (HostM.on_throw _ store) g
  · rw [if_neg hout]
    simp only [hout, if_false]
    rfl

theorem on_readMemory_bind_of_none (hmemory : store.data.memory = none) (ptr len : UInt32)
    (g : Bytes → HostM α) :
    (readMemory ptr len >>= g).on store = (.error (.panic "Memory not initialized"), store) := by
  rw [readMemory, bind_assoc, HostM.on_bind_of_ok (HostM.on_get store), hmemory]
  rfl

/-! ## The common course -/

namespace HostCall

def arguments : HostCall → List (UInt32 × UInt32)
  | .storageSet kPtr kLen vPtr vLen => [(kPtr, kLen), (vPtr, vLen)]
  | .emitEvent dPtr dLen => [(dPtr, dLen)]
  | .sha3_256 inPtr inLen _ => [(inPtr, inLen)]
  | .storageGet kPtr kLen _ => [(kPtr, kLen)]

def cost : HostCall → UInt64
  | .storageSet _ _ _ vLen => 500 + UInt64.ofNat vLen.toNat * 10
  | .emitEvent _ dLen => 100 + UInt64.ofNat dLen.toNat * 5
  | .sha3_256 _ inLen _ => 50 + UInt64.ofNat inLen.toNat * 5
  | .storageGet _ kLen _ => 200 + UInt64.ofNat kLen.toNat * 5

def InBounds (call : HostCall) (store : Store) : Prop :=
  ∀ range ∈ call.arguments, range.1.toNat + range.2.toNat ≤ store.memory.length

instance (call : HostCall) (store : Store) : Decidable (call.InBounds store) :=
  inferInstanceAs (Decidable (∀ range ∈ call.arguments, _))

end HostCall

/-- A write to the guest's memory, at the end of a function that returns `a`. -/
def Store.writeBack (store : Store) (ptr : UInt32) (bytes : Bytes) (a : Option Int32) :
    Except Stop (Option Int32) × Store :=
  if store.memory.length < ptr.toNat + bytes.length then
    (.error (vmTrap .memoryViolation), store)
  else (.ok a, { store with memory := Span.write store.memory ptr.toNat bytes })

theorem on_writeMemory_return (hmemory : store.data.memory = some .exported) (ptr : UInt32)
    (bytes : Bytes) (a : Option Int32) :
    (writeMemory ptr bytes >>= fun _ => pure a).on store = store.writeBack ptr bytes a := by
  rw [writeMemory, bind_assoc, HostM.on_bind_of_ok (HostM.on_get store), hmemory, Store.writeBack]
  by_cases hout : store.memory.length < ptr.toNat + bytes.length
  · rw [if_pos hout]
    simp only [hout, if_true]
    rfl
  · rw [if_neg hout]
    simp only [hout, if_false]
    rfl

def Store.answer (store : Store) (outPtr : UInt32) :
    Option Bytes → Except Stop (Option Int32) × Store
  | some val => store.writeBack outPtr val (some (Int32.ofNat val.length))
  | none => (.ok (some (-1)), store)

theorem on_answer_bind (hmemory : store.data.memory = some .exported) (outPtr : UInt32)
    (value : Option Bytes) :
    ((match value with
      | some val => writeMemory outPtr val >>= fun _ => pure (Int32.ofNat val.length)
      | none => pure (-1)) >>= fun n => pure (some n)).on store = store.answer outPtr value := by
  cases value with
  | some val =>
      dsimp only
      rw [bind_assoc]
      exact on_writeMemory_return hmemory outPtr val _
  | none => rfl

/-- What a call does once its arguments are read and charged. -/
def HostCall.effect [Blake3] (store : Store) : HostCall → Except Stop (Option Int32) × Store
  | .storageSet kPtr kLen vPtr vLen =>
      (.ok none,
        { store with
          data.stateDiff :=
            store.data.stateDiff.insert (store.bytesAt kPtr kLen) (store.bytesAt vPtr vLen) })
  | .emitEvent dPtr dLen =>
      (.ok none,
        { store with
          data.events :=
            store.data.events ++ [⟨store.data.contractId, store.bytesAt dPtr dLen⟩] })
  | .sha3_256 inPtr inLen outPtr =>
      store.writeBack outPtr (blake3Of (store.bytesAt inPtr inLen)).toList none
  | .storageGet kPtr kLen outPtr =>
      store.answer outPtr (store.lookup (store.bytesAt kPtr kLen))

theorem HostCall.perform_of_none [Blake3] (hmemory : store.data.memory = none) (call : HostCall) :
    call.perform.on store = (.error (.panic "Memory not initialized"), store) := by
  cases call with
  | storageSet kPtr kLen vPtr vLen =>
      rw [perform, Vm.storageSet, bind_assoc, on_readMemory_bind_of_none hmemory]
  | emitEvent dPtr dLen =>
      rw [perform, Vm.emitEvent, bind_assoc, on_readMemory_bind_of_none hmemory]
  | sha3_256 inPtr inLen outPtr =>
      rw [perform, Vm.sha3_256, bind_assoc, on_readMemory_bind_of_none hmemory]
  | storageGet kPtr kLen outPtr =>
      rw [perform, Vm.storageGet, bind_assoc, on_readMemory_bind_of_none hmemory]

theorem Store.bytesAt_length {ptr len : UInt32}
    (h : ptr.toNat + len.toNat ≤ store.memory.length) :
    (store.bytesAt ptr len).length = len.toNat :=
  Span.length_read h

theorem on_argument_bind {α : Type} (hmemory : store.data.memory = some .exported)
    (ptr len : UInt32) (base rate : UInt64) (g : Bytes → HostM α) :
    (readMemory ptr len >>= fun data =>
        chargeGas (base + UInt64.ofNat data.length * rate) >>= fun _ => g data).on store =
      if ¬ ptr.toNat + len.toNat ≤ store.memory.length then
        (.error (vmTrap .memoryViolation), store)
      else if store.data.gasRemaining < base + UInt64.ofNat len.toNat * rate then
        (.error (vmTrap .outOfGas), store)
      else
        (g (store.bytesAt ptr len)).on (store.charge (base + UInt64.ofNat len.toNat * rate)) := by
  rw [on_readMemory_bind hmemory]
  by_cases hfits : ptr.toNat + len.toNat ≤ store.memory.length
  · rw [if_neg (Nat.not_lt.mpr hfits), if_neg (not_not.mpr hfits), on_chargeGas_bind,
      Store.bytesAt_length hfits]
  · rw [if_pos (Nat.lt_of_not_le hfits), if_pos hfits]

theorem HostCall.inBounds_iff {call : HostCall} {ptr len : UInt32}
    (h : call.arguments = [(ptr, len)]) :
    call.InBounds store ↔ ptr.toNat + len.toNat ≤ store.memory.length := by
  rw [InBounds, h, List.forall_mem_singleton]

theorem HostCall.perform_eq [Blake3] (hmemory : store.data.memory = some .exported)
    (call : HostCall) :
    call.perform.on store =
      if ¬ call.InBounds store then (.error (vmTrap .memoryViolation), store)
      else if store.data.gasRemaining < call.cost then (.error (vmTrap .outOfGas), store)
      else call.effect (store.charge call.cost) := by
  have hcharged (amount : UInt64) : (store.charge amount).data.memory = some .exported := hmemory
  cases call with
  | storageSet kPtr kLen vPtr vLen =>
      have hbounds : (storageSet kPtr kLen vPtr vLen).InBounds store ↔
          kPtr.toNat + kLen.toNat ≤ store.memory.length ∧
            vPtr.toNat + vLen.toNat ≤ store.memory.length := by
        rw [InBounds, arguments, List.forall_mem_cons, List.forall_mem_singleton]
      simp only [perform, Vm.storageSet, bind_assoc]
      rw [on_readMemory_bind hmemory]
      by_cases hkey : kPtr.toNat + kLen.toNat ≤ store.memory.length
      · rw [if_neg (Nat.not_lt.mpr hkey), on_argument_bind hmemory]
        apply if_congr (not_congr (hbounds.trans (and_iff_right hkey)).symm) rfl
        rfl
      · rw [if_pos (Nat.lt_of_not_le hkey), if_pos (fun h => hkey (hbounds.mp h).1)]
  | emitEvent dPtr dLen =>
      simp only [perform, Vm.emitEvent, bind_assoc]
      rw [on_argument_bind hmemory]
      apply if_congr (not_congr (inBounds_iff rfl).symm) rfl
      rfl
  | sha3_256 inPtr inLen outPtr =>
      simp only [perform, Vm.sha3_256, bind_assoc]
      rw [on_argument_bind hmemory]
      apply if_congr (not_congr (inBounds_iff rfl).symm) rfl
      congr 1
      exact on_writeMemory_return (hcharged _) outPtr _ none
  | storageGet kPtr kLen outPtr =>
      simp only [perform, Vm.storageGet, bind_assoc]
      rw [on_argument_bind hmemory]
      apply if_congr (not_congr (inBounds_iff rfl).symm) rfl
      congr 1
      rw [HostM.on_bind_of_ok (HostM.on_get _)]
      calc
        _ = (store.charge _).answer outPtr _ := on_answer_bind (hcharged _) outPtr _
        _ = (store.charge _).answer outPtr ((store.charge _).lookup (store.bytesAt kPtr kLen)) :=
          congrArg (Store.answer _ outPtr) (Store.lookup_eq _ _).symm

/-! ## What a call leaves alone -/

structure Store.SameMeters (before after : Store) : Prop where
  gasRemaining : after.data.gasRemaining = before.data.gasRemaining
  existingState : after.data.existingState = before.data.existingState
  fuel : after.fuel = before.fuel
  consumed : after.consumed = before.consumed
  charged : after.charged = before.charged

theorem Store.sameMeters_writeBack (store : Store) (ptr : UInt32) (bytes : Bytes)
    (a : Option Int32) : SameMeters store (store.writeBack ptr bytes a).2 := by
  unfold writeBack
  split
  · exact ⟨rfl, rfl, rfl, rfl, rfl⟩
  · exact ⟨rfl, rfl, rfl, rfl, rfl⟩

theorem Store.writeBack_eq_of_error {ptr : UInt32} {bytes : Bytes} {a : Option Int32} {stop : Stop}
    (h : (store.writeBack ptr bytes a).1 = .error stop) :
    (store.writeBack ptr bytes a).2 = store := by
  revert h
  unfold writeBack
  split
  · intro _
    rfl
  · intro h
    cases h

namespace HostCall

variable [Blake3]

theorem sameMeters_effect (call : HostCall) (store : Store) :
    Store.SameMeters store (call.effect store).2 := by
  cases call with
  | storageSet kPtr kLen vPtr vLen => exact ⟨rfl, rfl, rfl, rfl, rfl⟩
  | emitEvent dPtr dLen => exact ⟨rfl, rfl, rfl, rfl, rfl⟩
  | sha3_256 inPtr inLen outPtr => exact store.sameMeters_writeBack outPtr _ none
  | storageGet kPtr kLen outPtr =>
      rw [effect]
      cases store.lookup (store.bytesAt kPtr kLen) with
      | some val => exact store.sameMeters_writeBack outPtr val _
      | none => exact ⟨rfl, rfl, rfl, rfl, rfl⟩

theorem effect_eq_of_error {call : HostCall} {stop : Stop}
    (h : (call.effect store).1 = .error stop) : (call.effect store).2 = store := by
  cases call with
  | storageSet kPtr kLen vPtr vLen => cases h
  | emitEvent dPtr dLen => cases h
  | sha3_256 inPtr inLen outPtr => exact Store.writeBack_eq_of_error h
  | storageGet kPtr kLen outPtr =>
      rw [effect] at h ⊢
      cases hval : store.lookup (store.bytesAt kPtr kLen) with
      | some val =>
          rw [hval] at h
          exact Store.writeBack_eq_of_error h
      | none => rfl

/-- The arguments of a call can be read and paid for. -/
structure Paid (call : HostCall) (store : Store) : Prop where
  memory : store.data.memory = some .exported
  bounds : call.InBounds store
  gas : call.cost ≤ store.data.gasRemaining

theorem perform_of_paid {call : HostCall} (h : call.Paid store) :
    call.perform.on store = call.effect (store.charge call.cost) := by
  rw [perform_eq h.memory, if_neg (not_not.mpr h.bounds), if_neg (UInt64.not_lt.mpr h.gas)]

/-- A call stops with nothing changed, or has its effect on the store charged for it. -/
theorem perform_cases (call : HostCall) (store : Store) :
    (∃ stop, call.perform.on store = (.error stop, store)) ∨
      call.Paid store ∧ call.perform.on store = call.effect (store.charge call.cost) := by
  by_cases hpaid : call.Paid store
  · exact .inr ⟨hpaid, perform_of_paid hpaid⟩
  · left
    cases hmemory : store.data.memory with
    | none => exact ⟨_, perform_of_none hmemory call⟩
    | some handle =>
        rw [perform_eq hmemory]
        by_cases hbounds : call.InBounds store
        · have hgas : store.data.gasRemaining < call.cost := by
            apply UInt64.not_le.mp
            intro hgas
            exact hpaid ⟨hmemory, hbounds, hgas⟩
          exact ⟨_, by rw [if_neg (not_not.mpr hbounds), if_pos hgas]⟩
        · exact ⟨_, if_pos hbounds⟩

theorem fuel_perform (call : HostCall) (store : Store) :
    (call.perform.on store).2.fuel = store.fuel := by
  obtain ⟨stop, h⟩ | ⟨_, h⟩ := perform_cases call store
  · rw [h]
  · rw [h]
    exact (call.sameMeters_effect _).fuel

end HostCall

end NoirNet.Vm
