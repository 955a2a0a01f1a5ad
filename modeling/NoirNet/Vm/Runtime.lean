import Mathlib.Data.List.Infix
import Mathlib.Data.PNat.Defs
import NoirNet.Vm.Host

/-!
# Executing a contract

`noirnet_vm::runtime`.  What `wasmtime` makes of the code is external: a compiled
module enters as a transition system that says what the guest does next.  The
fuel counter and the host functions are those of the store; the counter is only
looked at where the guest checks it.

An interruption by the epoch deadline is a trap of the guest like any other.

* `Completed`, `course_execute`: how an execution may go.
-/

namespace NoirNet.Vm

open Lib

/-! ## Guests -/

/-- What a guest does next.  The instructions that cost no fuel belong to the step of
the one that follows them. -/
inductive Action (σ : Type) where
  | finish
  | trap (message : String)
  /-- An instruction, with the memory it leaves. -/
  | instruction (cost : ℕ+) (memory : Bytes) (next : σ)
  | call (cost : ℕ+) (call : HostCall) (resume : Option Int32 → σ)
  /-- The entry of a function or the head of a loop, the only places where the fuel is
  looked at. -/
  | check (next : σ)

/-- `wasmtime::Module`.  No stretch of a guest is endless without a check, and no chain of
checks without an instruction. -/
structure Module where
  State : Type
  step : State → Bytes → Action State
  /-- The linear memory before the first instruction. -/
  memory : Bytes
  /-- Where instantiation begins: in the start function, or finished if there is none. -/
  initial : State
  /-- The module exports its memory under the name `memory`. -/
  exportsMemory : Bool
  /-- Enter an exported function without parameters and results. -/
  entry : String → Option (State → State)
  /-- How many instructions there can be before a check. -/
  stretch : State → Nat
  /-- How many checks there can be before an instruction. -/
  checks : State → Nat
  stretch_instruction : ∀ {σ memory cost memory' next},
    step σ memory = .instruction cost memory' next → stretch next < stretch σ
  stretch_call : ∀ {σ memory cost call resume},
    step σ memory = .call cost call resume → ∀ a, stretch (resume a) < stretch σ
  checks_check : ∀ {σ memory next}, step σ memory = .check next → checks next < checks σ

/-- The `wasmtime` crate. -/
class Wasmtime where
  /-- `Module::new` -/
  compile : Bytes → Except String Module
  /-- The text of the error if an import is none of the four host functions -/
  unlinked : Module → Option String
  /-- The text of a trap for lack of fuel -/
  outOfFuel : String
  /-- `Error::to_string` of the error a call ends with, from the text of its cause -/
  errorText : String → String

namespace Store

def new (data : ExecutionContext) : Store where
  data := data

/-- The store that a module is instantiated in, with the fuel set. -/
def instantiating (ctx : ExecutionContext) (module : Module) : Store :=
  { new ctx with
    fuel := ctx.gasRemaining.toNat
    memory := module.memory }

def setMemory (store : Store) : Store :=
  { store with data.memory := some .exported }

/-- Pay for an instruction; the counter may go past zero. -/
def burn (store : Store) (cost : ℕ+) : Store :=
  { store with
    fuel := store.fuel - cost
    consumed := store.consumed + cost }

def instruct (store : Store) (cost : ℕ+) (memory : Bytes) : Store :=
  { store.burn cost with memory }

theorem fuel_burn (store : Store) (cost : ℕ+) : (store.burn cost).fuel = store.fuel - cost := rfl

end Store

namespace Module

/-- Behind a payment there is less fuel, or none as before and a shorter stretch. -/
theorem lex_of_paid (m : Module) {σ τ : m.State} {fuel : Nat} (cost : ℕ+)
    (h : m.stretch τ < m.stretch σ) :
    Prod.Lex (· < ·) (· < ·)
      (fuel - cost, if fuel - cost = 0 then m.stretch τ else m.checks τ)
      (fuel, if fuel = 0 then m.stretch σ else m.checks σ) := by
  have hcost := cost.pos
  by_cases hfuel : fuel = 0
  · subst hfuel
    rw [Nat.zero_sub, if_pos rfl, if_pos rfl]
    exact .right _ h
  · exact .left _ _ (by omega)

end Module

/-- Run a guest until it finishes, traps or panics. -/
def Module.run [Blake3] [Wasmtime] (m : Module) (σ : m.State) (store : Store) :
    Except Stop m.State × Store :=
  match _hstep : m.step σ store.memory with
  | .finish => (.ok σ, store)
  | .trap message => (.error (.trap message), store)
  | .instruction cost memory next => m.run next (store.instruct cost memory)
  | .call cost call resume =>
      match _hcall : call.perform.on (store.burn cost) with
      | (.ok a, store') => m.run (resume a) store'
      | (.error stop, store') => (.error stop, store')
  | .check next =>
      if store.fuel = 0 then (.error (.trap Wasmtime.outOfFuel), store) else m.run next store
termination_by (store.fuel, if store.fuel = 0 then m.stretch σ else m.checks σ)
decreasing_by
  · exact m.lex_of_paid cost (m.stretch_instruction _hstep)
  · have hsame := call.fuel_perform (store.burn cost)
    rw [_hcall, Store.fuel_burn] at hsame
    rw [hsame]
    exact m.lex_of_paid cost (m.stretch_call _hstep a)
  · rename_i hfuel
    rw [if_neg hfuel, if_neg hfuel]
    exact .right _ (m.checks_check _hstep)

namespace Module

variable [Blake3] [Wasmtime] {m : Module} {σ next : m.State} {store : Store}

theorem run_of_finish (hstep : m.step σ store.memory = .finish) :
    m.run σ store = (.ok σ, store) := by
  rw [run]
  split <;> simp_all

theorem run_of_instruction {cost : ℕ+} {memory : Bytes}
    (hstep : m.step σ store.memory = .instruction cost memory next) :
    m.run σ store = m.run next (store.instruct cost memory) := by
  rw [run]
  split <;> simp_all

theorem run_of_call {cost : ℕ+} {call : HostCall} {resume : Option Int32 → m.State}
    {a : Option Int32} {store' : Store} (hstep : m.step σ store.memory = .call cost call resume)
    (hcall : call.perform.on (store.burn cost) = (.ok a, store')) :
    m.run σ store = m.run (resume a) store' := by
  rw [run]
  split <;> rename_i heq <;> rw [hstep] at heq <;> cases heq
  split <;> rename_i heq <;> rw [hcall] at heq <;> cases heq
  rfl

theorem run_of_check (hstep : m.step σ store.memory = .check next) :
    m.run σ store =
      if store.fuel = 0 then (.error (.trap Wasmtime.outOfFuel), store) else m.run next store := by
  rw [run]
  split <;> simp_all

end Module

/-! ## Execution -/

structure ExecutionResult where
  returnData : Bytes
  gasUsed : UInt64
  stateChanges : Table Bytes Bytes
  events : List ContractEvent

inductive Failure where
  | error (e : VmError)
  | panic (message : String)

/-- What `execute` returns of the store in the end. -/
def Store.result (store : Store) (gasLimit : UInt64) : ExecutionResult :=
  let remaining := UInt64.ofNat store.fuel
  -- `saturating_sub`
  let gasUsed := if gasLimit < remaining then 0 else gasLimit - remaining
  { returnData := []
    gasUsed
    stateChanges := store.data.stateDiff
    events := store.data.events }

def Stop.instantiation [Wasmtime] : Stop → Failure
  | .trap message => .error (.wasmtime (Wasmtime.errorText message))
  | .panic message => .panic message

def Stop.call [Wasmtime] : Stop → Failure
  | .trap message =>
      let text := Wasmtime.errorText message
      if "out of fuel".toList <:+: text.toList then .error .outOfGas
      else .error (.wasmtime text)
  | .panic message => .panic message

/-- `WasmRuntime::execute`, and the store it ends with. -/
def execute [Blake3] [Wasmtime] (code : Bytes) (method : String) (_args : Bytes)
    (ctx : ExecutionContext) : Except Failure ExecutionResult × Store :=
  match Wasmtime.compile code with
  | .error e => (.error (.error (.wasmtime e)), Store.new ctx)
  | .ok module =>
  let gasLimit := ctx.gasRemaining
  let store := Store.instantiating ctx module
  match Wasmtime.unlinked module with
  | some e => (.error (.error (.wasmtime e)), store)
  | none =>
  match module.run module.initial store with
  | (.error stop, store) => (.error stop.instantiation, store)
  | (.ok instantiated, store) =>
  if ¬ module.exportsMemory then (.error (.error .memoryViolation), store)
  else
  let store := store.setMemory
  match module.entry method with
  | none => (.error (.error .memoryViolation), store)
  | some func =>
  match module.run (func instantiated) store with
  | (.ok _, store) => (.ok (store.result gasLimit), store)
  | (.error stop, store) => (.error stop.call, store)

/-! ## The course of an execution -/

section

variable [Blake3] [Wasmtime]

/-- An execution that completes: the start function, then the function called. -/
structure Completed (code : Bytes) (method : String) (ctx : ExecutionContext) where
  module : Module
  instantiated : module.State
  started : Store
  func : module.State → module.State
  finished : module.State
  final : Store
  compiled : Wasmtime.compile code = .ok module
  start : module.run module.initial (Store.instantiating ctx module) = (.ok instantiated, started)
  exported : module.entry method = some func
  call : module.run (func instantiated) started.setMemory = (.ok finished, final)

theorem execute_of_completed {code : Bytes} {method : String} {ctx : ExecutionContext}
    (c : Completed code method ctx) (hlinked : Wasmtime.unlinked c.module = none)
    (hmemory : c.module.exportsMemory) (args : Bytes) :
    execute code method args ctx = (.ok (c.final.result ctx.gasRemaining), c.final) := by
  unfold execute
  rw [c.compiled]
  dsimp only
  rw [hlinked]
  dsimp only
  rw [c.start]
  dsimp only
  rw [if_neg (not_not.mpr hmemory), c.exported]
  dsimp only
  rw [c.call]

/-- How far an execution comes, with its outcome. -/
inductive Course (code : Bytes) (method : String) (ctx : ExecutionContext) :
    Except Failure ExecutionResult × Store → Prop
  | uncompiled (failure : Failure) : Course code method ctx (.error failure, Store.new ctx)
  | unlinked (m : Module) (failure : Failure) :
      Course code method ctx (.error failure, Store.instantiating ctx m)
  /-- The start function stops, or the memory is not exported. -/
  | started {m : Module} {result : Except Stop m.State} {store : Store} (failure : Failure)
      (hstart : m.run m.initial (Store.instantiating ctx m) = (result, store)) :
      Course code method ctx (.error failure, store)
  /-- The function is not exported. -/
  | unexported {m : Module} {result : Except Stop m.State} {store : Store} (failure : Failure)
      (hstart : m.run m.initial (Store.instantiating ctx m) = (result, store)) :
      Course code method ctx (.error failure, store.setMemory)
  /-- The function stops. -/
  | called {m : Module} {σ : m.State} {result result' : Except Stop m.State} {store final : Store}
      (failure : Failure) (hstart : m.run m.initial (Store.instantiating ctx m) = (result, store))
      (hcall : m.run σ store.setMemory = (result', final)) :
      Course code method ctx (.error failure, final)
  | completed (c : Completed code method ctx) :
      Course code method ctx (.ok (c.final.result ctx.gasRemaining), c.final)

theorem course_call {code : Bytes} {method : String} {ctx : ExecutionContext} {m : Module}
    {σ : m.State} {store : Store} {func : m.State → m.State}
    (hcompile : Wasmtime.compile code = .ok m)
    (hstart : m.run m.initial (Store.instantiating ctx m) = (.ok σ, store))
    (hentry : m.entry method = some func) :
    Course code method ctx
      (match m.run (func σ) store.setMemory with
      | (.ok _, final) => (.ok (final.result ctx.gasRemaining), final)
      | (.error stop, final) => (.error stop.call, final)) := by
  cases hcall : m.run (func σ) store.setMemory with
  | mk result final =>
      cases result with
      | error stop => exact .called _ hstart hcall
      | ok τ => exact .completed ⟨m, σ, store, func, τ, final, hcompile, hstart, hentry, hcall⟩

theorem course_execute (code : Bytes) (method : String) (args : Bytes) (ctx : ExecutionContext) :
    Course code method ctx (execute code method args ctx) := by
  unfold execute
  cases hcompile : Wasmtime.compile code with
  | error e => exact .uncompiled _
  | ok m =>
      dsimp only
      cases Wasmtime.unlinked m with
      | some e => exact .unlinked m _
      | none =>
          dsimp only
          cases hstart : m.run m.initial (Store.instantiating ctx m) with
          | mk result store =>
              cases result with
              | error stop => exact .started _ hstart
              | ok σ =>
                  dsimp only
                  by_cases hmemory : m.exportsMemory
                  · rw [if_neg (not_not.mpr hmemory)]
                    cases hentry : m.entry method with
                    | none => exact .unexported _ hstart
                    | some func => exact course_call hcompile hstart hentry
                  · rw [if_pos hmemory]
                    exact .started _ hstart

end

end NoirNet.Vm
