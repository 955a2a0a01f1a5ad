import NoirNet.Concrete
import NoirNet.Vm.Runtime

/-!
# Two meters

An execution pays for instructions with fuel and for host calls with
`gas_remaining`; both begin at the gas limit, and neither knows of the other.
Behind the last check of the fuel instructions still execute.

* `Store.Metered`, `Module.metered_run`: what goes off a meter is added to its total;
* `Module.alone_or_charged`: a guest that finishes has made no call or has paid for one;
* `gas_used_iff_alone`: `gas_used` is the sum of both exactly for a contract that
  makes no call and whose instructions stay within the limit.
-/

namespace NoirNet.Vm

open Lib

/-! ## The meters -/

/-- What goes off the meters between two stores is added to the totals; the fuel, until
there is none. -/
structure Store.Metered (before after : Store) : Prop where
  consumed : before.consumed ≤ after.consumed
  fuel : after.fuel = before.fuel - (after.consumed - before.consumed)
  gas : after.data.gasRemaining.toNat + after.charged =
    before.data.gasRemaining.toNat + before.charged
  charged : before.charged ≤ after.charged

namespace Store.Metered

variable {store store' store'' : Store}

theorem refl (store : Store) : Metered store store where
  consumed := Nat.le_refl _
  fuel := by rw [Nat.sub_self, Nat.sub_zero]
  gas := rfl
  charged := Nat.le_refl _

theorem trans (h : Metered store store') (h' : Metered store' store'') : Metered store store'' where
  consumed := h.consumed.trans h'.consumed
  fuel := by
    have hfirst := h.consumed
    have hsecond := h'.consumed
    rw [h'.fuel, h.fuel]
    omega
  gas := h'.gas.trans h.gas
  charged := h.charged.trans h'.charged

theorem of_sameMeters (h : SameMeters store store') : Metered store store' where
  consumed := h.consumed.ge
  fuel := by rw [h.fuel, h.consumed, Nat.sub_self, Nat.sub_zero]
  gas := by rw [h.gasRemaining, h.charged]
  charged := h.charged.ge

theorem charge {amount : UInt64} (h : amount ≤ store.data.gasRemaining) :
    Metered store (store.charge amount) where
  consumed := Nat.le_refl _
  fuel := (Metered.refl store).fuel
  gas := by
    have hle : amount.toNat ≤ store.data.gasRemaining.toNat := UInt64.le_iff_toNat_le.mp h
    have hsub : (store.charge amount).data.gasRemaining.toNat =
        store.data.gasRemaining.toNat - amount.toNat := UInt64.toNat_sub_of_le _ _ h
    have hadd : (store.charge amount).charged = store.charged + amount.toNat := rfl
    omega
  charged := Nat.le_add_right _ _

theorem burn (store : Store) (cost : ℕ+) : Metered store (store.burn cost) where
  consumed := Nat.le_add_right _ _
  fuel := by
    have hadd : (store.burn cost).consumed = store.consumed + cost := rfl
    rw [store.fuel_burn, hadd, Nat.add_sub_cancel_left]
  gas := rfl
  charged := Nat.le_refl _

theorem instruct (store : Store) (cost : ℕ+) (memory : Bytes) :
    Metered store (store.instruct cost memory) :=
  ⟨(burn store cost).consumed, (burn store cost).fuel, rfl, Nat.le_refl _⟩

end Store.Metered

section

variable [Blake3]

theorem HostCall.metered_perform (call : HostCall) (store : Store) :
    Store.Metered store (call.perform.on store).2 := by
  obtain ⟨stop, h⟩ | ⟨hpaid, h⟩ := perform_cases call store
  · rw [h]
    exact .refl store
  · rw [h]
    exact (Store.Metered.charge hpaid.gas).trans (.of_sameMeters (call.sameMeters_effect _))

omit [Blake3] in
theorem le_toNat_price {base rate : UInt64} (len : UInt32) (hbase : base.toNat ≤ 500)
    (hrate : rate.toNat ≤ 10) : base.toNat ≤ (base + UInt64.ofNat len.toNat * rate).toNat := by
  have hlen : len.toNat < 2 ^ 32 := len.toNat_lt
  have hmul : len.toNat * rate.toNat ≤ 2 ^ 32 * 10 := Nat.mul_le_mul hlen.le hrate
  rw [UInt64.toNat_add, UInt64.toNat_mul, UInt64.toNat_ofNat_of_lt' (hlen.trans (by decide)),
    Nat.mod_eq_of_lt (by omega), Nat.mod_eq_of_lt (by omega)]
  omega

omit [Blake3] in
theorem HostCall.le_cost (call : HostCall) : 50 ≤ call.cost.toNat := by
  cases call with
  | storageSet kPtr kLen vPtr vLen =>
      calc
        50 ≤ (500 : UInt64).toNat := by decide
        _ ≤ _ := le_toNat_price vLen (by decide) (by decide)
  | emitEvent dPtr dLen =>
      calc
        50 ≤ (100 : UInt64).toNat := by decide
        _ ≤ _ := le_toNat_price dLen (by decide) (by decide)
  | sha3_256 inPtr inLen outPtr =>
      calc
        50 = (50 : UInt64).toNat := rfl
        _ ≤ _ := le_toNat_price inLen (by decide) (by decide)
  | storageGet kPtr kLen outPtr =>
      calc
        50 ≤ (200 : UInt64).toNat := by decide
        _ ≤ _ := le_toNat_price kLen (by decide) (by decide)

theorem HostCall.charged_lt_of_ok {call : HostCall} {store store' : Store} {a : Option Int32}
    (h : call.perform.on store = (.ok a, store')) : store.charged < store'.charged := by
  obtain ⟨stop, hstop⟩ | ⟨_, heffect⟩ := perform_cases call store
  · rw [hstop] at h
    cases h
  · have hafter : store' = (call.effect (store.charge call.cost)).2 := by rw [← heffect, h]
    have hcharged : store'.charged = store.charged + call.cost.toNat := by
      rw [hafter]
      exact (call.sameMeters_effect _).charged
    have := call.le_cost
    omega

/-! ## Runs -/

namespace Module

variable [Wasmtime] (m : Module)

theorem metered_run (σ : m.State) (store : Store) : Store.Metered store (m.run σ store).2 := by
  fun_induction run m σ store with
  | case1 σ store hstep => exact .refl store
  | case2 σ store message hstep => exact .refl store
  | case3 σ store cost memory next hstep ih =>
      exact (Store.Metered.instruct store cost memory).trans ih
  | case4 σ store cost call resume hstep a store' hcall ih =>
      have hpaid := call.metered_perform (store.burn cost)
      rw [hcall] at hpaid
      exact (Store.Metered.burn store cost).trans (hpaid.trans ih)
  | case5 σ store cost call resume hstep stop store' hcall =>
      have hpaid := call.metered_perform (store.burn cost)
      rw [hcall] at hpaid
      exact (Store.Metered.burn store cost).trans hpaid
  | case6 σ store next hstep hfuel => exact .refl store
  | case7 σ store next hstep hfuel ih => exact ih

/-- From `σ` the guest finishes at `τ` without a host call, by instructions of this cost. -/
inductive Alone : m.State → Bytes → m.State → Bytes → Nat → Prop
  | finish {σ : m.State} {memory : Bytes} (hstep : m.step σ memory = .finish) :
      Alone σ memory σ memory 0
  | instruction {σ next τ : m.State} {memory memory' memory'' : Bytes} {cost : ℕ+} {n : Nat}
      (hstep : m.step σ memory = .instruction cost memory' next)
      (hrest : Alone next memory' τ memory'' n) : Alone σ memory τ memory'' (cost + n)
  | check {σ next τ : m.State} {memory memory' : Bytes} {n : Nat}
      (hstep : m.step σ memory = .check next) (hrest : Alone next memory τ memory' n) :
      Alone σ memory τ memory' n

variable {m}

/-- A guest that finishes has made no call or has paid for one. -/
theorem alone_or_charged {σ τ : m.State} {store store' : Store}
    (h : m.run σ store = (.ok τ, store')) :
    (∃ n, m.Alone σ store.memory τ store'.memory n) ∨ store.charged < store'.charged := by
  revert h
  fun_induction run m σ store with
  | case1 σ store hstep =>
      intro h
      cases h
      exact .inl ⟨0, .finish hstep⟩
  | case2 σ store message hstep =>
      intro h
      cases h
  | case3 σ store cost memory next hstep ih =>
      intro h
      refine (ih h).imp_left ?_
      rintro ⟨n, hrest⟩
      exact ⟨_, .instruction hstep hrest⟩
  | case4 σ store cost call resume hstep a after hcall ih =>
      intro h
      right
      have hlater := (m.metered_run (resume a) after).charged
      rw [h] at hlater
      exact (HostCall.charged_lt_of_ok hcall).trans_le hlater
  | case5 σ store cost call resume hstep stop after hcall =>
      intro h
      cases h
  | case6 σ store next hstep hfuel =>
      intro h
      cases h
  | case7 σ store next hstep hfuel ih =>
      intro h
      refine (ih h).imp_left ?_
      rintro ⟨n, hrest⟩
      exact ⟨n, .check hstep hrest⟩

theorem run_of_alone {σ τ : m.State} {memory memory' : Bytes} {n : Nat}
    (halone : m.Alone σ memory τ memory' n) {store store' : Store} {τ' : m.State}
    (hmemory : store.memory = memory) (h : m.run σ store = (.ok τ', store')) :
    τ' = τ ∧ store'.memory = memory' ∧ store'.charged = store.charged ∧
      store'.consumed = store.consumed + n := by
  revert store
  induction halone with
  | finish hstep =>
      intro store hmemory h
      subst hmemory
      rw [run_of_finish hstep] at h
      cases h
      exact ⟨rfl, rfl, rfl, rfl⟩
  | @instruction σ next τ memory memory' memory'' cost n hstep hrest ih =>
      intro store hmemory h
      subst hmemory
      rw [run_of_instruction hstep] at h
      obtain ⟨hτ, hafter, hcharged, hconsumed⟩ := @ih (store.instruct cost memory') rfl h
      have hadd : (store.instruct cost memory').consumed = store.consumed + cost := rfl
      exact ⟨hτ, hafter, hcharged, by rw [hconsumed, hadd, Nat.add_assoc]⟩
  | check hstep hrest ih =>
      intro store hmemory h
      subst hmemory
      rw [run_of_check hstep] at h
      by_cases hfuel : store.fuel = 0
      · rw [if_pos hfuel] at h
        cases h
      · rw [if_neg hfuel] at h
        exact ih rfl h

end Module

/-! ## Executions -/

variable [Wasmtime]

variable {code : Bytes} {method : String} {args : Bytes} {ctx : ExecutionContext}
  {r : ExecutionResult}

theorem completed_of_ok (h : (execute code method args ctx).1 = .ok r) :
    ∃ c : Completed code method ctx, (execute code method args ctx).2 = c.final ∧
      r = c.final.result ctx.gasRemaining := by
  revert h
  generalize hcourse : execute code method args ctx = outcome
  cases hcourse ▸ course_execute code method args ctx with
  | completed c =>
      intro h
      exact ⟨c, rfl, (Except.ok.inj h).symm⟩
  | _ =>
      intro h
      cases h

/-- The contract comes to its end without a host call, by instructions of this cost. -/
def EndsAlone (code : Bytes) (method : String) (n : Nat) : Prop :=
  ∃ m : Module, Wasmtime.compile code = .ok m ∧
    ∃ σ memory start, m.Alone m.initial m.memory σ memory start ∧
      ∃ func, m.entry method = some func ∧
        ∃ τ memory' rest, m.Alone (func σ) memory τ memory' rest ∧ n = start + rest

namespace Completed

variable (c : Completed code method ctx)

theorem metered : Store.Metered (Store.instantiating ctx c.module) c.final := by
  have hstart := c.module.metered_run c.module.initial (Store.instantiating ctx c.module)
  have hcall := c.module.metered_run (c.func c.instantiated) c.started.setMemory
  rw [c.start] at hstart
  rw [c.call] at hcall
  exact hstart.trans ⟨hcall.consumed, hcall.fuel, hcall.gas, hcall.charged⟩

/-- What a contract that makes no call has consumed. -/
theorem meters_of_endsAlone {n : Nat} (h : EndsAlone code method n) :
    c.final.charged = 0 ∧ c.final.consumed = n := by
  obtain ⟨m, hcompile, σ, memory, start, hstart, func, hentry, τ, memory', rest, hcall, rfl⟩ := h
  obtain rfl : c.module = m := Except.ok.inj (c.compiled.symm.trans hcompile)
  obtain ⟨rfl, rfl, hcharged, hconsumed⟩ := Module.run_of_alone hstart rfl c.start
  obtain rfl : c.func = func := Option.some.inj (c.exported.symm.trans hentry)
  have hsame : c.started.setMemory.memory = c.started.memory := rfl
  obtain ⟨-, -, hcharged', hconsumed'⟩ := Module.run_of_alone hcall hsame c.call
  have hnone : (Store.instantiating ctx c.module).consumed = 0 := rfl
  rw [hnone, Nat.zero_add] at hconsumed
  refine ⟨hcharged'.trans hcharged, ?_⟩
  calc
    c.final.consumed = c.started.consumed + rest := hconsumed'
    _ = start + rest := by rw [hconsumed]

/-- Only a contract that makes no call is charged nothing. -/
theorem endsAlone_of_charged (hzero : c.final.charged = 0) : ∃ n, EndsAlone code method n := by
  have hcall := c.module.metered_run (c.func c.instantiated) c.started.setMemory
  rw [c.call] at hcall
  have hlater : c.started.charged ≤ c.final.charged := hcall.charged
  obtain ⟨start, hstart⟩ | hpaid := Module.alone_or_charged c.start
  · obtain ⟨rest, hrest⟩ | hpaid := Module.alone_or_charged c.call
    · exact ⟨_, c.module, c.compiled, c.instantiated, c.started.memory, start, hstart, c.func,
        c.exported, c.finished, c.final.memory, rest, hrest, rfl⟩
    · have hpaid : c.started.charged < c.final.charged := hpaid
      omega
  · have hpaid : 0 < c.started.charged := hpaid
    omega

theorem toNat_gasUsed :
    (c.final.result ctx.gasRemaining).gasUsed.toNat =
      min c.final.consumed ctx.gasRemaining.toNat := by
  have hfuel : c.final.fuel = ctx.gasRemaining.toNat - c.final.consumed := c.metered.fuel
  have hremaining : (UInt64.ofNat c.final.fuel).toNat = c.final.fuel := by
    apply UInt64.toNat_ofNat_of_lt'
    calc
      c.final.fuel ≤ ctx.gasRemaining.toNat := by omega
      _ < UInt64.size := ctx.gasRemaining.toNat_lt
  have hle : UInt64.ofNat c.final.fuel ≤ ctx.gasRemaining := by
    rw [UInt64.le_iff_toNat_le, hremaining]
    omega
  rw [Store.result]
  dsimp only
  rw [if_neg (UInt64.not_lt.mpr hle), UInt64.toNat_sub_of_le _ _ hle, hremaining]
  omega

end Completed

/-- The fuel consumed and the amounts charged stay within the gas limit together, and
`gas_used` is their sum, exactly if the contract makes no host call and its instructions cost
at most the limit: each meter alone begins at the limit, `gas_used` is read off the first, and
what is consumed behind the last check is not bounded by it. -/
theorem gas_used_iff_alone (h : (execute code method args ctx).1 = .ok r) :
    let store := (execute code method args ctx).2
    (store.consumed + store.charged ≤ ctx.gasRemaining.toNat ∧
        r.gasUsed.toNat = store.consumed + store.charged) ↔
      ∃ n ≤ ctx.gasRemaining.toNat, EndsAlone code method n := by
  obtain ⟨c, hfinal, hresult⟩ := completed_of_ok h
  intro store
  have hstore : store = c.final := hfinal
  rw [hstore, hresult, c.toNat_gasUsed]
  constructor
  · rintro ⟨hwithin, hreported⟩
    have hzero : c.final.charged = 0 := by omega
    obtain ⟨n, halone⟩ := c.endsAlone_of_charged hzero
    obtain ⟨-, hconsumed⟩ := c.meters_of_endsAlone halone
    exact ⟨n, by omega, halone⟩
  · rintro ⟨n, hle, halone⟩
    obtain ⟨hzero, hconsumed⟩ := c.meters_of_endsAlone halone
    rw [hzero, hconsumed]
    exact ⟨hle, Nat.min_eq_left hle⟩

end

/-! ## A call and an instruction -/

section

/-- Where a guest is: at the check before an event or before an instruction, at one of these,
or done. -/
inductive Point where
  | beforeEvent
  | event
  | beforeInstruction
  | instruction
  | done

/-- The call costs 1 unit of fuel. -/
def callFuel : ℕ+ := Nat.succPNat 0

/-- The instruction behind it costs 3. -/
def instructionFuel : ℕ+ := Nat.succPNat 2

/-- A module whose function emits an empty event if `emits`, and then executes an
instruction. -/
def emitting (emits : Bool) : Module where
  State := Point
  step
    | .beforeEvent, _ => .check .event
    | .event, _ => .call callFuel (.emitEvent 0 0) fun _ => .instruction
    | .beforeInstruction, _ => .check .instruction
    | .instruction, memory => .instruction instructionFuel memory .done
    | .done, _ => .finish
  memory := []
  initial := .done
  exportsMemory := true
  entry _ := some fun _ => if emits then .beforeEvent else .beforeInstruction
  stretch
    | .event => 2
    | .instruction => 1
    | _ => 0
  checks
    | .beforeEvent | .beforeInstruction => 1
    | _ => 0
  stretch_instruction {σ _ _ _ _} h := by
    cases σ <;> cases h
    decide
  stretch_call {σ _ _ _ _} h _ := by
    cases σ <;> cases h
    exact Nat.lt_add_one 1
  checks_check {σ _ _} h := by
    cases σ <;> cases h <;> decide

@[reducible] def Wasmtime.emitting : Wasmtime where
  compile code := .ok (Vm.emitting (!code.isEmpty))
  unlinked _ := none
  outOfFuel := "all fuel consumed by WebAssembly"
  errorText := id

attribute [local instance] Blake3.sum Wasmtime.emitting

def limited (gasLimit : UInt64) : ExecutionContext := .fresh Hash32.ZERO Hash32.ZERO gasLimit ∅

def called (emits : Bool) (gasLimit : UInt64) : Store :=
  (Store.instantiating (limited gasLimit) (emitting emits)).setMemory

def charged : Store := ((HostCall.emitEvent 0 0).perform.on ((called true 100).burn callFuel)).2

theorem on_emitEvent :
    (HostCall.emitEvent 0 0).perform.on ((called true 100).burn callFuel) = (.ok none, charged) :=
  rfl

def emitted : Completed [0] "run" (limited 100) where
  module := emitting true
  instantiated := Point.done
  started := Store.instantiating (limited 100) (emitting true)
  func _ := Point.beforeEvent
  finished := Point.done
  final := charged.instruct instructionFuel []
  compiled := rfl
  start := Module.run_of_finish rfl
  exported := rfl
  call := by
    have hevent : (emitting true).step Point.event (called true 100).memory =
        .call callFuel (.emitEvent 0 0) fun _ => Point.instruction := rfl
    calc
      _ = (emitting true).run Point.event (called true 100) := Module.run_of_check rfl
      _ = (emitting true).run Point.instruction charged := Module.run_of_call hevent on_emitEvent
      _ = (emitting true).run Point.done _ := Module.run_of_instruction rfl
      _ = _ := Module.run_of_finish rfl

def quiet : Completed [] "run" (limited 10) where
  module := emitting false
  instantiated := Point.done
  started := Store.instantiating (limited 10) (emitting false)
  func _ := Point.beforeInstruction
  finished := Point.done
  final := (called false 10).instruct instructionFuel []
  compiled := rfl
  start := Module.run_of_finish rfl
  exported := rfl
  call := by
    calc
      _ = (emitting false).run Point.instruction (called false 10) := Module.run_of_check rfl
      _ = (emitting false).run Point.done _ := Module.run_of_instruction rfl
      _ = _ := Module.run_of_finish rfl

theorem emitting_exceeds_limit :
    let store := (execute [0] "run" [] (limited 100)).2
    ∃ r, (execute [0] "run" [] (limited 100)).1 = .ok r ∧ r.gasUsed = 4 ∧
      ¬ (store.consumed + store.charged ≤ (limited 100).gasRemaining.toNat ∧
        r.gasUsed.toNat = store.consumed + store.charged) := by
  rw [execute_of_completed emitted rfl rfl]
  have hspent : emitted.final.consumed + emitted.final.charged = 104 := by decide +kernel
  refine ⟨_, rfl, by decide +kernel, ?_⟩
  rw [hspent]
  exact fun h => absurd h.1 (by decide)

theorem quiet_gas_used :
    let store := (execute [] "run" [] (limited 10)).2
    ∃ r, (execute [] "run" [] (limited 10)).1 = .ok r ∧
      store.consumed + store.charged ≤ (limited 10).gasRemaining.toNat ∧
        r.gasUsed.toNat = store.consumed + store.charged := by
  have hok : (execute [] "run" [] (limited 10)).1 =
      .ok (quiet.final.result (limited 10).gasRemaining) := by
    rw [execute_of_completed quiet rfl rfl]
  have hend : (emitting false).Alone Point.done [] Point.done [] 0 := .finish rfl
  have hinstruction : (emitting false).Alone Point.instruction [] Point.done []
      (instructionFuel + 0) := .instruction rfl hend
  have hcall : (emitting false).Alone Point.beforeInstruction [] Point.done [] 3 :=
    .check rfl hinstruction
  exact ⟨_, hok, (gas_used_iff_alone hok).mpr
    ⟨3, by decide, emitting false, rfl, Point.done, [], 0, hend,
      fun _ => Point.beforeInstruction, rfl, Point.done, [], 3, hcall, rfl⟩⟩

end

end NoirNet.Vm
