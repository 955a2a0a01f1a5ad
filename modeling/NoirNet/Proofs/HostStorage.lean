import Mathlib.Algebra.Order.Ring.Nat
import NoirNet.Contracts.Token
import NoirNet.Lib.Machine
import NoirNet.Lib.Overlay
import NoirNet.Proofs.GasMetering

/-!
# The storage that a contract sees

Between an execution and its guest stands a machine whose inputs are the
instructions, which may leave any memory behind, and the host calls.  Its outputs
are the completed writes.

* `Tracks`, `tracks_step`: the store against the log of writes;
* `get_iff`, `overlays_iff`: what is promised of one step holds unless `storage_get`
  reads a value whose length is no `i32`;
* `host_storage_overlay_iff`: whole runs;
* `hostState_perform`, `hostState_perform_storageSet`: the storage of the token contract;
* `execute_eq_final`, `stateChanges_of_ok`: every execution is such a run.
-/

namespace NoirNet.Vm

open Lib

section

variable [Blake3]

/-! ## The machine -/

inductive HostEvent where
  | instruction (cost : ℕ+) (memory : Bytes)
  | setMemory
  | call (call : HostCall)

def HostCall.write (store : Store) : HostCall → Option (Bytes × Bytes)
  | .storageSet kPtr kLen vPtr vLen => some (store.bytesAt kPtr kLen, store.bytesAt vPtr vLen)
  | _ => none

def hostMachine : Machine Store HostEvent (Bytes × Bytes) where
  step store
    | .instruction cost memory => (store.instruct cost memory, [])
    | .setMemory => (store.setMemory, [])
    | .call call =>
        match call.perform.on store with
        | (.ok _, store') => (store', (call.write store).toList)
        | (.error _, store') => (store', [])

theorem step_call (call : HostCall) (store : Store) :
    (hostMachine.step store (.call call)).1 = (call.perform.on store).2 := by
  unfold hostMachine
  dsimp only
  split
  · rename_i a after h
    rw [h]
  · rename_i stop after h
    rw [h]

/-! ## What is promised -/

def valueOf (existingState : Table Bytes Bytes) (writes : List (Bytes × Bytes)) (key : Bytes) :
    Option Bytes :=
  (Table.latest writes key).or existingState[key]?

/-- `storage_get` has answered `n` for a key with the value given. -/
structure Answers (value : Option Bytes) (outPtr : UInt32) (before after : Store) (n : Int32) :
    Prop where
  found : ∀ v, value = some v →
    Span.Wrote before.memory after.memory outPtr.toNat v ∧ 0 ≤ n.toInt ∧ n.toInt = v.length
  missing : n = -1 ↔ value = none

/-- What is promised of a step after the writes so far. -/
structure Overlays (start : Store) (s : Store × List (Bytes × Bytes)) (event : HostEvent) :
    Prop where
  get : ∀ kPtr kLen outPtr n after, event = .call (.storageGet kPtr kLen outPtr) →
    (HostCall.storageGet kPtr kLen outPtr).perform.on s.1 = (.ok (some n), after) →
    Answers (valueOf start.data.existingState s.2 (s.1.bytesAt kPtr kLen)) outPtr s.1 after n
  existingState : (hostMachine.step s.1 event).1.data.existingState = start.data.existingState
  charged : (hostMachine.step s.1 event).1.charged ≤ start.data.gasRemaining.toNat
  stopped : ∀ call stop after, event = .call call → call.perform.on s.1 = (.error stop, after) →
    after.data.stateDiff = s.1.data.stateDiff ∧ after.data.events = s.1.data.events ∧
      after.memory = s.1.memory

/-- A `storage_get` that is paid for and whose value fits into the memory reads
less than 2^31 bytes. -/
def ReadsShort (store : Store) : HostEvent → Prop
  | .call (.storageGet kPtr kLen outPtr) =>
      (HostCall.storageGet kPtr kLen outPtr).Paid store →
        ∀ v, store.lookup (store.bytesAt kPtr kLen) = some v →
          outPtr.toNat + v.length ≤ store.memory.length → v.length < 2 ^ 31
  | _ => True

/-! ## The store and the log -/

structure Tracks (start : Store) (s : Store × List (Bytes × Bytes)) : Prop where
  stateDiff : ∀ key : Bytes, s.1.data.stateDiff[key]? = Table.latest s.2 key
  existingState : s.1.data.existingState = start.data.existingState
  gas : s.1.data.gasRemaining.toNat + s.1.charged = start.data.gasRemaining.toNat

theorem HostCall.existingState_perform (call : HostCall) (store : Store) :
    (call.perform.on store).2.data.existingState = store.data.existingState := by
  obtain ⟨stop, h⟩ | ⟨_, h⟩ := perform_cases call store
  · rw [h]
  · rw [h]
    exact (call.sameMeters_effect _).existingState

/-- A call that stops changes neither the writes, nor the events, nor the memory. -/
theorem HostCall.unchanged_of_error {call : HostCall} {store after : Store} {stop : Stop}
    (h : call.perform.on store = (.error stop, after)) :
    after.data.stateDiff = store.data.stateDiff ∧ after.data.events = store.data.events ∧
      after.memory = store.memory := by
  obtain ⟨_, hstop⟩ | ⟨_, heffect⟩ := perform_cases call store
  · have hafter : store = after := congrArg Prod.snd (hstop.symm.trans h)
    rw [hafter]
    exact ⟨rfl, rfl, rfl⟩
  · have heffect := heffect.symm.trans h
    have hafter : store.charge call.cost = after :=
      (effect_eq_of_error (congrArg Prod.fst heffect)).symm.trans (congrArg Prod.snd heffect)
    rw [← hafter]
    exact ⟨rfl, rfl, rfl⟩

omit [Blake3] in
theorem data_writeBack (store : Store) (ptr : UInt32) (bytes : Bytes) (a : Option Int32) :
    (store.writeBack ptr bytes a).2.data = store.data := by
  unfold Store.writeBack
  split
  · rfl
  · rfl

theorem HostCall.stateDiff_effect {call : HostCall} {store : Store} (h : call.write store = none)
    (charged : Store) : (call.effect charged).2.data.stateDiff = charged.data.stateDiff := by
  cases call with
  | storageSet kPtr kLen vPtr vLen => cases h
  | emitEvent dPtr dLen => rfl
  | sha3_256 inPtr inLen outPtr => rw [effect, data_writeBack]
  | storageGet kPtr kLen outPtr =>
      rw [effect]
      cases charged.lookup (charged.bytesAt kPtr kLen) with
      | some val => rw [Store.answer, data_writeBack]
      | none => rfl

theorem HostCall.stateDiff_perform {call : HostCall} {store : Store}
    (h : call.write store = none) :
    (call.perform.on store).2.data.stateDiff = store.data.stateDiff := by
  obtain ⟨stop, hstop⟩ | ⟨_, heffect⟩ := perform_cases call store
  · rw [hstop]
  · rw [heffect]
    exact stateDiff_effect h _

theorem outputs_of_write_eq_none {call : HostCall} {store : Store} (h : call.write store = none) :
    (hostMachine.step store (.call call)).2 = [] := by
  unfold hostMachine
  dsimp only
  split
  · rw [h]
    rfl
  · rfl

theorem step_storageSet_of_paid {store : Store} {kPtr kLen vPtr vLen : UInt32}
    (h : (HostCall.storageSet kPtr kLen vPtr vLen).Paid store) :
    let after := hostMachine.step store (.call (.storageSet kPtr kLen vPtr vLen))
    after.1.data.stateDiff =
        store.data.stateDiff.insert (store.bytesAt kPtr kLen) (store.bytesAt vPtr vLen) ∧
      after.2 = [(store.bytesAt kPtr kLen, store.bytesAt vPtr vLen)] := by
  unfold hostMachine
  dsimp only
  rw [HostCall.perform_of_paid h]
  exact ⟨rfl, rfl⟩

theorem step_of_stops {call : HostCall} {store : Store} {stop : Stop}
    (h : call.perform.on store = (.error stop, store)) :
    hostMachine.step store (.call call) = (store, []) := by
  unfold hostMachine
  dsimp only
  rw [h]

theorem tracks_step {start : Store} (s : Store × List (Bytes × Bytes)) (event : HostEvent)
    (h : Tracks start s) : Tracks start (hostMachine.recorded.step s event).1 := by
  cases event with
  | instruction cost memory =>
      refine ⟨?_, h.existingState, h.gas⟩
      intro key
      exact (h.stateDiff key).trans (congrArg (Table.latest · key) (List.append_nil s.2).symm)
  | setMemory =>
      refine ⟨?_, h.existingState, h.gas⟩
      intro key
      exact (h.stateDiff key).trans (congrArg (Table.latest · key) (List.append_nil s.2).symm)
  | call call =>
      have hexisting := (call.existingState_perform s.1).trans h.existingState
      have hgas := (call.metered_perform s.1).gas.trans h.gas
      rw [← step_call] at hexisting hgas
      refine ⟨?_, hexisting, hgas⟩
      intro key
      show (hostMachine.step s.1 (.call call)).1.data.stateDiff[key]? =
        Table.latest (s.2 ++ (hostMachine.step s.1 (.call call)).2) key
      cases hwrite : call.write s.1 with
      | none =>
          rw [outputs_of_write_eq_none hwrite, List.append_nil, step_call,
            HostCall.stateDiff_perform hwrite]
          exact h.stateDiff key
      | some entry =>
          cases call with
          | storageSet kPtr kLen vPtr vLen =>
              obtain ⟨stop, hstop⟩ | ⟨hpaid, _⟩ :=
                HostCall.perform_cases (.storageSet kPtr kLen vPtr vLen) s.1
              · rw [step_of_stops hstop, List.append_nil]
                exact h.stateDiff key
              · obtain ⟨hinsert, hlog⟩ := step_storageSet_of_paid hpaid
                rw [hinsert, hlog, Table.get_insert, Table.latest_concat, h.stateDiff]
          | emitEvent dPtr dLen => cases hwrite
          | sha3_256 inPtr inLen outPtr => cases hwrite
          | storageGet kPtr kLen outPtr => cases hwrite

/-! ## One step -/

section

omit [Blake3]

theorem Tracks.valueOf_eq {start : Store} {s : Store × List (Bytes × Bytes)} (h : Tracks start s)
    (key : Bytes) : valueOf start.data.existingState s.2 key = s.1.lookup key := by
  rw [valueOf, Store.lookup, h.stateDiff, h.existingState]

theorem writeBack_of_fits {store : Store} {ptr : UInt32} {bytes : Bytes}
    (h : ptr.toNat + bytes.length ≤ store.memory.length) (a : Option Int32) :
    store.writeBack ptr bytes a =
      (.ok a, { store with memory := Span.write store.memory ptr.toNat bytes }) := by
  rw [Store.writeBack, if_neg (Nat.not_lt.mpr h)]

theorem fits_of_writeBack_ok {store after : Store} {ptr : UInt32} {bytes : Bytes}
    {a b : Option Int32} (h : store.writeBack ptr bytes a = (.ok b, after)) :
    ptr.toNat + bytes.length ≤ store.memory.length := by
  apply Nat.le_of_not_lt
  intro hout
  rw [Store.writeBack, if_pos hout] at h
  cases h

theorem answers_none (outPtr : UInt32) (before after : Store) :
    Answers none outPtr before after (-1) where
  found v hv := by cases hv
  missing := ⟨fun _ => rfl, fun _ => rfl⟩

/-- A value that fits into the memory is answered as promised exactly if its length
is an `i32`. -/
theorem answers_write_iff {store charged : Store} {ptr : UInt32} {v : Bytes}
    (hmemory : charged.memory = store.memory)
    (hfits : ptr.toNat + v.length ≤ charged.memory.length) :
    Answers (some v) ptr store
        { charged with memory := Span.write charged.memory ptr.toNat v } (Int32.ofNat v.length) ↔
      v.length < 2 ^ 31 := by
  constructor
  · intro hanswers
    have hlength : (Int32.ofNat v.length).toInt = v.length := (hanswers.found v rfl).2.2
    have hbound : (Int32.ofNat v.length).toInt < 2 ^ 31 := Int32.toInt_lt _
    omega
  · intro hshort
    have hlength : (Int32.ofNat v.length).toInt = v.length := Int32.toInt_ofNat_of_lt hshort
    constructor
    · intro w hw
      obtain rfl := Option.some.inj hw
      rw [hlength, ← hmemory]
      exact ⟨Span.wrote_write hfits, Int.natCast_nonneg _, rfl⟩
    · constructor
      · intro hneg
        rw [hneg] at hlength
        have hminus : (-1 : Int32).toInt = -1 := by decide
        omega
      · intro hnone
        cases hnone

theorem answers_iff {store charged : Store} (hmemory : charged.memory = store.memory)
    (outPtr : UInt32) (value : Option Bytes) :
    (∀ n after, charged.answer outPtr value = (.ok (some n), after) →
        Answers value outPtr store after n) ↔
      ∀ v, value = some v → outPtr.toNat + v.length ≤ store.memory.length → v.length < 2 ^ 31 := by
  cases value with
  | none =>
      constructor
      · intro _ v hv
        cases hv
      · intro _ n after h
        cases h
        exact answers_none outPtr store charged
  | some v =>
      constructor
      · intro hanswers w hw hfits
        obtain rfl := Option.some.inj hw
        rw [← hmemory] at hfits
        exact (answers_write_iff hmemory hfits).mp (hanswers _ _ (writeBack_of_fits hfits _))
      · intro hshort n after h
        have hfits := fits_of_writeBack_ok h
        rw [Store.answer, writeBack_of_fits hfits] at h
        cases h
        rw [hmemory] at hfits
        exact (answers_write_iff hmemory (by rwa [hmemory])).mpr (hshort v rfl hfits)

end

theorem get_iff {start : Store} {s : Store × List (Bytes × Bytes)} (h : Tracks start s)
    (kPtr kLen outPtr : UInt32) :
    (∀ n after, (HostCall.storageGet kPtr kLen outPtr).perform.on s.1 = (.ok (some n), after) →
        Answers (valueOf start.data.existingState s.2 (s.1.bytesAt kPtr kLen)) outPtr s.1 after n) ↔
      ReadsShort s.1 (.call (.storageGet kPtr kLen outPtr)) := by
  rw [h.valueOf_eq]
  by_cases hpaid : (HostCall.storageGet kPtr kLen outPtr).Paid s.1
  · have hperform : (HostCall.storageGet kPtr kLen outPtr).perform.on s.1 =
        (s.1.charge _).answer outPtr (s.1.lookup (s.1.bytesAt kPtr kLen)) :=
      HostCall.perform_of_paid hpaid
    have hmemory : (s.1.charge (HostCall.storageGet kPtr kLen outPtr).cost).memory = s.1.memory :=
      rfl
    rw [hperform, answers_iff hmemory]
    exact ⟨fun hshort _ => hshort, fun hshort => hshort hpaid⟩
  · constructor
    · intro _ hpaid'
      exact absurd hpaid' hpaid
    · intro _ n after hperform
      obtain ⟨stop, hstop⟩ | ⟨hpaid', _⟩ :=
        HostCall.perform_cases (.storageGet kPtr kLen outPtr) s.1
      · rw [hstop] at hperform
        cases hperform
      · exact absurd hpaid' hpaid

theorem overlays_iff {start : Store} {s : Store × List (Bytes × Bytes)} (h : Tracks start s)
    (event : HostEvent) : Overlays start s event ↔ ReadsShort s.1 event := by
  constructor
  · intro hover
    cases event with
    | instruction cost memory => trivial
    | setMemory => trivial
    | call call =>
        cases call with
        | storageSet kPtr kLen vPtr vLen => trivial
        | emitEvent dPtr dLen => trivial
        | sha3_256 inPtr inLen outPtr => trivial
        | storageGet kPtr kLen outPtr =>
            apply (get_iff h kPtr kLen outPtr).mp
            intro n after
            exact hover.get kPtr kLen outPtr n after rfl
  · intro hshort
    have hafter := tracks_step s event h
    have hgas : (hostMachine.step s.1 event).1.data.gasRemaining.toNat +
      (hostMachine.step s.1 event).1.charged = start.data.gasRemaining.toNat := hafter.gas
    refine ⟨?_, hafter.existingState, by omega, ?_⟩
    · intro kPtr kLen outPtr n after hevent
      subst hevent
      exact (get_iff h kPtr kLen outPtr).mpr hshort n after
    · intro call stop after _
      exact HostCall.unchanged_of_error

/-! ## The storage of a contract

What `HostState` keeps of a context is what the storage functions do to it. -/

def Store.hostState (store : Store) : HostState where
  stateDiff := store.data.stateDiff
  existingState := store.data.existingState

omit [Blake3] in
theorem storageGet_hostState (store : Store) (key : Bytes) :
    store.hostState.storageGet key = store.lookup key :=
  (store.lookup_eq key).symm

theorem hostState_perform_storageSet {store : Store} {kPtr kLen vPtr vLen : UInt32}
    (h : (HostCall.storageSet kPtr kLen vPtr vLen).Paid store) :
    ((HostCall.storageSet kPtr kLen vPtr vLen).perform.on store).2.hostState =
      store.hostState.storageSet (store.bytesAt kPtr kLen) (store.bytesAt vPtr vLen) := by
  rw [HostCall.perform_of_paid h]
  rfl

theorem hostState_perform {call : HostCall} {store : Store} (h : call.write store = none) :
    (call.perform.on store).2.hostState = store.hostState := by
  have hdiff := HostCall.stateDiff_perform h
  have hexisting := call.existingState_perform store
  simp only [Store.hostState, hdiff, hexisting]

/-! ## Runs -/

/-- The store of an execution that the engine begins, with any memory and fuel. -/
def Store.start (ctx : ExecutionContext) (memory : Bytes) (fuel : Nat) : Store :=
  { Store.new ctx with
    memory
    fuel }

omit [Blake3] in
theorem tracks_start (contractId : Hash32) (callerCommitment : Bytes32) (gasLimit : UInt64)
    (existingState : Table Bytes Bytes) (memory : Bytes) (fuel : Nat) :
    let start := Store.start (.fresh contractId callerCommitment gasLimit existingState) memory fuel
    Tracks start (start, []) where
  stateDiff key := by
    show (∅ : Table Bytes Bytes)[key]? = none
    simp
  existingState := rfl
  gas := rfl

theorem admissible_overlays_iff {start : Store} (h : Tracks start (start, []))
    (events : List HostEvent) :
    hostMachine.recorded.Admissible (Overlays start) (start, []) events ↔
      hostMachine.Admissible ReadsShort start events := by
  calc
    hostMachine.recorded.Admissible (Overlays start) (start, []) events ↔
        hostMachine.recorded.Admissible (fun s event => ReadsShort s.1 event) (start, []) events :=
      hostMachine.recorded.admissible_iff_of_invariant (Tracks start) tracks_step
        (fun s event htracks => overlays_iff htracks event) h
    _ ↔ hostMachine.Admissible ReadsShort start events := hostMachine.admissible_recorded

/-- Storage is an overlay map over every run of an execution, exactly if no
`storage_get` that is paid for and fits reads 2^31 bytes or more. -/
theorem host_storage_overlay_iff (contractId : Hash32) (callerCommitment : Bytes32)
    (gasLimit : UInt64) (existingState : Table Bytes Bytes) (memory : Bytes) (fuel : Nat)
    (events : List HostEvent) :
    let start := Store.start (.fresh contractId callerCommitment gasLimit existingState) memory fuel
    hostMachine.recorded.Admissible (Overlays start) (start, []) events ↔
      hostMachine.Admissible ReadsShort start events :=
  admissible_overlays_iff
    (tracks_start contractId callerCommitment gasLimit existingState memory fuel) events

/-! ## Executions are runs -/

variable [Wasmtime]

theorem Module.run_eq_final (m : Module) (σ : m.State) (store : Store) :
    ∃ events, (m.run σ store).2 = hostMachine.final store events := by
  fun_induction run m σ store with
  | case1 σ store hstep => exact ⟨[], rfl⟩
  | case2 σ store message hstep => exact ⟨[], rfl⟩
  | case3 σ store cost memory next hstep ih =>
      obtain ⟨events, hevents⟩ := ih
      exact ⟨.instruction cost memory :: events, hevents⟩
  | case4 σ store cost call resume hstep a after hcall ih =>
      obtain ⟨events, hevents⟩ := ih
      refine ⟨.instruction cost store.memory :: .call call :: events, ?_⟩
      rw [hevents, Machine.final_cons, Machine.final_cons, step_call]
      exact congrArg (hostMachine.final · events) (congrArg Prod.snd hcall).symm
  | case5 σ store cost call resume hstep stop after hcall =>
      refine ⟨[.instruction cost store.memory, .call call], ?_⟩
      rw [Machine.final_cons, Machine.final_cons, step_call]
      exact (congrArg Prod.snd hcall).symm
  | case6 σ store next hstep hfuel => exact ⟨[], rfl⟩
  | case7 σ store next hstep hfuel ih => exact ih

section

variable {ctx : ExecutionContext} {m : Module} {result result' : Except Stop m.State} {σ : m.State}
  {store final : Store}

theorem started_eq_final
    (hstart : m.run m.initial (Store.instantiating ctx m) = (result, store)) :
    ∃ events, store =
      hostMachine.final (Store.start ctx m.memory ctx.gasRemaining.toNat) events := by
  obtain ⟨events, hevents⟩ := m.run_eq_final m.initial (Store.instantiating ctx m)
  rw [hstart] at hevents
  exact ⟨events, hevents⟩

theorem setMemory_eq_final
    (hstart : m.run m.initial (Store.instantiating ctx m) = (result, store)) :
    ∃ events, store.setMemory =
      hostMachine.final (Store.start ctx m.memory ctx.gasRemaining.toNat) events := by
  obtain ⟨events, hstore⟩ := started_eq_final hstart
  refine ⟨events ++ [.setMemory], ?_⟩
  rw [Machine.final_append, ← hstore]
  rfl

theorem called_eq_final
    (hstart : m.run m.initial (Store.instantiating ctx m) = (result, store))
    (hcall : m.run σ store.setMemory = (result', final)) :
    ∃ events, final =
      hostMachine.final (Store.start ctx m.memory ctx.gasRemaining.toNat) events := by
  obtain ⟨events, hstore⟩ := setMemory_eq_final hstart
  obtain ⟨later, hlater⟩ := m.run_eq_final σ store.setMemory
  rw [hcall] at hlater
  refine ⟨events ++ later, ?_⟩
  rw [Machine.final_append, ← hstore]
  exact hlater

end

/-- The store in which an execution ends is that of a run of the machine. -/
theorem execute_eq_final (code : Bytes) (method : String) (args : Bytes)
    (ctx : ExecutionContext) :
    ∃ memory fuel events,
      (execute code method args ctx).2 =
        hostMachine.final (Store.start ctx memory fuel) events := by
  generalize hcourse : execute code method args ctx = outcome
  cases hcourse ▸ course_execute code method args ctx with
  | uncompiled failure => exact ⟨[], 0, [], rfl⟩
  | unlinked m failure => exact ⟨m.memory, ctx.gasRemaining.toNat, [], rfl⟩
  | started failure hstart => exact ⟨_, _, started_eq_final hstart⟩
  | unexported failure hstart => exact ⟨_, _, setMemory_eq_final hstart⟩
  | called failure hstart hcall => exact ⟨_, _, called_eq_final hstart hcall⟩
  | completed c => exact ⟨_, _, called_eq_final c.start c.call⟩

theorem stateChanges_of_ok {code : Bytes} {method : String} {args : Bytes} {r : ExecutionResult}
    {contractId : Hash32} {callerCommitment : Bytes32} {gasLimit : UInt64}
    {existingState : Table Bytes Bytes}
    (h : (execute code method args
      (.fresh contractId callerCommitment gasLimit existingState)).1 = .ok r) :
    ∃ memory fuel events, ∀ key : Bytes, r.stateChanges[key]? =
      Table.latest (hostMachine.outputs (Store.start
        (.fresh contractId callerCommitment gasLimit existingState) memory fuel) events) key := by
  obtain ⟨c, hfinal, hresult⟩ := completed_of_ok h
  obtain ⟨memory, fuel, events, hevents⟩ := execute_eq_final code method args
    (.fresh contractId callerCommitment gasLimit existingState)
  refine ⟨memory, fuel, events, ?_⟩
  intro key
  have htracks := hostMachine.recorded.invariant_final _ tracks_step
    (tracks_start contractId callerCommitment gasLimit existingState memory fuel) events
  rw [Machine.final_recorded, List.nil_append] at htracks
  rw [hresult, ← htracks.stateDiff key, ← hevents, hfinal]
  rfl

end

/-! ## Two gibibytes -/

section

attribute [local instance] Blake3.sum

def fullMemory : Bytes := List.replicate 4294967296 0

theorem length_fullMemory : fullMemory.length = 4294967296 := by
  rw [fullMemory, List.length_replicate]

def longStart : Store := .start (.fresh Hash32.ZERO Hash32.ZERO 30000000000 ∅) fullMemory 0

def longSet : HostCall := .storageSet 0 0 0 2147483648

theorem longSet_paid : longSet.Paid longStart.setMemory where
  memory := rfl
  bounds := by
    have hlength : longStart.setMemory.memory.length = 4294967296 := length_fullMemory
    have hinside : ∀ range ∈ longSet.arguments, range.1.toNat + range.2.toNat ≤ 4294967296 := by
      simp [longSet, HostCall.arguments]
    rw [HostCall.InBounds, hlength]
    exact hinside
  gas := by decide

def longAfter : Store :=
  { longStart.setMemory.charge longSet.cost with
    data.stateDiff := (∅ : Table Bytes Bytes).insert (longStart.setMemory.bytesAt 0 0)
      (longStart.setMemory.bytesAt 0 2147483648) }

theorem step_longSet :
    (hostMachine.step longStart.setMemory (.call longSet)).1 = longAfter := by
  rw [step_call, HostCall.perform_of_paid longSet_paid]
  rfl

theorem long_value_breaks_overlay :
    ¬ hostMachine.recorded.Admissible (Overlays longStart) (longStart, [])
      [.setMemory, .call longSet, .call (.storageGet 0 0 0)] := by
  intro hpromised
  have htracks : Tracks longStart (longStart, []) := tracks_start _ _ _ _ _ _
  have hshort := (admissible_overlays_iff htracks _).mp hpromised
  have hfirst : (hostMachine.step longStart .setMemory).1 = longStart.setMemory := rfl
  rw [Machine.Admissible, Machine.Admissible, Machine.Admissible, hfirst, step_longSet] at hshort
  obtain ⟨-, -, hget, -⟩ := hshort
  have hlength : longAfter.memory.length = 4294967296 := length_fullMemory
  have hpaid : (HostCall.storageGet 0 0 0).Paid longAfter := by
    refine ⟨rfl, ?_, by decide⟩
    have hinside : ∀ range ∈ (HostCall.storageGet 0 0 0).arguments,
        range.1.toNat + range.2.toNat ≤ 4294967296 := by
      simp [HostCall.arguments]
    rw [HostCall.InBounds, hlength]
    exact hinside
  have hvalue : longAfter.lookup (longAfter.bytesAt 0 0) =
      some (longStart.setMemory.bytesAt 0 2147483648) := by
    have hread : longAfter.data.stateDiff[longAfter.bytesAt 0 0]? =
        some (longStart.setMemory.bytesAt 0 2147483648) :=
      (Table.get_insert _ _ _ _).trans (if_pos rfl)
    rw [Store.lookup, hread, Option.some_or]
  have hlong : (longStart.setMemory.bytesAt 0 2147483648).length = 2 ^ 31 := by
    have hstart : longStart.setMemory.memory.length = 4294967296 := length_fullMemory
    calc
      (longStart.setMemory.bytesAt 0 2147483648).length = (2147483648 : UInt32).toNat := by
        apply Store.bytesAt_length
        rw [hstart]
        decide
      _ = 2 ^ 31 := by decide
  have hfits : (0 : UInt32).toNat + (longStart.setMemory.bytesAt 0 2147483648).length ≤
      longAfter.memory.length := by
    rw [hlong, hlength]
    decide
  have hbelow := hget hpaid _ hvalue hfits
  omega

end

end NoirNet.Vm
