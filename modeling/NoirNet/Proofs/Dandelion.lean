import NoirNet.Concrete
import NoirNet.Network.Dandelion

/-!
# Once per stage

A router that has recorded a transaction drops it from then on.  One of the four
exits of `route_tx` broadcasts without recording.

* `Move`, `step_move`: what one call does to one transaction;
* `run_of_fluff`, `run_of_stem`: what is left to happen to a recorded one;
* `once_per_stage_iff`: when a transaction is forwarded at most once per stage.
-/

namespace NoirNet

open Lib

/-! ## One transaction in the outputs -/

section

variable (txid : TxId)

def forwards (outputs : List RouterOutput) : Nat :=
  outputs.countP fun
    | .decided id (.forwardTo _) => id = txid
    | _ => false

def broadcasts (outputs : List RouterOutput) : Nat := outputs.count (.decided txid .broadcast)

/-- How often it is reported as expired, and broadcast then. -/
def reports (outputs : List RouterOutput) : Nat := outputs.count (.reported txid)

/-- At most one decision other than to drop it; at most one report, and only behind a
decision to forward it; and so at most one broadcast. -/
structure OncePerStage (outputs : List RouterOutput) : Prop where
  decided : forwards txid outputs + broadcasts txid outputs ≤ 1
  reported : reports txid outputs ≤ 1
  stem : 0 < reports txid outputs → forwards txid outputs = 1
  broadcast : broadcasts txid outputs + reports txid outputs ≤ 1

theorem forwards_append (os os' : List RouterOutput) :
    forwards txid (os ++ os') = forwards txid os + forwards txid os' := List.countP_append

theorem broadcasts_append (os os' : List RouterOutput) :
    broadcasts txid (os ++ os') = broadcasts txid os + broadcasts txid os' := List.count_append

theorem reports_append (os os' : List RouterOutput) :
    reports txid (os ++ os') = reports txid os + reports txid os' := List.count_append

def Counts (outputs : List RouterOutput) (f b r : Nat) : Prop :=
  forwards txid outputs = f ∧ broadcasts txid outputs = b ∧ reports txid outputs = r

end

/-! ## One call -/

namespace DandelionRouter

def stage (router : DandelionRouter) (txid : TxId) : Option DandelionPhase :=
  router.txStates[txid]?.map TxState.phase

end DandelionRouter

open DandelionRouter

def Routes (txid : TxId) : RouterCall → Prop
  | .routeTx id _ _ => id = txid
  | _ => False

/-- A call that routes it by the last exit: it is not recorded, the router is in its stem
phase, the coin does not flip, and there is no successor other than the sender. -/
def FallsBack (router : DandelionRouter) (txid : TxId) : RouterCall → Prop
  | .routeTx id receivedFrom draws =>
      id = txid ∧ router.stage txid = none ∧ router.phase = .stem ∧ draws.flip = false ∧
        ∀ successor, router.stemSuccessor = some successor → successor = receivedFrom
  | _ => False

theorem routeTx_cases (router : DandelionRouter) (txid : TxId) (receivedFrom : PeerId)
    (draws : RouteDraws) :
    (router.stage txid ≠ none ∧ router.routeTx txid receivedFrom draws = (router, .drop)) ∨
    (router.stage txid = none ∧ ¬ FallsBack router txid (.routeTx txid receivedFrom draws) ∧
      ∃ state : TxState,
        (state.phase = .fluff ∧ router.routeTx txid receivedFrom draws =
          ({ router with txStates := router.txStates.insert txid state }, .broadcast)) ∨
        (state.phase = .stem ∧ ∃ successor, router.routeTx txid receivedFrom draws =
          ({ router with txStates := router.txStates.insert txid state }, .forwardTo successor))) ∨
    (FallsBack router txid (.routeTx txid receivedFrom draws) ∧
      router.routeTx txid receivedFrom draws = (router, .broadcast)) := by
  have hcontains : router.txStates.contains txid = true ↔ router.stage txid ≠ none := by
    rw [stage, ne_eq, Option.map_eq_none_iff, Std.ExtTreeMap.contains_eq_isSome_getElem?,
      Option.isSome_iff_ne_none]
  unfold routeTx
  by_cases hknown : router.txStates.contains txid
  · exact .inl ⟨hcontains.mp hknown, by rw [if_pos hknown]⟩
  have hstage : router.stage txid = none := not_not.mp (hcontains.not.mp hknown)
  rw [if_neg hknown]
  by_cases hphase : router.phase = .fluff
  · refine .inr (.inl ⟨hstage, ?_, _, .inl ⟨rfl, if_pos hphase⟩⟩)
    rintro ⟨-, -, hstem, -⟩
    rw [hphase] at hstem
    cases hstem
  have hstem : router.phase = .stem := by
    cases hrouter : router.phase with
    | stem => rfl
    | fluff => exact absurd hrouter hphase
  by_cases hflip : draws.flip
  · refine .inr (.inl ⟨hstage, ?_, _, .inl ⟨rfl, (if_neg hphase).trans (if_pos hflip)⟩⟩)
    rintro ⟨-, -, -, hcoin, -⟩
    rw [hcoin] at hflip
    cases hflip
  have hcoin : draws.flip = false := by simpa using hflip
  rw [if_neg hphase, if_neg hflip]
  cases hsuccessor : router.stemSuccessor with
  | none =>
      refine .inr (.inr ⟨⟨rfl, hstage, hstem, hcoin, ?_⟩, rfl⟩)
      intro successor h
      rw [hsuccessor] at h
      cases h
  | some successor =>
      by_cases hsender : successor ≠ receivedFrom
      · refine .inr (.inl ⟨hstage, ?_, _, .inr ⟨rfl, successor, if_pos hsender⟩⟩)
        rintro ⟨-, -, -, -, hnone⟩
        exact hsender (hnone successor hsuccessor)
      · refine .inr (.inr ⟨⟨rfl, hstage, hstem, hcoin, ?_⟩, if_neg hsender⟩)
        intro successor' h
        rw [hsuccessor, Option.some.injEq] at h
        rw [← h]
        exact not_not.mp hsender

theorem stage_insert (router : DandelionRouter) (id txid : TxId) (state : TxState) :
    ({ router with txStates := router.txStates.insert id state } : DandelionRouter).stage txid =
      if id = txid then some state.phase else router.stage txid := by
  rw [stage, stage, Table.get_insert]
  by_cases h : id = txid
  · rw [if_pos h, if_pos h, Option.map_some]
  · rw [if_neg h, if_neg h]

/-- A flush moves a transaction behind its deadline out of its stem and reports it once;
it leaves the others alone. -/
theorem flush_cases (router : DandelionRouter) (now : Instant) (txid : TxId) :
    ((router.flushExpiredStems now).1.stage txid = router.stage txid ∧
      (router.flushExpiredStems now).2.count txid = 0) ∨
    (router.stage txid = some .stem ∧
      (router.flushExpiredStems now).1.stage txid = some .fluff ∧
      (router.flushExpiredStems now).2.count txid = 1) := by
  have hnodup : (router.flushExpiredStems now).2.Nodup := by
    have hkeys : (router.txStates.toList.map Prod.fst).Nodup := by
      rw [Std.ExtTreeMap.map_fst_toList_eq_keys]
      exact Std.ExtTreeMap.nodup_keys
    exact hkeys.sublist (List.filter_sublist.map Prod.fst)
  have hmem : txid ∈ (router.flushExpiredStems now).2 ↔
      ∃ state, router.txStates[txid]? = some state ∧ expired now state := by
    simp [flushExpiredStems, Std.ExtTreeMap.mem_toList_iff_getElem?_eq_some]
  have hstage : (router.flushExpiredStems now).1.stage txid = router.txStates[txid]?.map
      fun state => (if expired now state then { state with phase := .fluff } else state).phase := by
    rw [stage, flushExpiredStems, Std.ExtTreeMap.getElem?_map, Option.map_map]
    rfl
  by_cases hexpired : ∃ state, router.txStates[txid]? = some state ∧ expired now state
  · have hcount := List.count_eq_one_of_mem hnodup (hmem.mpr hexpired)
    obtain ⟨state, hstate, hlate⟩ := hexpired
    have hphase : state.phase = .stem := (of_decide_eq_true hlate).1
    refine .inr ⟨?_, ?_, hcount⟩
    · rw [stage, hstate, Option.map_some, hphase]
    · rw [hstage, hstate, Option.map_some, if_pos hlate]
  · refine .inl ⟨?_, List.count_eq_zero_of_not_mem (hmem.not.mpr hexpired)⟩
    rw [hstage, stage]
    cases hstate : router.txStates[txid]? with
    | none => rfl
    | some state =>
        have hearly : ¬ expired now state = true := fun h => hexpired ⟨state, hstate, h⟩
        rw [Option.map_some, Option.map_some, if_neg hearly]

/-- What one call can do to one transaction, by the stage it is recorded in before and
after the call. -/
inductive Move (txid : TxId) (router : DandelionRouter) (call : RouterCall)
    (next : DandelionRouter) (outputs : List RouterOutput) : Prop
  /-- The transaction is not routed, or dropped. -/
  | stays (hstage : next.stage txid = router.stage txid)
      (hrecorded : Routes txid call → router.stage txid ≠ none)
      (hcounts : Counts txid outputs 0 0 0)
  /-- Its deadline is over. -/
  | expires (hstem : router.stage txid = some .stem) (hfluff : next.stage txid = some .fluff)
      (hcounts : Counts txid outputs 0 0 1)
  | broadcast (hnone : router.stage txid = none) (hroutes : Routes txid call)
      (hfluff : next.stage txid = some .fluff) (hnot : ¬ FallsBack router txid call)
      (hcounts : Counts txid outputs 0 1 0)
  | forward (hnone : router.stage txid = none) (hroutes : Routes txid call)
      (hstem : next.stage txid = some .stem) (hnot : ¬ FallsBack router txid call)
      (hcounts : Counts txid outputs 1 0 0)
  /-- The last exit records nothing. -/
  | fallBack (hback : FallsBack router txid call) (hnext : next.stage txid = none)
      (hcounts : Counts txid outputs 0 1 0)

theorem FallsBack.unrecorded {router : DandelionRouter} {txid : TxId} {call : RouterCall}
    (h : FallsBack router txid call) : router.stage txid = none ∧ Routes txid call := by
  cases call with
  | routeTx id receivedFrom draws => exact ⟨h.2.1, h.1⟩
  | rotateSuccessor connectedPeers idx => cases h
  | setPhase phase => cases h
  | flushExpiredStems now => cases h

theorem move_routeTx (router : DandelionRouter) (txid : TxId) (receivedFrom : PeerId)
    (draws : RouteDraws) :
    Move txid router (.routeTx txid receivedFrom draws) (router.routeTx txid receivedFrom draws).1
      [.decided txid (router.routeTx txid receivedFrom draws).2] := by
  obtain ⟨hknown, heq⟩ | ⟨hnone, hnot, state, ⟨hphase, heq⟩ | ⟨hphase, successor, heq⟩⟩ |
    ⟨hback, heq⟩ := routeTx_cases router txid receivedFrom draws
  · rw [heq]
    exact .stays rfl (fun _ => hknown) (by simp [Counts, forwards, broadcasts, reports])
  · rw [heq]
    refine .broadcast hnone rfl ?_ hnot (by simp [Counts, forwards, broadcasts, reports])
    rw [stage_insert, if_pos rfl, hphase]
  · rw [heq]
    refine .forward hnone rfl ?_ hnot (by simp [Counts, forwards, broadcasts, reports])
    rw [stage_insert, if_pos rfl, hphase]
  · rw [heq]
    exact .fallBack hback hback.unrecorded.1 (by simp [Counts, forwards, broadcasts, reports])

theorem stage_routeTx_ne (router : DandelionRouter) {id txid : TxId} (hid : id ≠ txid)
    (receivedFrom : PeerId) (draws : RouteDraws) :
    (router.routeTx id receivedFrom draws).1.stage txid = router.stage txid := by
  obtain ⟨-, heq⟩ | ⟨-, -, state, ⟨-, heq⟩ | ⟨-, successor, heq⟩⟩ | ⟨-, heq⟩ :=
    routeTx_cases router id receivedFrom draws
  · rw [heq]
  · rw [heq, stage_insert, if_neg hid]
  · rw [heq, stage_insert, if_neg hid]
  · rw [heq]

theorem counts_reported (txid : TxId) (ids : List TxId) :
    Counts txid (ids.map .reported) 0 0 (ids.count txid) := by
  refine ⟨?_, ?_, ?_⟩
  · simp [forwards, List.countP_map, Function.comp_def]
  · rw [broadcasts, List.count_eq_zero]
    simp
  · exact List.count_map_of_injective _ _ (fun _ _ h => RouterOutput.reported.inj h) _

theorem step_move (router : DandelionRouter) (call : RouterCall) (txid : TxId) :
    Move txid router call (dandelionMachine.step router call).1
      (dandelionMachine.step router call).2 := by
  cases call with
  | rotateSuccessor connectedPeers idx =>
      refine .stays ?_ False.elim ⟨rfl, rfl, rfl⟩
      show (router.rotateSuccessor connectedPeers idx).stage txid = _
      unfold rotateSuccessor
      split <;> rfl
  | setPhase phase => exact .stays rfl False.elim ⟨rfl, rfl, rfl⟩
  | flushExpiredStems now =>
      have hcounts := counts_reported txid (router.flushExpiredStems now).2
      obtain ⟨hstage, hcount⟩ | ⟨hstem, hfluff, hcount⟩ := flush_cases router now txid
      · rw [hcount] at hcounts
        exact .stays hstage False.elim hcounts
      · rw [hcount] at hcounts
        exact .expires hstem hfluff hcounts
  | routeTx id receivedFrom draws =>
      by_cases hid : id = txid
      · rw [hid]
        exact move_routeTx router txid receivedFrom draws
      · refine .stays (stage_routeTx_ne router hid receivedFrom draws) (fun h => absurd h hid) ?_
        simp only [dandelionMachine, Counts, forwards, broadcasts, reports]
        cases (router.routeTx id receivedFrom draws).2 <;> simp [hid]

/-! ## Runs -/

section

variable {txid : TxId}

theorem Counts.append {os os' : List RouterOutput} {f b r f' b' r' : Nat} (h : Counts txid os f b r)
    (h' : Counts txid os' f' b' r') : Counts txid (os ++ os') (f + f') (b + b') (r + r') := by
  obtain ⟨rfl, rfl, rfl⟩ := h
  obtain ⟨rfl, rfl, rfl⟩ := h'
  exact ⟨forwards_append txid os os', broadcasts_append txid os os', reports_append txid os os'⟩

/-- A transaction in its fluff is done with. -/
theorem run_of_fluff {router : DandelionRouter} (h : router.stage txid = some .fluff)
    (calls : List RouterCall) : Counts txid (dandelionMachine.outputs router calls) 0 0 0 := by
  induction calls generalizing router with
  | nil => exact ⟨rfl, rfl, rfl⟩
  | cons call calls ih =>
      cases step_move router call txid with
      | stays hstage _ hcounts => exact hcounts.append (ih (hstage.trans h))
      | expires hstem => exact absurd (h.symm.trans hstem) (by decide)
      | broadcast hnone => exact absurd (h.symm.trans hnone) (by decide)
      | forward hnone => exact absurd (h.symm.trans hnone) (by decide)
      | fallBack hback => exact absurd (h.symm.trans hback.unrecorded.1) (by decide)

/-- A transaction in its stem can only be reported, once. -/
theorem run_of_stem {router : DandelionRouter} (h : router.stage txid = some .stem)
    (calls : List RouterCall) :
    ∃ r ≤ 1, Counts txid (dandelionMachine.outputs router calls) 0 0 r := by
  induction calls generalizing router with
  | nil => exact ⟨0, Nat.zero_le 1, rfl, rfl, rfl⟩
  | cons call calls ih =>
      cases step_move router call txid with
      | stays hstage _ hcounts =>
          obtain ⟨r, hr, hrest⟩ := ih (hstage.trans h)
          exact ⟨0 + r, by omega, hcounts.append hrest⟩
      | expires _ hfluff hcounts =>
          exact ⟨1 + 0, le_rfl, hcounts.append (run_of_fluff hfluff calls)⟩
      | broadcast hnone => exact absurd (h.symm.trans hnone) (by decide)
      | forward hnone => exact absurd (h.symm.trans hnone) (by decide)
      | fallBack hback => exact absurd (h.symm.trans hback.unrecorded.1) (by decide)

theorem run_of_unrouted {router : DandelionRouter} (h : router.stage txid = none)
    {calls : List RouterCall} (hcalls : ∀ call ∈ calls, ¬ Routes txid call) :
    Counts txid (dandelionMachine.outputs router calls) 0 0 0 := by
  induction calls generalizing router with
  | nil => exact ⟨rfl, rfl, rfl⟩
  | cons call calls ih =>
      have hcall : ¬ Routes txid call := hcalls call List.mem_cons_self
      cases step_move router call txid with
      | stays hstage _ hcounts =>
          exact hcounts.append (ih (hstage.trans h) fun call' h' =>
            hcalls call' (List.mem_cons_of_mem _ h'))
      | expires hstem => exact absurd (h.symm.trans hstem) (by decide)
      | broadcast _ hroutes => exact absurd hroutes hcall
      | forward _ hroutes => exact absurd hroutes hcall
      | fallBack hback => exact absurd hback.unrecorded.2 hcall

theorem one_le_of_routed {router : DandelionRouter} (h : router.stage txid = none)
    {calls : List RouterCall} {call : RouterCall} (hcall : call ∈ calls)
    (hroutes : Routes txid call) :
    1 ≤ forwards txid (dandelionMachine.outputs router calls) +
      broadcasts txid (dandelionMachine.outputs router calls) := by
  induction calls generalizing router with
  | nil => cases hcall
  | cons first rest ih =>
      rw [Machine.outputs_cons, forwards_append, broadcasts_append]
      cases step_move router first txid with
      | stays hstage hrecorded =>
          rcases List.mem_cons.mp hcall with rfl | hcall
          · exact absurd h (hrecorded hroutes)
          · have hrest := ih (hstage.trans h) hcall
            omega
      | expires hstem => exact absurd (h.symm.trans hstem) (by decide)
      | broadcast _ _ _ _ hcounts =>
          obtain ⟨hf, hb, -⟩ := hcounts
          omega
      | forward _ _ _ _ hcounts =>
          obtain ⟨hf, hb, -⟩ := hcounts
          omega
      | fallBack _ _ hcounts =>
          obtain ⟨hf, hb, -⟩ := hcounts
          omega

/-- After a call that routes a transaction by the last exit none routes it again. -/
def Unrepeated (txid : TxId) (router : DandelionRouter) (calls : List RouterCall) : Prop :=
  ∀ earlier call later, calls = earlier ++ call :: later →
    FallsBack (dandelionMachine.final router earlier) txid call →
      ∀ call' ∈ later, ¬ Routes txid call'

theorem OncePerStage.of_counts {outputs : List RouterOutput} {f b r : Nat}
    (h : Counts txid outputs f b r) (hdecided : f + b ≤ 1) (hreported : r ≤ f) :
    OncePerStage txid outputs := by
  obtain ⟨rfl, rfl, rfl⟩ := h
  constructor
  · exact hdecided
  · omega
  · intro hpos
    omega
  · omega

theorem OncePerStage.append {os os' : List RouterOutput} (h : OncePerStage txid os')
    (hcounts : Counts txid os 0 0 0) : OncePerStage txid (os ++ os') := by
  obtain ⟨hf, hb, hr⟩ := hcounts
  obtain ⟨hdecided, hreported, hstem, hbroadcast⟩ := h
  constructor
  · rwa [forwards_append, broadcasts_append, hf, hb, Nat.zero_add, Nat.zero_add]
  · rwa [reports_append, hr, Nat.zero_add]
  · rwa [reports_append, forwards_append, hr, hf, Nat.zero_add, Nat.zero_add]
  · rwa [broadcasts_append, reports_append, hb, hr, Nat.zero_add, Nat.zero_add]

theorem oncePerStage_of_unrepeated {router : DandelionRouter} (h : router.stage txid = none)
    {calls : List RouterCall} (hcalls : Unrepeated txid router calls) :
    OncePerStage txid (dandelionMachine.outputs router calls) := by
  induction calls generalizing router with
  | nil => exact .of_counts (f := 0) (b := 0) (r := 0) ⟨rfl, rfl, rfl⟩ (by omega) le_rfl
  | cons call calls ih =>
      rw [Machine.outputs_cons]
      cases step_move router call txid with
      | stays hstage _ hcounts =>
          have hrest : Unrepeated txid (dandelionMachine.step router call).1 calls :=
            fun earlier call' later heq => hcalls (call :: earlier) call' later
              (by rw [heq, List.cons_append])
          exact (ih (hstage.trans h) hrest).append hcounts
      | expires hstem => exact absurd (h.symm.trans hstem) (by decide)
      | broadcast _ _ hfluff _ hcounts =>
          exact .of_counts (hcounts.append (run_of_fluff hfluff calls)) (by omega) (by omega)
      | forward _ _ hstem _ hcounts =>
          obtain ⟨r, hr, hrest⟩ := run_of_stem hstem calls
          exact .of_counts (hcounts.append hrest) (by omega) (by omega)
      | fallBack hback hnext hcounts =>
          have hrest := run_of_unrouted hnext (hcalls [] call calls rfl hback)
          exact .of_counts (hcounts.append hrest) (by omega) (by omega)

/-- A call that routes it again does not drop it either. -/
theorem unrepeated_of_oncePerStage {router : DandelionRouter} {calls : List RouterCall}
    (h : OncePerStage txid (dandelionMachine.outputs router calls)) :
    Unrepeated txid router calls := by
  rintro earlier call later rfl hback call' hcall' hroutes
  obtain ⟨hstage, hrouted⟩ := hback.unrecorded
  cases step_move (dandelionMachine.final router earlier) call txid with
  | stays _ hrecorded => exact hrecorded hrouted hstage
  | expires hstem => exact absurd (hstage.symm.trans hstem) (by decide)
  | broadcast _ _ _ hnot => exact hnot hback
  | forward _ _ _ hnot => exact hnot hback
  | fallBack _ hnext hcounts =>
      obtain ⟨hf, hb, -⟩ := hcounts
      have hagain := one_le_of_routed hnext hcall' hroutes
      have hdecided := h.decided
      rw [Machine.outputs_append, Machine.outputs_cons, forwards_append, forwards_append,
        broadcasts_append, broadcasts_append, hf, hb] at hdecided
      omega

end

theorem stage_new (txid : TxId) : DandelionRouter.new.stage txid = none := by
  rw [stage, DandelionRouter.new, Std.ExtTreeMap.getElem?_empty, Option.map_none]

/-- Of every transaction, in every run of a new router: it is forwarded at most once per
stage exactly when no call routes it again after one that routes it by the last exit. -/
theorem once_per_stage_iff (txid : TxId) (calls : List RouterCall) :
    OncePerStage txid (dandelionMachine.outputs DandelionRouter.new calls) ↔
      Unrepeated txid DandelionRouter.new calls :=
  ⟨unrepeated_of_oncePerStage, oncePerStage_of_unrepeated (stage_new txid)⟩

/-! ## No successor -/

def twice : List RouterCall :=
  let draws : RouteDraws := { stemDuration := 8, flip := false, createdAt := 0, now := 0 }
  [.rotateSuccessor [] 0, .routeTx (fill 32 1) [1] draws, .routeTx (fill 32 1) [2] draws]

theorem twice_broadcast :
    dandelionMachine.outputs DandelionRouter.new twice =
        [.decided (fill 32 1) .broadcast, .decided (fill 32 1) .broadcast] ∧
      ¬ OncePerStage (fill 32 1) (dandelionMachine.outputs DandelionRouter.new twice) := by
  have houtputs : dandelionMachine.outputs DandelionRouter.new twice =
      [.decided (fill 32 1) .broadcast, .decided (fill 32 1) .broadcast] := by
    decide +kernel
  refine ⟨houtputs, fun h => ?_⟩
  have hdecided := h.decided
  rw [houtputs] at hdecided
  revert hdecided
  decide +kernel

end NoirNet
