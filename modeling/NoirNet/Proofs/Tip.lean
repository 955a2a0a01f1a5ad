import NoirNet.Consensus.Concrete
import NoirNet.Consensus.Steps
import NoirNet.Consensus.Outcome

/-!
# At the tip of the chain

The inner loop works at the height behind the chain height it found when it was
entered.  Committing ends the inner loop, so the height is read again; a sync
response applies its blocks and the inner loop goes on.

* `applied_executeSynced`: the chain height behind the blocks of a response;
* `atTip_step_iff`: one step;
* `always_at_tip_iff`: the run.
-/

namespace NoirNet

open Lib

/-! ## The request of a sync -/

namespace SyncManager

def Requests (manager : SyncManager) : Prop :=
  manager.isSyncing → manager.currentRequest.isSome

theorem Requests.checkSyncStatus {manager : SyncManager} (h : manager.Requests)
    (height : UInt64) : (manager.checkSyncStatus height).1.Requests := by
  unfold SyncManager.checkSyncStatus
  split
  · exact nofun
  · exact h

theorem checkSyncStatus_snd (manager : SyncManager) (height : UInt64) :
    (manager.checkSyncStatus height).2 = (manager.checkSyncStatus height).1.isSyncing := by
  unfold SyncManager.checkSyncStatus
  split <;> rfl

theorem Requests.handlePeerHeight {manager : SyncManager} (h : manager.Requests) (peer : PeerId)
    (peerHeight height : UInt64) :
    (manager.handlePeerHeight peer peerHeight height).1.Requests := by
  unfold SyncManager.handlePeerHeight
  dsimp only
  split
  · exact fun _ => rfl
  · exact h

end SyncManager

/-! ## The chain height -/

section

variable [Bls] [Blake3] [Nova]

namespace ConsensusEngine

def Applies (engine : ConsensusEngine) (now : UInt64) (block : Block) : Prop :=
  Passes engine.isValidator now block ∧ engine.stateStore.Accepts block

open Classical in
/-- How many blocks of a sync response are applied, each to what the ones before it left. -/
noncomputable def applied (env : Env) (height : UInt64) : ConsensusEngine → Nat → List Block → Nat
  | _, _, [] => 0
  | engine, k, block :: blocks =>
      if block.header.height ≥ height then
        (if engine.Applies (env.now k) block then 1 else 0) +
          applied env height (engine.execute env.vm (env.now k) block).1 (k + 1) blocks
      else applied env height engine k blocks

section

variable {engine : ConsensusEngine} (hblocks : engine.stateStore.hasBlocks)

include hblocks

open Classical in
theorem chainHeight_execute (vm : WasmRuntime) (now : UInt64) (block : Block) :
    (engine.execute vm now block).1.stateStore.hasBlocks ∧
      (engine.execute vm now block).1.stateStore.getChainHeight =
        engine.stateStore.getChainHeight + if engine.Applies now block then 1 else 0 := by
  have hstore : (engine.execute vm now block).1.stateStore = (executorMachine.step
      (engine.stateStore, engine.mempool) ⟨vm, engine.isValidator, now, block⟩).1.1 := rfl
  rw [hstore]
  by_cases happlies : engine.Applies now block
  · have haccept := happlies.2
    have hheight : block.header.height = engine.stateStore.getChainHeight + 1 := by
      rw [haccept.1, StateStore.expectedHeight, if_pos hblocks]
    have hchain := StateStore.chainHeight_applyBlock haccept
      (blockEffects vm engine.stateStore block).contractStateChanges
      (blockEffects vm engine.stateStore block).newContracts
    rw [step_fst_of_lands ⟨happlies.1, haccept⟩, applyExecuted, StateStore.hasBlocks,
      StateStore.getChainHeight, hchain, if_pos happlies, ← hheight]
    exact ⟨rfl, rfl⟩
  · have hnot : ¬ Lands (engine.stateStore, engine.mempool) ⟨vm, engine.isValidator, now, block⟩ :=
      fun hlands => happlies ⟨hlands.passes, hlands.accepts⟩
    obtain ⟨_, _, _, _, _, hsame⟩ := step_fst_of_not_lands hnot
    rw [hsame, if_neg happlies, UInt64.add_zero]
    exact ⟨hblocks, rfl⟩

/-- Behind a sync response the chain has grown by the blocks that were applied. -/
theorem applied_executeSynced (env : Env) (height : UInt64) (k : Nat) (blocks : List Block) :
    (executeSynced env height engine k blocks).1.stateStore.hasBlocks ∧
      (executeSynced env height engine k blocks).1.stateStore.getChainHeight =
        engine.stateStore.getChainHeight + .ofNat (applied env height engine k blocks) := by
  induction blocks generalizing engine k with
  | nil => exact ⟨hblocks, (UInt64.add_zero _).symm⟩
  | cons block blocks ih =>
      rw [executeSynced, applied]
      by_cases hheight : block.header.height ≥ height
      · obtain ⟨hmore, hchain⟩ := chainHeight_execute hblocks env.vm (env.now k) block
        obtain ⟨hrest, hfinal⟩ := ih hmore (k + 1)
        rw [if_pos hheight, if_pos hheight]
        refine ⟨hrest, hfinal.trans ?_⟩
        rw [hchain, UInt64.ofNat_add, ← UInt64.add_assoc]
        congr 2
        split <;> rfl
      · rw [if_neg hheight, if_neg hheight]
        exact ih hblocks k

end

omit [Blake3] [Nova] in
theorem syncManager_executeSynced [Blake3] [Nova] (env : Env) (height : UInt64)
    (engine : ConsensusEngine) (k : Nat) (blocks : List Block) :
    (executeSynced env height engine k blocks).1.syncManager = engine.syncManager := by
  induction blocks generalizing engine k with
  | nil => rfl
  | cons block blocks ih =>
      rw [executeSynced]
      by_cases hheight : block.header.height ≥ height
      · rw [if_pos hheight]
        exact ih _ (k + 1)
      · rw [if_neg hheight]
        exact ih engine k

end ConsensusEngine

/-! ## One step -/

namespace LoopState

def AtTip (state : LoopState) : Prop :=
  state.height = state.engine.stateStore.getChainHeight + 1

/-- If the node is syncing, a response brings no block that is applied, or a multiple of
`2 ^ 64` of them. -/
def SyncsNothing (state : LoopState) (input : Input) : Prop :=
  match input.event with
  | .syncResponse _ res => state.engine.syncManager.isSyncing →
      UInt64.ofNat (state.engine.applied input.env state.height 0 res.blocks) = 0
  | _ => True

structure Working (state : LoopState) : Prop where
  tip : state.AtTip
  hasBlocks : state.engine.stateStore.hasBlocks
  requests : state.engine.syncManager.Requests

omit [Blake3] [Nova] in
theorem working_enterState {engine : ConsensusEngine} (hblocks : engine.stateStore.hasBlocks)
    (hrequests : engine.syncManager.Requests) (generation : Nat) :
    (engine.enterState generation).Working where
  tip := rfl
  hasBlocks := hblocks
  requests := hrequests.checkSyncStatus _

omit [Nova] in
theorem onBlock_frame (state : LoopState) (env : Env) (block : Block) :
    (state.onBlock env block).1.height = state.height ∧
      (state.onBlock env block).1.engine = { state.engine with
        syncManager := (state.engine.syncManager.handlePeerHeight env.randomPeer
          block.header.height (ConsensusEngine.parentHeight state.height)).1 } := by
  simp only [LoopState.onBlock]
  by_cases hadmits : state.admits env.randomPeer block
  · simp only [hadmits, if_true, vote_fst]
    exact ⟨trivial, trivial⟩
  · simp only [hadmits, if_false, Bool.false_eq_true]
    exact ⟨trivial, trivial⟩

section

variable {state : LoopState} (h : state.Working)

include h

omit [Blake3] [Nova] in
theorem Working.congr {state' : LoopState} (hheight : state'.height = state.height)
    (hchain : state'.engine.stateStore.db.chainHeight = state.engine.stateStore.db.chainHeight)
    (hrequests : state'.engine.syncManager.Requests) : state'.Working where
  tip := by
    rw [AtTip, hheight, h.tip, StateStore.getChainHeight, StateStore.getChainHeight, hchain]
  hasBlocks := by
    rw [StateStore.hasBlocks, hchain]
    exact h.hasBlocks
  requests := hrequests

theorem Working.step_vote (env : Env) (vote : Vote) :
    (state.step { env, event := .vote vote }).1.Working := by
  obtain ⟨hstay, -⟩ | ⟨block, -, -, -, henter⟩ := state.step_fst_vote env vote
  · rw [hstay]
    exact h.congr rfl rfl h.requests
  · rw [henter]
    apply working_enterState
    · exact (ConsensusEngine.chainHeight_execute h.hasBlocks env.vm (env.now 0) block).1
    · exact h.requests

theorem Working.step_syncResponse (env : Env) (peer : PeerId) (res : SyncResponse)
    (hsyncing : state.engine.syncManager.isSyncing) :
    ∃ syncManager, syncManager.Requests ∧
      (state.step { env, event := .syncResponse peer res }).1 = { state with
        engine := { (ConsensusEngine.executeSynced env state.height state.engine 0
          res.blocks).1 with syncManager } } := by
  have hmanager :=
    ConsensusEngine.syncManager_executeSynced env state.height state.engine 0 res.blocks
  simp only [step, turn, onSyncResponse, hsyncing, if_true]
  generalize ConsensusEngine.executeSynced env state.height state.engine 0 res.blocks = synced
    at hmanager ⊢
  have hrequests : (synced.1.syncManager.checkSyncStatus
      synced.1.stateStore.getChainHeight).1.Requests := by
    rw [hmanager]
    exact h.requests.checkSyncStatus _
  refine ⟨_, hrequests, ?_⟩
  rw [SyncManager.checkSyncStatus_snd]
  cases hstill : (synced.1.syncManager.checkSyncStatus
      synced.1.stateStore.getChainHeight).1.isSyncing with
  | false => rfl
  | true =>
      obtain ⟨request, hrequest⟩ := Option.isSome_iff_exists.mp (hrequests hstill)
      rw [if_pos rfl, hrequest]

theorem Working.synced_iff (env : Env) (peer : PeerId) (res : SyncResponse)
    (hsyncing : state.engine.syncManager.isSyncing) :
    let state' := (state.step { env, event := .syncResponse peer res }).1
    state'.engine.stateStore.hasBlocks ∧ state'.engine.syncManager.Requests ∧
      (state'.AtTip ↔
        UInt64.ofNat (state.engine.applied env state.height 0 res.blocks) = 0) := by
  obtain ⟨syncManager, hrequests, hstep⟩ := h.step_syncResponse env peer res hsyncing
  obtain ⟨hblocks, hchain⟩ := ConsensusEngine.applied_executeSynced h.hasBlocks env
    state.height 0 res.blocks
  rw [hstep]
  refine ⟨hblocks, hrequests, ?_⟩
  show state.height = _ + 1 ↔ _
  rw [hchain, h.tip, UInt64.add_left_inj, eq_comm, UInt64.add_eq_left]

omit [Nova] in
theorem Working.onBlock (env : Env) (block : Block) : (state.onBlock env block).1.Working := by
  obtain ⟨hheight, hengine⟩ := onBlock_frame state env block
  apply h.congr hheight
  · rw [hengine]
  · rw [hengine]
    exact h.requests.handlePeerHeight _ _ _

theorem Working.step_other (input : Input)
    (hother : ∀ peer res, input.event = .syncResponse peer res →
      ¬ state.engine.syncManager.isSyncing) : (state.step input).1.Working := by
  obtain ⟨env, event⟩ := input
  cases event with
  | block block => exact h.onBlock env block
  | vote vote => exact h.step_vote env vote
  | syncRequest peer req => exact h
  | syncResponse peer res =>
      have hsame : (state.step { env, event := .syncResponse peer res }).1 = state := by
        simp only [LoopState.step, turn, onSyncResponse, hother peer res rfl, if_false,
          Bool.false_eq_true]
      rw [hsame]
      exact h
  | timeout => exact h.congr rfl rfl h.requests
  | mempoolInsert tx =>
      simp only [LoopState.step, turn]
      cases state.engine.mempool.insert state.engine.stateStore tx with
      | ok mempool => exact h.congr rfl rfl h.requests
      | error e => exact h
  | pruneHistory keepLast =>
      obtain ⟨_, _, _, hpruned⟩ := StateStore.pruneHistory_fst state.engine.stateStore keepLast
      refine h.congr rfl ?_ h.requests
      show (state.engine.stateStore.pruneHistory keepLast).1.db.chainHeight = _
      rw [hpruned]

/-- A step ends at the tip exactly when no synced block is applied in it. -/
theorem atTip_step_iff (input : Input) :
    (state.step input).1.AtTip ↔ state.SyncsNothing input := by
  by_cases hsynced : (∃ peer res, input.event = .syncResponse peer res) ∧
      state.engine.syncManager.isSyncing
  · obtain ⟨⟨peer, res, hevent⟩, hsyncing⟩ := hsynced
    obtain ⟨env, event⟩ := input
    cases hevent
    rw [(h.synced_iff env peer res hsyncing).2.2]
    simp [SyncsNothing, hsyncing]
  · have hother : ∀ peer res, input.event = .syncResponse peer res →
        ¬ state.engine.syncManager.isSyncing :=
      fun peer res hevent hsyncing => hsynced ⟨⟨peer, res, hevent⟩, hsyncing⟩
    refine iff_of_true (h.step_other input hother).tip ?_
    unfold SyncsNothing
    split
    · rename_i peer res hevent
      exact fun hsyncing => absurd hsyncing (hother peer res hevent)
    · trivial

theorem Working.step (input : Input) (hnothing : state.SyncsNothing input) :
    (state.step input).1.Working := by
  have htip := (atTip_step_iff h input).mpr hnothing
  by_cases hsynced : (∃ peer res, input.event = .syncResponse peer res) ∧
      state.engine.syncManager.isSyncing
  · obtain ⟨⟨peer, res, hevent⟩, hsyncing⟩ := hsynced
    obtain ⟨env, event⟩ := input
    cases hevent
    obtain ⟨hblocks, hrequests, -⟩ := h.synced_iff env peer res hsyncing
    exact ⟨htip, hblocks, hrequests⟩
  · exact h.step_other input
      fun peer res hevent hsyncing => hsynced ⟨⟨peer, res, hevent⟩, hsyncing⟩

end

end LoopState

/-- Over any run of the loop from a store with blocks, the height is the one behind the
chain height at every turn exactly when no sync response that arrives during a sync has
blocks applied, up to multiples of `2 ^ 64`. -/
theorem always_at_tip_iff (store : StateStore) (hblocks : store.hasBlocks)
    (mempool : PrivateMempool) (validatorId : Option (Bytes32 × Bls.SecretKey)) (env : Env)
    (inputs : List Input) :
    let start := ((ConsensusEngine.new store mempool validatorId).enter env 0 0).1
    (∀ front, front <+: inputs → (engineMachine.final start front).AtTip) ↔
      engineMachine.Admissible LoopState.SyncsNothing start inputs := by
  intro start
  have hrequests : (ConsensusEngine.new store mempool validatorId).syncManager.Requests := by
    intro hsyncing
    cases hsyncing
  have hstart : start.Working := LoopState.working_enterState hblocks hrequests 0
  have hlegal : engineMachine.Admissible (fun _ _ => True) start inputs :=
    engineMachine.admissible_of_forall (fun _ _ _ => trivial) start
  apply engineMachine.forall_prefix_iff LoopState.Working LoopState.AtTip _ _ hstart hstart.tip
    hlegal
  · intro state input _ h hnothing
    exact h.step input hnothing
  · intro state input _ h
    exact LoopState.atTip_step_iff h input

end

/-! ## A sync that completes -/

section

attribute [local instance] Bls.plain Blake3.sum Nova.rejecting

def follower : LoopState :=
  ((ConsensusEngine.new (StateStore.withValidators [1]) {} none).enter Env.blank 0 0).1

def announceAndSync : List Input :=
  [Event.input (.block (Block.blank 6 (fill 32 0) [])),
    Event.input (.syncResponse []
      { blocks := [1, 2, 3, 4, 5, 6].map fun height => Block.blank height (fill 32 0) [] })]

theorem synced_behind_tip :
    (StateStore.withValidators [1]).hasBlocks ∧
      (engineMachine.final follower announceAndSync).engine.syncManager.isSyncing = false ∧
      ¬ (engineMachine.final follower announceAndSync).AtTip := by
  have hheights : (engineMachine.final follower announceAndSync).engine.syncManager.isSyncing =
        false ∧
      (engineMachine.final follower announceAndSync).height = 1 ∧
      (engineMachine.final follower announceAndSync).engine.stateStore.getChainHeight = 6 := by
    decide +kernel
  obtain ⟨hsyncing, hheight, hchain⟩ := hheights
  refine ⟨rfl, hsyncing, fun htip => ?_⟩
  rw [LoopState.AtTip, hheight, hchain] at htip
  exact absurd htip (by decide)

def commitAndSync : List Input :=
  [Event.input (.block blockA),
    Event.input (.vote (Vote.plain 1 0 blockA.header.hash .prevote)),
    Event.input (.vote (Vote.plain 1 0 blockA.header.hash .precommit)),
    Event.input (.block (Block.blank 9 (fill 32 0) [])),
    Event.input (.syncResponse [] { blocks := [blockA] }), Event.input .timeout]

theorem follower_at_tip :
    (engineMachine.final follower commitAndSync).height = 2 ∧
      (engineMachine.final follower commitAndSync).engine.syncManager.isSyncing = true ∧
      ∀ front, front <+: commitAndSync → (engineMachine.final follower front).AtTip := by
  have hnothing : engineMachine.Admissible LoopState.SyncsNothing follower commitAndSync :=
    ⟨trivial, trivial, trivial, trivial, fun _ => by decide +kernel, trivial, trivial⟩
  exact ⟨by decide +kernel, by decide +kernel,
    (always_at_tip_iff (StateStore.withValidators [1]) rfl {} none Env.blank _).mpr hnothing⟩

end

end NoirNet
