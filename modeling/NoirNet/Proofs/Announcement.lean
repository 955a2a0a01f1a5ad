import NoirNet.Proofs.Tip

/-!
# Announced heights

A block message carries a height that nobody has signed.  If it is far enough
ahead the node goes into a sync, and as long as it syncs it takes no proposal.

* `isSyncing_turn`: what a turn does to a sync;
* `isSyncing_inner_iff`: the inner loop behind an announcement;
* `announcement_iff`: when a proposal is taken behind it.
-/

namespace NoirNet

open Lib

/-! ## The sync manager -/

namespace SyncManager

def Ahead (peerHeight currentHeight : UInt64) : Prop := peerHeight > currentHeight + 5

theorem isSyncing_handlePeerHeight (manager : SyncManager) (peer : PeerId)
    (peerHeight currentHeight : UInt64) :
    (manager.handlePeerHeight peer peerHeight currentHeight).1.isSyncing ↔
      manager.isSyncing ∨ Ahead peerHeight currentHeight := by
  unfold handlePeerHeight Ahead
  cases hsyncing : manager.isSyncing with
  | true => simp
  | false =>
      by_cases hahead : peerHeight > currentHeight + 5
      · simp [hahead, startSync]
      · simp [hahead]

theorem isSyncing_checkSyncStatus (manager : SyncManager) (height : UInt64) :
    (manager.checkSyncStatus height).1.isSyncing ↔
      manager.isSyncing ∧ ¬ manager.targetHeight ≤ height := by
  unfold checkSyncStatus
  by_cases hdone : manager.isSyncing ∧ manager.targetHeight ≤ height
  · simp [hdone]
  · rw [if_neg hdone]
    exact ⟨fun hsyncing => ⟨hsyncing, fun hle => hdone ⟨hsyncing, hle⟩⟩, And.left⟩

end SyncManager

section

variable [Bls] [Blake3] [Nova]

namespace LoopState

omit [Blake3] [Nova] in
theorem admits_iff (state : LoopState) (peer : PeerId) (block : Block) :
    state.admits peer block ↔ block.header.height = state.height ∧
      ¬ state.engine.syncManager.isSyncing ∧
      ¬ SyncManager.Ahead state.height (ConsensusEngine.parentHeight state.height) := by
  rw [admits, decide_eq_true_iff]
  apply and_congr_right
  intro hheight
  rw [SyncManager.isSyncing_handlePeerHeight, not_or, hheight]

/-- The inner loop over these messages, if it does not come to its `break`. -/
def inner : LoopState → List Input → Option LoopState
  | state, [] => some state
  | state, input :: inputs =>
      match (state.turn input).1 with
      | .stay state => inner state inputs
      | .leave _ => none

/-- A sync response after which the chain has reached the target. -/
def Reaches (state : LoopState) (input : Input) : Prop :=
  match input.event with
  | .syncResponse _ res => state.engine.syncManager.targetHeight ≤
      (ConsensusEngine.executeSynced input.env state.height state.engine 0
        res.blocks).1.stateStore.getChainHeight
  | _ => False

/-! ## Turns of the inner loop -/

section

variable {state state' : LoopState}

theorem engine_onVote {env : Env} {vote : Vote}
    (hstay : (state.onVote env vote).1 = .stay state') : state'.engine = state.engine := by
  obtain ⟨hsame, -⟩ | ⟨block, -, -, -, hleave⟩ := state.onVote_fst env vote
  · rw [hsame] at hstay
    cases hstay
    rfl
  · rw [hleave] at hstay
    cases hstay

theorem height_turn {input : Input} (hstay : (state.turn input).1 = .stay state') :
    state'.height = state.height := by
  have hmoves := (state.turn_spec input).moves
  rw [hstay] at hmoves
  cases hmoves with
  | stay engine hnode => rfl
  | timeout engine hnode hevent => rfl

theorem isSyncing_onSyncResponse {env : Env} {res : SyncResponse}
    (hstay : (state.onSyncResponse env res).1 = .stay state') :
    state'.engine.syncManager.isSyncing ↔ state.engine.syncManager.isSyncing ∧
      ¬ state.engine.syncManager.targetHeight ≤ (ConsensusEngine.executeSynced env state.height
        state.engine 0 res.blocks).1.stateStore.getChainHeight := by
  have hmanager :=
    ConsensusEngine.syncManager_executeSynced env state.height state.engine 0 res.blocks
  by_cases hsyncing : state.engine.syncManager.isSyncing
  · simp only [onSyncResponse, hsyncing, if_true] at hstay
    generalize ConsensusEngine.executeSynced env state.height state.engine 0 res.blocks = synced
      at hmanager hstay ⊢
    have hstatus := synced.1.syncManager.isSyncing_checkSyncStatus
      synced.1.stateStore.getChainHeight
    rw [hmanager] at hstatus hstay
    rw [← hstatus]
    -- every way to stay leaves the manager of the check behind
    split at hstay
    · split at hstay
      · cases hstay
        rfl
      · cases hstay
    · cases hstay
      rfl
  · simp only [onSyncResponse, hsyncing, if_false, Bool.false_eq_true] at hstay
    cases hstay
    simp [hsyncing]

theorem isSyncing_turn {input : Input} (hevent : ∀ block, input.event ≠ .block block)
    (hstay : (state.turn input).1 = .stay state') :
    state'.engine.syncManager.isSyncing ↔
      state.engine.syncManager.isSyncing ∧ ¬ state.Reaches input := by
  obtain ⟨env, event⟩ := input
  cases event with
  | block block => exact absurd rfl (hevent block)
  | vote vote =>
      rw [engine_onVote hstay]
      simp [Reaches]
  | syncResponse peer res => exact isSyncing_onSyncResponse hstay
  | mempoolInsert tx =>
      simp only [turn] at hstay
      split at hstay
      · cases hstay
        simp [Reaches]
      · cases hstay
        simp [Reaches]
  | syncRequest peer req =>
      cases hstay
      simp [Reaches]
  | timeout =>
      cases hstay
      simp [Reaches]
  | pruneHistory keepLast =>
      cases hstay
      simp [Reaches]

/-! ## The inner loop -/

theorem step_of_stay {input : Input} (hstay : (state.turn input).1 = .stay state') :
    (state.step input).1 = state' := by
  unfold step
  cases hturn : state.turn input with
  | mk flow actions =>
      rw [hturn] at hstay
      cases hstay
      rfl

theorem inner_cons {input : Input} {inputs : List Input} {later : LoopState}
    (hlater : state.inner (input :: inputs) = some later) :
    (state.turn input).1 = .stay (state.step input).1 ∧
      (state.step input).1.inner inputs = some later := by
  rw [inner] at hlater
  cases hturn : (state.turn input).1 with
  | stay state' =>
      rw [hturn] at hlater
      rw [step_of_stay hturn]
      exact ⟨rfl, hlater⟩
  | leave engine =>
      rw [hturn] at hlater
      cases hlater

/-- The sync goes on exactly as long as no response reaches its target. -/
theorem isSyncing_inner_iff {later : LoopState} {inputs : List Input}
    (hevents : ∀ input ∈ inputs, ∀ block, input.event ≠ .block block)
    (hlater : state.inner inputs = some later) :
    later.engine.syncManager.isSyncing ↔ state.engine.syncManager.isSyncing ∧
      ∀ v ∈ engineMachine.visits state inputs, ¬ v.1.Reaches v.2 := by
  induction inputs generalizing state with
  | nil =>
      cases hlater
      simp
  | cons input inputs ih =>
      obtain ⟨hstay, hrest⟩ := inner_cons hlater
      have hone := isSyncing_turn (hevents input List.mem_cons_self) hstay
      rw [ih (fun i hi => hevents i (List.mem_cons_of_mem _ hi)) hrest, hone,
        Machine.visits_cons, List.forall_mem_cons, and_assoc]
      rfl

theorem height_inner {later : LoopState} {inputs : List Input}
    (hlater : state.inner inputs = some later) : later.height = state.height := by
  induction inputs generalizing state with
  | nil =>
      cases hlater
      rfl
  | cons input inputs ih =>
      obtain ⟨hstay, hrest⟩ := inner_cons hlater
      rw [ih hrest, height_turn hstay]

end

end LoopState

/-- In the inner loop at a height, not syncing, a block of any height arrives, and then
anything but blocks.  A proposal for the height is taken behind all that as it would be
alone exactly when the first block is no more than five heights ahead, or a sync response
has brought the chain to the target.  (At the last heights even the own height is ahead.) -/
theorem announcement_iff {state later : LoopState}
    (hidle : ¬ state.engine.syncManager.isSyncing) {env : Env} {announced : Block}
    {between : List Input}
    (hbetween : ∀ input ∈ between, ∀ block, input.event ≠ .block block)
    (hlater : state.inner ({ env, event := .block announced } :: between) = some later)
    (peer : PeerId) {block : Block} (hheight : block.header.height = state.height) :
    (later.admits peer block ↔ state.admits peer block) ↔
      ¬ SyncManager.Ahead announced.header.height (ConsensusEngine.parentHeight state.height) ∨
        SyncManager.Ahead state.height (ConsensusEngine.parentHeight state.height) ∨
        ∃ v ∈ engineMachine.visits (state.step { env, event := .block announced }).1 between,
          v.1.Reaches v.2 := by
  obtain ⟨hstay, hrest⟩ := LoopState.inner_cons hlater
  have hsyncing := LoopState.isSyncing_inner_iff hbetween hrest
  have hannounced : (state.step { env, event := .block announced }).1.engine.syncManager.isSyncing ↔
      SyncManager.Ahead announced.header.height (ConsensusEngine.parentHeight state.height) := by
    show (state.onBlock env announced).1.engine.syncManager.isSyncing ↔ _
    rw [(state.onBlock_frame env announced).2, SyncManager.isSyncing_handlePeerHeight]
    simp [hidle]
  rw [LoopState.admits_iff, LoopState.admits_iff, LoopState.height_inner hlater, hsyncing,
    hannounced]
  simp only [hheight, hidle, true_and]
  by_cases hahead : SyncManager.Ahead announced.header.height
      (ConsensusEngine.parentHeight state.height)
  · by_cases hown : SyncManager.Ahead state.height (ConsensusEngine.parentHeight state.height)
    · simp [hown]
    · simp [hown, hahead]
  · simp [hahead]

end

/-! ## A height that nobody has reached -/

section

attribute [local instance] Bls.plain Blake3.sum Nova.rejecting

theorem announcement_blocks_proposal :
    follower.engine.syncManager.isSyncing = false ∧
      ∃ later, follower.inner [Event.input (.block (Block.blank 7 (fill 32 0) [])),
          Event.input .timeout] = some later ∧
        (Block.blank 1 (fill 32 0) []).header.height = follower.height ∧
        follower.admits [] (Block.blank 1 (fill 32 0) []) ∧
        ¬ later.admits [] (Block.blank 1 (fill 32 0) []) := by
  refine ⟨by decide +kernel, _, rfl, by decide +kernel, by decide +kernel, by decide +kernel⟩

theorem announcement_near :
    ∃ later, follower.inner [Event.input (.block (Block.blank 5 (fill 32 0) [])),
        Event.input .timeout] = some later ∧
      ((later.admits [] (Block.blank 1 (fill 32 0) []) ↔
          follower.admits [] (Block.blank 1 (fill 32 0) [])) ↔
        ¬ SyncManager.Ahead 5 (ConsensusEngine.parentHeight follower.height) ∨
          SyncManager.Ahead follower.height (ConsensusEngine.parentHeight follower.height) ∨
          ∃ v ∈ engineMachine.visits
              (follower.step (Event.input (.block (Block.blank 5 (fill 32 0) [])))).1
              [Event.input .timeout],
            v.1.Reaches v.2) := by
  have hidle : ¬ follower.engine.syncManager.isSyncing := by decide +kernel
  have hbetween : ∀ input ∈ [Event.input .timeout], ∀ block, input.event ≠ .block block := by
    intro input hinput block
    rw [List.mem_singleton.mp hinput]
    exact nofun
  have hheight : (Block.blank 1 (fill 32 0) []).header.height = follower.height := by
    decide +kernel
  obtain ⟨later, hlater⟩ : ∃ later, follower.inner
      ({ env := Env.blank, event := .block (Block.blank 5 (fill 32 0) []) } ::
        [Event.input .timeout]) = some later := ⟨_, rfl⟩
  exact ⟨later, hlater, announcement_iff hidle hbetween hlater [] hheight⟩

end

end NoirNet
