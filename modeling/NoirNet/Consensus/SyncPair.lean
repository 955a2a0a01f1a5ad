import NoirNet.Consensus.Writes

/-!
# Two nodes and the sync responses between them

One node serves sync requests, the other hears what is served.  The network keeps every
response that was sent and may deliver it late, again or never; everything else both nodes
hear is left open.
-/

namespace NoirNet

open Lib

def Action.responses (actions : List Action) : List SyncResponse :=
  actions.filterMap fun
    | .sendSyncResponse _ res => some res
    | _ => none

@[simp] theorem Action.responses_append (xs ys : List Action) :
    responses (xs ++ ys) = responses xs ++ responses ys :=
  List.filterMap_append

variable [Bls]

/-! ## The machine -/

/-- The two nodes, and the responses that were sent. -/
structure SyncPair where
  server : LoopState
  client : LoopState
  sent : List SyncResponse

inductive Side where
  | server
  | client
  deriving DecidableEq

namespace SyncPair

variable [Blake3] [Nova]

def step (pair : SyncPair) : Side × Input → SyncPair × List (Side × Action)
  | (.server, input) =>
      let (server, actions) := pair.server.step input
      ({ pair with server, sent := pair.sent ++ Action.responses actions },
        actions.map (.server, ·))
  | (.client, input) =>
      let (client, actions) := pair.client.step input
      ({ pair with client }, actions.map (.client, ·))

end SyncPair

def syncMachine [Blake3] [Nova] : Machine SyncPair (Side × Input) (Side × Action) where
  step := SyncPair.step

def serverActions (outputs : List (Side × Action)) : List Action :=
  outputs.filterMap fun output => if output.1 = .server then some output.2 else none

/-! ## Who sends a response -/

variable [Blake3]

section

variable [Nova]

theorem ConsensusEngine.responses_execute (engine : ConsensusEngine) (vm : WasmRuntime)
    (now : UInt64) (block : Block) : Action.responses (engine.execute vm now block).2 = [] := by
  simp only [execute]
  cases (executeAndApplyBlock vm engine.isValidator now engine.stateStore engine.mempool
    block).2.2.slashing <;> rfl

theorem ConsensusEngine.responses_executeSynced (env : Env) (height : UInt64)
    (engine : ConsensusEngine) (k : Nat) (blocks : List Block) :
    Action.responses (executeSynced env height engine k blocks).2 = [] := by
  induction blocks generalizing engine k with
  | nil => rfl
  | cons block blocks ih =>
      rw [executeSynced]
      by_cases hheight : block.header.height ≥ height
      · rw [if_pos hheight, Action.responses_append, responses_execute, ih, List.append_nil]
      · rw [if_neg hheight, ih]

end

theorem ConsensusEngine.responses_enter (engine : ConsensusEngine) (env : Env)
    (k generation : Nat) : Action.responses (engine.enter env k generation).2 = [] := by
  simp only [enter]
  split <;> rfl

namespace LoopState

omit [Blake3] in
theorem responses_vote (state : LoopState) (hash : Hash32) (voteType : VoteType) :
    Action.responses (state.vote hash voteType).2 = [] := by
  unfold vote
  split <;> rfl

omit [Bls] [Blake3] in
theorem responses_requestSync (syncManager : SyncManager) (request : Option SyncRequest) :
    Action.responses (requestSync syncManager request) = [] := by
  unfold requestSync
  split
  · split <;> rfl
  · rfl

theorem responses_onBlock (state : LoopState) (env : Env) (block : Block) :
    Action.responses (state.onBlock env block).2 = [] := by
  simp only [onBlock]
  split
  · rw [Action.responses_append, responses_requestSync, responses_vote, List.append_nil]
  · exact responses_requestSync _ _

variable [Nova]

theorem responses_onVote (state : LoopState) (env : Env) (vote : Vote) :
    Action.responses (state.onVote env vote).2 = [] := by
  unfold onVote
  by_cases hcounts : state.counts vote
  · rw [if_pos hcounts]
    dsimp only
    split
    · exact responses_vote _ _ _
    · split
      · exact state.engine.responses_execute env.vm (env.now 0) _
      · rfl
    · rfl
  · rw [if_neg hcounts]
    rfl

theorem responses_onSyncResponse (state : LoopState) (env : Env) (res : SyncResponse) :
    Action.responses (state.onSyncResponse env res).2 = [] := by
  have hsynced :=
    ConsensusEngine.responses_executeSynced env state.height state.engine 0 res.blocks
  simp only [onSyncResponse]
  split
  · split
    · split
      · rw [Action.responses_append, hsynced]
        rfl
      · exact hsynced
    · exact hsynced
  · rfl

theorem responses_step (state : LoopState) (input : Input) :
    Action.responses (state.step input).2 =
      match input.event with
      | .syncRequest peer req => Action.responses (state.onSyncRequest peer req)
      | _ => [] := by
  have hturn : Action.responses (state.step input).2 = Action.responses (state.turn input).2 := by
    unfold step
    cases state.turn input with
    | mk flow actions =>
        cases flow with
        | stay state' => rfl
        | leave engine =>
            exact (Action.responses_append _ _).trans
              (by rw [ConsensusEngine.responses_enter, List.append_nil])
  rw [hturn]
  obtain ⟨env, event⟩ := input
  cases event with
  | block block => exact state.responses_onBlock env block
  | vote vote => exact state.responses_onVote env vote
  | syncRequest peer req => rfl
  | syncResponse peer res => exact state.responses_onSyncResponse env res
  | timeout =>
      simp only [turn, onTimeout]
      split <;> rfl
  | mempoolInsert tx =>
      simp only [turn]
      split <;> rfl
  | pruneHistory keepLast => rfl

omit [Bls] [Blake3] [Nova] in
theorem mem_collectBlocks {store : StateStore} {n : Nat} {h : UInt64} {block : Block}
    (hmem : block ∈ collectBlocks store n h) :
    ∃ hash : BlockHash, store.db.blocks[hash]? = some block := by
  induction n generalizing h with
  | zero => cases hmem
  | succ n ih =>
      rw [collectBlocks] at hmem
      cases hfound : store.getBlockByHeight h with
      | none =>
          rw [hfound] at hmem
          cases hmem
      | some found =>
          rw [hfound] at hmem
          rcases List.mem_cons.mp hmem with rfl | hrest
          · unfold StateStore.getBlockByHeight at hfound
            cases hindex : store.db.heightHash[h]? with
            | none => simp [hindex] at hfound
            | some hash =>
                rw [hindex] at hfound
                exact ⟨hash, hfound⟩
          · exact ih hrest

/-- The blocks of a response are stored where it is sent. -/
theorem stored_of_responses {state : LoopState} {input : Input} {res : SyncResponse}
    (hres : res ∈ Action.responses (state.step input).2) {block : Block}
    (hblock : block ∈ res.blocks) :
    ∃ hash : BlockHash, state.engine.stateStore.db.blocks[hash]? = some block := by
  rw [responses_step] at hres
  split at hres
  · rename_i peer req
    rw [onSyncRequest, Action.responses, List.filterMap_cons, List.filterMap_nil,
      List.mem_singleton] at hres
    subst hres
    exact mem_collectBlocks hblock
  · cases hres

end LoopState

end NoirNet
