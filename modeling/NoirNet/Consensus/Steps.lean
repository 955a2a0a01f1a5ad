import NoirNet.Consensus.Engine
import NoirNet.Storage.Frame

/-!
# What one turn of the consensus loop can do

Everything later proofs need to know about a step, said once:

* `step_next` and `step_cases`: the loop variables stay, the round restarts, or
  the outer loop is entered again;
* `votes_step` and `signed_step`: the votes a step broadcasts and the messages
  it signs;
* `commits_step` and `executions_step_vote`: what a step commits and executes.
-/

namespace NoirNet

open Lib

variable [Bls]

/-! ## Actions -/

namespace Action

def votes (actions : List Action) : List Vote :=
  actions.filterMap fun
    | .broadcastVote vote => some vote
    | _ => none

def signed (actions : List Action) : List Bytes :=
  actions.filterMap fun
    | .sign message => some message
    | _ => none

def commits (actions : List Action) : List (UInt64 × Hash32) :=
  actions.filterMap fun
    | .committing height hash => some (height, hash)
    | _ => none

def executions (actions : List Action) : List Block :=
  actions.filterMap fun
    | .executed block _ => some block
    | _ => none

omit [Bls] in
@[simp] theorem votes_append (xs ys : List Action) : votes (xs ++ ys) = votes xs ++ votes ys :=
  List.filterMap_append

omit [Bls] in
@[simp] theorem signed_append (xs ys : List Action) :
    signed (xs ++ ys) = signed xs ++ signed ys :=
  List.filterMap_append

omit [Bls] in
@[simp] theorem commits_append (xs ys : List Action) :
    commits (xs ++ ys) = commits xs ++ commits ys :=
  List.filterMap_append

omit [Bls] in
@[simp] theorem executions_append (xs ys : List Action) :
    executions (xs ++ ys) = executions xs ++ executions ys :=
  List.filterMap_append

/-- Executing, syncing and proposing: no vote, no signature, no commit. -/
def Silent (actions : List Action) : Prop :=
  votes actions = [] ∧ signed actions = [] ∧ commits actions = []

omit [Bls] in
theorem Silent.nil : Silent [] := ⟨rfl, rfl, rfl⟩

omit [Bls] in
theorem Silent.append {xs ys : List Action} (hxs : Silent xs) (hys : Silent ys) :
    Silent (xs ++ ys) := by
  obtain ⟨hv, hs, hc⟩ := hxs
  obtain ⟨hv', hs', hc'⟩ := hys
  simp [Silent, hv, hs, hc, hv', hs', hc']

omit [Bls] in
theorem mem_votes {actions : List Action} {vote : Vote} :
    vote ∈ votes actions ↔ .broadcastVote vote ∈ actions := by
  unfold votes
  rw [List.mem_filterMap]
  constructor
  · rintro ⟨action, hmem, hvote⟩
    cases action <;> simp at hvote
    subst hvote
    exact hmem
  · intro h
    exact ⟨_, h, rfl⟩

omit [Bls] in
theorem mem_signed {actions : List Action} {message : Bytes} :
    message ∈ signed actions ↔ .sign message ∈ actions := by
  unfold signed
  rw [List.mem_filterMap]
  constructor
  · rintro ⟨action, hmem, hmessage⟩
    cases action <;> simp at hmessage
    subst hmessage
    exact hmem
  · intro h
    exact ⟨_, h, rfl⟩

end Action

def Event.Idle : Event → Prop
  | .block _ | .vote _ => False
  | _ => True

/-! ## The engine's identity -/

/-- What no step changes: who the node is and which validators it knows. -/
structure ConsensusEngine.SameNode (engine engine' : ConsensusEngine) : Prop where
  localValidatorId : engine'.localValidatorId = engine.localValidatorId
  secretKey : engine'.secretKey = engine.secretKey
  validators : engine'.stateStore.getAllValidators = engine.stateStore.getAllValidators

namespace ConsensusEngine

theorem SameNode.refl (engine : ConsensusEngine) : engine.SameNode engine := ⟨rfl, rfl, rfl⟩

theorem SameNode.trans {e e' e'' : ConsensusEngine} (h : e.SameNode e') (h' : e'.SameNode e'') :
    e.SameNode e'' where
  localValidatorId := h'.localValidatorId.trans h.localValidatorId
  secretKey := h'.secretKey.trans h.secretKey
  validators := h'.validators.trans h.validators

variable [Blake3] [Nova]

omit [Bls] in
theorem getAllValidators_executeAndApplyBlock (vm : WasmRuntime) (isValidator : Bool)
    (now : UInt64) (store : StateStore) (mempool : PrivateMempool) (block : Block) :
    (executeAndApplyBlock vm isValidator now store mempool block).1.getAllValidators =
      store.getAllValidators := by
  unfold executeAndApplyBlock
  split
  · rfl
  split
  · rfl
  cases verifyTransactions block.transactions with
  | error reason => rfl
  | ok u =>
      have happly := StateStore.getAllValidators_applyBlock store block
        (block.transactions.foldl (ContractEffects.executeTransaction vm store)
          {}).contractStateChanges
        (block.transactions.foldl (ContractEffects.executeTransaction vm store) {}).newContracts
      simp only
      split
      · rename_i store' root hresult
        rw [hresult] at happly
        split
        · exact happly
        · exact happly
      · rename_i store' e hresult
        rw [hresult] at happly
        exact happly

theorem sameNode_execute (engine : ConsensusEngine) (vm : WasmRuntime) (now : UInt64)
    (block : Block) : engine.SameNode (engine.execute vm now block).1 where
  localValidatorId := rfl
  secretKey := rfl
  validators := getAllValidators_executeAndApplyBlock ..

theorem silent_execute (engine : ConsensusEngine) (vm : WasmRuntime) (now : UInt64)
    (block : Block) : Action.Silent (engine.execute vm now block).2 := by
  simp only [execute]
  cases (executeAndApplyBlock vm engine.isValidator now engine.stateStore engine.mempool
    block).2.2.slashing <;> exact ⟨rfl, rfl, rfl⟩

theorem executions_execute (engine : ConsensusEngine) (vm : WasmRuntime) (now : UInt64)
    (block : Block) : Action.executions (engine.execute vm now block).2 = [block] := by
  simp only [execute]
  cases (executeAndApplyBlock vm engine.isValidator now engine.stateStore engine.mempool
    block).2.2.slashing <;> rfl

theorem executeSynced_spec (env : Env) (height : UInt64) (engine : ConsensusEngine) (k : Nat)
    (blocks : List Block) :
    engine.SameNode (executeSynced env height engine k blocks).1 ∧
      Action.Silent (executeSynced env height engine k blocks).2 := by
  induction blocks generalizing engine k with
  | nil => exact ⟨.refl _, .nil⟩
  | cons block blocks ih =>
      rw [executeSynced]
      split
      · obtain ⟨hnode, hsilent⟩ := ih (engine.execute env.vm (env.now k) block).1 (k + 1)
        exact ⟨(engine.sameNode_execute env.vm (env.now k) block).trans hnode,
          (engine.silent_execute env.vm (env.now k) block).append hsilent⟩
      · exact ih engine k

omit [Blake3] [Nova] in
theorem sameNode_enterState (engine : ConsensusEngine) (generation : Nat) :
    engine.SameNode (engine.enterState generation).engine := ⟨rfl, rfl, rfl⟩

omit [Nova] in
theorem silent_enter (engine : ConsensusEngine) (env : Env) (k generation : Nat) :
    Action.Silent (engine.enter env k generation).2 ∧
      Action.executions (engine.enter env k generation).2 = [] := by
  simp only [enter]
  split <;> exact ⟨⟨rfl, rfl, rfl⟩, rfl⟩

end ConsensusEngine

/-! ## Turns -/

namespace LoopState

def withOwn (state : LoopState) (bft : BftRoundState) (hash : Hash32) (voteType : VoteType) :
    BftRoundState :=
  match state.engine.secretKey with
  | some sk => (bft.addVote (state.engine.castVote sk state.height state.round hash voteType)).1
  | none => bft

def castOn (state : LoopState) (hash : Hash32) (voteType : VoteType) : List Vote :=
  match state.engine.secretKey with
  | some sk => [state.engine.castVote sk state.height state.round hash voteType]
  | none => []

variable [Blake3]

/-- The votes cast in a turn: a prevote for a proposal that is admitted, a
precommit for the hash whose prevote quorum a counted vote completes. -/
def casts (state : LoopState) (input : Input) : List Vote :=
  match input.event with
  | .block block =>
      if state.admits input.env.randomPeer block then state.castOn block.header.hash .prevote
      else []
  | .vote vote =>
      if state.counts vote ∧ state.newPhase vote = some .precommit then
        state.castOn vote.blockHash .precommit
      else []
  | _ => []

def nextBft (state : LoopState) (input : Input) : BftRoundState :=
  match input.event with
  | .block block =>
      if state.admits input.env.randomPeer block then
        state.withOwn (state.bft.tryAdvancePhase block.header.hash).1 block.header.hash .prevote
      else state.bft
  | .vote vote =>
      if state.counts vote then
        let bft := ((state.bft.addVote vote).1.tryAdvancePhase vote.blockHash).1
        if state.newPhase vote = some .precommit then
          state.withOwn bft vote.blockHash .precommit
        else bft
      else state.bft
  | _ => state.bft

def nextBlock (state : LoopState) (input : Input) : Option Block :=
  match input.event with
  | .block block =>
      if state.admits input.env.randomPeer block then some block else state.currentBlock
  | _ => state.currentBlock

omit [Blake3] in
theorem vote_fst (state : LoopState) (hash : Hash32) (voteType : VoteType) :
    (state.vote hash voteType).1 =
      { state with bft := state.withOwn state.bft hash voteType } := by
  unfold vote withOwn
  cases state.engine.secretKey <;> rfl

inductive Moves (state : LoopState) (input : Input) : Flow → Prop
  | stay (engine : ConsensusEngine) (hnode : state.engine.SameNode engine) :
      Moves state input (.stay { state with
        engine
        bft := state.nextBft input
        currentBlock := state.nextBlock input })
  | timeout (engine : ConsensusEngine) (hnode : state.engine.SameNode engine)
      (hevent : input.event = .timeout) :
      Moves state input (.stay { state with
        engine
        round := state.round + 1
        bft := BftRoundState.new state.height (state.round + 1) state.totalValidators
        generation := state.generation + 1 })
  | leave (engine : ConsensusEngine) (hnode : state.engine.SameNode engine) :
      Moves state input (.leave engine)

/-! ### The arms -/

section Arms

variable (state : LoopState) (env : Env)

theorem onBlock_moves (block : Block) :
    Moves state { env, event := .block block } (.stay (state.onBlock env block).1) := by
  let engine := { state.engine with
    syncManager := (state.engine.syncManager.handlePeerHeight env.randomPeer block.header.height
      (ConsensusEngine.parentHeight state.height)).1 }
  have hnode : state.engine.SameNode engine := ⟨rfl, rfl, rfl⟩
  have hstate : (state.onBlock env block).1 = { state with
      engine
      bft := state.nextBft { env, event := .block block }
      currentBlock := state.nextBlock { env, event := .block block } } := by
    simp only [onBlock, nextBft, nextBlock]
    by_cases hadmits : state.admits env.randomPeer block
    · simp only [hadmits, if_true, vote_fst]
      rfl
    · simp only [hadmits, if_false, Bool.false_eq_true]
      rfl
  rw [hstate]
  exact .stay engine hnode

omit [Bls] [Blake3] in
theorem silent_requestSync (syncManager : SyncManager) (request : Option SyncRequest) :
    Action.Silent (requestSync syncManager request) ∧
      Action.executions (requestSync syncManager request) = [] := by
  unfold requestSync
  split
  · split <;> exact ⟨⟨rfl, rfl, rfl⟩, rfl⟩
  · exact ⟨⟨rfl, rfl, rfl⟩, rfl⟩

omit [Blake3] in
theorem actions_vote (hash : Hash32) (voteType : VoteType) :
    let actions := (state.vote hash voteType).2
    let casts := state.castOn hash voteType
    Action.votes actions = casts ∧ Action.signed actions = casts.map (·.blockHash.toList) ∧
      Action.commits actions = [] ∧ Action.executions actions = [] := by
  unfold vote castOn
  cases state.engine.secretKey <;> exact ⟨rfl, rfl, rfl, rfl⟩

theorem actions_onBlock (block : Block) :
    let actions := (state.onBlock env block).2
    let casts := state.casts { env, event := .block block }
    Action.votes actions = casts ∧ Action.signed actions = casts.map (·.blockHash.toList) ∧
      Action.commits actions = [] ∧ Action.executions actions = [] := by
  obtain ⟨⟨hv, hs, hc⟩, he⟩ := silent_requestSync
    (state.engine.syncManager.handlePeerHeight env.randomPeer block.header.height
      (ConsensusEngine.parentHeight state.height)).1
    (state.engine.syncManager.handlePeerHeight env.randomPeer block.header.height
      (ConsensusEngine.parentHeight state.height)).2
  by_cases hadmits : state.admits env.randomPeer block
  · let admitted := { state with
      engine := { state.engine with
        syncManager := (state.engine.syncManager.handlePeerHeight env.randomPeer
          block.header.height (ConsensusEngine.parentHeight state.height)).1 }
      currentBlock := some block
      bft := (state.bft.tryAdvancePhase block.header.hash).1 }
    obtain ⟨hv', hs', hc', he'⟩ := actions_vote admitted block.header.hash .prevote
    simp only [onBlock, casts, hadmits, if_true, Action.votes_append, Action.signed_append,
      Action.commits_append, Action.executions_append, hv, hs, hc, he, List.nil_append]
    exact ⟨hv', hs', hc', he'⟩
  · simp only [onBlock, casts, hadmits, if_false, Bool.false_eq_true]
    exact ⟨hv, hs, hc, he⟩

variable [Nova]

theorem onVote_of_commit_some {vote : Vote} {block : Block} (hcounts : state.counts vote)
    (hphase : state.newPhase vote = some .commit) (hblock : state.currentBlock = some block) :
    state.onVote env vote =
      (.leave (state.engine.execute env.vm (env.now 0) block).1,
        .committing state.height vote.blockHash ::
          (state.engine.execute env.vm (env.now 0) block).2) := by
  rw [newPhase] at hphase
  simp only [onVote, hcounts, if_true, hphase, hblock]

theorem onVote_of_commit_none {vote : Vote} (hcounts : state.counts vote)
    (hphase : state.newPhase vote = some .commit) (hblock : state.currentBlock = none) :
    state.onVote env vote =
      (.stay { state with
        bft := ((state.bft.addVote vote).1.tryAdvancePhase vote.blockHash).1 },
        [.committing state.height vote.blockHash]) := by
  rw [newPhase] at hphase
  simp only [onVote, hcounts, if_true, hphase, hblock]

theorem onVote_of_precommit {vote : Vote} (hcounts : state.counts vote)
    (hphase : state.newPhase vote = some .precommit) :
    let advanced := { state with
      bft := ((state.bft.addVote vote).1.tryAdvancePhase vote.blockHash).1 }
    state.onVote env vote =
      (.stay (advanced.vote vote.blockHash .precommit).1,
        (advanced.vote vote.blockHash .precommit).2) := by
  rw [newPhase] at hphase
  simp only [onVote, hcounts, if_true, hphase]

theorem onVote_of_quiet {vote : Vote} (hcounts : state.counts vote)
    (hprecommit : state.newPhase vote ≠ some .precommit)
    (hcommit : state.newPhase vote ≠ some .commit) :
    state.onVote env vote =
      (.stay { state with
        bft := ((state.bft.addVote vote).1.tryAdvancePhase vote.blockHash).1 }, []) := by
  rw [newPhase] at hprecommit hcommit
  simp only [onVote, hcounts, if_true]

theorem onVote_of_not_counts {vote : Vote} (hcounts : ¬ state.counts vote) :
    state.onVote env vote = (.stay state, []) := by
  simp only [onVote, hcounts, if_false, Bool.false_eq_true]

/-- A vote changes the round state, or commits the current block and leaves. -/
theorem onVote_fst (vote : Vote) :
    ((state.onVote env vote).1 =
          .stay { state with bft := state.nextBft { env, event := .vote vote } } ∧
        (state.counts vote → state.newPhase vote = some .commit → state.currentBlock = none)) ∨
      ∃ block, state.counts vote ∧ state.newPhase vote = some .commit ∧
        state.currentBlock = some block ∧
        (state.onVote env vote).1 = .leave (state.engine.execute env.vm (env.now 0) block).1 := by
  by_cases hcounts : state.counts vote
  · by_cases hprecommit : state.newPhase vote = some .precommit
    · left
      rw [state.onVote_of_precommit env hcounts hprecommit, vote_fst]
      simp only [nextBft, hcounts, hprecommit, if_true]
      exact ⟨rfl, nofun⟩
    have hbft : state.nextBft { env, event := .vote vote } =
        ((state.bft.addVote vote).1.tryAdvancePhase vote.blockHash).1 := by
      simp only [nextBft, hcounts, hprecommit, if_true, if_false]
    rw [hbft]
    by_cases hcommit : state.newPhase vote = some .commit
    · cases hblock : state.currentBlock with
      | none =>
          left
          rw [state.onVote_of_commit_none env hcounts hcommit hblock, hblock]
          exact ⟨rfl, fun _ _ => rfl⟩
      | some block =>
          right
          refine ⟨block, hcounts, hcommit, rfl, ?_⟩
          rw [state.onVote_of_commit_some env hcounts hcommit hblock]
    · left
      rw [state.onVote_of_quiet env hcounts hprecommit hcommit]
      exact ⟨rfl, fun _ h => absurd h hcommit⟩
  · left
    rw [state.onVote_of_not_counts env hcounts]
    simp [nextBft, hcounts]

end Arms

/-! ### The turn -/

variable [Nova]

omit [Nova] in
def commitsOn (state : LoopState) (input : Input) : List (UInt64 × Hash32) :=
  match input.event with
  | .vote vote =>
      if state.counts vote ∧ state.newPhase vote = some .commit then
        [(state.height, vote.blockHash)]
      else []
  | _ => []

/-- Everything a turn does to the loop variables and all it says. -/
structure TurnSpec (state : LoopState) (input : Input) (result : Flow × List Action) : Prop where
  moves : Moves state input result.1
  votes : Action.votes result.2 = state.casts input
  signed : Action.signed result.2 = (state.casts input).map (·.blockHash.toList)
  commits : Action.commits result.2 = state.commitsOn input

omit [Nova] in
theorem turnSpec_of_silent {state : LoopState} {input : Input} {result : Flow × List Action}
    (hmoves : Moves state input result.1) (hsilent : Action.Silent result.2)
    (hcasts : state.casts input = []) (hcommits : state.commitsOn input = []) :
    TurnSpec state input result where
  moves := hmoves
  votes := by rw [hsilent.1, hcasts]
  signed := by rw [hsilent.2.1, hcasts, List.map_nil]
  commits := by rw [hsilent.2.2, hcommits]

omit [Nova] in
theorem moves_engine {state : LoopState} {input : Input} {engine : ConsensusEngine}
    (hnode : state.engine.SameNode engine) (hbft : state.nextBft input = state.bft)
    (hblock : state.nextBlock input = state.currentBlock) :
    Moves state input (.stay { state with engine }) := by
  have hstay : Moves state input (.stay { state with
      engine
      bft := state.nextBft input
      currentBlock := state.nextBlock input }) := .stay engine hnode
  rwa [hbft, hblock] at hstay

omit [Nova] in
theorem turnSpec_idle {state : LoopState} {input : Input} {engine : ConsensusEngine}
    {actions : List Action} (hidle : input.event.Idle) (hnode : state.engine.SameNode engine)
    (hsilent : Action.Silent actions) :
    TurnSpec state input (.stay { state with engine }, actions) := by
  obtain ⟨env, event⟩ := input
  cases event with
  | block block => exact hidle.elim
  | vote vote => exact hidle.elim
  | _ =>
      apply turnSpec_of_silent
      · exact moves_engine hnode rfl rfl
      · exact hsilent
      · rfl
      · rfl

/-- What a vote makes the node say: the votes it casts, the commit, and the block it
executes for it. -/
theorem actions_onVote (state : LoopState) (env : Env) (vote : Vote) :
    let actions := (state.onVote env vote).2
    let casts := state.casts { env, event := .vote vote }
    Action.votes actions = casts ∧ Action.signed actions = casts.map (·.blockHash.toList) ∧
      Action.commits actions = state.commitsOn { env, event := .vote vote } ∧
      Action.executions actions =
        if state.counts vote ∧ state.newPhase vote = some .commit then state.currentBlock.toList
        else [] := by
  by_cases hcounts : state.counts vote
  · by_cases hprecommit : state.newPhase vote = some .precommit
    · let advanced := { state with
        bft := ((state.bft.addVote vote).1.tryAdvancePhase vote.blockHash).1 }
      obtain ⟨hvotes, hsigned, hcommits, hnone⟩ :=
        advanced.actions_vote vote.blockHash .precommit
      have hcasts : state.casts { env, event := .vote vote } =
          advanced.castOn vote.blockHash .precommit := by
        simp only [casts, hcounts, hprecommit, and_self, if_true]
        rfl
      rw [state.onVote_of_precommit env hcounts hprecommit, hcasts]
      refine ⟨hvotes, hsigned, ?_, ?_⟩
      · rw [hcommits]
        simp [commitsOn, hprecommit]
      · rw [hnone]
        simp [hprecommit]
    have hcasts : state.casts { env, event := .vote vote } = [] := by simp [casts, hprecommit]
    rw [hcasts]
    by_cases hcommit : state.newPhase vote = some .commit
    · have hcommits : state.commitsOn { env, event := .vote vote } =
          [(state.height, vote.blockHash)] := by simp [commitsOn, hcounts, hcommit]
      rw [hcommits, if_pos ⟨hcounts, hcommit⟩]
      cases hblock : state.currentBlock with
      | none =>
          rw [state.onVote_of_commit_none env hcounts hcommit hblock]
          exact ⟨rfl, rfl, rfl, rfl⟩
      | some block =>
          rw [state.onVote_of_commit_some env hcounts hcommit hblock]
          obtain ⟨hvotes, hsigned, hnone⟩ := state.engine.silent_execute env.vm (env.now 0) block
          exact ⟨hvotes, hsigned, congrArg _ hnone,
            state.engine.executions_execute env.vm (env.now 0) block⟩
    · rw [state.onVote_of_quiet env hcounts hprecommit hcommit]
      have hcommits : state.commitsOn { env, event := .vote vote } = [] := by
        simp [commitsOn, hcommit]
      rw [hcommits, if_neg (by simp [hcommit])]
      exact ⟨rfl, rfl, rfl, rfl⟩
  · rw [state.onVote_of_not_counts env hcounts]
    simp [casts, commitsOn, hcounts, Action.votes, Action.signed, Action.commits,
      Action.executions]

theorem turnSpec_vote (state : LoopState) (env : Env) (vote : Vote) :
    TurnSpec state { env, event := .vote vote } (state.onVote env vote) := by
  obtain ⟨hvotes, hsigned, hcommits, -⟩ := state.actions_onVote env vote
  refine ⟨?_, hvotes, hsigned, hcommits⟩
  obtain ⟨hstay, -⟩ | ⟨block, -, -, -, hleave⟩ := state.onVote_fst env vote
  · rw [hstay]
    exact .stay state.engine (.refl _)
  · rw [hleave]
    exact .leave _ (state.engine.sameNode_execute env.vm (env.now 0) block)

theorem turnSpec_syncResponse (state : LoopState) (env : Env) (peer : PeerId)
    (res : SyncResponse) :
    TurnSpec state { env, event := .syncResponse peer res } (state.onSyncResponse env res) := by
  unfold onSyncResponse
  by_cases hsyncing : state.engine.syncManager.isSyncing
  · rw [if_pos hsyncing]
    obtain ⟨hnode, hsilent⟩ :=
      ConsensusEngine.executeSynced_spec env state.height state.engine 0 res.blocks
    cases hexec : ConsensusEngine.executeSynced env state.height state.engine 0 res.blocks with
    | mk engine actions =>
        rw [hexec] at hnode hsilent
        cases hcheck : engine.syncManager.checkSyncStatus engine.stateStore.getChainHeight with
        | mk syncManager syncing =>
            have hnode' : state.engine.SameNode { engine with syncManager } :=
              hnode.trans ⟨rfl, rfl, rfl⟩
            simp only [hcheck]
            cases syncing with
            | false => exact turnSpec_idle trivial hnode' hsilent
            | true =>
                cases hrequest : syncManager.currentRequest with
                | some request =>
                    exact turnSpec_idle trivial hnode' (hsilent.append ⟨rfl, rfl, rfl⟩)
                | none => exact turnSpec_of_silent (.leave _ hnode') hsilent rfl rfl
  · rw [if_neg hsyncing]
    exact turnSpec_idle trivial (.refl _) .nil

theorem turn_spec (state : LoopState) (input : Input) :
    TurnSpec state input (state.turn input) := by
  obtain ⟨env, event⟩ := input
  cases event with
  | block block =>
      obtain ⟨hvotes, hsigned, hcommits, -⟩ := state.actions_onBlock env block
      exact ⟨state.onBlock_moves env block, hvotes, hsigned, hcommits⟩
  | vote vote => exact state.turnSpec_vote env vote
  | syncResponse peer res => exact state.turnSpec_syncResponse env peer res
  | syncRequest peer req => exact turnSpec_idle trivial (.refl _) ⟨rfl, rfl, rfl⟩
  | timeout =>
      refine turnSpec_of_silent (.timeout _ ⟨rfl, rfl, rfl⟩ rfl) ?_ rfl rfl
      show Action.Silent state.onTimeout.2
      simp only [onTimeout]
      split <;> exact ⟨rfl, rfl, rfl⟩
  | mempoolInsert tx =>
      simp only [turn]
      cases state.engine.mempool.insert state.engine.stateStore tx with
      | ok mempool =>
          exact turnSpec_idle trivial (⟨rfl, rfl, rfl⟩) .nil
      | error e => exact turnSpec_idle trivial (.refl _) .nil
  | pruneHistory keepLast =>
      refine turnSpec_idle trivial ⟨rfl, rfl, ?_⟩ .nil
      exact StateStore.getAllValidators_pruneHistory _ _

/-! ### The step -/

/-- The turn ends with the `break` of the inner loop. -/
def leaves (state : LoopState) (input : Input) : Bool :=
  match (state.turn input).1 with
  | .stay _ => false
  | .leave _ => true

omit [Nova] in
/-- How the loop variables can move in one step; the flag says whether the outer
loop is entered again. -/
inductive Next (state : LoopState) (input : Input) : Bool → LoopState → Prop
  | stay (engine : ConsensusEngine) (hnode : state.engine.SameNode engine) :
      Next state input false { state with
        engine
        bft := state.nextBft input
        currentBlock := state.nextBlock input }
  | timeout (engine : ConsensusEngine) (hnode : state.engine.SameNode engine)
      (hevent : input.event = .timeout) :
      Next state input false { state with
        engine
        round := state.round + 1
        bft := BftRoundState.new state.height (state.round + 1) state.totalValidators
        generation := state.generation + 1 }
  | enter (engine : ConsensusEngine) (hnode : state.engine.SameNode engine) :
      Next state input true (engine.enterState state.generation)

theorem step_next (state : LoopState) (input : Input) :
    Next state input (state.leaves input) (state.step input).1 := by
  have hmoves := (state.turn_spec input).moves
  unfold leaves step
  cases hturn : state.turn input with
  | mk flow actions =>
      rw [hturn] at hmoves
      cases hmoves with
      | stay engine hnode => exact .stay engine hnode
      | timeout engine hnode hevent => exact .timeout engine hnode hevent
      | leave engine hnode => exact .enter engine hnode

/-- `step_next` as a case distinction on the state behind a step. -/
@[elab_as_elim]
theorem step_cases {motive : Bool → LoopState → Prop} (state : LoopState) (input : Input)
    (stay : ∀ engine, state.engine.SameNode engine →
      motive false { state with
        engine
        bft := state.nextBft input
        currentBlock := state.nextBlock input })
    (timeout : ∀ engine, state.engine.SameNode engine → input.event = .timeout →
      motive false { state with
        engine
        round := state.round + 1
        bft := BftRoundState.new state.height (state.round + 1) state.totalValidators
        generation := state.generation + 1 })
    (enter : ∀ engine, state.engine.SameNode engine →
      motive true (engine.enterState state.generation)) :
    motive (state.leaves input) (state.step input).1 := by
  have hnext := state.step_next input
  generalize (state.step input).1 = state' at hnext ⊢
  generalize state.leaves input = left at hnext ⊢
  cases hnext with
  | stay engine hnode => exact stay engine hnode
  | timeout engine hnode hevent => exact timeout engine hnode hevent
  | enter engine hnode => exact enter engine hnode

theorem step_fst_vote (state : LoopState) (env : Env) (vote : Vote) :
    ((state.step { env, event := .vote vote }).1 =
          { state with bft := state.nextBft { env, event := .vote vote } } ∧
        (state.counts vote → state.newPhase vote = some .commit → state.currentBlock = none)) ∨
      ∃ block, state.counts vote ∧ state.newPhase vote = some .commit ∧
        state.currentBlock = some block ∧
        (state.step { env, event := .vote vote }).1 =
          (state.engine.execute env.vm (env.now 0) block).1.enterState state.generation := by
  have hturn : state.turn { env, event := .vote vote } = state.onVote env vote := rfl
  unfold step
  rw [hturn]
  generalize hresult : state.onVote env vote = result
  obtain ⟨flow, actions⟩ := result
  obtain ⟨hstay, hnone⟩ | ⟨block, hcounts, hcommit, hblock, hleave⟩ := state.onVote_fst env vote
  · rw [hresult] at hstay
    cases hstay
    exact .inl ⟨rfl, hnone⟩
  · rw [hresult] at hleave
    cases hleave
    exact .inr ⟨block, hcounts, hcommit, hblock, rfl⟩

/-- The actions of a step are those of its turn, and those at the head of the
outer loop, which cast and commit nothing. -/
theorem step_actions (state : LoopState) (input : Input) :
    ∃ proposal, (state.step input).2 = (state.turn input).2 ++ proposal ∧
      Action.Silent proposal ∧ Action.executions proposal = [] := by
  unfold step
  cases state.turn input with
  | mk flow actions =>
      cases flow with
      | stay state' => exact ⟨[], (List.append_nil _).symm, .nil, rfl⟩
      | leave engine =>
          obtain ⟨hsilent, hnone⟩ := engine.silent_enter input.env actions.length state.generation
          exact ⟨_, rfl, hsilent, hnone⟩

@[simp] theorem votes_step (state : LoopState) (input : Input) :
    Action.votes (state.step input).2 = state.casts input := by
  obtain ⟨proposal, hactions, ⟨hvotes, -, -⟩, -⟩ := state.step_actions input
  rw [hactions, Action.votes_append, hvotes, List.append_nil, (state.turn_spec input).votes]

@[simp] theorem signed_step (state : LoopState) (input : Input) :
    Action.signed (state.step input).2 = (state.casts input).map (·.blockHash.toList) := by
  obtain ⟨proposal, hactions, ⟨-, hsigned, -⟩, -⟩ := state.step_actions input
  rw [hactions, Action.signed_append, hsigned, List.append_nil, (state.turn_spec input).signed]

@[simp] theorem commits_step (state : LoopState) (input : Input) :
    Action.commits (state.step input).2 = state.commitsOn input := by
  obtain ⟨proposal, hactions, ⟨-, -, hcommits⟩, -⟩ := state.step_actions input
  rw [hactions, Action.commits_append, hcommits, List.append_nil, (state.turn_spec input).commits]

theorem executions_step_vote (state : LoopState) (env : Env) (vote : Vote) :
    Action.executions (state.step { env, event := .vote vote }).2 =
      if state.counts vote ∧ state.newPhase vote = some .commit then state.currentBlock.toList
      else [] := by
  obtain ⟨proposal, hactions, -, hnone⟩ := state.step_actions { env, event := .vote vote }
  rw [hactions, Action.executions_append, hnone, List.append_nil]
  exact (state.actions_onVote env vote).2.2.2

end LoopState

end NoirNet
