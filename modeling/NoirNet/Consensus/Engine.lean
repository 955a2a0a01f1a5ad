import NoirNet.Consensus.Bft
import NoirNet.Consensus.BlockBuilder
import NoirNet.Consensus.Execution
import NoirNet.Consensus.Sync
import NoirNet.Lib.Machine

/-!
# The consensus loop

`ConsensusEngine::run` as a machine.  The state is the engine together with the
local variables of the two nested loops; an input is what the `select!` of the
inner loop receives, or one of the two background tasks of the node; the
outputs are what the node does and logs.  What a turn of the loop reads from
outside (clock, random generators, the Wasm runtime) comes with its input.
-/

namespace NoirNet

open Lib

/-! ## Inputs and outputs -/

structure Env where
  /-- The readings of the clock within one turn. -/
  now : Nat → UInt64
  shuffle : List Transaction → List Transaction
  shuffle_perm : ∀ txs, (shuffle txs).Perm txs
  randomPeer : PeerId
  vm : WasmRuntime

inductive Event where
  | block (block : Block)
  | vote (vote : Vote)
  | syncRequest (peer : PeerId) (req : SyncRequest)
  | syncResponse (peer : PeerId) (res : SyncResponse)
  | timeout
  /-- A transaction from gossip or RPC goes to the mempool. -/
  | mempoolInsert (tx : Transaction)
  /-- The pruning task of the node. -/
  | pruneHistory (keepLast : UInt64)

structure Input where
  env : Env
  event : Event

inductive Action where
  /-- `sk.sign` is called on these bytes. -/
  | sign (message : Bytes)
  | broadcastBlock (block : Block)
  | broadcastVote (vote : Vote)
  | sendSyncRequest (peer : PeerId) (req : SyncRequest)
  | sendSyncResponse (peer : PeerId) (res : SyncResponse)
  /-- `COMMITTING block .. to ledger!`, at this height. -/
  | committing (height : UInt64) (hash : Hash32)
  /-- `execute_and_apply_block` was called. -/
  | executed (block : Block) (outcome : BlockOutcome)
  | slashing (event : String)
  deriving DecidableEq

/-! ## The engine -/

structure ConsensusEngine [Bls] where
  stateStore : StateStore
  mempool : PrivateMempool
  localValidatorId : Bytes32
  secretKey : Option Bls.SecretKey
  isValidator : Bool
  syncManager : SyncManager
  maxConsecutiveMissedBlocks : UInt64
  consecutiveMissedBlocks : UInt64

/-- The engine and the local variables of `run`. -/
structure LoopState [Bls] where
  engine : ConsensusEngine
  height : UInt64
  round : UInt32
  valSet : ValidatorSet
  totalValidators : Nat
  bft : BftRoundState
  currentBlock : Option Block
  /-- How often `BftRoundState::new` has been called; not in the source. -/
  generation : Nat

namespace ConsensusEngine

variable [Bls]

def new (stateStore : StateStore) (mempool : PrivateMempool)
    (validatorId : Option (Bytes32 × Bls.SecretKey)) : ConsensusEngine where
  stateStore := stateStore
  mempool := mempool
  localValidatorId := (validatorId.map (·.1)).getD (Vector.replicate 32 0)
  secretKey := validatorId.map (·.2)
  isValidator := validatorId.isSome
  syncManager := {}
  maxConsecutiveMissedBlocks := 10
  consecutiveMissedBlocks := 0

/-- A vote of this engine on a hash; only the hash is signed. -/
def castVote (engine : ConsensusEngine) (sk : Bls.SecretKey) (height : UInt64) (round : UInt32)
    (hash : Hash32) (voteType : VoteType) : Vote where
  height := height
  round := round
  blockHash := hash
  voteType := voteType
  validatorId := engine.localValidatorId
  signature := Bls.signatureToBytes (Bls.sign sk hash.toList)

variable [Blake3] [Nova]

/-- `execute_and_apply_block` on the engine. -/
def execute (engine : ConsensusEngine) (vm : WasmRuntime) (now : UInt64) (block : Block) :
    ConsensusEngine × List Action :=
  let (stateStore, mempool, outcome) :=
    executeAndApplyBlock vm engine.isValidator now engine.stateStore engine.mempool block
  let missed :=
    match outcome with
    | .applied _ => 0
    | _ => engine.consecutiveMissedBlocks
  ({ engine with stateStore, mempool, consecutiveMissedBlocks := missed },
    .executed block outcome :: outcome.slashing.toList.map .slashing)

/-- The loop over the blocks of a sync response. -/
def executeSynced (env : Env) (height : UInt64) :
    ConsensusEngine → Nat → List Block → ConsensusEngine × List Action
  | engine, _, [] => (engine, [])
  | engine, k, block :: blocks =>
      if block.header.height ≥ height then
        let (engine, actions) := engine.execute env.vm (env.now k) block
        let (engine, rest) := executeSynced env height engine (k + 1) blocks
        (engine, actions ++ rest)
      else executeSynced env height engine k blocks

/-- `height.saturating_sub(1)`. -/
def parentHeight (height : UInt64) : UInt64 := if height = 0 then 0 else height - 1

def parentHash (engine : ConsensusEngine) (height : UInt64) : Hash32 :=
  if height > 1 then
    ((engine.stateStore.getBlockByHeight (height - 1)).map (·.header.hash)).getD
      (Vector.replicate 32 0)
  else Vector.replicate 32 0

def isLeader (engine : ConsensusEngine) (valSet : ValidatorSet) (height : UInt64)
    (round : UInt32) (epoch : UInt64) : Bool :=
  if valSet.isEmpty then engine.isValidator
  else
    let pseudoVrf := Wire.leBytes 8 height.toNat ++ (Wire.leBytes 4 round.toNat ++
      List.replicate 20 0)
    match valSet.electLeader (blake3Of pseudoVrf) epoch with
    | some leader => leader.id = engine.localValidatorId
    | none => false

/-- The variables at the head of the outer loop. -/
def enterState (engine : ConsensusEngine) (generation : Nat) : LoopState :=
  let height := engine.stateStore.getChainHeight + 1
  let valSet := engine.stateStore.getValidatorSet (height / EPOCH_BLOCKS)
  let totalValidators := if valSet.isEmpty then 4 else valSet.len
  { engine := { engine with
      syncManager := (engine.syncManager.checkSyncStatus (parentHeight height)).1 }
    height := height
    round := 0
    valSet := valSet
    totalValidators := totalValidators
    bft := BftRoundState.new height 0 totalValidators
    currentBlock := none
    generation := generation + 1 }

/-- The head of the outer loop, up to the first turn of the inner one.  A leader
that is not syncing proposes; the clock is read for the `k`-th time. -/
def enter (engine : ConsensusEngine) (env : Env) (k : Nat) (generation : Nat) :
    LoopState × List Action :=
  let state := engine.enterState generation
  let epoch := state.height / EPOCH_BLOCKS
  let isSyncing := state.engine.syncManager.isSyncing
  (state,
    if state.engine.isLeader state.valSet state.height state.round epoch ∧ ¬ isSyncing then
      let txs := state.engine.mempool.selectForBlock env.shuffle 10000 MAX_BLOCK_GAS
      [.broadcastBlock (BlockBuilder.buildBlock state.engine.stateStore txs
        state.engine.localValidatorId (state.engine.parentHash state.height) (env.now k)
        state.height)]
    else [])

end ConsensusEngine

/-! ## The arms of the inner loop -/

/-- How an arm ends: with the inner loop going on, or with its `break`. -/
inductive Flow [Bls] where
  | stay (state : LoopState)
  | leave (engine : ConsensusEngine)

namespace LoopState

variable [Bls]

/-- `is_valid`: the signature of a member, or anything if there are no members. -/
def isValid (state : LoopState) (vote : Vote) : Bool :=
  match state.valSet.getById vote.validatorId with
  | some val =>
      match Bls.publicKeyFromBytes val.blsPubkey, Bls.signatureFromBytes vote.signature with
      | some pk, some sig => Bls.verify sig vote.blockHash.toList pk
      | _, _ => false
  | none => state.valSet.isEmpty

def counts (state : LoopState) (vote : Vote) : Bool :=
  vote.height = state.height ∧ vote.round = state.round ∧ state.isValid vote ∧
    (state.bft.addVote vote).2

def newPhase (state : LoopState) (vote : Vote) : Option BftPhase :=
  ((state.bft.addVote vote).1.tryAdvancePhase vote.blockHash).2

def vote (state : LoopState) (hash : Hash32) (voteType : VoteType) : LoopState × List Action :=
  match state.engine.secretKey with
  | some sk =>
      let v := state.engine.castVote sk state.height state.round hash voteType
      ({ state with bft := (state.bft.addVote v).1 }, [.sign hash.toList, .broadcastVote v])
  | none => (state, [])

variable [Blake3]

/-- The proposal is taken as `current_block`. -/
def admits (state : LoopState) (randomPeer : PeerId) (block : Block) : Bool :=
  block.header.height = state.height ∧
    ¬ (state.engine.syncManager.handlePeerHeight randomPeer block.header.height
      (ConsensusEngine.parentHeight state.height)).1.isSyncing

omit [Bls] [Blake3] in
/-- The request that goes out when `handle_peer_height` starts a sync. -/
def requestSync (syncManager : SyncManager) : Option SyncRequest → List Action
  | some _ =>
      match syncManager.currentRequest with
      | some (peer, req) => [.sendSyncRequest peer req]
      | none => []
  | none => []

def onBlock (state : LoopState) (env : Env) (block : Block) : LoopState × List Action :=
  let admitted := state.admits env.randomPeer block
  let (syncManager, request) := state.engine.syncManager.handlePeerHeight env.randomPeer
    block.header.height (ConsensusEngine.parentHeight state.height)
  let sync := requestSync syncManager request
  let state := { state with engine := { state.engine with syncManager } }
  if admitted then
    let hash := block.header.hash
    let (state, actions) :=
      { state with
        currentBlock := some block
        bft := (state.bft.tryAdvancePhase hash).1 }.vote hash .prevote
    (state, sync ++ actions)
  else (state, sync)

variable [Nova]

def onVote (state : LoopState) (env : Env) (vote : Vote) : Flow × List Action :=
  if state.counts vote then
    let (bft, newPhase) := (state.bft.addVote vote).1.tryAdvancePhase vote.blockHash
    let state := { state with bft }
    match newPhase with
    | some .precommit =>
        let (state, actions) := state.vote vote.blockHash .precommit
        (.stay state, actions)
    | some .commit =>
        match state.currentBlock with
        | some block =>
            let (engine, actions) := state.engine.execute env.vm (env.now 0) block
            (.leave engine, .committing state.height vote.blockHash :: actions)
        | none => (.stay state, [.committing state.height vote.blockHash])
    | _ => (.stay state, [])
  else
    -- a new vote that is not valid is not added; one that is not new changes nothing
    (.stay state, [])

omit [Blake3] [Nova] in
/-- The blocks a sync request is answered with: `n` heights from `h` on, up to
the first that is missing. -/
def collectBlocks (store : StateStore) : Nat → UInt64 → List Block
  | 0, _ => []
  | n + 1, h =>
      match store.getBlockByHeight h with
      | some block => block :: collectBlocks store n (h + 1)
      | none => []

def onSyncRequest (state : LoopState) (peer : PeerId) (req : SyncRequest) : List Action :=
  let store := state.engine.stateStore
  let maxH := min (req.startHeight + req.limit.toUInt64) (store.getChainHeight + 1)
  [.sendSyncResponse peer
    { blocks := collectBlocks store (maxH.toNat - req.startHeight.toNat) req.startHeight }]

def onSyncResponse (state : LoopState) (env : Env) (res : SyncResponse) : Flow × List Action :=
  if state.engine.syncManager.isSyncing then
    let (engine, actions) :=
      ConsensusEngine.executeSynced env state.height state.engine 0 res.blocks
    let ch := engine.stateStore.getChainHeight
    let (syncManager, syncing) := engine.syncManager.checkSyncStatus ch
    let engine := { engine with syncManager }
    if syncing then
      match syncManager.currentRequest with
      | some (peer, req) =>
          (.stay { state with engine },
            actions ++ [.sendSyncRequest peer { req with startHeight := ch + 1 }])
      | none => (.leave engine, actions)
    else (.stay { state with engine }, actions)
  else (.stay state, [])

def onTimeout (state : LoopState) : LoopState × List Action :=
  let round := state.round + 1
  let missed := state.engine.consecutiveMissedBlocks + 1
  ({ state with
      engine := { state.engine with consecutiveMissedBlocks := missed }
      round
      bft := BftRoundState.new state.height round state.totalValidators
      generation := state.generation + 1 },
    if missed ≥ state.engine.maxConsecutiveMissedBlocks then [.slashing "excessive_downtime"]
    else [])

def turn (state : LoopState) (input : Input) : Flow × List Action :=
  match input.event with
  | .block block =>
      let (state, actions) := state.onBlock input.env block
      (.stay state, actions)
  | .vote vote => state.onVote input.env vote
  | .syncRequest peer req => (.stay state, state.onSyncRequest peer req)
  | .syncResponse _ res => state.onSyncResponse input.env res
  | .timeout =>
      let (state, actions) := state.onTimeout
      (.stay state, actions)
  | .mempoolInsert tx =>
      match state.engine.mempool.insert state.engine.stateStore tx with
      | .ok mempool => (.stay { state with engine := { state.engine with mempool } }, [])
      | .error _ => (.stay state, [])
  | .pruneHistory keepLast =>
      (.stay { state with engine :=
        { state.engine with stateStore := (state.engine.stateStore.pruneHistory keepLast).1 } }, [])

/-- A turn, and the head of the outer loop behind a `break`. -/
def step (state : LoopState) (input : Input) : LoopState × List Action :=
  match state.turn input with
  | (.stay state, actions) => (state, actions)
  | (.leave engine, actions) =>
      let (state, proposal) :=
        engine.enter input.env (actions.length) state.generation
      (state, actions ++ proposal)

end LoopState

/-- `ConsensusEngine::run`. -/
def engineMachine [Bls] [Blake3] [Nova] : Machine LoopState Input Action where
  step := LoopState.step

end NoirNet
