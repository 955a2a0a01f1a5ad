import NoirNet.Proofs.Announcement
import NoirNet.Proofs.Follower
import NoirNet.Proofs.OwnVotes
import NoirNet.Proofs.SyncServing

/-!
# How fast a node catches up

A request asks for 50 blocks.  If the server still has the blocks, and the client's checks
let them pass, each request that is answered and heard brings the client 50 blocks on, or to
the end of the server's chain; the sync is over when the target is reached.

* `answer_chain`: the answer to a request for the next height;
* `follows_executeSynced`: what executing it does to the client;
* `syncRequests_step`: what the client asks for then;
* `CatchesUp.round`: one request, its answer and its execution;
* `sync_catches_up`: any number of rounds.
-/

namespace NoirNet

open Lib StateStore

section

variable [Blake3] [Nova] {vm : WasmRuntime} {start leader : StateStore} {blocks : List Block}

/-! ## The answer -/

/-- The leader has the blocks of its chain from one on, and heights to spare. -/
structure Serves (start : StateStore) (blocks : List Block) (leader : StateStore) (first : Nat) :
    Prop where
  found : ∀ i ≥ first, ∀ block, blocks[i]? = some block →
    leader.getBlockByHeight (.ofNat (start.getChainHeight.toNat + 1 + i)) = some block
  room : start.getChainHeight.toNat + blocks.length + 51 < UInt64.size

omit [Blake3] [Nova] in
theorem collectBlocks_chain {first : Nat} (h : Serves start blocks leader first) {k : Nat}
    (hk : first ≤ k) {n : Nat} (hn : k + n ≤ blocks.length) :
    LoopState.collectBlocks leader n (.ofNat (start.getChainHeight.toNat + 1 + k)) =
      (blocks.drop k).take n := by
  induction n generalizing k with
  | zero => rfl
  | succ n ih =>
      have hlt : k < blocks.length := by omega
      have hget : blocks[k]? = some blocks[k] := List.getElem?_eq_getElem hlt
      have hnext : UInt64.ofNat (start.getChainHeight.toNat + 1 + k) + 1 =
          UInt64.ofNat (start.getChainHeight.toNat + 1 + (k + 1)) := by
        rw [← UInt64.ofNat_one, ← UInt64.ofNat_add]
        rfl
      rw [LoopState.collectBlocks, h.found k hk _ hget, hnext, ih (by omega) (by omega),
        List.drop_eq_getElem_cons hlt, List.take_succ_cons]

omit [Nova] in
/-- A request for the height behind the client is answered with the next 50 blocks. -/
theorem answer_chain [Bls] {state : LoopState}
    (hleads : Leads vm start blocks state.engine.stateStore) (hblocks : start.hasBlocks)
    {first : Nat} (hserves : Serves start blocks state.engine.stateStore first) {k : Nat}
    (hfirst : first ≤ k) (hk : k ≤ blocks.length) :
    state.answer { startHeight := .ofNat (start.getChainHeight.toNat + 1 + k), limit := 50 } =
      (blocks.drop k).take 50 := by
  have hroom := hserves.room
  have hsize : UInt64.size = 2 ^ 64 := rfl
  obtain ⟨-, hchain⟩ := hleads.height hblocks
  have hstart : (UInt64.ofNat (start.getChainHeight.toNat + 1 + k)).toNat =
      start.getChainHeight.toNat + 1 + k :=
    UInt64.toNat_ofNat_of_lt' (by omega)
  have hlimit : (50 : UInt32).toNat = 50 := rfl
  have hfits : state.Fits
      { startHeight := .ofNat (start.getChainHeight.toNat + 1 + k), limit := 50 } := by
    constructor
    · show (UInt64.ofNat _).toNat + (50 : UInt32).toNat < 2 ^ 64
      omega
    · omega
  rw [LoopState.answer_eq hfits, collectBlocks_chain hserves hfirst, List.take_eq_take_iff,
    List.length_drop]
  · show min (min ((UInt64.ofNat _).toNat + (50 : UInt32).toNat) _ - (UInt64.ofNat _).toNat) _ = _
    omega
  · show k + (min ((UInt64.ofNat _).toNat + (50 : UInt32).toNat) _ - (UInt64.ofNat _).toNat) ≤ _
    omega

/-! ## Executing it -/

def PassesAll (isValidator : Bool) (env : Env) (blocks : List Block) : Prop :=
  ∀ block ∈ blocks, ∀ j, Passes isValidator (env.now j) block

theorem follows_executeSynced [Bls] (hleads : Leads vm start blocks leader) {env : Env}
    (hvm : env.vm = vm) {engine : ConsensusEngine} {k : Nat}
    (h : (ledgerLog vm).Follows start.ledger blocks k engine.stateStore.ledger)
    (hpass : PassesAll engine.isValidator env blocks) {height : UInt64}
    (hheight : height.toNat ≤ start.getChainHeight.toNat + 1 + k) (j n : Nat) :
    let synced := (ConsensusEngine.executeSynced env height engine j ((blocks.drop k).take n)).1
    (ledgerLog vm).Follows start.ledger blocks (min (k + n) blocks.length)
        synced.stateStore.ledger ∧ synced.isValidator = engine.isValidator := by
  have hle := h.le
  subst hvm
  induction n generalizing engine k j with
  | zero =>
      rw [Nat.add_zero, Nat.min_eq_left hle]
      exact ⟨h, rfl⟩
  | succ n ih =>
      by_cases hlt : k < blocks.length
      · have hget : blocks[k]? = some blocks[k] := List.getElem?_eq_getElem hlt
        have hnumber : blocks[k].header.height.toNat = _ := hleads.numbered k _ hget
        have hge : blocks[k].header.height ≥ height := UInt64.le_iff_toNat_le.mpr (by omega)
        have hnext : (ledgerLog env.vm).Follows start.ledger blocks (k + 1)
            (engine.execute env.vm (env.now j) blocks[k]).1.stateStore.ledger :=
          follows_execute hleads h engine.mempool hget (hpass _ (List.getElem_mem hlt) j)
        rw [List.drop_eq_getElem_cons hlt, List.take_succ_cons, ConsensusEngine.executeSynced,
          if_pos hge]
        have hstill : PassesAll (engine.execute env.vm (env.now j) blocks[k]).1.isValidator env
            blocks := hpass
        have hrest := ih hstill (by omega) (j + 1) hlt hnext
        rw [show k + 1 + n = k + (n + 1) by omega] at hrest
        exact hrest
      · rw [List.drop_eq_nil_of_le (by omega), List.take_nil, Nat.min_eq_right (by omega)]
        have hend : k = blocks.length := by omega
        rw [← hend]
        exact ⟨h, rfl⟩

/-! ## Asking on -/

def Action.syncRequests (actions : List Action) : List SyncRequest :=
  actions.filterMap fun
    | .sendSyncRequest _ req => some req
    | _ => none

omit [Blake3] [Nova] in
theorem Action.syncRequests_append (xs ys : List Action) :
    syncRequests (xs ++ ys) = syncRequests xs ++ syncRequests ys :=
  List.filterMap_append

omit [Blake3] [Nova] in
theorem SyncManager.checkSyncStatus_of_isSyncing {manager : SyncManager} {height : UInt64}
    (h : (manager.checkSyncStatus height).1.isSyncing) :
    (manager.checkSyncStatus height).1 = manager := by
  unfold checkSyncStatus at h ⊢
  split at h
  · cases h
  · rename_i hbelow
    rw [if_neg hbelow]

variable [Bls]

theorem ConsensusEngine.syncRequests_executeSynced (env : Env) (height : UInt64)
    (engine : ConsensusEngine) (j : Nat) (blocks : List Block) :
    Action.syncRequests (executeSynced env height engine j blocks).2 = [] := by
  induction blocks generalizing engine j with
  | nil => rfl
  | cons block blocks ih =>
      rw [executeSynced]
      by_cases hheight : block.header.height ≥ height
      · have hexecute : Action.syncRequests (engine.execute env.vm (env.now j) block).2 = [] := by
          simp only [execute]
          cases (executeAndApplyBlock env.vm engine.isValidator (env.now j) engine.stateStore
            engine.mempool block).2.2.slashing <;> rfl
        rw [if_pos hheight, Action.syncRequests_append, hexecute, ih, List.append_nil]
      · rw [if_neg hheight, ih]

theorem LoopState.syncRequests_step {state : LoopState}
    (hsyncing : state.engine.syncManager.isSyncing) (env : Env) (peer : PeerId)
    (res : SyncResponse) (request : PeerId × SyncRequest)
    (hrequest : state.engine.syncManager.currentRequest = some request) :
    let synced := (ConsensusEngine.executeSynced env state.height state.engine 0 res.blocks).1
    let ch := synced.stateStore.getChainHeight
    Action.syncRequests (state.step { env, event := .syncResponse peer res }).2 =
      if (state.engine.syncManager.checkSyncStatus ch).1.isSyncing then
        [{ request.2 with startHeight := ch + 1 }]
      else [] := by
  intro synced ch
  have hmanager : synced.syncManager = state.engine.syncManager :=
    ConsensusEngine.syncManager_executeSynced env state.height state.engine 0 res.blocks
  have hnone := ConsensusEngine.syncRequests_executeSynced env state.height state.engine 0
    res.blocks
  rw [← hmanager] at hrequest ⊢
  simp only [step, turn, onSyncResponse, hsyncing, if_true]
  rw [show (ConsensusEngine.executeSynced env state.height state.engine 0 res.blocks).1 = synced
    from rfl, SyncManager.checkSyncStatus_snd]
  cases hstill : (synced.syncManager.checkSyncStatus ch).1.isSyncing with
  | false => exact hnone
  | true =>
      rw [SyncManager.checkSyncStatus_of_isSyncing hstill, hrequest]
      exact (Action.syncRequests_append _ _).trans (by rw [hnone]; rfl)

/-! ## Rounds -/

def askAndAnswer (env : Env) (peer : PeerId) (pair : SyncPair) (req : SyncRequest) :
    List (Side × Input) :=
  [(.server, { env, event := .syncRequest peer req }),
    (.client, { env, event := .syncResponse peer { blocks := pair.server.answer req } })]

def clientRequests (outputs : List (Side × Action)) : List SyncRequest :=
  Action.syncRequests (outputs.filterMap fun output =>
    if output.1 = .client then some output.2 else none)

omit [Bls] [Blake3] [Nova] in
theorem clientRequests_eq (ofServer ofClient : List Action) :
    clientRequests (ofServer.map (Side.server, ·) ++ ofClient.map (Side.client, ·)) =
      Action.syncRequests ofClient := by
  simp [clientRequests, List.filterMap_append, List.filterMap_map]

/-- If the client has asked, the server answers, and the client hears it and asks again or not. -/
def exchange (env : Env) (peer : PeerId) (pair : SyncPair) :
    Option SyncRequest → SyncPair × Option SyncRequest
  | none => (pair, none)
  | some req =>
      let turns := askAndAnswer env peer pair req
      (syncMachine.final pair turns, (clientRequests (syncMachine.outputs pair turns)).head?)

theorem exchange_some (env : Env) (peer : PeerId) (pair : SyncPair) (req : SyncRequest) :
    let heard := pair.client.step
      { env, event := .syncResponse peer { blocks := pair.server.answer req } }
    (exchange env peer pair (some req)).1.client = heard.1 ∧
      (exchange env peer pair (some req)).2 = (Action.syncRequests heard.2).head? := by
  refine ⟨rfl, congrArg List.head? ?_⟩
  rw [askAndAnswer, Machine.outputs_cons, Machine.outputs_cons, Machine.outputs_nil,
    List.append_nil]
  exact clientRequests_eq _ _

/-- The pair and what the client asks for, after a number of rounds. -/
def rounds (env : Nat → Env) (peer : PeerId) (pair : SyncPair) (asked : Option SyncRequest) :
    Nat → SyncPair × Option SyncRequest
  | 0 => (pair, asked)
  | n + 1 =>
      let (pair, asked) := rounds env peer pair asked n
      exchange (env n) peer pair asked

/-- A client `k` blocks into the chain of the server, syncing as long as its target is
ahead, and asking then for the height behind it. -/
structure CatchesUp (vm : WasmRuntime) (start : StateStore) (blocks : List Block) (first : Nat)
    (target : UInt64) (k : Nat) (pair : SyncPair) (asked : Option SyncRequest) : Prop where
  leads : Leads vm start blocks pair.server.engine.stateStore
  serves : Serves start blocks pair.server.engine.stateStore first
  first_le : first ≤ k
  follows : (ledgerLog vm).Follows start.ledger blocks k pair.client.engine.stateStore.ledger
  height_le : pair.client.height.toNat ≤ start.getChainHeight.toNat + 1 + k
  requests : pair.client.engine.syncManager.Requests
  limit : ∀ request ∈ pair.client.engine.syncManager.currentRequest, request.2.limit = 50
  target_eq : pair.client.engine.syncManager.targetHeight = target
  syncing : pair.client.engine.syncManager.isSyncing ↔
    start.getChainHeight.toNat + k < target.toNat
  asked_eq : asked = if pair.client.engine.syncManager.isSyncing then
    some { startHeight := pair.client.engine.stateStore.getChainHeight + 1, limit := 50 } else none

section

variable {first k : Nat} {target : UInt64} {pair : SyncPair} {asked : Option SyncRequest}
  (h : CatchesUp vm start blocks first target k pair asked) (hblocks : start.hasBlocks)

include h hblocks

omit [Nova] in
theorem CatchesUp.chainHeight :
    pair.client.engine.stateStore.getChainHeight.toNat = start.getChainHeight.toNat + k := by
  obtain ⟨-, hheight⟩ := h.leads.height_replay hblocks h.follows.le
  rwa [← h.follows.eq, getChainHeight_ledger] at hheight

omit [Nova] in
theorem CatchesUp.answer_eq :
    pair.server.answer
        { startHeight := pair.client.engine.stateStore.getChainHeight + 1, limit := 50 } =
      (blocks.drop k).take 50 := by
  have hheight := h.chainHeight hblocks
  have hstart : pair.client.engine.stateStore.getChainHeight + 1 =
      .ofNat (start.getChainHeight.toNat + 1 + k) := by
    rw [← UInt64.ofNat_toNat (x := pair.client.engine.stateStore.getChainHeight), hheight,
      ← UInt64.ofNat_one, ← UInt64.ofNat_add]
    congr 1
    omega
  rw [hstart]
  exact answer_chain h.leads hblocks h.serves h.first_le h.follows.le

/-- One round brings a client that syncs 50 blocks on, or to the end of the chain. -/
theorem CatchesUp.round {env : Env} (hvm : env.vm = vm) (peer : PeerId)
    (hpass : PassesAll pair.client.engine.isValidator env blocks) :
    let next := exchange env peer pair asked
    CatchesUp vm start blocks first target
        (if pair.client.engine.syncManager.isSyncing then min (k + 50) blocks.length else k)
        next.1 next.2 ∧
      next.1.client.engine.isValidator = pair.client.engine.isValidator := by
  intro next
  have hasked := h.asked_eq
  by_cases hsyncing : pair.client.engine.syncManager.isSyncing
  · rw [if_pos hsyncing] at hasked ⊢
    let res : SyncResponse := { blocks := (blocks.drop k).take 50 }
    subst hasked
    obtain ⟨hclient, hnext⟩ := exchange_some env peer pair
      { startHeight := pair.client.engine.stateStore.getChainHeight + 1, limit := 50 }
    rw [h.answer_eq hblocks] at hclient hnext
    obtain ⟨⟨holder, startHeight, limit⟩, hrequest⟩ :=
      Option.isSome_iff_exists.mp (h.requests hsyncing)
    obtain rfl : limit = 50 := h.limit _ hrequest
    rw [LoopState.syncRequests_step hsyncing env peer res _ hrequest] at hnext
    rw [LoopState.step_syncResponse h.requests, if_pos hsyncing] at hclient
    change next.1.client = _ at hclient
    change next.2 = _ at hnext
    obtain ⟨hfollows, hvalidator⟩ := follows_executeSynced h.leads hvm h.follows hpass h.height_le
      0 50
    have hle := h.follows.le
    have hheight : next.1.client.engine.stateStore.getChainHeight.toNat =
        start.getChainHeight.toNat + min (k + 50) blocks.length := by
      obtain ⟨-, hheight⟩ := h.leads.height_replay hblocks hfollows.le
      rw [← hfollows.eq, getChainHeight_ledger] at hheight
      rw [hclient]
      exact hheight
    have hmanager : next.1.client.engine.syncManager =
        (pair.client.engine.syncManager.checkSyncStatus
          next.1.client.engine.stateStore.getChainHeight).1 := by rw [hclient]
    refine ⟨⟨h.leads, h.serves, ?_, ?_, ?_, ?_, ?_, ?_, ?_, ?_⟩, ?_⟩
    · have hfirst := h.first_le
      omega
    · rw [hclient]
      exact hfollows
    · rw [show next.1.client.height = pair.client.height by rw [hclient]]
      have hbound := h.height_le
      omega
    · rw [hmanager]
      exact h.requests.checkSyncStatus _
    · rw [hmanager]
      unfold SyncManager.checkSyncStatus
      split
      · exact nofun
      · exact h.limit
    · rw [hmanager, ← h.target_eq]
      unfold SyncManager.checkSyncStatus
      split <;> rfl
    · rw [hmanager, SyncManager.isSyncing_checkSyncStatus, h.target_eq, UInt64.le_iff_toNat_le,
        hheight, and_iff_right hsyncing, Nat.not_le]
    · rw [hnext, hclient]
      split <;> rfl
    · rw [hclient]
      exact hvalidator
  · rw [if_neg hsyncing] at hasked ⊢
    subst hasked
    exact ⟨h, rfl⟩

end

/-- While the server has the client's blocks and they pass, `n` rounds bring the client `50 * n`
blocks on, or to its target: it is then on the server's chain, and syncs and asks for the next
block exactly while it is below the target. -/
theorem sync_catches_up {vm : WasmRuntime} {start : StateStore} {blocks : List Block}
    {k : Nat} {target : UInt64} {pair : SyncPair} {asked : Option SyncRequest}
    (h : CatchesUp vm start blocks k target k pair asked) (hblocks : start.hasBlocks)
    (htarget : target.toNat ≤ start.getChainHeight.toNat + blocks.length)
    (env : Nat → Env) (hvm : ∀ n, (env n).vm = vm) (peer : PeerId)
    (hpass : ∀ n, PassesAll pair.client.engine.isValidator (env n) blocks) (n : Nat) :
    let reached := rounds env peer pair asked n
    let client := reached.1.client
    let height := client.engine.stateStore.getChainHeight
    min target.toNat (start.getChainHeight.toNat + k + 50 * n) ≤ height.toNat ∧
      client.engine.stateStore.ledger = (ledgerLog vm).replay start.ledger
        (blocks.take (height.toNat - start.getChainHeight.toNat)) ∧
      (client.engine.syncManager.isSyncing ↔ height < target) ∧
      reached.2 = if height < target then some { startHeight := height + 1, limit := 50 }
        else none := by
  have hrounds (n : Nat) : ∃ k',
      CatchesUp vm start blocks k target k' (rounds env peer pair asked n).1
        (rounds env peer pair asked n).2 ∧
      min target.toNat (start.getChainHeight.toNat + k + 50 * n) ≤
        start.getChainHeight.toNat + k' ∧
      (rounds env peer pair asked n).1.client.engine.isValidator =
        pair.client.engine.isValidator := by
    induction n with
    | zero => exact ⟨k, h, by omega, rfl⟩
    | succ n ih =>
        obtain ⟨k', hcatches, hreached, hvalidator⟩ := ih
        obtain ⟨hnext, hsame⟩ := hcatches.round hblocks (hvm n) peer (hvalidator ▸ hpass n)
        refine ⟨_, hnext, ?_, hsame.trans hvalidator⟩
        by_cases hsyncing :
          (rounds env peer pair asked n).1.client.engine.syncManager.isSyncing
        · rw [if_pos hsyncing]
          omega
        · rw [if_neg hsyncing]
          have hdone := mt hcatches.syncing.mpr hsyncing
          omega
  intro reached client height
  obtain ⟨k', hcatches, hreached, -⟩ := hrounds n
  have hheight : height.toNat = start.getChainHeight.toNat + k' := hcatches.chainHeight hblocks
  have hsyncing : client.engine.syncManager.isSyncing ↔ height < target := by
    rw [UInt64.lt_iff_toNat_lt, hheight]
    exact hcatches.syncing
  refine ⟨by omega, ?_, hsyncing, ?_⟩
  · rw [hheight, Nat.add_sub_cancel_left]
    exact hcatches.follows.eq
  · simp only [← hsyncing]
    exact hcatches.asked_eq

end

/-! ## Seven blocks behind -/

section

attribute [local instance] Bls.plain Blake3.sum Nova.rejecting

def sevenBlocks : List Block :=
  (List.range 7).map fun i => Block.blank (1 + .ofNat i) (fill 32 10) []

/-- A server behind seven blocks, and a client that has heard of the last. -/
def sevenApart : SyncPair :=
  let ahead := (ConsensusEngine.executeSynced Env.blank 1 keyless 0 sevenBlocks).1
  let last := Event.input (.block (Block.blank 7 (fill 32 10) []))
  { server := (ahead.enter Env.blank 0 0).1
    client := ((keyless.enter Env.blank 0 0).1.step last).1
    sent := [] }

def sevenAsked : Option SyncRequest :=
  (Action.syncRequests ((keyless.enter Env.blank 0 0).1.step
    (Event.input (.block (Block.blank 7 (fill 32 10) [])))).2).head?

theorem stateStore_enter (engine : ConsensusEngine) (env : Env) (k generation : Nat) :
    (engine.enter env k generation).1.engine.stateStore = engine.stateStore := rfl

theorem sevenBlocks_executed :
    let os := ConsensusEngine.syncOutcomes Env.blank 1 keyless 0 sevenBlocks
    let ahead := (ConsensusEngine.executeSynced Env.blank 1 keyless 0 sevenBlocks).1
    Clean os ∧ written os = sevenBlocks ∧
      ∀ i < 7, ahead.stateStore.getBlockByHeight (.ofNat (1 + i)) = sevenBlocks[i]? := by
  decide +kernel

theorem sevenApart_catchesUp :
    CatchesUp Env.blank.vm keyless.stateStore sevenBlocks 0 7 0 sevenApart sevenAsked where
  leads := by
    obtain ⟨hclean, hwritten, -⟩ := sevenBlocks_executed
    have hstart : Leads Env.blank.vm keyless.stateStore [] keyless.stateStore :=
      leads_start (by decide) nofun
    have hleads := hstart.evolves (by decide)
      (ConsensusEngine.evolves_executeSynced Env.blank 1 keyless 0 sevenBlocks) hclean
    rw [List.nil_append, hwritten, ← stateStore_enter _ Env.blank 0 0] at hleads
    exact hleads
  serves := by
    refine ⟨?_, by decide⟩
    intro i _ block hget
    obtain ⟨-, -, hfound⟩ := sevenBlocks_executed
    obtain ⟨hlt, -⟩ := List.getElem?_eq_some_iff.mp hget
    have hserved := (hfound i hlt).trans hget
    rw [← stateStore_enter _ Env.blank 0 0] at hserved
    exact hserved
  first_le := Nat.le_refl 0
  follows := Log.follows_zero _ _ _
  height_le := by decide +kernel
  requests := fun _ => by decide +kernel
  limit := by decide +kernel
  target_eq := by decide +kernel
  syncing := by decide +kernel
  asked_eq := by decide +kernel

theorem seven_blocks_synced :
    let reached := rounds (fun _ => Env.blank) [] sevenApart sevenAsked 1
    let client := reached.1.client
    let height := client.engine.stateStore.getChainHeight
    min 7 (0 + 0 + 50 * 1) ≤ height.toNat ∧
      client.engine.stateStore.ledger = (ledgerLog Env.blank.vm).replay
        keyless.stateStore.ledger (sevenBlocks.take (height.toNat - 0)) ∧
      (client.engine.syncManager.isSyncing ↔ height < 7) ∧
      reached.2 = if height < 7 then some { startHeight := height + 1, limit := 50 }
        else none := by
  have hpass : PassesAll false Env.blank sevenBlocks := by
    intro block hblock j
    obtain ⟨i, -, rfl⟩ := List.mem_map.mp hblock
    have htimely : (0 : UInt64) ≤ 0 + 60 := by decide
    exact ⟨nofun, htimely, nofun⟩
  have hcaught := sync_catches_up sevenApart_catchesUp (by decide) (by decide)
    (fun _ => Env.blank) (fun _ => rfl) [] (fun _ => hpass) 1
  have hheight : keyless.stateStore.getChainHeight.toNat = 0 := rfl
  rw [hheight] at hcaught
  exact hcaught

end

end NoirNet
