import NoirNet.Consensus.Concrete
import NoirNet.Consensus.Evolution
import NoirNet.Consensus.SyncPair

/-!
# A node that follows another

Two nodes start from one ledger.  The one serves sync requests while its chain goes on; the
other hears the answers late, twice, out of order or never, and executes what it finds in
them.  A response does not say what it answers, so nothing but the blocks' own heights keeps
the follower on the chain.

* `Leads`: the chain a store has been through, and what it can serve of it;
* `Leads.evolves`: the leader's step;
* `Trails.evolves`: the follower's step, on blocks the leader has served;
* `follower_on_chain`: any interleaving.
-/

namespace NoirNet

open Lib StateStore

/-! ## The chain -/

/-- Blocks move the ledger, and their heights number them. -/
def ledgerLog [Blake3] (vm : WasmRuntime) : Log StateStore Block where
  advance store block := (applyExecuted vm store block).1.ledger
  number block := block.header.height.toNat

def written (os : List (Block × BlockOutcome)) : List Block :=
  (os.filter fun o => o.2.written).map (·.1)

@[simp] theorem written_append (os os' : List (Block × BlockOutcome)) :
    written (os ++ os') = written os ++ written os' := by
  rw [written, List.filter_append, List.map_append]
  rfl

theorem written_singleton (block : Block) (outcome : BlockOutcome) :
    written [(block, outcome)] = if outcome.written then [block] else [] := by
  unfold written
  cases hwritten : outcome.written <;> simp [hwritten]

/-- No double spend is met, and there is a height behind each block that is written. -/
def Clean (os : List (Block × BlockOutcome)) : Prop :=
  ∀ o ∈ os, o.2 ≠ .failed .doubleSpend ∧ (o.2.written → o.1.header.height + 1 ≠ 0)

instance (os : List (Block × BlockOutcome)) : Decidable (Clean os) :=
  inferInstanceAs (Decidable (∀ o ∈ os, _))

theorem expectedHeight_eq_add_one {store : StateStore} (h : store.hasBlocks) :
    store.expectedHeight = store.getChainHeight + 1 := if_pos h

theorem toNat_add_one {height : UInt64} (hroom : height + 1 ≠ 0) :
    (height + 1).toNat = height.toNat + 1 := by
  have hne : (height + 1).toNat ≠ 0 := fun hzero => hroom (UInt64.toNat_inj.mp hzero)
  have hlt := height.toNat_lt
  rw [UInt64.toNat_add, UInt64.toNat_one] at hne ⊢
  omega

theorem add_one_ne_zero {height : UInt64} (h : height.toNat + 1 < UInt64.size) :
    height + 1 ≠ 0 := by
  intro hzero
  have hnat := congrArg UInt64.toNat hzero
  rw [UInt64.toNat_add, UInt64.toNat_one, UInt64.toNat_zero, Nat.mod_eq_of_lt h] at hnat
  omega

theorem toNat_height_of_accepts {store : StateStore} (hblocks : store.hasBlocks)
    (hroom : store.getChainHeight + 1 ≠ 0) {block : Block} (haccept : store.Accepts block) :
    block.header.height.toNat = store.getChainHeight.toNat + 1 := by
  rw [haccept.1, expectedHeight_eq_add_one hblocks, toNat_add_one hroom]

section

variable [Blake3]

omit [Blake3] in
def FromChain (start : StateStore) (blocks : List Block) (block : Block) : Prop :=
  block ∈ blocks ∨ block.header.height ≤ start.getChainHeight

/-- The chain of a store since a ledger with blocks: `blocks` in order, each accepted on the
ledger in front of it; and every stored block is one of them or from before. -/
structure Leads (vm : WasmRuntime) (start : StateStore) (blocks : List Block)
    (store : StateStore) : Prop where
  ledger : store.ledger = (ledgerLog vm).replay start.ledger blocks
  numbered : (ledgerLog vm).Numbered (start.getChainHeight.toNat + 1) blocks
  accepted : ∀ k block, blocks[k]? = some block →
    ((ledgerLog vm).replay start.ledger (blocks.take k)).Accepts block
  stored : ∀ (hash : BlockHash) (block : Block), store.db.blocks[hash]? = some block →
    FromChain start blocks block
  room : store.getChainHeight + 1 ≠ 0

variable {vm : WasmRuntime} {start store : StateStore} {blocks : List Block}

theorem leads_start (hroom : start.getChainHeight + 1 ≠ 0)
    (hstored : ∀ (hash : BlockHash) (block : Block), start.db.blocks[hash]? = some block →
      block.header.height ≤ start.getChainHeight) : Leads vm start [] start where
  ledger := rfl
  numbered := Log.numbered_nil _
  accepted := nofun
  stored hash block hget := .inr (hstored hash block hget)
  room := hroom

theorem Leads.height_replay (h : Leads vm start blocks store) (hblocks : start.hasBlocks)
    {k : Nat} (hk : k ≤ blocks.length) :
    let ledger := (ledgerLog vm).replay start.ledger (blocks.take k)
    ledger.hasBlocks ∧ ledger.getChainHeight.toNat = start.getChainHeight.toNat + k := by
  cases k with
  | zero => exact ⟨hblocks, rfl⟩
  | succ k =>
      have hget : blocks[k]? = some blocks[k] := List.getElem?_eq_getElem hk
      have hchain := chainHeight_applyBlock (h.accepted k _ hget)
        (blockEffects vm ((ledgerLog vm).replay start.ledger (blocks.take k))
          blocks[k]).contractStateChanges
        (blockEffects vm ((ledgerLog vm).replay start.ledger (blocks.take k))
          blocks[k]).newContracts
      have hnumber : blocks[k].header.height.toNat = _ := h.numbered k _ hget
      have hledger : ((ledgerLog vm).replay start.ledger
          (blocks.take (k + 1))).db.chainHeight = some blocks[k].header.height := by
        rw [List.take_succ_eq_append_getElem hk, Log.replay_concat]
        exact hchain
      refine ⟨?_, ?_⟩
      · rw [hasBlocks, hledger]
        rfl
      · rw [getChainHeight, hledger, Option.getD_some, hnumber]
        omega

theorem Leads.height (h : Leads vm start blocks store) (hblocks : start.hasBlocks) :
    store.hasBlocks ∧
      store.getChainHeight.toNat = start.getChainHeight.toNat + blocks.length := by
  have hreplay := h.height_replay hblocks (Nat.le_refl blocks.length)
  rw [List.take_length, ← h.ledger] at hreplay
  exact hreplay

/-! ## The leader -/

variable [Nova]

/-- A block that is executed without a double spend is written, or leaves the store alone. -/
theorem written_or_same {isValidator : Bool} {now : UInt64} {mempool : PrivateMempool}
    {block : Block} {store : StateStore}
    (hclean : (executeAndApplyBlock vm isValidator now store mempool block).2.2 ≠
      .failed .doubleSpend) :
    let result := executeAndApplyBlock vm isValidator now store mempool block
    (result.2.2.written = true ∧ store.Accepts block ∧
        result.1 = (applyExecuted vm store block).1) ∨
      (result.2.2.written = false ∧ result.1 = store) := by
  by_cases hpass : Passes isValidator now block
  · by_cases haccept : store.Accepts block
    · left
      refine ⟨(outcome_written_iff vm mempool).mpr ⟨hpass, haccept⟩, haccept, ?_⟩
      rw [execute_of_accepts vm mempool hpass haccept]
      split <;> rfl
    · right
      have hunwritten : ¬ (executeAndApplyBlock vm isValidator now store mempool
          block).2.2.written :=
        fun hwritten => haccept ((outcome_written_iff vm mempool).mp hwritten).2
      refine ⟨Bool.eq_false_iff.mpr hunwritten, ?_⟩
      rw [execute_of_passes vm mempool hpass] at hclean ⊢
      by_cases hheight : block.header.height = store.expectedHeight
      · have hspent : (applyExecuted vm store block).2 = .error .doubleSpend :=
          applyBlock_doubleSpend_iff.mpr ⟨hheight, fun hfresh => haccept ⟨hheight, hfresh⟩⟩
        refine absurd ?_ hclean
        rw [← Prod.mk.eta (p := applyExecuted vm store block), hspent]
      · rw [applyExecuted, applyBlock_of_height_ne hheight]
  · right
    obtain ⟨reason, hreason⟩ := execute_of_not_passes vm mempool store hpass
    rw [hreason]
    exact ⟨rfl, rfl⟩

theorem Leads.execute (h : Leads vm start blocks store) (hblocks : start.hasBlocks)
    (isValidator : Bool) (now : UInt64) (mempool : PrivateMempool) (block : Block)
    (hclean : Clean [(block, (executeAndApplyBlock vm isValidator now store mempool block).2.2)]) :
    Leads vm start (blocks ++ written
        [(block, (executeAndApplyBlock vm isValidator now store mempool block).2.2)])
      (executeAndApplyBlock vm isValidator now store mempool block).1 := by
  obtain ⟨hspend, hroom⟩ := hclean _ (List.mem_singleton_self _)
  rcases written_or_same hspend with ⟨hwritten, haccept, hstore⟩ | ⟨hunwritten, hstore⟩
  · obtain ⟨hhas, hheight⟩ := h.height hblocks
    have hnumber := toNat_height_of_accepts hhas h.room haccept
    rw [written_singleton, if_pos hwritten, hstore]
    refine ⟨?_, h.numbered.concat ?_, ?_, ?_, ?_⟩
    · rw [Log.replay_concat, ← h.ledger]
      exact (ledger_applyExecuted vm haccept).symm
    · show block.header.height.toNat = _
      rw [hnumber, hheight]
      omega
    · intro k b hk
      rw [List.getElem?_append] at hk
      split at hk
      · rename_i hlt
        rw [List.take_append_of_le_length hlt.le]
        exact h.accepted k b hk
      · rename_i hge
        rw [List.getElem?_singleton] at hk
        split at hk
        · cases hk
          have hlen : k = blocks.length := by omega
          rw [hlen, List.take_left, ← h.ledger]
          exact accepts_ledger.mpr haccept
        · cases hk
    · intro hash b hget
      rw [applyExecuted, blocks_applyBlock haccept] at hget
      split at hget
      · cases hget
        exact .inl (List.mem_append_right _ (List.mem_singleton_self _))
      · exact (h.stored hash b hget).imp_left (List.mem_append_left _)
    · rw [getChainHeight, applyExecuted, chainHeight_applyBlock haccept]
      exact hroom hwritten
  · rw [written_singleton, hunwritten, if_neg Bool.false_ne_true, List.append_nil, hstore]
    exact h

/-- The chain of a leader grows by what it writes. -/
theorem Leads.evolves {isValidator : Bool} {s s' : StateStore × PrivateMempool}
    (h : Leads vm start blocks s.1) (hblocks : start.hasBlocks) {os : List (Block × BlockOutcome)}
    (hevolves : Evolves vm isValidator s os s') (hclean : Clean os) :
    Leads vm start (blocks ++ written os) s'.1 := by
  induction hevolves with
  | refl =>
      rw [written, List.filter_nil, List.map_nil, List.append_nil]
      exact h
  | execute _ now block ih =>
      rw [written_append, ← List.append_assoc]
      exact (ih fun o ho => hclean o (List.mem_append_left _ ho)).execute hblocks isValidator now
        _ block fun o ho => hclean o (List.mem_append_right _ ho)
  | @prune os store _ _ keepLast ih =>
      have hleads := ih hclean
      have hledger := ledger_pruneHistory store keepLast
      refine ⟨hledger.trans hleads.ledger, hleads.numbered, hleads.accepted, ?_, ?_⟩
      · intro hash block hget
        exact hleads.stored hash block (getElem?_blocks_pruneHistory hget)
      · show (store.pruneHistory keepLast).1.getChainHeight + 1 ≠ 0
        rw [← getChainHeight_ledger, hledger]
        exact hleads.room
  | insert _ _ ih => exact ih hclean

/-! ## The follower -/

def Trails (vm : WasmRuntime) (start : StateStore) (blocks : List Block) (store : StateStore) :
    Prop :=
  ∃ k, (ledgerLog vm).Follows start.ledger blocks k store.ledger

section

variable {leader : StateStore} (hleads : Leads vm start blocks leader)
  (hblocks : start.hasBlocks)

include hleads

theorem follows_execute {store : StateStore} {k : Nat}
    (h : (ledgerLog vm).Follows start.ledger blocks k store.ledger) {isValidator : Bool}
    {now : UInt64} (mempool : PrivateMempool) {block : Block} (hget : blocks[k]? = some block)
    (hpass : Passes isValidator now block) :
    (ledgerLog vm).Follows start.ledger blocks (k + 1)
      (executeAndApplyBlock vm isValidator now store mempool block).1.ledger := by
  have haccept : store.Accepts block := by
    have haccepted := hleads.accepted k block hget
    rw [← h.eq] at haccepted
    exact accepts_ledger.mp haccepted
  have hledger : (executeAndApplyBlock vm isValidator now store mempool block).1.ledger =
      (ledgerLog vm).advance store.ledger block := by
    rw [execute_of_accepts vm mempool hpass haccept]
    split
    · exact (ledger_applyExecuted vm haccept).symm
    · exact (ledger_applyExecuted vm haccept).symm
  rw [hledger]
  exact h.advance hleads.numbered (List.mem_of_getElem? hget) (hleads.numbered k block hget)

include hblocks

/-- A block of the chain moves a follower to the next ledger, or not at all. -/
theorem Trails.execute (h : Trails vm start blocks store) (isValidator : Bool) (now : UInt64)
    (mempool : PrivateMempool) {block : Block} (hknown : FromChain start blocks block) :
    Trails vm start blocks (executeAndApplyBlock vm isValidator now store mempool block).1 := by
  obtain ⟨k, hfollows⟩ := h
  obtain ⟨hhas, hheight⟩ := hleads.height_replay hblocks hfollows.le
  obtain ⟨-, hleader⟩ := hleads.height hblocks
  rw [← hfollows.eq, hasBlocks_ledger] at hhas
  rw [← hfollows.eq, getChainHeight_ledger] at hheight
  have hroom : store.getChainHeight + 1 ≠ 0 := by
    apply add_one_ne_zero
    have hlt := (leader.getChainHeight + 1).toNat_lt
    rw [toNat_add_one hleads.room] at hlt
    have hle := hfollows.le
    have hsize : UInt64.size = 18446744073709551616 := rfl
    omega
  -- a block for the height behind the follower is the next one of the chain
  have hnext (hexpected : block.header.height = store.expectedHeight) :
      block ∈ blocks ∧ block.header.height.toNat = start.getChainHeight.toNat + 1 + k := by
    have hnumber : block.header.height.toNat = store.getChainHeight.toNat + 1 := by
      rw [hexpected, expectedHeight_eq_add_one hhas, toNat_add_one hroom]
    refine ⟨?_, by omega⟩
    rcases hknown with hmem | hold
    · exact hmem
    · have hle := UInt64.le_iff_toNat_le.mp hold
      omega
  by_cases hpass : Passes isValidator now block
  · by_cases hexpected : block.header.height = store.expectedHeight
    · obtain ⟨hmem, hnumber⟩ := hnext hexpected
      exact ⟨k + 1, follows_execute hleads hfollows mempool
        (hleads.numbered.getElem?_eq hmem hnumber) hpass⟩
    · rw [execute_of_passes vm mempool hpass, applyExecuted, applyBlock_of_height_ne hexpected]
      exact ⟨k, hfollows⟩
  · obtain ⟨reason, hreason⟩ := execute_of_not_passes vm mempool store hpass
    rw [hreason]
    exact ⟨k, hfollows⟩

theorem Trails.evolves {isValidator : Bool} {s s' : StateStore × PrivateMempool}
    (h : Trails vm start blocks s.1) {os : List (Block × BlockOutcome)}
    (hevolves : Evolves vm isValidator s os s')
    (hknown : ∀ o ∈ os, FromChain start blocks o.1) : Trails vm start blocks s'.1 := by
  induction hevolves with
  | refl => exact h
  | execute _ now block ih =>
      exact (ih fun o ho => hknown o (List.mem_append_left _ ho)).execute hleads hblocks
        isValidator now _ (hknown _ (List.mem_append_right _ (List.mem_singleton_self _)))
  | prune _ keepLast ih =>
      obtain ⟨k, hfollows⟩ := ih hknown
      exact ⟨k, (ledger_pruneHistory _ keepLast).symm ▸ hfollows⟩
  | insert _ _ ih => exact ih hknown

end

/-! ## Any interleaving -/

omit [Blake3] [Nova] in
theorem serverActions_append (os os' : List (Side × Action)) :
    serverActions (os ++ os') = serverActions os ++ serverActions os' :=
  List.filterMap_append

omit [Blake3] [Nova] in
theorem serverActions_server (actions : List Action) :
    serverActions (actions.map (Side.server, ·)) = actions := by
  induction actions with
  | nil => rfl
  | cons action actions ih => exact congrArg (action :: ·) ih

omit [Blake3] [Nova] in
theorem serverActions_client (actions : List Action) :
    serverActions (actions.map (Side.client, ·)) = [] := by
  induction actions with
  | nil => rfl
  | cons action actions ih => exact ih

def serverChain (os : List (Side × Action)) : List Block :=
  written (Action.outcomes (serverActions os))

omit [Blake3] [Nova] in
theorem serverChain_append (os os' : List (Side × Action)) :
    serverChain (os ++ os') = serverChain os ++ serverChain os' := by
  rw [serverChain, serverActions_append, Action.outcomes_append, written_append]
  rfl

variable [Bls]

/-- What the network and the other nodes may do.  Contracts run alike on both nodes; the
server meets no double spend and does not run out of heights; the client hears responses
that were sent, and no votes that decide. -/
def Delivers (vm : WasmRuntime) (pair : SyncPair) (turn : Side × Input) : Prop :=
  turn.2.env.vm = vm ∧
    match turn.1 with
    | .server => Clean (Action.outcomes (pair.server.step turn.2).2)
    | .client =>
        (∀ peer res, turn.2.event = .syncResponse peer res → res ∈ pair.sent) ∧
          ∀ vote, turn.2.event = .vote vote → ¬ pair.client.decides vote

structure SyncPair.Synced (vm : WasmRuntime) (start : StateStore) (blocks : List Block)
    (pair : SyncPair) : Prop where
  leads : Leads vm start blocks pair.server.engine.stateStore
  trails : Trails vm start blocks pair.client.engine.stateStore
  sent : ∀ res ∈ pair.sent, ∀ block ∈ res.blocks, FromChain start blocks block

theorem LoopState.outcomes_from {state : LoopState} {input : Input}
    (hvotes : ∀ vote, input.event = .vote vote → ¬ state.decides vote)
    {o : Block × BlockOutcome} (ho : o ∈ Action.outcomes (state.step input).2) :
    ∃ peer res, input.event = .syncResponse peer res ∧ o.1 ∈ res.blocks := by
  rw [state.outcomes_step input] at ho
  obtain ⟨env, event⟩ := input
  cases event with
  | vote vote =>
      simp only [hvotes vote rfl, if_false, Bool.false_eq_true] at ho
      cases ho
  | syncResponse peer res =>
      by_cases hsyncing : state.engine.syncManager.isSyncing
      · simp only [hsyncing, if_true] at ho
        exact ⟨peer, res, rfl, (ConsensusEngine.mem_syncOutcomes ho).1⟩
      · simp only [hsyncing, if_false, Bool.false_eq_true] at ho
        cases ho
  | _ => cases ho

/-- Any turn of any of the two keeps the client on the server's chain. -/
theorem SyncPair.Synced.step {pair : SyncPair} (h : pair.Synced vm start blocks)
    (hblocks : start.hasBlocks) {turn : Side × Input} (hturn : Delivers vm pair turn) :
    (pair.step turn).1.Synced vm start (blocks ++ serverChain (pair.step turn).2) := by
  obtain ⟨side, input⟩ := turn
  obtain ⟨hvm, hside⟩ := hturn
  have hevolves (state : LoopState) := state.evolves_step input
  rw [show input.env.vm = vm from hvm] at hevolves
  cases side with
  | server =>
      have hchain : serverChain (pair.step (.server, input)).2 =
          written (Action.outcomes (pair.server.step input).2) := by
        show written (Action.outcomes (serverActions ((pair.server.step input).2.map _))) = _
        rw [serverActions_server]
      rw [hchain]
      obtain ⟨k, hfollows⟩ := h.trails
      refine ⟨h.leads.evolves hblocks (hevolves pair.server) hside, ⟨k, hfollows.append _⟩, ?_⟩
      intro res hres block hblock
      rcases List.mem_append.mp hres with hold | hnew
      · exact (h.sent res hold block hblock).imp_left (List.mem_append_left _)
      · obtain ⟨hash, hstored⟩ := LoopState.stored_of_responses hnew hblock
        exact (h.leads.stored hash block hstored).imp_left (List.mem_append_left _)
  | client =>
      have hchain : serverChain (pair.step (.client, input)).2 = [] := by
        show written (Action.outcomes (serverActions ((pair.client.step input).2.map _))) = _
        rw [serverActions_client]
        rfl
      rw [hchain, List.append_nil]
      obtain ⟨hsent, hvotes⟩ := hside
      refine ⟨h.leads, h.trails.evolves h.leads hblocks (hevolves pair.client) ?_, h.sent⟩
      intro o ho
      obtain ⟨peer, res, hevent, hmem⟩ := LoopState.outcomes_from hvotes ho
      exact h.sent res (hsent peer res hevent) o.1 hmem

/-- The two nodes behind what they have put out so far. -/
def SyncedBehind (vm : WasmRuntime) (start : StateStore)
    (run : SyncPair × List (Side × Action)) : Prop :=
  run.1.Synced vm start (serverChain run.2)

theorem syncedBehind_step (hblocks : start.hasBlocks) (run : SyncPair × List (Side × Action))
    (turn : Side × Input) (hturn : Delivers vm run.1 turn) (h : SyncedBehind vm start run) :
    SyncedBehind vm start (syncMachine.recorded.step run turn).1 := by
  show (run.1.step turn).1.Synced vm start (serverChain (run.2 ++ (run.1.step turn).2))
  rw [serverChain_append]
  exact SyncPair.Synced.step h hblocks hturn

/-- Over any interleaving of a node that serves its chain and one that syncs from it, with
responses late, repeated, reordered or lost, the ledger of the one that syncs is at every
moment the one behind a front of the blocks the other has written; and at equal heights the
two ledgers are equal. -/
theorem follower_on_chain (vm : WasmRuntime) (server client : ConsensusEngine) (env : Env)
    (hblocks : server.stateStore.hasBlocks) (hroom : server.stateStore.getChainHeight + 1 ≠ 0)
    (hstored : ∀ (hash : BlockHash) (block : Block),
      server.stateStore.db.blocks[hash]? = some block →
        block.header.height ≤ server.stateStore.getChainHeight)
    (hsame : client.stateStore.ledger = server.stateStore.ledger)
    (turns : List (Side × Input)) :
    let start : SyncPair :=
      { server := (server.enter env 0 0).1, client := (client.enter env 0 0).1, sent := [] }
    syncMachine.Admissible (Delivers vm) start turns →
      let pair := syncMachine.final start turns
      let blocks := serverChain (syncMachine.outputs start turns)
      let serverStore := pair.server.engine.stateStore
      let clientStore := pair.client.engine.stateStore
      serverStore.ledger = (ledgerLog vm).replay server.stateStore.ledger blocks ∧
        (∃ k ≤ blocks.length, clientStore.ledger =
            (ledgerLog vm).replay server.stateStore.ledger (blocks.take k) ∧
          clientStore.getChainHeight.toNat = server.stateStore.getChainHeight.toNat + k) ∧
        (clientStore.getChainHeight = serverStore.getChainHeight →
          clientStore.ledger = serverStore.ledger) := by
  intro start hadmissible
  have hstart : SyncedBehind vm server.stateStore (start, []) := by
    refine ⟨leads_start hroom hstored, ⟨0, ?_⟩, nofun⟩
    rw [show start.client.engine.stateStore.ledger = server.stateStore.ledger from hsame]
    exact Log.follows_zero _ _ _
  have hbehind := syncMachine.recorded.invariant _ (syncedBehind_step hblocks) hstart
    (syncMachine.admissible_recorded.mpr hadmissible)
  rw [Machine.final_recorded, List.nil_append] at hbehind
  have hfinal : (syncMachine.final start turns).Synced vm server.stateStore
      (serverChain (syncMachine.outputs start turns)) := hbehind
  obtain ⟨hleads, ⟨k, hfollows⟩, -⟩ := hfinal
  obtain ⟨-, hheight⟩ := hleads.height_replay hblocks hfollows.le
  rw [← hfollows.eq, getChainHeight_ledger] at hheight
  refine ⟨hleads.ledger, ⟨k, hfollows.le, hfollows.eq, hheight⟩, ?_⟩
  intro hequal
  obtain ⟨-, hleader⟩ := hleads.height hblocks
  have hk : k = (serverChain (syncMachine.outputs start turns)).length := by
    have hnat := congrArg UInt64.toNat hequal
    omega
  subst hk
  rw [hfollows.eq_replay, hleads.ledger]

end

/-! ## One block across -/

section

attribute [local instance] Bls.plain Blake3.sum Nova.rejecting

def keyless : ConsensusEngine := ConsensusEngine.new (StateStore.withValidators [1]) {} none

/-- The server commits a block and is asked for it; the client hears of a block far ahead,
and then twice what the server has sent. -/
def blockAcross : List (Side × Input) :=
  let served : SyncResponse := { blocks := [blockA] }
  [(.server, Event.input (.block blockA)),
    (.server, Event.input (.vote (Vote.plain 1 0 blockA.header.hash .prevote))),
    (.server, Event.input (.vote (Vote.plain 1 0 blockA.header.hash .precommit))),
    (.client, Event.input (.block (Block.blank 9 (fill 32 12) []))),
    (.server, Event.input (.syncRequest [] { startHeight := 1, limit := 50 })),
    (.client, Event.input (.syncResponse [] served)),
    (.client, Event.input (.syncResponse [] served))]

theorem block_synced :
    let start : SyncPair :=
      { server := (keyless.enter Env.blank 0 0).1, client := (keyless.enter Env.blank 0 0).1,
        sent := [] }
    let pair := syncMachine.final start blockAcross
    pair.client.engine.stateStore.getChainHeight = 1 ∧
      pair.client.engine.stateStore.ledger = pair.server.engine.stateStore.ledger := by
  have hdelivers : syncMachine.Admissible (Delivers Env.blank.vm)
      { server := (keyless.enter Env.blank 0 0).1, client := (keyless.enter Env.blank 0 0).1,
        sent := [] } blockAcross := by
    refine ⟨⟨rfl, ?_⟩, ⟨rfl, ?_⟩, ⟨rfl, ?_⟩, ⟨rfl, nofun, nofun⟩, ⟨rfl, ?_⟩, ⟨rfl, ?_, nofun⟩,
      ⟨rfl, ?_, nofun⟩, trivial⟩
    · decide +kernel
    · decide +kernel
    · decide +kernel
    · decide +kernel
    · rintro peer res ⟨⟩
      decide +kernel
    · rintro peer res ⟨⟩
      decide +kernel
  have hchain := follower_on_chain Env.blank.vm keyless keyless Env.blank (by decide)
    (by decide) nofun rfl blockAcross hdelivers
  exact ⟨by decide +kernel, hchain.2.2 (by decide +kernel)⟩

end

end NoirNet
