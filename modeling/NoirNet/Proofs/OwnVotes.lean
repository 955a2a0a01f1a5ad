import NoirNet.Consensus.Rounds
import NoirNet.Proofs.Tip

/-!
# A node that hears only itself

A vote is added to the round state the moment it is cast, and `try_advance_phase` is not
called then.  When gossip brings the vote back it is not new, and `try_advance_phase` is
not called either.

* `Owns`: every vote cast so far is of an earlier round, or counted in this one;
* `owns_step`: a step that hears nothing else keeps it, and stays at the height;
* `lone_validator_never_commits`: the run.
-/

namespace NoirNet

open Lib

namespace LoopState

variable [Bls]

/-! ## Voters stay -/

theorem voters_withOwn_of_mem {state : LoopState} {bft : BftRoundState} {hash hash' : Hash32}
    {own voteType : VoteType} {id : Bytes32} (h : id ∈ bft.voters voteType hash') :
    id ∈ (state.withOwn bft hash own).voters voteType hash' := by
  unfold withOwn
  cases state.engine.secretKey with
  | none => exact h
  | some sk => exact BftRoundState.mem_voters_addVote.mpr (.inl h)

theorem mem_voters_withOwn_self {state : LoopState} {bft : BftRoundState} {hash : Hash32}
    {own : VoteType} (hkey : state.engine.secretKey.isSome) (hheight : bft.height = state.height)
    (hround : bft.round = state.round) :
    state.engine.localValidatorId ∈ (state.withOwn bft hash own).voters own hash := by
  obtain ⟨sk, hsk⟩ := Option.isSome_iff_exists.mp hkey
  unfold withOwn
  rw [hsk]
  exact BftRoundState.mem_voters_addVote.mpr
    (.inr ⟨⟨hheight.symm, hround.symm⟩, rfl, rfl, rfl⟩)

variable [Blake3]

theorem mem_voters_nextBft_of_mem {state : LoopState} {input : Input} {voteType : VoteType}
    {hash : Hash32} {id : Bytes32} (h : id ∈ state.bft.voters voteType hash) :
    id ∈ (state.nextBft input).voters voteType hash := by
  unfold nextBft
  cases input.event with
  | block block =>
      by_cases hadmits : state.admits input.env.randomPeer block
      · simp only [hadmits, if_true]
        apply voters_withOwn_of_mem
        rwa [BftRoundState.tryAdvancePhase_voters]
      · simpa only [hadmits, if_false, Bool.false_eq_true] using h
  | vote vote =>
      have hadded : id ∈ ((state.bft.addVote vote).1.tryAdvancePhase vote.blockHash).1.voters
          voteType hash := by
        rw [BftRoundState.tryAdvancePhase_voters]
        exact BftRoundState.mem_voters_addVote.mpr (.inl h)
      by_cases hcounts : state.counts vote
      · by_cases hphase : state.newPhase vote = some .precommit
        · simp only [hcounts, hphase, if_true]
          exact voters_withOwn_of_mem hadded
        · simp only [hcounts, hphase, if_true, if_false]
          exact hadded
      · simpa only [hcounts, if_false, Bool.false_eq_true] using h
  | _ => exact h

theorem mem_voters_nextBft_of_casts {state : LoopState} (h : state.Coherent) {input : Input}
    {v : Vote} (hv : v ∈ state.casts input) :
    v.validatorId ∈ (state.nextBft input).voters v.voteType v.blockHash := by
  obtain ⟨sk, hsk⟩ := exists_key_of_mem_casts hv
  have hkey : state.engine.secretKey.isSome := Option.isSome_of_mem hsk
  obtain ⟨-, -, hid, ⟨block, hevent, hadmits, htype, hhash⟩ |
    ⟨vote, hevent, hcompletes, htype, hhash⟩⟩ := casts_origin hv
  · rw [hid, htype, hhash, nextBft, hevent]
    simp only [hadmits, if_true]
    apply mem_voters_withOwn_self hkey
    · rw [BftRoundState.tryAdvancePhase_height, h.bftHeight]
    · rw [BftRoundState.tryAdvancePhase_round, h.bftRound]
  · obtain ⟨hcounts, hphase⟩ := completesPrevote_iff.mp hcompletes
    rw [hid, htype, hhash, nextBft, hevent]
    simp only [hcounts, hphase, if_true]
    apply mem_voters_withOwn_self hkey
    · rw [BftRoundState.tryAdvancePhase_height, BftRoundState.addVote_height, h.bftHeight]
    · rw [BftRoundState.tryAdvancePhase_round, BftRoundState.addVote_round, h.bftRound]

/-! ## The request of a sync -/

variable [Nova]

theorem turn_syncResponse {state : LoopState} (h : state.engine.syncManager.Requests)
    (env : Env) (peer : PeerId) (res : SyncResponse) :
    let synced := (ConsensusEngine.executeSynced env state.height state.engine 0 res.blocks).1
    (state.turn { env, event := .syncResponse peer res }).1 = .stay
      (if state.engine.syncManager.isSyncing then
        { state with engine := { synced with
          syncManager := (state.engine.syncManager.checkSyncStatus
            synced.stateStore.getChainHeight).1 } }
      else state) := by
  intro synced
  by_cases hsyncing : state.engine.syncManager.isSyncing
  · have hmanager : synced.syncManager = state.engine.syncManager :=
      ConsensusEngine.syncManager_executeSynced env state.height state.engine 0 res.blocks
    have hrequests : (state.engine.syncManager.checkSyncStatus
        synced.stateStore.getChainHeight).1.Requests := h.checkSyncStatus _
    rw [if_pos hsyncing, ← hmanager] at *
    simp only [turn, onSyncResponse, hsyncing, if_true]
    rw [show (ConsensusEngine.executeSynced env state.height state.engine 0 res.blocks).1 = synced
      from rfl, SyncManager.checkSyncStatus_snd]
    cases hstill : (synced.syncManager.checkSyncStatus
        synced.stateStore.getChainHeight).1.isSyncing with
    | false => rfl
    | true =>
        obtain ⟨request, hrequest⟩ := Option.isSome_iff_exists.mp (hrequests hstill)
        rw [if_pos rfl, hrequest]
  · rw [if_neg hsyncing]
    simp only [turn, onSyncResponse, hsyncing, if_false, Bool.false_eq_true]

theorem step_syncResponse {state : LoopState} (h : state.engine.syncManager.Requests)
    (env : Env) (peer : PeerId) (res : SyncResponse) :
    let synced := (ConsensusEngine.executeSynced env state.height state.engine 0 res.blocks).1
    (state.step { env, event := .syncResponse peer res }).1 =
      if state.engine.syncManager.isSyncing then
        { state with engine := { synced with
          syncManager := (state.engine.syncManager.checkSyncStatus
            synced.stateStore.getChainHeight).1 } }
      else state := by
  intro synced
  have hturn := turn_syncResponse h env peer res
  unfold step
  generalize state.turn { env, event := .syncResponse peer res } = result at hturn ⊢
  obtain ⟨flow, actions⟩ := result
  rw [show flow = _ from hturn]

/-- Only a vote that decides ends the inner loop. -/
theorem leaves_eq_false {state : LoopState} (h : state.engine.syncManager.Requests)
    {input : Input} (hvotes : ∀ vote, input.event = .vote vote → ¬ state.decides vote) :
    state.leaves input = false := by
  obtain ⟨env, event⟩ := input
  unfold leaves
  cases event with
  | vote vote =>
      have hturn : state.turn { env, event := .vote vote } = state.onVote env vote := rfl
      obtain ⟨hstay, -⟩ | ⟨block, hcounts, hphase, -, -⟩ := state.onVote_fst env vote
      · rw [hturn, hstay]
      · exact absurd (decides_iff.mpr ⟨hcounts, hphase⟩) (hvotes vote rfl)
  | syncResponse peer res =>
      rw [turn_syncResponse h env peer res]
  | mempoolInsert tx =>
      simp only [turn]
      cases state.engine.mempool.insert state.engine.stateStore tx <;> rfl
  | _ => rfl

theorem requests_step {state : LoopState} (h : state.engine.syncManager.Requests)
    (input : Input) : (state.step input).1.engine.syncManager.Requests := by
  obtain ⟨env, event⟩ := input
  cases event with
  | block block =>
      show (state.onBlock env block).1.engine.syncManager.Requests
      rw [(onBlock_frame state env block).2]
      exact h.handlePeerHeight _ _ _
  | vote vote =>
      obtain ⟨hstay, -⟩ | ⟨block, -, -, -, henter⟩ := state.step_fst_vote env vote
      · rw [hstay]
        exact h
      · rw [henter]
        exact h.checkSyncStatus _
  | syncRequest peer req => exact h
  | syncResponse peer res =>
      rw [step_syncResponse h env peer res]
      split
      · exact h.checkSyncStatus _
      · exact h
  | timeout => exact h
  | mempoolInsert tx =>
      simp only [step, turn]
      cases state.engine.mempool.insert state.engine.stateStore tx with
      | ok mempool => exact h
      | error e => exact h
  | pruneHistory keepLast => exact h

/-! ## Votes that come back -/

omit [Blake3] [Nova] in
/-- The vote is not of the round, or it is counted in it. -/
def Counted (state : LoopState) (v : Vote) : Prop :=
  v.height = state.height → v.round < state.round ∨
    v.round = state.round ∧ v.validatorId ∈ state.bft.voters v.voteType v.blockHash

/-- What a node knows of the votes it has cast while it works at one height. -/
structure Owns (state : LoopState) (cast : List Vote) : Prop where
  coherent : state.Coherent
  requests : state.engine.syncManager.Requests
  counted : ∀ v ∈ cast, state.Counted v

/-- The delivered vote is one the node has broadcast, and the round does not wrap. -/
def Echoes (state : LoopState) (cast : List Vote) (input : Input) : Prop :=
  match input.event with
  | .vote vote => vote ∈ cast
  | .timeout => state.round.toNat + 1 < UInt32.size
  | _ => True

omit [Blake3] [Nova] in
theorem not_counts_of_counted {state : LoopState} (h : state.Coherent) {v : Vote}
    (hv : state.Counted v) : ¬ state.counts v := by
  intro hcounts
  obtain ⟨hheight, hround, -, hnew⟩ := counts_iff.mp hcounts
  rcases hv hheight with hlt | ⟨-, hmem⟩
  · rw [hround] at hlt
    exact UInt32.lt_irrefl _ hlt
  · have hmatch : ¬ (v.height ≠ state.bft.height ∨ v.round ≠ state.bft.round) := by
      rw [h.bftHeight, h.bftRound, hheight, hround]
      simp
    rw [BftRoundState.addVote, if_neg hmatch] at hnew
    cases htype : v.voteType with
    | prevote =>
        rw [htype] at hnew hmem
        exact absurd hmem (by simpa [BftRoundState.voters] using hnew)
    | precommit =>
        rw [htype] at hnew hmem
        exact absurd hmem (by simpa [BftRoundState.voters] using hnew)

section

variable {state : LoopState} {cast : List Vote} (h : state.Owns cast) {input : Input}
  (hechoes : state.Echoes cast input)

include h hechoes

omit [Blake3] [Nova] in
theorem Owns.not_counts {vote : Vote} (hevent : input.event = .vote vote) :
    ¬ state.counts vote := by
  unfold Echoes at hechoes
  rw [hevent] at hechoes
  exact not_counts_of_counted h.coherent (h.counted vote hechoes)

omit [Nova] in
theorem Owns.prevotes : ∀ v ∈ state.casts input, v.voteType = .prevote := by
  intro v hv
  obtain ⟨-, -, -, ⟨-, -, -, htype, -⟩ | ⟨vote, hevent, hcompletes, -, -⟩⟩ := casts_origin hv
  · exact htype
  · exact absurd (counts_of_completesPrevote hcompletes) (h.not_counts hechoes hevent)

omit [Blake3] [Nova] in
theorem Owns.not_decides {vote : Vote} (hevent : input.event = .vote vote) :
    ¬ state.decides vote :=
  fun hdecides => h.not_counts hechoes hevent (decides_iff.mp hdecides).1

omit [Blake3] [Nova] in
theorem Owns.commitsOn_eq : state.commitsOn input = [] := by
  rw [List.eq_nil_iff_forall_not_mem]
  intro commit hcommit
  obtain ⟨vote, hevent, hdecides, -, -⟩ := mem_commitsOn hcommit
  exact h.not_decides hechoes hevent hdecides

/-- Hearing nothing but its own votes, the node stays at the height and goes on knowing all
the votes it has cast. -/
theorem owns_step :
    (state.step input).1.height = state.height ∧
      (state.step input).1.Owns (cast ++ state.casts input) := by
  have hstays : state.leaves input = false :=
    leaves_eq_false h.requests fun vote hevent => h.not_decides hechoes hevent
  have hmoved : (state.step input).1.height = state.height ∧
      ∀ v ∈ cast ++ state.casts input, (state.step input).1.Counted v := by
    refine step_cases (motive := fun left state' => left = false → state'.height = state.height ∧
      ∀ v ∈ cast ++ state.casts input, state'.Counted v) state input ?stay ?timeout ?enter hstays
    case stay =>
      intro engine hnode _
      refine ⟨rfl, ?_⟩
      intro v hv hheight
      rcases List.mem_append.mp hv with hold | hnew
      · rcases h.counted v hold hheight with hlt | ⟨hround, hmem⟩
        · exact .inl hlt
        · exact .inr ⟨hround, mem_voters_nextBft_of_mem hmem⟩
      · exact .inr ⟨(casts_origin hnew).2.1, mem_voters_nextBft_of_casts h.coherent hnew⟩
    case timeout =>
      intro engine hnode hevent _
      have hroom : state.round.toNat + 1 < UInt32.size := by
        unfold Echoes at hechoes
        rwa [hevent] at hechoes
      have hnext : state.round < state.round + 1 := by
        rw [UInt32.lt_iff_toNat_lt, UInt32.toNat_add, UInt32.toNat_one, Nat.mod_eq_of_lt hroom]
        omega
      refine ⟨rfl, ?_⟩
      intro v hv hheight
      left
      rcases List.mem_append.mp hv with hold | hnew
      · rcases h.counted v hold hheight with hlt | ⟨hround, -⟩
        · exact UInt32.lt_trans hlt hnext
        · exact hround ▸ hnext
      · exact (casts_origin hnew).2.1 ▸ hnext
    case enter => exact fun engine hnode hleft => nomatch hleft
  exact ⟨hmoved.1, h.coherent.step input, requests_step h.requests input, hmoved.2⟩

end

end LoopState

/-! ## The run -/

section

variable [Bls] [Blake3] [Nova]

structure Lone (height : UInt64) (visit : LoopState × List Action) : Prop where
  height : visit.1.height = height
  owns : visit.1.Owns (Action.votes visit.2)
  prevotes : ∀ v ∈ Action.votes visit.2, v.voteType = .prevote
  commits : Action.commits visit.2 = []

theorem lone_step {height : UInt64} (visit : LoopState × List Action) (input : Input)
    (hechoes : visit.1.Echoes (Action.votes visit.2) input) (h : Lone height visit) :
    Lone height (engineMachine.recorded.step visit input).1 := by
  obtain ⟨hsame, hnext⟩ := LoopState.owns_step h.owns hechoes
  refine ⟨hsame.trans h.height, ?_, ?_, ?_⟩
  · show (visit.1.step input).1.Owns (Action.votes (visit.2 ++ (visit.1.step input).2))
    rw [Action.votes_append, LoopState.votes_step]
    exact hnext
  · show ∀ v ∈ Action.votes (visit.2 ++ (visit.1.step input).2), v.voteType = .prevote
    rw [Action.votes_append, LoopState.votes_step]
    intro v hv
    rcases List.mem_append.mp hv with hold | hnew
    · exact h.prevotes v hold
    · exact h.owns.prevotes hechoes v hnew
  · show Action.commits (visit.2 ++ (visit.1.step input).2) = []
    rw [Action.commits_append, LoopState.commits_step, h.commits, h.owns.commitsOn_eq hechoes]
    rfl

/-- In every run in which each vote that arrives is one the node has broadcast itself, as for
the only validator of a network, and no timeout wraps the round, no vote is counted that was
not counted when it was cast.  The node casts no precommit, commits nothing and stays at its
height. -/
theorem lone_validator_never_commits (store : StateStore) (mempool : PrivateMempool)
    (validatorId : Option (Bytes32 × Bls.SecretKey)) (env : Env) (inputs : List Input) :
    let start := ((ConsensusEngine.new store mempool validatorId).enter env 0 0).1
    engineMachine.recorded.Admissible
        (fun visit input => visit.1.Echoes (Action.votes visit.2) input) (start, []) inputs →
      (engineMachine.final start inputs).height = start.height ∧
        (∀ v ∈ Action.votes (engineMachine.outputs start inputs), v.voteType = .prevote) ∧
        Action.commits (engineMachine.outputs start inputs) = [] := by
  intro start hechoes
  have hrequests : (ConsensusEngine.new store mempool validatorId).syncManager.Requests := nofun
  have hmanager := hrequests.checkSyncStatus (ConsensusEngine.parentHeight start.height)
  have hstart : Lone start.height (start, []) :=
    ⟨rfl, ⟨LoopState.coherent_enterState _ _, hmanager, nofun⟩, nofun, rfl⟩
  have hfinal := engineMachine.recorded.invariant (Lone start.height) lone_step hstart hechoes
  rw [Machine.final_recorded, List.nil_append] at hfinal
  exact ⟨hfinal.height, hfinal.prevotes, hfinal.commits⟩

end

/-! ## The only validator -/

section

attribute [local instance] Bls.plain Blake3.sum Nova.rejecting

def heardItself : List Input :=
  [Event.input (.block blockA), Event.input (.vote (Vote.plain 1 0 blockA.header.hash .prevote)),
    Event.input .timeout]

theorem only_validator_waits :
    let start := ((ConsensusEngine.plain [1] 1).enter Env.blank 0 0).1
    Vote.plain 1 0 blockA.header.hash .prevote ∈
        Action.votes (engineMachine.outputs start heardItself) ∧
      (engineMachine.final start heardItself).height = start.height ∧
      (∀ v ∈ Action.votes (engineMachine.outputs start heardItself), v.voteType = .prevote) ∧
      Action.commits (engineMachine.outputs start heardItself) = [] := by
  intro start
  have hechoes : engineMachine.recorded.Admissible
      (fun visit input => visit.1.Echoes (Action.votes visit.2) input) (start, [])
      heardItself := by
    refine ⟨trivial, ?_, ?_, trivial⟩
    · show Vote.plain 1 0 blockA.header.hash .prevote ∈ Action.votes _
      decide +kernel
    · show _ + 1 < UInt32.size
      decide +kernel
  exact ⟨by decide +kernel, lone_validator_never_commits (StateStore.withValidators [1]) {}
    (some (fill 32 1, (1 : UInt8))) Env.blank heardItself hechoes⟩

end

end NoirNet
