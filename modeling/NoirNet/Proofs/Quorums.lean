import NoirNet.Consensus.Concrete
import NoirNet.Consensus.Rounds

/-!
# Quorums the loop does not see

The phase moves when a message is handled, one step a message, and the node's
own votes are added behind that step.  So a quorum that an own vote completes,
or that is there already when its phase begins, goes unnoticed.

* `Round`: the invariant, nobody has voted before the first phase is over;
* `missed_block_iff`, `missed_vote_iff`: the messages that leave a quorum unseen;
* `roundStep`: what one step can do to the round;
* `no_quorum_missed_iff`: the run.
-/

namespace NoirNet

open Lib

/-! ## Votes and phases -/

namespace BftRoundState

@[simp] theorem hasQuorum_phase (bft : BftRoundState) (phase : BftPhase) (voteType : VoteType)
    (hash : Hash32) :
    ({ bft with phase } : BftRoundState).hasQuorum voteType hash = bft.hasQuorum voteType hash := by
  cases voteType <;> rfl

theorem addVote_setPhase (bft : BftRoundState) (phase : BftPhase) (vote : Vote) :
    (({ bft with phase } : BftRoundState).addVote vote).1 =
      { (bft.addVote vote).1 with phase } := by
  unfold addVote
  dsimp only
  split
  · rfl
  · split <;> rfl

theorem hasQuorum_addVote_of_ne {bft : BftRoundState} {vote : Vote} {voteType : VoteType}
    {hash : Hash32} (h : vote.voteType ≠ voteType ∨ vote.blockHash ≠ hash) :
    (bft.addVote vote).1.hasQuorum voteType hash = bft.hasQuorum voteType hash := by
  have hvoters : (bft.addVote vote).1.voters voteType hash = bft.voters voteType hash := by
    ext id
    rw [mem_voters_addVote]
    constructor
    · rintro (hold | ⟨-, htype, hhash, -⟩)
      · exact hold
      · exact absurd hhash (h.resolve_left (not_not.mpr htype))
    · exact Or.inl
  rw [hasQuorum, hasQuorum, hvoters, addVote_totalValidators]

/-- If there is no quorum, one more vote can make one for its own hash only. -/
theorem no_quorum_addVote_iff {bft : BftRoundState} {vote : Vote} {voteType : VoteType}
    (hnone : ∀ hash, ¬ bft.hasQuorum voteType hash) :
    (∀ hash, ¬ (bft.addVote vote).1.hasQuorum voteType hash) ↔
      ¬ (bft.addVote vote).1.hasQuorum voteType vote.blockHash := by
  refine ⟨fun hall => hall _, fun hone hash => ?_⟩
  by_cases hhash : vote.blockHash = hash
  · exact hhash ▸ hone
  · rw [hasQuorum_addVote_of_ne (.inr hhash)]
    exact hnone hash

theorem not_hasQuorum_of_voters {bft : BftRoundState} {voteType : VoteType} {hash : Hash32}
    (h : bft.voters voteType hash = ∅) : ¬ bft.hasQuorum voteType hash := by
  rw [hasQuorum, h]
  simp

section

variable {bft : BftRoundState} {hash : Hash32}

theorem tryAdvancePhase_of_propose (h : bft.phase = .propose) :
    bft.tryAdvancePhase hash = ({ bft with phase := .prevote }, some .prevote) := by
  rw [tryAdvancePhase, if_pos h]

theorem tryAdvancePhase_of_prevote (h : bft.phase = .prevote) :
    (bft.tryAdvancePhase hash).1 =
      if bft.hasQuorum .prevote hash then { bft with phase := .precommit } else bft := by
  unfold tryAdvancePhase hasQuorumPrevote
  by_cases hquorum : bft.hasQuorum .prevote hash
  · simp [h, hquorum]
  · simp [h, hquorum]

theorem tryAdvancePhase_of_precommit (h : bft.phase = .precommit) :
    (bft.tryAdvancePhase hash).1 =
      if bft.hasQuorum .precommit hash then { bft with phase := .commit } else bft := by
  unfold tryAdvancePhase hasQuorumPrecommit
  by_cases hquorum : bft.hasQuorum .precommit hash
  · simp [h, hquorum]
  · simp [h, hquorum]

theorem tryAdvancePhase_ne_propose : (bft.tryAdvancePhase hash).1.phase ≠ .propose := by
  unfold tryAdvancePhase
  split
  · exact nofun
  · split
    · exact nofun
    · split
      · exact nofun
      · assumption

theorem tryAdvancePhase_of_commit (h : bft.phase = .commit) :
    bft.tryAdvancePhase hash = (bft, none) := by
  unfold tryAdvancePhase
  simp [h]

end

end BftRoundState

section

variable [Bls]

namespace LoopState

@[simp] theorem withOwn_phase (state : LoopState) (bft : BftRoundState) (hash : Hash32)
    (voteType : VoteType) : (state.withOwn bft hash voteType).phase = bft.phase := by
  unfold withOwn
  cases state.engine.secretKey with
  | none => rfl
  | some sk => simp

theorem withOwn_setPhase (state : LoopState) (bft : BftRoundState) (phase : BftPhase)
    (hash : Hash32) (voteType : VoteType) :
    state.withOwn { bft with phase } hash voteType =
      { state.withOwn bft hash voteType with phase } := by
  unfold withOwn
  cases state.engine.secretKey with
  | none => rfl
  | some sk => exact bft.addVote_setPhase phase _

theorem hasQuorum_withOwn_of_ne (state : LoopState) {bft : BftRoundState} {hash hash' : Hash32}
    {voteType voteType' : VoteType} (h : voteType ≠ voteType' ∨ hash ≠ hash') :
    (state.withOwn bft hash voteType).hasQuorum voteType' hash' =
      bft.hasQuorum voteType' hash' := by
  unfold withOwn
  cases state.engine.secretKey with
  | none => rfl
  | some sk => exact BftRoundState.hasQuorum_addVote_of_ne h

theorem no_quorum_withOwn_iff (state : LoopState) {bft : BftRoundState} {voteType : VoteType}
    (hnone : ∀ hash, ¬ bft.hasQuorum voteType hash) (hash : Hash32) :
    (∀ hash', ¬ (state.withOwn bft hash voteType).hasQuorum voteType hash') ↔
      ¬ (state.withOwn bft hash voteType).hasQuorum voteType hash := by
  unfold withOwn
  cases state.engine.secretKey with
  | none => exact iff_of_true hnone (hnone hash)
  | some sk => exact BftRoundState.no_quorum_addVote_iff hnone

end LoopState

/-! ## What is missed -/

def committedHash (actions : List Action) : Option Hash32 :=
  (Action.commits actions).getLast?.map (·.2)

variable [Blake3]

/-- No quorum is there that the phase waits for, and a block whose hash is committed does
not wait. -/
structure Unmissed (bft : BftRoundState) (currentBlock : Option Block)
    (committed : Option Hash32) : Prop where
  prevote : bft.phase = .prevote → ∀ hash, ¬ bft.hasQuorum .prevote hash
  precommit : bft.phase = .precommit → ∀ hash, ¬ bft.hasQuorum .precommit hash
  commit : bft.phase = .commit → ∀ block, currentBlock = some block →
    committed ≠ some block.header.hash

section

variable {bft : BftRoundState} {currentBlock : Option Block} {committed : Option Hash32}

omit [Bls]

theorem unmissed_of_propose (h : bft.phase = .propose) :
    Unmissed bft currentBlock committed := by
  constructor <;> simp [h]

theorem unmissed_prevote_iff (h : bft.phase = .prevote) :
    Unmissed bft currentBlock committed ↔ ∀ hash, ¬ bft.hasQuorum .prevote hash := by
  refine ⟨fun hunmissed => hunmissed.prevote h, fun hnone => ⟨fun _ => hnone, ?_, ?_⟩⟩ <;> simp [h]

theorem unmissed_precommit_iff (h : bft.phase = .precommit) :
    Unmissed bft currentBlock committed ↔ ∀ hash, ¬ bft.hasQuorum .precommit hash := by
  refine ⟨fun hunmissed => hunmissed.precommit h, fun hnone => ⟨?_, fun _ => hnone, ?_⟩⟩ <;>
    simp [h]

theorem unmissed_commit_iff (h : bft.phase = .commit) :
    Unmissed bft currentBlock committed ↔
      ∀ block, currentBlock = some block → committed ≠ some block.header.hash := by
  refine ⟨fun hunmissed => hunmissed.commit h, fun hnone => ⟨?_, ?_, fun _ => hnone⟩⟩ <;> simp [h]

end

namespace LoopState

/-- The own prevote completes no quorum, and the block is not the one that was committed. -/
def SparesBlock (state : LoopState) (committed : Option Hash32) (block : Block) : Prop :=
  (state.bft.phase = .propose ∨ state.bft.phase = .prevote →
      ¬ (state.withOwn state.bft block.header.hash .prevote).hasQuorum .prevote
        block.header.hash) ∧
    (state.bft.phase = .commit → committed ≠ some block.header.hash)

/-- The first vote is no quorum by itself, and when the prevotes become one there is none
of precommits, the own precommit included. -/
def SparesVote (state : LoopState) (vote : Vote) : Prop :=
  (state.bft.phase = .propose → ¬ (state.bft.addVote vote).1.hasQuorum .prevote vote.blockHash) ∧
    (state.completesPrevote vote → ∀ hash, ¬ (state.withOwn (state.bft.addVote vote).1
      vote.blockHash .precommit).hasQuorum .precommit hash)

/-- Nobody has voted before the first phase is over, and nothing is missed. -/
structure Round (state : LoopState) (committed : Option Hash32) : Prop where
  unvoted : state.bft.phase = .propose → ∀ voteType hash, state.bft.voters voteType hash = ∅
  unmissed : Unmissed state.bft state.currentBlock committed

section

variable {state : LoopState} {committed : Option Hash32} (h : state.Round committed)

include h

theorem missed_block_iff (block : Block) :
    Unmissed (state.withOwn (state.bft.tryAdvancePhase block.header.hash).1 block.header.hash
        .prevote) (some block) committed ↔ state.SparesBlock committed block := by
  cases hphase : state.bft.phase with
  | propose =>
      have hnone (hash : Hash32) : ¬ state.bft.hasQuorum .prevote hash :=
        BftRoundState.not_hasQuorum_of_voters (h.unvoted hphase .prevote hash)
      rw [BftRoundState.tryAdvancePhase_of_propose hphase, withOwn_setPhase,
        unmissed_prevote_iff rfl]
      simp only [BftRoundState.hasQuorum_phase]
      rw [state.no_quorum_withOwn_iff hnone]
      simp [SparesBlock, hphase]
  | prevote =>
      have hnone := h.unmissed.prevote hphase
      rw [BftRoundState.tryAdvancePhase_of_prevote hphase, if_neg (hnone _),
        unmissed_prevote_iff (by rw [withOwn_phase, hphase]), state.no_quorum_withOwn_iff hnone]
      simp [SparesBlock, hphase]
  | precommit =>
      have hnone := h.unmissed.precommit hphase
      rw [BftRoundState.tryAdvancePhase_of_precommit hphase, if_neg (hnone _),
        unmissed_precommit_iff (by rw [withOwn_phase, hphase])]
      refine iff_of_true (fun hash => ?_) (by simp [SparesBlock, hphase])
      have hkind : VoteType.prevote ≠ .precommit := nofun
      rw [state.hasQuorum_withOwn_of_ne (.inl hkind)]
      exact hnone hash
  | commit =>
      rw [BftRoundState.tryAdvancePhase_of_commit hphase,
        unmissed_commit_iff (by rw [withOwn_phase, hphase])]
      simp [SparesBlock, hphase]

def countedBft (state : LoopState) (vote : Vote) : BftRoundState :=
  let bft := ((state.bft.addVote vote).1.tryAdvancePhase vote.blockHash).1
  if state.newPhase vote = some .precommit then state.withOwn bft vote.blockHash .precommit
  else bft

theorem missed_vote_iff {vote : Vote} (hcounts : state.counts vote)
    (hdecides : ¬ state.decides vote) :
    Unmissed (state.countedBft vote) state.currentBlock committed ↔ state.SparesVote vote := by
  let bft := (state.bft.addVote vote).1
  have hbft : bft.phase = state.bft.phase := BftRoundState.addVote_phase _ _
  have hcompletes : state.completesPrevote vote ↔
      state.bft.phase = .prevote ∧ bft.hasQuorum .prevote vote.blockHash := by
    simp [completesPrevote, hcounts, bft]
  have hprecommit : state.newPhase vote = some .precommit ↔ state.completesPrevote vote := by
    simp [completesPrevote_iff, hcounts]
  unfold countedBft SparesVote
  dsimp only
  cases hphase : state.bft.phase with
  | propose =>
      have hnone (hash : Hash32) : ¬ state.bft.hasQuorum .prevote hash :=
        BftRoundState.not_hasQuorum_of_voters (h.unvoted hphase .prevote hash)
      have hno : ¬ state.completesPrevote vote := by simp [hcompletes, hphase]
      rw [if_neg (mt hprecommit.mp hno),
        BftRoundState.tryAdvancePhase_of_propose (hbft.trans hphase), unmissed_prevote_iff rfl]
      simp only [BftRoundState.hasQuorum_phase]
      rw [BftRoundState.no_quorum_addVote_iff hnone]
      simp [hno]
  | prevote =>
      have hnone := h.unmissed.prevote hphase
      rw [BftRoundState.tryAdvancePhase_of_prevote (hbft.trans hphase)]
      by_cases hquorum : bft.hasQuorum .prevote vote.blockHash
      · have hyes : state.completesPrevote vote := hcompletes.mpr ⟨hphase, hquorum⟩
        rw [if_pos (hprecommit.mpr hyes), if_pos hquorum, withOwn_setPhase,
          unmissed_precommit_iff rfl]
        simp only [BftRoundState.hasQuorum_phase]
        simp [hyes, bft]
      · have hno : ¬ state.completesPrevote vote := by simp [hcompletes, hquorum]
        rw [if_neg (mt hprecommit.mp hno), if_neg hquorum,
          unmissed_prevote_iff (hbft.trans hphase),
          BftRoundState.no_quorum_addVote_iff hnone]
        simpa [hno] using hquorum
  | precommit =>
      have hnone := h.unmissed.precommit hphase
      have hquorum : ¬ bft.hasQuorum .precommit vote.blockHash := by
        intro hquorum
        apply hdecides
        simp [decides, hcounts, hphase, bft, hquorum]
      have hno : ¬ state.completesPrevote vote := by simp [hcompletes, hphase]
      rw [if_neg (mt hprecommit.mp hno),
        BftRoundState.tryAdvancePhase_of_precommit (hbft.trans hphase), if_neg hquorum,
        unmissed_precommit_iff (hbft.trans hphase), BftRoundState.no_quorum_addVote_iff hnone]
      simpa [hno] using hquorum
  | commit =>
      have hno : ¬ state.completesPrevote vote := by simp [hcompletes, hphase]
      rw [if_neg (mt hprecommit.mp hno),
        BftRoundState.tryAdvancePhase_of_commit (hbft.trans hphase),
        unmissed_commit_iff (hbft.trans hphase)]
      have hold := h.unmissed.commit hphase
      simpa [hno] using hold

end

/-! ## One step -/

variable [Nova]

theorem step_idle (state : LoopState) {input : Input} (hidle : input.event.Idle) :
    ((state.step input).1.bft = state.bft ∧
        (state.step input).1.currentBlock = state.currentBlock) ∨
      ∃ height round total, (state.step input).1.bft = BftRoundState.new height round total := by
  have hnext : state.nextBft input = state.bft ∧ state.nextBlock input = state.currentBlock := by
    obtain ⟨env, event⟩ := input
    cases event with
    | block block => exact hidle.elim
    | vote vote => exact hidle.elim
    | _ => exact ⟨rfl, rfl⟩
  refine step_cases state input ?same ?restarted ?entered
  case same =>
    intro engine _
    exact .inl hnext
  case restarted =>
    intro engine _ _
    exact .inr ⟨_, _, _, rfl⟩
  case entered =>
    intro engine _
    exact .inr ⟨_, _, _, rfl⟩

theorem step_block (state : LoopState) (env : Env) (block : Block) :
    (state.step { env, event := .block block }).1.bft =
        state.nextBft { env, event := .block block } ∧
      (state.step { env, event := .block block }).1.currentBlock =
        state.nextBlock { env, event := .block block } := by
  have hnext := state.step_next { env, event := .block block }
  have hstay : state.leaves { env, event := .block block } = false := rfl
  rw [hstay] at hnext
  generalize (state.step { env, event := .block block }).1 = state' at hnext ⊢
  cases hnext with
  | stay engine hnode => exact ⟨rfl, rfl⟩
  | timeout engine hnode hevent => cases hevent

def Spares (s : LoopState × List Action) (input : Input) : Prop :=
  match input.event with
  | .block block => s.1.admits input.env.randomPeer block →
      s.1.SparesBlock (committedHash s.2) block
  | .vote vote => s.1.counts vote → s.1.SparesVote vote
  | _ => True

omit [Nova] in
theorem spares_of_idle (s : LoopState × List Action) {input : Input} (hidle : input.event.Idle) :
    Spares s input := by
  obtain ⟨env, event⟩ := input
  cases event with
  | block block => exact hidle.elim
  | vote vote => exact hidle.elim
  | _ => trivial

omit [Blake3] [Nova] in
theorem commitsOn_of_idle (state : LoopState) {input : Input} (hidle : input.event.Idle) :
    state.commitsOn input = [] := by
  obtain ⟨env, event⟩ := input
  cases event with
  | vote vote => exact hidle.elim
  | _ => rfl

omit [Blake3] [Nova] in
theorem commitsOn_of_not_decides {state : LoopState} {vote : Vote} (env : Env)
    (hdecides : ¬ state.decides vote) : state.commitsOn { env, event := .vote vote } = [] :=
  if_neg (mt decides_iff.mpr hdecides)

omit [Blake3] [Nova] in
/-- A vote that decides finds the phase behind the prevotes. -/
theorem sparesVote_of_decides {state : LoopState} {vote : Vote} (h : state.decides vote) :
    state.SparesVote vote := by
  have hphase : state.bft.phase = .precommit := by
    simp only [decides, Bool.decide_and, Bool.and_eq_true, decide_eq_true_eq] at h
    exact h.2.1
  simp [SparesVote, completesPrevote, hphase]

omit [Nova] in
theorem nextBft_of_counts {state : LoopState} {vote : Vote} (env : Env)
    (hcounts : state.counts vote) :
    state.nextBft { env, event := .vote vote } = state.countedBft vote := by
  simp only [nextBft, countedBft, hcounts, if_true]

omit [Blake3] [Nova] in
theorem countedBft_phase_of_decides {state : LoopState} {vote : Vote} (h : state.decides vote) :
    (state.countedBft vote).phase = .commit := by
  have hcommit := (decides_iff.mp h).2
  obtain ⟨hphase, hquorum⟩ := BftRoundState.tryAdvancePhase_eq_commit.mp hcommit
  have hprecommit : state.newPhase vote ≠ some .precommit := by simp [hcommit]
  unfold countedBft
  simp only [hprecommit, if_false]
  rw [BftRoundState.tryAdvancePhase_of_precommit hphase, if_pos hquorum]

/-- What a step can do to the round: nothing; a new round, by a timeout or behind a block
that was executed; a proposal; a vote that counts and does not decide; or a decision
without a block to execute. -/
inductive RoundStep (state : LoopState) (input : Input) (state' : LoopState) : Prop
  | kept (hbft : state'.bft = state.bft) (hblock : state'.currentBlock = state.currentBlock)
      (hcommits : state.commitsOn input = []) (hspares : ∀ actions, Spares (state, actions) input)
  | renewed (height : UInt64) (round : UInt32) (total : Nat)
      (hbft : state'.bft = BftRoundState.new height round total)
      (hspares : ∀ actions, Spares (state, actions) input)
  | proposed (env : Env) (block : Block) (hinput : input = { env, event := .block block })
      (hadmits : state.admits env.randomPeer block)
      (hbft : state'.bft = state.withOwn (state.bft.tryAdvancePhase block.header.hash).1
        block.header.hash .prevote)
      (hblock : state'.currentBlock = some block)
  | counted (env : Env) (vote : Vote) (hinput : input = { env, event := .vote vote })
      (hcounts : state.counts vote) (hdecides : ¬ state.decides vote)
      (hbft : state'.bft = state.countedBft vote)
      (hblock : state'.currentBlock = state.currentBlock)
  | undelivered (hphase : state'.bft.phase = .commit) (hblock : state'.currentBlock = none)
      (hspares : ∀ actions, Spares (state, actions) input)

theorem roundStep (state : LoopState) (input : Input) :
    RoundStep state input (state.step input).1 := by
  by_cases hidle : input.event.Idle
  · have hspares (actions : List Action) := spares_of_idle (state, actions) hidle
    obtain ⟨hbft, hblock⟩ | ⟨height, round, total, hbft⟩ := state.step_idle hidle
    · exact .kept hbft hblock (state.commitsOn_of_idle hidle) hspares
    · exact .renewed height round total hbft hspares
  obtain ⟨env, event⟩ := input
  cases event with
  | block block =>
      obtain ⟨hbft, hblock⟩ := state.step_block env block
      rw [nextBft] at hbft
      rw [nextBlock] at hblock
      by_cases hadmits : state.admits env.randomPeer block
      · simp only [hadmits, if_true] at hbft hblock
        exact .proposed env block rfl hadmits hbft hblock
      · simp only [hadmits, if_false, Bool.false_eq_true] at hbft hblock
        exact .kept hbft hblock rfl fun _ hyes => absurd hyes hadmits
  | vote vote =>
      obtain ⟨hstay, hnone⟩ | ⟨block, hcounts, hcommit, -, henter⟩ := state.step_fst_vote env vote
      · rw [hstay]
        by_cases hcounts : state.counts vote
        · rw [nextBft_of_counts env hcounts]
          by_cases hdecides : state.decides vote
          · exact .undelivered (countedBft_phase_of_decides hdecides)
              (hnone hcounts (decides_iff.mp hdecides).2) fun _ _ => sparesVote_of_decides hdecides
          · exact .counted env vote rfl hcounts hdecides rfl rfl
        · have hbft : state.nextBft { env, event := .vote vote } = state.bft := by
            simp [nextBft, hcounts]
          rw [hbft]
          have hdecides : ¬ state.decides vote :=
            fun hdecides => hcounts (decides_iff.mp hdecides).1
          exact .kept rfl rfl (commitsOn_of_not_decides env hdecides)
            fun _ hyes => absurd hyes hcounts
      · rw [henter]
        exact .renewed _ _ _ rfl fun _ _ =>
          sparesVote_of_decides (decides_iff.mpr ⟨hcounts, hcommit⟩)
  | _ => exact absurd trivial hidle

theorem committedHash_step (state : LoopState) (actions : List Action) (input : Input) :
    committedHash (actions ++ (state.step input).2) =
      ((state.commitsOn input).getLast?.map (·.2)).or (committedHash actions) := by
  rw [committedHash, Action.commits_append, commits_step, List.getLast?_append, committedHash]
  cases (state.commitsOn input).getLast? <;> rfl

/-- The phase leaves its first value with the first proposal or vote that counts. -/
theorem unvoted_step {state : LoopState}
    (h : state.bft.phase = .propose → ∀ voteType hash, state.bft.voters voteType hash = ∅)
    (input : Input) :
    (state.step input).1.bft.phase = .propose →
      ∀ voteType hash, (state.step input).1.bft.voters voteType hash = ∅ := by
  have hstep := state.roundStep input
  generalize (state.step input).1 = state' at hstep ⊢
  cases hstep with
  | kept hbft hblock hcommits hspares =>
      rw [hbft]
      exact h
  | renewed height round total hbft hspares =>
      rw [hbft]
      exact fun _ => BftRoundState.voters_new height round total
  | proposed env block hinput hadmits hbft hblock =>
      rw [hbft, withOwn_phase]
      intro hphase
      exact absurd hphase BftRoundState.tryAdvancePhase_ne_propose
  | counted env vote hinput hcounts hdecides hbft hblock =>
      rw [hbft, countedBft]
      split
      · rw [withOwn_phase]
        exact fun hphase => absurd hphase BftRoundState.tryAdvancePhase_ne_propose
      · exact fun hphase => absurd hphase BftRoundState.tryAdvancePhase_ne_propose
  | undelivered hphase hblock hspares =>
      rw [hphase]
      intro hpropose
      cases hpropose

/-- After a step nothing is missed exactly when its message is spared. -/
theorem Round.step_iff {state : LoopState} {actions : List Action}
    (h : state.Round (committedHash actions)) (input : Input) :
    Unmissed (state.step input).1.bft (state.step input).1.currentBlock
        (committedHash (actions ++ (state.step input).2)) ↔ Spares (state, actions) input := by
  rw [committedHash_step]
  have hstep := state.roundStep input
  generalize (state.step input).1 = state' at hstep ⊢
  cases hstep with
  | kept hbft hblock hcommits hspares =>
      rw [hbft, hblock, hcommits]
      exact iff_of_true h.unmissed (hspares actions)
  | renewed height round total hbft hspares =>
      rw [hbft]
      exact iff_of_true (unmissed_of_propose rfl) (hspares actions)
  | proposed env block hinput hadmits hbft hblock =>
      rw [hbft, hblock, hinput]
      show Unmissed _ _ (committedHash actions) ↔ (state.admits env.randomPeer block → _)
      simp only [hadmits, forall_const]
      exact missed_block_iff h block
  | counted env vote hinput hcounts hdecides hbft hblock =>
      rw [hbft, hblock, hinput, commitsOn_of_not_decides env hdecides]
      show Unmissed _ _ (committedHash actions) ↔ (state.counts vote → state.SparesVote vote)
      rw [missed_vote_iff h hcounts hdecides]
      simp [hcounts]
  | undelivered hphase hblock hspares =>
      refine iff_of_true ?_ (hspares actions)
      rw [unmissed_commit_iff hphase, hblock]
      intro block hnone
      cases hnone

def RoundBehind (run : LoopState × List Action) : Prop := run.1.Round (committedHash run.2)

def UnmissedBehind (run : LoopState × List Action) : Prop :=
  Unmissed run.1.bft run.1.currentBlock (committedHash run.2)

theorem unmissedBehind_step_iff {run : LoopState × List Action} (h : RoundBehind run)
    (input : Input) :
    UnmissedBehind (engineMachine.recorded.step run input).1 ↔ Spares run input :=
  Round.step_iff h input

theorem roundBehind_step {run : LoopState × List Action} (h : RoundBehind run) {input : Input}
    (hspares : Spares run input) : RoundBehind (engineMachine.recorded.step run input).1 where
  unvoted := unvoted_step h.unvoted input
  unmissed := (unmissedBehind_step_iff h input).mpr hspares

end LoopState

/-- In a run of the loop that begins with a fresh round, of any height, for any number of
validators and with any `current_block`, no quorum is missed at any moment exactly when each
message is spared: the own prevote for a proposal completes no quorum of prevotes; a proposal
behind a commit has another hash; the first vote is no quorum of prevotes; a vote that
completes the prevotes finds no quorum of precommits, the own one included. -/
theorem no_quorum_missed_iff [Nova] (state : LoopState) (totalValidators : Nat)
    (inputs : List Input) :
    let start := { state with
      bft := BftRoundState.new state.height state.round totalValidators }
    (∀ front, front <+: inputs →
        Unmissed (engineMachine.final start front).bft
          (engineMachine.final start front).currentBlock
          (committedHash (engineMachine.outputs start front))) ↔
      engineMachine.recorded.Admissible LoopState.Spares (start, []) inputs := by
  intro start
  have hstart : LoopState.RoundBehind (start, []) :=
    ⟨fun _ => BftRoundState.voters_new _ _ _, unmissed_of_propose rfl⟩
  have hlegal : engineMachine.recorded.Admissible (fun _ _ => True) (start, []) inputs :=
    engineMachine.recorded.admissible_of_forall (fun _ _ _ => trivial) _
  have hrun := engineMachine.recorded.forall_prefix_iff LoopState.RoundBehind
    LoopState.UnmissedBehind (fun _ _ _ h => LoopState.roundBehind_step h)
    (fun _ input _ h => LoopState.unmissedBehind_step_iff h input) hstart hstart.unmissed hlegal
  rw [← hrun]
  simp only [LoopState.UnmissedBehind, Machine.final_recorded, List.nil_append]

end

/-! ## A quorum of which the own vote is a part -/

section

attribute [local instance] Bls.plain Blake3.sum Nova.rejecting

def firstOfFour : LoopState := (ConsensusEngine.plain [1, 2, 3, 4] 1).enterState 0

def proposalLast : List Input :=
  [Event.input (.vote (Vote.plain 2 0 blockA.header.hash .prevote)),
    Event.input (.vote (Vote.plain 3 0 blockA.header.hash .prevote)),
    Event.input (.block blockA)]

theorem own_prevote_unseen :
    firstOfFour.totalValidators = 4 ∧
      firstOfFour.bft = BftRoundState.new firstOfFour.height firstOfFour.round
        firstOfFour.totalValidators ∧
      ¬ ∀ front, front <+: proposalLast →
        Unmissed (engineMachine.final firstOfFour front).bft
          (engineMachine.final firstOfFour front).currentBlock
          (committedHash (engineMachine.outputs firstOfFour front)) := by
  refine ⟨by decide +kernel, rfl, fun hall => ?_⟩
  have hphase : (engineMachine.final firstOfFour proposalLast).bft.phase = .prevote := by
    decide +kernel
  have hquorum : (engineMachine.final firstOfFour proposalLast).bft.hasQuorum .prevote
      blockA.header.hash := by decide +kernel
  exact (hall proposalLast (List.prefix_refl _)).prevote hphase blockA.header.hash hquorum

end

end NoirNet
