import NoirNet.Consensus.Steps

/-!
# Rounds

What the loop knows about the round it is in: the loop variables fit each other
and the store (`Coherent`), a vote that completes a quorum moves the phase
(`completesPrevote`, `decides`), and every voter of the round state has come in
with a counted vote or with the node's own.
-/

namespace NoirNet

open Lib

namespace LoopState

variable [Bls]

/-! ## Completing a quorum -/

def completesPrevote (state : LoopState) (vote : Vote) : Bool :=
  state.counts vote ∧ state.bft.phase = .prevote ∧
    (state.bft.addVote vote).1.hasQuorum .prevote vote.blockHash

def decides (state : LoopState) (vote : Vote) : Bool :=
  state.counts vote ∧ state.bft.phase = .precommit ∧
    (state.bft.addVote vote).1.hasQuorum .precommit vote.blockHash

theorem completesPrevote_iff {state : LoopState} {vote : Vote} :
    state.completesPrevote vote ↔
      state.counts vote ∧ state.newPhase vote = some .precommit := by
  unfold completesPrevote newPhase
  rw [BftRoundState.tryAdvancePhase_eq_precommit, BftRoundState.addVote_phase]
  simp

theorem decides_iff {state : LoopState} {vote : Vote} :
    state.decides vote ↔ state.counts vote ∧ state.newPhase vote = some .commit := by
  unfold decides newPhase
  rw [BftRoundState.tryAdvancePhase_eq_commit, BftRoundState.addVote_phase]
  simp

theorem counts_of_completesPrevote {state : LoopState} {vote : Vote}
    (h : state.completesPrevote vote) : state.counts vote :=
  (completesPrevote_iff.mp h).1

theorem quorum_of_completesPrevote {state : LoopState} {vote : Vote}
    (h : state.completesPrevote vote) :
    (state.bft.addVote vote).1.hasQuorum .prevote vote.blockHash := by
  simp only [completesPrevote, Bool.decide_and, Bool.and_eq_true, decide_eq_true_eq] at h
  exact h.2.2

theorem quorum_of_decides {state : LoopState} {vote : Vote} (h : state.decides vote) :
    (state.bft.addVote vote).1.hasQuorum .precommit vote.blockHash := by
  simp only [decides, Bool.decide_and, Bool.and_eq_true, decide_eq_true_eq] at h
  exact h.2.2

theorem counts_iff {state : LoopState} {vote : Vote} :
    state.counts vote ↔ vote.height = state.height ∧ vote.round = state.round ∧
      state.isValid vote ∧ (state.bft.addVote vote).2 := by
  simp [counts]

theorem isValid_of_members {state : LoopState} {vote : Vote}
    (hmembers : state.valSet.isEmpty = false) (h : state.isValid vote) :
    ∃ entry pk sig, state.valSet.getById vote.validatorId = some entry ∧
      Bls.publicKeyFromBytes entry.blsPubkey = some pk ∧
      Bls.signatureFromBytes vote.signature = some sig ∧
      Bls.verify sig vote.blockHash.toList pk := by
  unfold isValid at h
  cases hentry : state.valSet.getById vote.validatorId with
  | none => simp [hentry, hmembers] at h
  | some entry =>
      rw [hentry] at h
      cases hpk : Bls.publicKeyFromBytes entry.blsPubkey with
      | none => simp [hpk] at h
      | some pk =>
          cases hsig : Bls.signatureFromBytes vote.signature with
          | none => simp [hpk, hsig] at h
          | some sig =>
              simp only [hpk, hsig] at h
              exact ⟨entry, pk, sig, rfl, hpk, rfl, h⟩

variable [Blake3]

/-! ## The votes of a turn -/

/-- With a key, the votes cast in a turn are the prevote for an admitted
proposal and the precommit for a completed prevote quorum. -/
theorem mem_casts {state : LoopState} {input : Input} {sk : Bls.SecretKey} {v : Vote}
    (hkey : state.engine.secretKey = some sk) :
    v ∈ state.casts input ↔
      (∃ block, input.event = .block block ∧ state.admits input.env.randomPeer block ∧
        v = state.engine.castVote sk state.height state.round block.header.hash .prevote) ∨
      ∃ vote, input.event = .vote vote ∧ state.completesPrevote vote ∧
        v = state.engine.castVote sk state.height state.round vote.blockHash .precommit := by
  unfold casts castOn
  rw [hkey]
  cases hevent : input.event with
  | block block =>
      by_cases hadmits : state.admits input.env.randomPeer block
      · simp [hadmits]
      · simp [hadmits]
  | vote vote =>
      simp only [← completesPrevote_iff]
      by_cases hcompletes : state.completesPrevote vote
      · simp [hcompletes]
      · simp [hcompletes]
  | _ => simp

theorem exists_key_of_mem_casts {state : LoopState} {input : Input} {v : Vote}
    (h : v ∈ state.casts input) : ∃ sk, state.engine.secretKey = some sk := by
  cases hkey : state.engine.secretKey with
  | some sk => exact ⟨sk, rfl⟩
  | none =>
      have hnone (hash : Hash32) (voteType : VoteType) : state.castOn hash voteType = [] := by
        rw [castOn, hkey]
      unfold casts at h
      simp only [hnone, ite_self] at h
      split at h <;> simp at h

/-- What a vote of a turn says, and the proposal or the quorum behind it. -/
theorem casts_origin {state : LoopState} {input : Input} {v : Vote}
    (h : v ∈ state.casts input) :
    v.height = state.height ∧ v.round = state.round ∧
      v.validatorId = state.engine.localValidatorId ∧
      ((∃ block, input.event = .block block ∧ state.admits input.env.randomPeer block ∧
          v.voteType = .prevote ∧ v.blockHash = block.header.hash) ∨
        ∃ vote, input.event = .vote vote ∧ state.completesPrevote vote ∧
          v.voteType = .precommit ∧ v.blockHash = vote.blockHash) := by
  obtain ⟨sk, hkey⟩ := exists_key_of_mem_casts h
  rcases (mem_casts hkey).mp h with ⟨block, hevent, hadmits, rfl⟩ | ⟨vote, hevent, hcompletes, rfl⟩
  · exact ⟨rfl, rfl, rfl, .inl ⟨block, hevent, hadmits, rfl, rfl⟩⟩
  · exact ⟨rfl, rfl, rfl, .inr ⟨vote, hevent, hcompletes, rfl, rfl⟩⟩

theorem prevote_of_casts {state : LoopState} {input : Input} {v : Vote}
    (h : v ∈ state.casts input) (htype : v.voteType = .prevote) :
    ∃ block, input.event = .block block ∧ state.admits input.env.randomPeer block ∧
      v.blockHash = block.header.hash := by
  obtain ⟨-, -, -, ⟨block, hevent, hadmits, -, hhash⟩ | ⟨vote, -, -, hprecommit, -⟩⟩ :=
    casts_origin h
  · exact ⟨block, hevent, hadmits, hhash⟩
  · rw [htype] at hprecommit
    cases hprecommit

theorem precommit_of_casts {state : LoopState} {input : Input} {v : Vote}
    (h : v ∈ state.casts input) (htype : v.voteType = .precommit) :
    ∃ vote, input.event = .vote vote ∧ state.completesPrevote vote ∧
      v.blockHash = vote.blockHash := by
  obtain ⟨-, -, -, ⟨block, -, -, hprevote, -⟩ | ⟨vote, hevent, hcompletes, -, hhash⟩⟩ :=
    casts_origin h
  · rw [htype] at hprevote
    cases hprevote
  · exact ⟨vote, hevent, hcompletes, hhash⟩

omit [Blake3] in
theorem mem_commitsOn {state : LoopState} {input : Input} {commit : UInt64 × Hash32}
    (h : commit ∈ state.commitsOn input) :
    ∃ vote, input.event = .vote vote ∧ state.decides vote ∧ commit.1 = state.height ∧
      commit.2 = vote.blockHash := by
  unfold commitsOn at h
  cases hevent : input.event with
  | vote vote =>
      simp only [hevent, ← decides_iff] at h
      by_cases hdecides : state.decides vote
      · rw [if_pos hdecides, List.mem_singleton] at h
        subst h
        exact ⟨vote, rfl, hdecides, rfl, rfl⟩
      · simp [hdecides] at h
  | _ => simp [hevent] at h

/-! ## The voters of a round -/

omit [Blake3] in
theorem mem_voters_withOwn {state : LoopState} {bft : BftRoundState} {hash hash' : Hash32}
    {own voteType : VoteType} {id : Bytes32}
    (h : id ∈ (state.withOwn bft hash own).voters voteType hash') :
    id ∈ bft.voters voteType hash' ∨ ∃ v ∈ state.castOn hash own,
      v.voteType = voteType ∧ v.blockHash = hash' ∧ v.validatorId = id := by
  unfold withOwn at h
  unfold castOn
  cases hkey : state.engine.secretKey with
  | none =>
      rw [hkey] at h
      exact .inl h
  | some sk =>
      rw [hkey] at h
      rcases BftRoundState.mem_voters_addVote.mp h with hold | ⟨-, htype, hhash, hid⟩
      · exact .inl hold
      · exact .inr ⟨_, List.mem_singleton_self _, htype, hhash, hid⟩

/-- A voter of the round was there before, is named by the vote that counts, or
is the node itself, which has just voted. -/
theorem mem_voters_nextBft {state : LoopState} {input : Input} {voteType : VoteType}
    {hash : Hash32} {id : Bytes32} (h : id ∈ (state.nextBft input).voters voteType hash) :
    id ∈ state.bft.voters voteType hash ∨
      (∃ vote, input.event = .vote vote ∧ state.counts vote ∧
        id ∈ (state.bft.addVote vote).1.voters voteType hash) ∨
      ∃ v ∈ state.casts input, v.voteType = voteType ∧ v.blockHash = hash ∧
        v.validatorId = id := by
  unfold nextBft at h
  unfold casts
  cases hevent : input.event with
  | block block =>
      simp only [hevent] at h ⊢
      by_cases hadmits : state.admits input.env.randomPeer block
      · rw [if_pos hadmits] at h ⊢
        rcases mem_voters_withOwn h with hold | hown
        · rw [BftRoundState.tryAdvancePhase_voters] at hold
          exact .inl hold
        · exact .inr (.inr hown)
      · rw [if_neg hadmits] at h
        exact .inl h
  | vote vote =>
      simp only [hevent] at h ⊢
      by_cases hcounts : state.counts vote
      · rw [if_pos hcounts] at h
        by_cases hphase : state.newPhase vote = some .precommit
        · rw [if_pos hphase] at h
          rw [if_pos ⟨hcounts, hphase⟩]
          rcases mem_voters_withOwn h with hold | hown
          · rw [BftRoundState.tryAdvancePhase_voters] at hold
            exact .inr (.inl ⟨vote, rfl, hcounts, hold⟩)
          · exact .inr (.inr hown)
        · rw [if_neg hphase, BftRoundState.tryAdvancePhase_voters] at h
          exact .inr (.inl ⟨vote, rfl, hcounts, h⟩)
      · rw [if_neg hcounts] at h
        exact .inl h
  | _ =>
      simp only [hevent] at h
      exact .inl h

/-! ## The loop variables fit -/

/-- The round state is of the current round, for the validators the store knows
at the current height. -/
structure Coherent (state : LoopState) : Prop where
  valSet : state.valSet = state.engine.stateStore.getValidatorSet (state.height / EPOCH_BLOCKS)
  total : state.totalValidators = if state.valSet.isEmpty then 4 else state.valSet.len
  bftHeight : state.bft.height = state.height
  bftRound : state.bft.round = state.round
  bftTotal : state.bft.totalValidators = state.totalValidators

omit [Blake3] in
theorem coherent_enterState (engine : ConsensusEngine) (generation : Nat) :
    (engine.enterState generation).Coherent := ⟨rfl, rfl, rfl, rfl, rfl⟩

omit [Blake3] in
theorem withOwn_frame (state : LoopState) (bft : BftRoundState) (hash : Hash32)
    (voteType : VoteType) :
    (state.withOwn bft hash voteType).height = bft.height ∧
      (state.withOwn bft hash voteType).round = bft.round ∧
      (state.withOwn bft hash voteType).totalValidators = bft.totalValidators := by
  unfold withOwn
  cases state.engine.secretKey with
  | none => exact ⟨rfl, rfl, rfl⟩
  | some sk => simp

theorem nextBft_frame (state : LoopState) (input : Input) :
    (state.nextBft input).height = state.bft.height ∧
      (state.nextBft input).round = state.bft.round ∧
      (state.nextBft input).totalValidators = state.bft.totalValidators := by
  unfold nextBft
  cases input.event with
  | block block =>
      by_cases hadmits : state.admits input.env.randomPeer block
      · simp [hadmits, withOwn_frame]
      · simp [hadmits]
  | vote vote =>
      by_cases hcounts : state.counts vote
      · by_cases hphase : state.newPhase vote = some .precommit
        · simp [hcounts, hphase, withOwn_frame]
        · simp [hcounts, hphase]
      · simp [hcounts]
  | _ => exact ⟨rfl, rfl, rfl⟩

variable [Nova]

theorem sameNode_step (state : LoopState) (input : Input) :
    state.engine.SameNode (state.step input).1.engine := by
  refine step_cases state input ?stay ?timeout ?enter
  case stay => exact fun engine hnode => hnode
  case timeout => exact fun engine hnode _ => hnode
  case enter => exact fun engine hnode => hnode.trans (engine.sameNode_enterState _)

theorem Coherent.step {state : LoopState} (h : state.Coherent) (input : Input) :
    (state.step input).1.Coherent := by
  have hvalSet {engine : ConsensusEngine} (hnode : state.engine.SameNode engine) :
      state.valSet = engine.stateStore.getValidatorSet (state.height / EPOCH_BLOCKS) := by
    rw [StateStore.getValidatorSet_congr hnode.validators]
    exact h.valSet
  refine step_cases state input ?stay ?timeout ?enter
  case stay =>
    intro engine hnode
    obtain ⟨hheight, hround, htotal⟩ := state.nextBft_frame input
    exact ⟨hvalSet hnode, h.total, hheight.trans h.bftHeight, hround.trans h.bftRound,
      htotal.trans h.bftTotal⟩
  case timeout =>
    intro engine hnode _
    exact ⟨hvalSet hnode, h.total, rfl, rfl, rfl⟩
  case enter =>
    intro engine hnode
    exact coherent_enterState engine _

omit [Blake3] [Nova] in
theorem Coherent.quorum {state : LoopState} (h : state.Coherent)
    (hmembers : state.valSet.isEmpty = false) {bft : BftRoundState} {voteType : VoteType}
    {hash : Hash32} (htotal : bft.totalValidators = state.bft.totalValidators)
    (hquorum : bft.hasQuorum voteType hash) :
    state.valSet.len * 2 < (bft.voters voteType hash).card * 3 := by
  have hlen : bft.totalValidators = state.valSet.len := by
    rw [htotal, h.bftTotal, h.total, hmembers]
    rfl
  rw [BftRoundState.hasQuorum, decide_eq_true_eq, hlen] at hquorum
  exact hquorum

end LoopState

end NoirNet
