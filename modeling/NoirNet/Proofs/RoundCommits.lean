import Mathlib.Data.Finset.Option
import NoirNet.Consensus.Concrete
import NoirNet.Proofs.Quorums

/-!
# The rounds that commit

A round with one proposal, and any votes on it in any order: valid ones and
others, repeated, early and late.

* `tally`: the voters heard of so far, the node itself included;
* `Voting`: what the round state holds of them;
* `round_commits_iff`: when the proposal is executed.
-/

namespace NoirNet

open Lib

/-! ## Voters -/

namespace BftRoundState

theorem addVote_snd_iff {bft : BftRoundState} {vote : Vote} :
    (bft.addVote vote).2 ↔
      bft.Matches vote ∧ vote.validatorId ∉ bft.voters vote.voteType vote.blockHash := by
  by_cases hmatch : bft.Matches vote
  · rw [addVote, if_neg (by simp [hmatch.1, hmatch.2])]
    cases hvoteType : vote.voteType <;> simp [voters, hmatch]
  · simp [addVote_of_not_matches hmatch, hmatch]

end BftRoundState

namespace LoopState

variable [Bls]

def own (state : LoopState) : Finset Bytes32 :=
  if state.engine.secretKey.isSome then {state.engine.localValidatorId} else ∅

theorem voters_withOwn (state : LoopState) (bft : BftRoundState)
    (hheight : bft.height = state.height) (hround : bft.round = state.round) (hash : Hash32)
    (voteType voteType' : VoteType) :
    (state.withOwn bft hash voteType).voters voteType' hash =
      if voteType = voteType' then state.own ∪ bft.voters voteType' hash
      else bft.voters voteType' hash := by
  ext id
  unfold withOwn own
  cases state.engine.secretKey with
  | none => simp
  | some sk =>
      have hmatch : bft.Matches (state.engine.castVote sk state.height state.round hash voteType) :=
        ⟨hheight.symm, hround.symm⟩
      dsimp only
      rw [BftRoundState.mem_voters_addVote, and_iff_right hmatch]
      by_cases htype : voteType = voteType'
      · simp [htype, ConsensusEngine.castVote, eq_comm, or_comm]
      · simp [htype, ConsensusEngine.castVote]

def voter (state : LoopState) (hash : Hash32) (voteType : VoteType) (input : Input) :
    Option Bytes32 :=
  match input.event with
  | .vote vote =>
      if vote.height = state.height ∧ vote.round = state.round ∧ state.isValid vote ∧
          vote.voteType = voteType ∧ vote.blockHash = hash then
        some vote.validatorId
      else none
  | _ => none

def heard (state : LoopState) (hash : Hash32) (inputs : List Input) (voteType : VoteType) :
    Finset Bytes32 :=
  (inputs.filterMap (state.voter hash voteType)).toFinset

def tally (state : LoopState) (hash : Hash32) (inputs : List Input) (voteType : VoteType) :
    Finset Bytes32 :=
  state.own ∪ state.heard hash inputs voteType

def Quorum (state : LoopState) (voters : Finset Bytes32) : Prop :=
  state.totalValidators * 2 < voters.card * 3

instance (state : LoopState) (voters : Finset Bytes32) : Decidable (state.Quorum voters) :=
  inferInstanceAs (Decidable (_ < _))

section

variable {state : LoopState} {hash : Hash32} {front back inputs : List Input} {input : Input}

theorem heard_append (voteType : VoteType) :
    state.heard hash (front ++ back) voteType =
      state.heard hash front voteType ∪ state.heard hash back voteType := by
  rw [heard, List.filterMap_append, List.toFinset_append, heard, heard]

theorem heard_singleton (voteType : VoteType) :
    state.heard hash [input] voteType = (state.voter hash voteType input).toFinset := by
  rw [heard, List.filterMap_cons, List.filterMap_nil]
  cases state.voter hash voteType input <;> rfl

theorem tally_subset (voteType : VoteType) :
    state.tally hash front voteType ⊆ state.tally hash (front ++ back) voteType := by
  rw [tally, tally, heard_append]
  exact Finset.union_subset_union_right Finset.subset_union_left

theorem tally_concat (voteType : VoteType) :
    state.tally hash (inputs ++ [input]) voteType =
      state.tally hash inputs voteType ∪ (state.voter hash voteType input).toFinset := by
  rw [tally, tally, heard_append, heard_singleton, Finset.union_assoc]

theorem Quorum.mono {voters voters' : Finset Bytes32} (h : state.Quorum voters)
    (hsubset : voters ⊆ voters') : state.Quorum voters' :=
  Nat.lt_of_lt_of_le h (Nat.mul_le_mul_right 3 (Finset.card_le_card hsubset))

/-! ## Votes that suffice -/

/-- The first of the inputs have a quorum of prevotes, all of them have one of precommits, and
somebody votes for the first time after the first ones. -/
def Commits (state : LoopState) (hash : Hash32) (inputs : List Input) : Prop :=
  ∃ front back, inputs = front ++ back ∧ state.Quorum (state.tally hash front .prevote) ∧
    state.Quorum (state.tally hash inputs .precommit) ∧
    ∃ voteType, state.tally hash front voteType ≠ state.tally hash inputs voteType

theorem Commits.append (h : state.Commits hash inputs) (back : List Input) :
    state.Commits hash (inputs ++ back) := by
  obtain ⟨front, rest, rfl, hprevotes, hprecommits, voteType, hnew⟩ := h
  refine ⟨front, rest ++ back, List.append_assoc _ _ _, hprevotes,
    hprecommits.mono (tally_subset _), voteType, fun hsame => hnew ?_⟩
  apply Finset.Subset.antisymm (tally_subset voteType)
  rw [hsame]
  exact tally_subset voteType

theorem commits_of_tally_eq
    (hsame : ∀ voteType, state.tally hash (inputs ++ [input]) voteType =
      state.tally hash inputs voteType)
    (h : state.Commits hash (inputs ++ [input])) : state.Commits hash inputs := by
  obtain ⟨front, back, hsplit, hprevotes, hprecommits, voteType, hnew⟩ := h
  rcases List.eq_nil_or_concat' back with rfl | ⟨rest, last, rfl⟩
  · rw [List.append_nil] at hsplit
    exact absurd (by rw [hsplit]) hnew
  · rw [← List.append_assoc] at hsplit
    obtain ⟨rfl, -⟩ := List.append_inj' hsplit rfl
    rw [hsame] at hprecommits hnew
    exact ⟨front, rest, rfl, hprevotes, hprecommits, voteType, hnew⟩

/-- As long as the prevotes are no quorum, one more input does not suffice. -/
theorem not_commits_of_not_quorum (hnone : ¬ state.Quorum (state.tally hash inputs .prevote)) :
    ¬ state.Commits hash (inputs ++ [input]) := by
  rintro ⟨front, back, hsplit, hprevotes, -, voteType, hnew⟩
  rcases List.eq_nil_or_concat' back with rfl | ⟨rest, last, rfl⟩
  · rw [List.append_nil] at hsplit
    exact absurd (by rw [hsplit]) hnew
  · rw [← List.append_assoc] at hsplit
    obtain ⟨rfl, -⟩ := List.append_inj' hsplit rfl
    exact hnone (hprevotes.mono (tally_subset _))

end

/-! ## The round state -/

structure AtHead (state : LoopState) : Prop where
  coherent : state.Coherent
  phase : state.bft.phase = .propose
  unvoted : ∀ voteType hash, state.bft.voters voteType hash = ∅

theorem atHead_enterState (engine : ConsensusEngine) (generation : Nat) :
    (engine.enterState generation).AtHead :=
  ⟨coherent_enterState engine generation, rfl, fun _ _ => BftRoundState.voters_new _ _ _ _ _⟩

/-- Votes on other hashes do not count, and nothing ends the round. -/
def Concerns (state : LoopState) (hash : Hash32) (input : Input) : Prop :=
  match input.event with
  | .vote vote =>
      vote.blockHash = hash ∨
        ¬ (vote.height = state.height ∧ vote.round = state.round ∧ state.isValid vote)
  | .syncRequest _ _ | .mempoolInsert _ | .pruneHistory _ => True
  | .block _ | .syncResponse _ _ | .timeout => False

variable [Blake3]

/-- The round `state` is in, after these inputs behind the proposal: the proposal is not
executed yet, and whoever was heard of is in the round state. -/
structure Voting (state : LoopState) (block : Block) (inputs : List Input) (now : LoopState) :
    Prop where
  coherent : now.Coherent
  node : state.engine.SameNode now.engine
  height : now.height = state.height
  round : now.round = state.round
  valSet : now.valSet = state.valSet
  currentBlock : now.currentBlock = some block
  prevoters : now.bft.voters .prevote block.header.hash =
    state.tally block.header.hash inputs .prevote
  phase : (now.bft.phase = .prevote ∧
        now.bft.voters .precommit block.header.hash =
          state.heard block.header.hash inputs .precommit ∧
        ¬ state.Quorum (state.tally block.header.hash inputs .prevote)) ∨
      (now.bft.phase = .precommit ∧
        now.bft.voters .precommit block.header.hash =
          state.tally block.header.hash inputs .precommit ∧
        state.Quorum (state.tally block.header.hash inputs .prevote))

section

variable {state now : LoopState} {block : Block} {inputs : List Input}

omit [Blake3] in
theorem own_congr (hnode : state.engine.SameNode now.engine) : now.own = state.own := by
  rw [own, own, hnode.secretKey, hnode.localValidatorId]

theorem Voting.isValid (h : state.Voting block inputs now) (vote : Vote) :
    now.isValid vote = state.isValid vote := by
  rw [LoopState.isValid, LoopState.isValid, h.valSet]

theorem Voting.total (h : state.Voting block inputs now) (hstate : state.Coherent) :
    now.bft.totalValidators = state.totalValidators := by
  rw [h.coherent.bftTotal, h.coherent.total, hstate.total, h.valSet]

theorem Voting.hasQuorum_iff (h : state.Voting block inputs now) (hstate : state.Coherent)
    {bft : BftRoundState} (hbft : bft.totalValidators = now.bft.totalValidators)
    (voteType : VoteType) (hash : Hash32) :
    bft.hasQuorum voteType hash ↔ state.Quorum (bft.voters voteType hash) := by
  rw [BftRoundState.hasQuorum, decide_eq_true_iff, hbft, h.total hstate]
  exact Iff.rfl

/-- A vote that counts is heard of for the first time. -/
theorem Voting.voter_of_counts (h : state.Voting block inputs now) {input : Input} {vote : Vote}
    (hevent : input.event = .vote vote) (hconcerns : state.Concerns block.header.hash input)
    (hcounts : now.counts vote) :
    vote.blockHash = block.header.hash ∧
      (∀ voteType, state.voter block.header.hash voteType input =
        if vote.voteType = voteType then some vote.validatorId else none) ∧
      vote.validatorId ∉ now.bft.voters vote.voteType block.header.hash := by
  obtain ⟨hheight, hround, hvalid, hnew⟩ := counts_iff.mp hcounts
  rw [h.height] at hheight
  rw [h.round] at hround
  rw [h.isValid] at hvalid
  have hhash : vote.blockHash = block.header.hash := by
    simp only [Concerns, hevent] at hconcerns
    exact hconcerns.resolve_right (not_not.mpr ⟨hheight, hround, hvalid⟩)
  refine ⟨hhash, ?_, ?_⟩
  · intro voteType
    simp only [voter, hevent, hheight, hround, hvalid, hhash, true_and, and_true]
  · rw [← hhash]
    exact (BftRoundState.addVote_snd_iff.mp hnew).2

theorem Voting.voter_of_not_counts (h : state.Voting block inputs now) {input : Input}
    {vote : Vote} (hevent : input.event = .vote vote) (hcounts : ¬ now.counts vote)
    (voteType : VoteType) :
    (state.voter block.header.hash voteType input).toFinset ⊆
      now.bft.voters voteType block.header.hash := by
  intro id hid
  rw [Option.mem_toFinset, voter, hevent] at hid
  simp only [Option.mem_def, Option.ite_none_right_eq_some, Option.some.injEq] at hid
  obtain ⟨⟨hheight, hround, hvalid, rfl, hhash⟩, rfl⟩ := hid
  by_contra hnew
  apply hcounts
  rw [counts_iff, h.height, h.round, h.isValid]
  refine ⟨hheight, hround, hvalid, BftRoundState.addVote_snd_iff.mpr ⟨⟨?_, ?_⟩, ?_⟩⟩
  · rw [hheight, h.coherent.bftHeight, h.height]
  · rw [hround, h.coherent.bftRound, h.round]
  · rw [hhash]
    exact hnew

/-! ## One step -/

variable [Nova]

section

variable {input : Input} (h : state.Voting block inputs now)

include h

theorem Voting.unchanged
    (hold : ∀ voteType, (state.voter block.header.hash voteType input).toFinset ⊆
      now.bft.voters voteType block.header.hash)
    {engine : ConsensusEngine} (hnode : now.engine.SameNode engine)
    (hstep : (now.step input).1 = { now with engine }) :
    (state.Commits block.header.hash (inputs ++ [input]) →
        state.Commits block.header.hash inputs) ∧
      state.Voting block (inputs ++ [input]) (now.step input).1 := by
  have hcoherent := h.coherent.step input
  rw [hstep] at hcoherent ⊢
  have hprevoters : state.tally block.header.hash (inputs ++ [input]) .prevote =
      state.tally block.header.hash inputs .prevote := by
    rw [tally_concat, Finset.union_eq_left, ← h.prevoters]
    exact hold .prevote
  have hprecommitters : state.tally block.header.hash (inputs ++ [input]) .precommit =
      state.tally block.header.hash inputs .precommit := by
    rw [tally_concat, Finset.union_eq_left]
    refine (hold .precommit).trans ?_
    obtain ⟨-, hvoters, -⟩ | ⟨-, hvoters, -⟩ := h.phase
    · rw [hvoters]
      exact Finset.subset_union_right
    · rw [hvoters]
  refine ⟨commits_of_tally_eq fun voteType => ?_, ?_⟩
  · cases voteType
    · exact hprevoters
    · exact hprecommitters
  refine ⟨hcoherent, h.node.trans hnode, h.height, h.round, h.valSet, h.currentBlock,
    h.prevoters.trans hprevoters.symm, ?_⟩
  rw [hprevoters, hprecommitters]
  obtain ⟨hphase, hvoters, hquorum⟩ | hprecommit := h.phase
  · refine .inl ⟨hphase, ?_, hquorum⟩
    rw [heard_append, heard_singleton]
    refine hvoters.trans (Finset.union_eq_left.mpr ?_).symm
    rw [← hvoters]
    exact hold .precommit
  · exact .inr hprecommit

omit [Nova] in
/-- The voters behind a vote that counts. -/
theorem Voting.voters_addVote {vote : Vote} (hevent : input.event = .vote vote)
    (hconcerns : state.Concerns block.header.hash input) (hcounts : now.counts vote)
    (voteType : VoteType) :
    (now.bft.addVote vote).1.voters voteType block.header.hash =
      now.bft.voters voteType block.header.hash ∪
        (state.voter block.header.hash voteType input).toFinset := by
  obtain ⟨hhash, hvoter, -⟩ := h.voter_of_counts hevent hconcerns hcounts
  obtain ⟨-, -, -, hnew⟩ := counts_iff.mp hcounts
  have hmatch := (BftRoundState.addVote_snd_iff.mp hnew).1
  ext id
  rw [BftRoundState.mem_voters_addVote, Finset.mem_union, hvoter, Option.mem_toFinset]
  by_cases htype : vote.voteType = voteType
  · simp [hmatch, hhash, htype]
  · simp [htype]

variable (hstate : state.Coherent)

include hstate

theorem Voting.counted_prevote {env : Env} {vote : Vote}
    (hinput : input = { env, event := .vote vote })
    (hconcerns : state.Concerns block.header.hash input) (hcounts : now.counts vote)
    (hphase : now.bft.phase = .prevote)
    (hheard : now.bft.voters .precommit block.header.hash =
      state.heard block.header.hash inputs .precommit)
    (hnext : (now.step input).1 = { now with bft := now.countedBft vote }) :
    state.Voting block (inputs ++ [input]) (now.step input).1 := by
  let bft := (now.bft.addVote vote).1
  have hevent : input.event = .vote vote := by rw [hinput]
  obtain ⟨hhash, -, -⟩ := h.voter_of_counts hevent hconcerns hcounts
  have hvoters := h.voters_addVote hevent hconcerns hcounts
  have hbft : bft.phase = .prevote := (now.bft.addVote_phase vote).trans hphase
  have hprevoters : bft.voters .prevote block.header.hash =
      state.tally block.header.hash (inputs ++ [input]) .prevote := by
    rw [hvoters, h.prevoters, tally_concat]
  have hprecommitters : bft.voters .precommit block.header.hash =
      state.heard block.header.hash (inputs ++ [input]) .precommit := by
    rw [hvoters, hheard, heard_append, heard_singleton]
  have hiff := h.hasQuorum_iff hstate (now.bft.addVote_totalValidators vote) .prevote
    block.header.hash
  rw [hprevoters] at hiff
  have hcoherent := h.coherent.step input
  rw [hnext] at hcoherent ⊢
  by_cases hquorum : bft.hasQuorum .prevote block.header.hash
  · have hnew : now.newPhase vote = some .precommit := by
      rw [newPhase, BftRoundState.tryAdvancePhase_eq_precommit, hhash]
      exact ⟨hbft, hquorum⟩
    have hcounted : now.countedBft vote =
        { now.withOwn bft block.header.hash .precommit with phase := .precommit } := by
      rw [countedBft, if_pos hnew, BftRoundState.tryAdvancePhase_of_prevote hbft, hhash,
        if_pos hquorum, withOwn_setPhase]
    have hown (voteType : VoteType) := now.voters_withOwn bft
      ((now.bft.addVote_height vote).trans h.coherent.bftHeight)
      ((now.bft.addVote_round vote).trans h.coherent.bftRound) block.header.hash .precommit voteType
    rw [hcounted] at hcoherent ⊢
    refine ⟨hcoherent, h.node, h.height, h.round, h.valSet, h.currentBlock, ?_,
      .inr ⟨rfl, ?_, hiff.mp hquorum⟩⟩
    · exact (hown .prevote).trans hprevoters
    · refine (hown .precommit).trans ?_
      rw [if_pos rfl, hprecommitters, own_congr h.node]
      rfl
  · have hold : now.newPhase vote ≠ some .precommit := by
      rw [newPhase, ne_eq, BftRoundState.tryAdvancePhase_eq_precommit, hhash]
      exact fun hadvance => hquorum hadvance.2
    have hcounted : now.countedBft vote = bft := by
      rw [countedBft, if_neg hold, BftRoundState.tryAdvancePhase_of_prevote hbft, hhash,
        if_neg hquorum]
    rw [hcounted] at hcoherent ⊢
    exact ⟨hcoherent, h.node, h.height, h.round, h.valSet, h.currentBlock, hprevoters,
      .inl ⟨hbft, hprecommitters, mt hiff.mpr hquorum⟩⟩

theorem Voting.counted_precommit {env : Env} {vote : Vote}
    (hinput : input = { env, event := .vote vote })
    (hconcerns : state.Concerns block.header.hash input) (hcounts : now.counts vote)
    (hphase : now.bft.phase = .precommit)
    (htally : now.bft.voters .precommit block.header.hash =
      state.tally block.header.hash inputs .precommit)
    (hquorum : state.Quorum (state.tally block.header.hash inputs .prevote))
    (hdecides : ¬ now.decides vote)
    (hnext : (now.step input).1 = { now with bft := now.countedBft vote }) :
    ¬ state.Quorum (state.tally block.header.hash (inputs ++ [input]) .precommit) ∧
      state.Voting block (inputs ++ [input]) (now.step input).1 := by
  let bft := (now.bft.addVote vote).1
  have hevent : input.event = .vote vote := by rw [hinput]
  obtain ⟨hhash, -, -⟩ := h.voter_of_counts hevent hconcerns hcounts
  have hvoters := h.voters_addVote hevent hconcerns hcounts
  have hbft : bft.phase = .precommit := (now.bft.addVote_phase vote).trans hphase
  have hprevoters : bft.voters .prevote block.header.hash =
      state.tally block.header.hash (inputs ++ [input]) .prevote := by
    rw [hvoters, h.prevoters, tally_concat]
  have hprecommitters : bft.voters .precommit block.header.hash =
      state.tally block.header.hash (inputs ++ [input]) .precommit := by
    rw [hvoters, htally, tally_concat]
  have hnone : ¬ bft.hasQuorum .precommit block.header.hash := by
    intro hyes
    apply hdecides
    simp [decides, hcounts, hphase, hhash, bft, hyes]
  have hcounted : now.countedBft vote = bft := by
    have hold : now.newPhase vote ≠ some .precommit := by
      rw [newPhase, ne_eq, BftRoundState.tryAdvancePhase_eq_precommit, hbft]
      rintro ⟨hprevote, -⟩
      cases hprevote
    rw [countedBft, if_neg hold, BftRoundState.tryAdvancePhase_of_precommit hbft, hhash,
      if_neg hnone]
  rw [h.hasQuorum_iff hstate (now.bft.addVote_totalValidators vote), hprecommitters] at hnone
  have hcoherent := h.coherent.step input
  rw [hnext, hcounted] at hcoherent
  rw [hnext, hcounted]
  refine ⟨hnone, hcoherent, h.node, h.height, h.round, h.valSet, h.currentBlock, hprevoters,
    .inr ⟨hbft, hprecommitters, ?_⟩⟩
  rw [tally_concat]
  exact hquorum.mono Finset.subset_union_left

end

theorem step_quiet (now : LoopState) {hash : Hash32} {input : Input}
    (hconcerns : state.Concerns hash input) (hvote : ∀ vote, input.event ≠ .vote vote) :
    ∃ engine, now.engine.SameNode engine ∧ (now.step input).1 = { now with engine } ∧
      Action.executions (now.step input).2 = [] := by
  obtain ⟨env, event⟩ := input
  cases event with
  | vote vote => exact absurd rfl (hvote vote)
  | block block => exact hconcerns.elim
  | syncResponse peer res => exact hconcerns.elim
  | timeout => exact hconcerns.elim
  | syncRequest peer req => exact ⟨now.engine, .refl _, rfl, rfl⟩
  | pruneHistory keepLast =>
      exact ⟨{ now.engine with
        stateStore := (now.engine.stateStore.pruneHistory keepLast).1 },
        ⟨rfl, rfl, StateStore.getAllValidators_pruneHistory _ _⟩, rfl, rfl⟩
  | mempoolInsert tx =>
      unfold step turn
      dsimp only
      cases now.engine.mempool.insert now.engine.stateStore tx with
      | ok mempool => exact ⟨{ now.engine with mempool }, ⟨rfl, rfl, rfl⟩, rfl, rfl⟩
      | error e => exact ⟨now.engine, .refl _, rfl, rfl⟩

/-- The proposal waits for votes, or they were enough and it was executed. -/
inductive Progress (state : LoopState) (block : Block) (inputs : List Input) (now : LoopState)
    (executed : List Block) : Prop
  | waiting (hfew : ¬ state.Commits block.header.hash inputs) (hexecuted : executed = [])
      (hvoting : state.Voting block inputs now)
  | done (henough : state.Commits block.header.hash inputs) (hexecuted : executed = [block])
      (hblock : now.currentBlock = none)

/-- A vote, while the proposal waits. -/
theorem Voting.progress (h : state.Voting block inputs now) (hstate : state.Coherent)
    (hfew : ¬ state.Commits block.header.hash inputs) {env : Env} {vote : Vote}
    (hconcerns : state.Concerns block.header.hash { env, event := .vote vote }) :
    state.Progress block (inputs ++ [{ env, event := .vote vote }])
      (now.step { env, event := .vote vote }).1
      (Action.executions (now.step { env, event := .vote vote }).2) := by
  rw [executions_step_vote]
  by_cases hcounts : now.counts vote
  · obtain ⟨hhash, hvoter, hnew⟩ := h.voter_of_counts rfl hconcerns hcounts
    by_cases hdecides : now.decides vote
    · obtain ⟨-, hcommit⟩ := decides_iff.mp hdecides
      have hphase : now.bft.phase = .precommit := by
        simp only [decides, Bool.decide_and, Bool.and_eq_true, decide_eq_true_eq] at hdecides
        exact hdecides.2.1
      rw [if_pos ⟨hcounts, hcommit⟩, h.currentBlock]
      obtain ⟨hprevote, -, -⟩ | ⟨-, htally, hquorum⟩ := h.phase
      · rw [hphase] at hprevote
        cases hprevote
      refine .done ⟨inputs, _, rfl, hquorum, ?_, vote.voteType, ?_⟩ rfl ?_
      · have hyes := quorum_of_decides hdecides
        rw [hhash, h.hasQuorum_iff hstate (now.bft.addVote_totalValidators vote),
          h.voters_addVote rfl hconcerns hcounts, htally, ← tally_concat] at hyes
        exact hyes
      · rw [tally_concat, hvoter, if_pos rfl, Option.toFinset_some, ne_eq, eq_comm,
          Finset.union_eq_left, Finset.singleton_subset_iff]
        cases htype : vote.voteType with
        | prevote => rwa [htype, h.prevoters] at hnew
        | precommit => rwa [htype, htally] at hnew
      · obtain ⟨-, hnone⟩ | ⟨executed, -, -, -, henter⟩ := now.step_fst_vote env vote
        · have hnone := hnone hcounts hcommit
          rw [h.currentBlock] at hnone
          cases hnone
        · rw [henter]
          rfl
    · have hcommit : ¬ (now.counts vote ∧ now.newPhase vote = some .commit) :=
        mt decides_iff.mpr hdecides
      rw [if_neg hcommit]
      have hnext : (now.step { env, event := .vote vote }).1 =
          { now with bft := now.countedBft vote } := by
        obtain ⟨hstay, -⟩ | ⟨executed, -, hyes, -, -⟩ := now.step_fst_vote env vote
        · rw [hstay, nextBft_of_counts env hcounts]
        · exact absurd ⟨hcounts, hyes⟩ hcommit
      obtain ⟨hphase, hheard, hnone⟩ | ⟨hphase, htally, hquorum⟩ := h.phase
      · exact .waiting (not_commits_of_not_quorum hnone) rfl
          (h.counted_prevote hstate rfl hconcerns hcounts hphase hheard hnext)
      · obtain ⟨hnone, hvoting⟩ := h.counted_precommit hstate rfl hconcerns hcounts hphase htally
          hquorum hdecides hnext
        refine .waiting ?_ rfl hvoting
        rintro ⟨front, back, -, -, hprecommits, -⟩
        exact hnone hprecommits
  · rw [if_neg fun hyes => hcounts hyes.1]
    have hnext : (now.step { env, event := .vote vote }).1 = { now with engine := now.engine } := by
      obtain ⟨hstay, -⟩ | ⟨executed, hyes, -, -, -⟩ := now.step_fst_vote env vote
      · rw [hstay]
        simp [nextBft, hcounts]
      · exact absurd hyes hcounts
    obtain ⟨hcommits, hvoting⟩ := h.unchanged (h.voter_of_not_counts rfl hcounts) (.refl _) hnext
    exact .waiting (mt hcommits hfew) rfl hvoting

theorem progress_step (hstate : state.Coherent) {executed : List Block}
    (h : state.Progress block inputs now executed) {input : Input}
    (hconcerns : state.Concerns block.header.hash input) :
    state.Progress block (inputs ++ [input]) (now.step input).1
      (executed ++ Action.executions (now.step input).2) := by
  by_cases hvote : ∃ vote, input.event = .vote vote
  · obtain ⟨env, event⟩ := input
    obtain ⟨vote, rfl⟩ := hvote
    cases h with
    | waiting hfew hexecuted hvoting =>
        rw [hexecuted, List.nil_append]
        exact hvoting.progress hstate hfew hconcerns
    | done henough hexecuted hblock =>
        have hnone : Action.executions (now.step { env, event := .vote vote }).2 = [] := by
          rw [executions_step_vote, hblock]
          exact ite_self _
        rw [hnone, List.append_nil]
        refine .done (henough.append _) hexecuted ?_
        obtain ⟨hstay, -⟩ | ⟨waiting, -, -, -, henter⟩ := now.step_fst_vote env vote
        · rw [hstay]
          exact hblock
        · rw [henter]
          rfl
  · obtain ⟨engine, hnode, hnext, hnone⟩ := step_quiet now hconcerns fun vote hevent =>
      hvote ⟨vote, hevent⟩
    rw [hnone, List.append_nil]
    cases h with
    | waiting hfew hexecuted hvoting =>
        have hvoter (voteType : VoteType) :
            state.voter block.header.hash voteType input = none := by
          rw [voter]
          split
          · exact absurd ⟨_, ‹_›⟩ hvote
          · rfl
        obtain ⟨hcommits, hvoting⟩ := hvoting.unchanged
          (fun voteType => by simp [hvoter voteType]) hnode hnext
        exact .waiting (mt hcommits hfew) hexecuted hvoting
    | done henough hexecuted hblock =>
        refine .done (henough.append _) hexecuted ?_
        rw [hnext]
        exact hblock

omit [Blake3] [Nova] in
theorem heard_nil (hash : Hash32) (voteType : VoteType) : state.heard hash [] voteType = ∅ := rfl

omit [Blake3] [Nova] in
theorem not_quorum_own (hown : state.engine.secretKey.isSome → 2 ≤ state.totalValidators) :
    ¬ state.Quorum state.own := by
  unfold Quorum own
  split
  · rename_i hkey
    have htotal := hown hkey
    rw [Finset.card_singleton]
    omega
  · rw [Finset.card_empty]
    omega

theorem AtHead.voting (h : state.AtHead)
    (hown : state.engine.secretKey.isSome → 2 ≤ state.totalValidators) {env : Env}
    (hadmits : state.admits env.randomPeer block) :
    state.Voting block [] (state.step { env, event := .block block }).1 := by
  have hcoherent := h.coherent.step { env, event := .block block }
  have hnext := state.step_next { env, event := .block block }
  have hstay : state.leaves { env, event := .block block } = false := rfl
  rw [hstay] at hnext
  generalize (state.step { env, event := .block block }).1 = now at hcoherent hnext ⊢
  have hadvance : state.bft.tryAdvancePhase block.header.hash =
      ({ state.bft with phase := .prevote }, some .prevote) :=
    BftRoundState.tryAdvancePhase_of_propose h.phase
  cases hnext with
  | timeout engine hnode hevent => cases hevent
  | stay engine hnode =>
      have hbft : state.nextBft { env, event := .block block } =
          state.withOwn (state.bft.tryAdvancePhase block.header.hash).1 block.header.hash
            .prevote := by
        simp only [nextBft, hadmits, if_true]
      have hblock : state.nextBlock { env, event := .block block } = some block := by
        simp only [nextBlock, hadmits, if_true]
      have hvoters (voteType : VoteType) := state.voters_withOwn
        (state.bft.tryAdvancePhase block.header.hash).1
        ((state.bft.tryAdvancePhase_height _).trans h.coherent.bftHeight)
        ((state.bft.tryAdvancePhase_round _).trans h.coherent.bftRound) block.header.hash
        .prevote voteType
      simp only [BftRoundState.tryAdvancePhase_voters, h.unvoted] at hvoters
      refine ⟨hcoherent, hnode, rfl, rfl, rfl, hblock, ?_, .inl ⟨?_, ?_, ?_⟩⟩
      · rw [hbft]
        exact hvoters .prevote
      · rw [hbft, withOwn_phase, hadvance]
      · rw [hbft]
        exact hvoters .precommit
      · rw [tally, heard_nil, Finset.union_empty]
        exact not_quorum_own hown

theorem progress_run (hstate : state.Coherent) (h : state.Voting block [] now)
    (hconcerns : ∀ input ∈ inputs, state.Concerns block.header.hash input) :
    state.Progress block inputs (engineMachine.final now inputs)
      (Action.executions (engineMachine.outputs now inputs)) := by
  induction inputs using List.reverseRecOn with
  | nil =>
      refine .waiting ?_ rfl h
      rintro ⟨front, back, hsplit, -, -, voteType, hnew⟩
      rw [(List.append_eq_nil_iff.mp hsplit.symm).1] at hnew
      exact hnew rfl
  | append_singleton inputs input ih =>
      have hfront := ih fun i hi => hconcerns i (List.mem_append_left _ hi)
      rw [engineMachine.final_append, engineMachine.outputs_append, Action.executions_append,
        Machine.final_cons, Machine.final_nil, Machine.outputs_cons, Machine.outputs_nil,
        List.append_nil]
      exact progress_step hstate hfront (hconcerns input (List.mem_append_right _ (by simp)))

end

end LoopState

/-- A proposal at the head of a round, and then any votes on it, in any order, between requests
for blocks, transactions and prunings: the proposal is executed exactly when the votes can be
cut in two such that the first have a quorum of prevotes, all have one of precommits, and
somebody votes anew behind the cut. It is executed once. A node with a key is one of two
validators or more. -/
theorem round_commits_iff [Bls] [Blake3] [Nova] {state : LoopState} (hhead : state.AtHead)
    (hown : state.engine.secretKey.isSome → 2 ≤ state.totalValidators) {env : Env} {block : Block}
    (hadmits : state.admits env.randomPeer block) {inputs : List Input}
    (hconcerns : ∀ input ∈ inputs, state.Concerns block.header.hash input) :
    let executed := Action.executions
      (engineMachine.outputs state ({ env, event := .block block } :: inputs))
    (executed = [block] ↔ state.Commits block.header.hash inputs) ∧
      (executed = [] ↔ ¬ state.Commits block.header.hash inputs) := by
  intro executed
  have hblock : Action.executions (state.step { env, event := .block block }).2 = [] := by
    obtain ⟨proposal, hactions, -, hnone⟩ := state.step_actions { env, event := .block block }
    rw [hactions, Action.executions_append, hnone, List.append_nil]
    exact (state.actions_onBlock env block).2.2.2
  have hrun := LoopState.progress_run hhead.coherent (hhead.voting hown hadmits) hconcerns
  have hexecuted : executed = Action.executions (engineMachine.outputs
      (state.step { env, event := .block block }).1 inputs) := by
    show Action.executions ((state.step { env, event := .block block }).2 ++ _) = _
    rw [Action.executions_append, hblock, List.nil_append]
    rfl
  rw [← hexecuted] at hrun
  cases hrun with
  | waiting hfew hexecuted hvoting =>
      rw [hexecuted]
      exact ⟨iff_of_false nofun hfew, iff_of_true rfl hfew⟩
  | done henough hexecuted hnone =>
      rw [hexecuted]
      exact ⟨iff_of_true rfl henough, iff_of_false nofun (not_not.mpr henough)⟩

/-! ## Two validators -/

section

attribute [local instance] Bls.plain Blake3.sum Nova.rejecting

def twoVotes : List Input :=
  [Event.input (.vote (Vote.plain 2 0 blockA.header.hash .prevote)),
    Event.input (.mempoolInsert (Transaction.blank [] [] [])),
    Event.input (.vote (Vote.plain 2 0 blockA.header.hash .precommit))]

theorem two_validators_commit :
    let start := (ConsensusEngine.plain [1, 2] 1).enterState 0
    let executed := Action.executions
      (engineMachine.outputs start (Event.input (.block blockA) :: twoVotes))
    start.Commits blockA.header.hash twoVotes ∧
      (executed = [blockA] ↔ start.Commits blockA.header.hash twoVotes) ∧
      (executed = [] ↔ ¬ start.Commits blockA.header.hash twoVotes) := by
  intro start
  have hcommits : start.Commits blockA.header.hash twoVotes :=
    ⟨twoVotes.take 1, twoVotes.drop 1, rfl, by decide +kernel, by decide +kernel, .precommit,
      by decide +kernel⟩
  have hconcerns : ∀ input ∈ twoVotes, start.Concerns blockA.header.hash input := by
    intro input hinput
    simp only [twoVotes, List.mem_cons, List.not_mem_nil, or_false] at hinput
    rcases hinput with rfl | rfl | rfl
    · exact .inl rfl
    · exact trivial
    · exact .inl rfl
  exact ⟨hcommits, round_commits_iff (LoopState.atHead_enterState _ 0) (by decide +kernel)
    (by decide +kernel) hconcerns⟩

end

end NoirNet
