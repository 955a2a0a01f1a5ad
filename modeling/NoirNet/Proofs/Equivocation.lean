import NoirNet.Consensus.Concrete
import NoirNet.Consensus.Rounds

/-!
# When a validator equivocates

A node prevotes for every proposal it admits, and precommits when a vote
completes a prevote quorum.  Within one round state the second happens once,
because a round never goes back in front of its prevote quorum; a round state
with the same height and round, made after the height was entered again, starts
over.
-/

namespace NoirNet

open Lib

namespace LoopState

variable [Bls]

variable [Blake3]

/-! ## One prevote quorum a round state -/

def Spent (generation : Nat) (state : LoopState) : Prop :=
  generation < state.generation ∨
    generation = state.generation ∧ state.bft.PastPrevote

omit [Blake3] in
theorem pastPrevote_withOwn {state : LoopState} {bft : BftRoundState} (h : bft.PastPrevote)
    (hash : Hash32) (voteType : VoteType) : (state.withOwn bft hash voteType).PastPrevote := by
  unfold withOwn
  cases state.engine.secretKey with
  | none => exact h
  | some sk => exact h.addVote _

theorem pastPrevote_nextBft {state : LoopState} (h : state.bft.PastPrevote) (input : Input) :
    (state.nextBft input).PastPrevote := by
  unfold nextBft
  split
  · split
    · exact pastPrevote_withOwn (h.tryAdvancePhase _) _ _
    · exact h
  · split
    · split
      · exact pastPrevote_withOwn ((h.addVote _).tryAdvancePhase _) _ _
      · exact (h.addVote _).tryAdvancePhase _
    · exact h
  · exact h

variable [Nova]

theorem spent_step {generation : Nat} {state : LoopState} (h : Spent generation state)
    (input : Input) : Spent generation (state.step input).1 := by
  have hle : generation ≤ state.generation := by
    rcases h with hlt | ⟨heq, -⟩
    · exact hlt.le
    · exact heq.le
  refine step_cases state input ?stay ?timeout ?enter
  case stay =>
    intro engine _
    rcases h with hlt | ⟨heq, hpast⟩
    · exact .inl hlt
    · exact .inr ⟨heq, pastPrevote_nextBft hpast input⟩
  case timeout =>
    intro engine _ _
    exact .inl (Nat.lt_succ_of_le hle)
  case enter =>
    intro engine _
    exact .inl (Nat.lt_succ_of_le hle)

theorem spent_of_completesPrevote {state : LoopState} {env : Env} {vote : Vote}
    (h : state.completesPrevote vote) :
    Spent state.generation (state.step { env, event := .vote vote }).1 := by
  obtain ⟨hcounts, hphase⟩ := completesPrevote_iff.mp h
  refine step_cases state { env, event := .vote vote } ?stay ?timeout ?enter
  case stay =>
    intro engine _
    refine .inr ⟨rfl, ?_⟩
    show (state.nextBft _).PastPrevote
    simp only [nextBft, hcounts, hphase, if_true]
    apply pastPrevote_withOwn
    exact BftRoundState.pastPrevote_of_precommit hphase
  case timeout =>
    intro engine _ _
    exact .inl (Nat.lt_succ_self _)
  case enter =>
    intro engine _
    exact .inl (Nat.lt_succ_self _)

omit [Blake3] [Nova] in
theorem not_spent_of_completesPrevote {state : LoopState} {vote : Vote}
    (h : state.completesPrevote vote) : ¬ Spent state.generation state := by
  have hphase : state.bft.phase = .prevote := by
    simp only [completesPrevote, Bool.decide_and, Bool.and_eq_true, decide_eq_true_eq] at h
    exact h.2.1
  rintro (hlt | ⟨-, hpast⟩)
  · exact Nat.lt_irrefl _ hlt
  · rcases hpast with hpast | hpast <;> simp [hphase] at hpast

/-- Two completions in one round state are one. -/
theorem completion_unique {start s s' : LoopState} {inputs : List Input} {env env' : Env}
    {vote vote' : Vote}
    (hvisit : (s, ({ env, event := .vote vote } : Input)) ∈ engineMachine.visits start inputs)
    (hvisit' : (s', ({ env := env', event := .vote vote' } : Input)) ∈
      engineMachine.visits start inputs)
    (hcompletes : s.completesPrevote vote) (hcompletes' : s'.completesPrevote vote')
    (hgeneration : s.generation = s'.generation) : vote.blockHash = vote'.blockHash := by
  have hlater (t : LoopState) (rest : List Input) (generation : Nat) (hspent : Spent generation t)
      (u : LoopState) (i : Input) (hu : (u, i) ∈ engineMachine.visits t rest) :
      Spent generation u := by
    obtain ⟨before, after, -, hfinal⟩ := engineMachine.mem_visits hu
    rw [show u = engineMachine.final t before from hfinal]
    exact engineMachine.invariant_final (Spent generation)
      (fun _ input h => spent_step h input) hspent before
  induction inputs generalizing start with
  | nil => simp at hvisit
  | cons input inputs ih =>
      rw [Machine.visits_cons, List.mem_cons] at hvisit hvisit'
      rcases hvisit with hhead | htail
      · obtain ⟨rfl, rfl⟩ := Prod.mk.inj hhead
        rcases hvisit' with hhead' | htail'
        · obtain ⟨-, hinput⟩ := Prod.mk.inj hhead'
          cases hinput
          rfl
        · have hspent := hlater _ _ _ (spent_of_completesPrevote hcompletes) _ _ htail'
          rw [hgeneration] at hspent
          exact absurd hspent (not_spent_of_completesPrevote hcompletes')
      · rcases hvisit' with hhead' | htail'
        · obtain ⟨rfl, rfl⟩ := Prod.mk.inj hhead'
          have hspent := hlater _ _ _ (spent_of_completesPrevote hcompletes') _ _ htail
          rw [← hgeneration] at hspent
          exact absurd hspent (not_spent_of_completesPrevote hcompletes)
        · exact ih htail htail'

/-! ## The node's key -/

theorem secretKey_visit {start : LoopState} {inputs : List Input} {visit : LoopState × Input}
    (h : visit ∈ engineMachine.visits start inputs) :
    visit.1.engine.secretKey = start.engine.secretKey := by
  obtain ⟨before, after, -, hfinal⟩ := engineMachine.mem_visits h
  rw [hfinal]
  have hnode : start.engine.SameNode (engineMachine.final start before).engine :=
    engineMachine.invariant_final (fun s => start.engine.SameNode s.engine)
      (fun s input h => h.trans (s.sameNode_step input)) (.refl _) before
  exact hnode.secretKey

/-- With a key, the votes of a run are the prevotes for the proposals it admits
and the precommits for the prevote quorums it completes. -/
theorem mem_votes_run {start : LoopState} {inputs : List Input} {sk : Bls.SecretKey} {v : Vote}
    (hkey : start.engine.secretKey = some sk) :
    v ∈ Action.votes (engineMachine.outputs start inputs) ↔
      ∃ visit ∈ engineMachine.visits start inputs,
        (∃ block, visit.2.event = .block block ∧ visit.1.admits visit.2.env.randomPeer block ∧
          v = visit.1.engine.castVote sk visit.1.height visit.1.round block.header.hash
            .prevote) ∨
        ∃ vote, visit.2.event = .vote vote ∧ visit.1.completesPrevote vote ∧
          v = visit.1.engine.castVote sk visit.1.height visit.1.round vote.blockHash
            .precommit := by
  rw [Action.mem_votes, Machine.mem_outputs]
  apply exists_congr
  intro visit
  apply and_congr_right
  intro hvisit
  rw [← mem_casts ((secretKey_visit hvisit).trans hkey), ← votes_step, Action.mem_votes]
  rfl

end LoopState

open LoopState

def NoEquivocation (votes : List Vote) : Prop :=
  ∀ v ∈ votes, ∀ v' ∈ votes, v.height = v'.height → v.round = v'.round →
    v.voteType = v'.voteType → v.blockHash = v'.blockHash

section

variable [Bls] [Blake3] [Nova]

/-- All proposals admitted in a round of a height have one hash. -/
def OneProposalARound (start : LoopState) (inputs : List Input) : Prop :=
  ∀ visit ∈ engineMachine.visits start inputs, ∀ visit' ∈ engineMachine.visits start inputs,
    ∀ block block', visit.2.event = .block block → visit'.2.event = .block block' →
      visit.1.admits visit.2.env.randomPeer block →
      visit'.1.admits visit'.2.env.randomPeer block' →
      visit.1.height = visit'.1.height → visit.1.round = visit'.1.round →
      block.header.hash = block'.header.hash

/-- Prevote quorums completed in different round states of the same height and
round are for one hash. -/
def OneQuorumARound (start : LoopState) (inputs : List Input) : Prop :=
  ∀ visit ∈ engineMachine.visits start inputs, ∀ visit' ∈ engineMachine.visits start inputs,
    ∀ vote vote', visit.2.event = .vote vote → visit'.2.event = .vote vote' →
      visit.1.completesPrevote vote → visit'.1.completesPrevote vote' →
      visit.1.generation ≠ visit'.1.generation →
      visit.1.height = visit'.1.height → visit.1.round = visit'.1.round →
      vote.blockHash = vote'.blockHash

/-- Over any run with a key, the node never equivocates exactly when all
proposals it admits in a round are one, and the prevote quorums that complete
after a round was started over are for the same hash. -/
theorem no_equivocation_iff (engine : ConsensusEngine) (sk : Bls.SecretKey) (generation : Nat)
    (inputs : List Input) :
    let start := { engine with secretKey := some sk }.enterState generation
    NoEquivocation (Action.votes (engineMachine.outputs start inputs)) ↔
      OneProposalARound start inputs ∧ OneQuorumARound start inputs := by
  intro start
  have hkey : start.engine.secretKey = some sk := rfl
  constructor
  · intro hnone
    constructor
    · intro visit hvisit visit' hvisit' block block' hevent hevent' hadmits hadmits' hheight hround
      have hcast := (mem_votes_run hkey).mpr ⟨visit, hvisit, .inl ⟨block, hevent, hadmits, rfl⟩⟩
      have hcast' := (mem_votes_run hkey).mpr
        ⟨visit', hvisit', .inl ⟨block', hevent', hadmits', rfl⟩⟩
      exact hnone _ hcast _ hcast' hheight hround rfl
    · intro visit hvisit visit' hvisit' vote vote' hevent hevent' hcompletes hcompletes' _ hheight
        hround
      have hcast := (mem_votes_run hkey).mpr
        ⟨visit, hvisit, .inr ⟨vote, hevent, hcompletes, rfl⟩⟩
      have hcast' := (mem_votes_run hkey).mpr
        ⟨visit', hvisit', .inr ⟨vote', hevent', hcompletes', rfl⟩⟩
      have hsame := hnone _ hcast _ hcast' hheight hround rfl
      exact hsame
  · rintro ⟨hproposal, hquorum⟩ v hv v' hv' hheight hround htype
    obtain ⟨visit, hvisit, hcast⟩ := (mem_votes_run hkey).mp hv
    obtain ⟨visit', hvisit', hcast'⟩ := (mem_votes_run hkey).mp hv'
    rcases hcast with ⟨block, hevent, hadmits, rfl⟩ | ⟨vote, hevent, hcompletes, rfl⟩
    · rcases hcast' with ⟨block', hevent', hadmits', rfl⟩ | ⟨vote', -, -, rfl⟩
      · exact hproposal visit hvisit visit' hvisit' block block' hevent hevent' hadmits hadmits'
          hheight hround
      · cases htype
    · rcases hcast' with ⟨block', -, -, rfl⟩ | ⟨vote', hevent', hcompletes', rfl⟩
      · cases htype
      · by_cases hgeneration : visit.1.generation = visit'.1.generation
        · obtain ⟨s, env, event⟩ := visit
          obtain ⟨s', env', event'⟩ := visit'
          cases hevent
          cases hevent'
          have hhash : vote.blockHash = vote'.blockHash :=
            completion_unique hvisit hvisit' hcompletes hcompletes' hgeneration
          exact hhash
        · exact hquorum visit hvisit visit' hvisit' vote vote' hevent hevent' hcompletes
            hcompletes' hgeneration hheight hround

end

theorem prevotes_twice :
    letI := Blake3.sum
    letI := Bls.plain
    letI := Nova.rejecting
    Action.votes (engineMachine.outputs ((ConsensusEngine.plain [1] 1).enterState 0)
        [(Event.block blockA).input, (Event.block blockB).input]) =
        [Vote.plain 1 0 blockA.header.hash .prevote, Vote.plain 1 0 blockB.header.hash .prevote] ∧
      blockA.header.hash ≠ blockB.header.hash := by
  decide +kernel

end NoirNet
