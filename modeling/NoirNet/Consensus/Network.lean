import Mathlib.Data.Fintype.Defs
import Mathlib.Logic.Function.Basic
import NoirNet.Consensus.Rounds

/-!
# A network of honest nodes

Honest nodes run the consensus loop.  Everything they receive comes from an
adversary, who delays, reorders, repeats, drops and makes up messages, decides
when a round times out, and speaks for the other validators.  What it cannot do
is sign for an honest node: `Unforgeable`.
-/

namespace NoirNet

open Lib

def Event.vote? : Event → Option Vote
  | .vote v => some v
  | _ => none

def Event.block? : Event → Option Block
  | .block b => some b
  | _ => none

/-- The honest nodes, and what each of them has done so far. -/
structure Network (ι : Type) [Bls] where
  nodes : ι → LoopState
  log : ι → List Action

namespace Network

section

variable {ι : Type} [Bls]

/-- All nodes enter the loop.  What a leader proposes there is one of the blocks
the adversary may deliver. -/
def start (engines : ι → ConsensusEngine) : Network ι where
  nodes i := (engines i).enterState 0
  log _ := []

def votes (net : Network ι) (i : ι) : List Vote := Action.votes (net.log i)

def commits (net : Network ι) (i : ι) : List (UInt64 × Hash32) := Action.commits (net.log i)

/-- What is verified under the key of an honest node, the node has signed. -/
def Unforgeable (publicKey : ι → Bls.PublicKey) (net : Network ι) (arrival : ι × Input) : Prop :=
  ∀ vote ∈ arrival.2.event.vote?, ∀ sig ∈ Bls.signatureFromBytes vote.signature, ∀ i,
    Bls.verify sig vote.blockHash.toList (publicKey i) →
      Action.sign vote.blockHash.toList ∈ net.log i

end

instance Unforgeable.decidable {ι : Type} {_ : Bls} [Fintype ι] (publicKey : ι → Bls.PublicKey)
    (net : Network ι) (arrival : ι × Input) : Decidable (net.Unforgeable publicKey arrival) :=
  inferInstanceAs (Decidable (∀ vote ∈ arrival.2.event.vote?, _))

variable {ι : Type} [DecidableEq ι] [Bls] [Blake3] [Nova]

def step (net : Network ι) (arrival : ι × Input) : Network ι × List (ι × Action) :=
  let (state, actions) := (net.nodes arrival.1).step arrival.2
  ({ nodes := Function.update net.nodes arrival.1 state
     log := Function.update net.log arrival.1 (net.log arrival.1 ++ actions) },
    actions.map (arrival.1, ·))

end Network

def networkMachine {ι : Type} [DecidableEq ι] [Bls] [Blake3] [Nova] :
    Machine (Network ι) (ι × Input) (ι × Action) where
  step := Network.step

namespace Network

variable {ι : Type} [DecidableEq ι] [Bls] [Blake3] [Nova]

/-! ## One step -/

theorem nodes_step (net : Network ι) (arrival : ι × Input) (i : ι) :
    (net.step arrival).1.nodes i =
      if i = arrival.1 then ((net.nodes arrival.1).step arrival.2).1 else net.nodes i := by
  simp [step, Function.update_apply]

theorem log_step (net : Network ι) (arrival : ι × Input) (i : ι) :
    (net.step arrival).1.log i =
      if i = arrival.1 then net.log arrival.1 ++ ((net.nodes arrival.1).step arrival.2).2
      else net.log i := by
  simp [step, Function.update_apply]

theorem mem_votes_step {net : Network ι} {arrival : ι × Input} {i : ι} {v : Vote} :
    v ∈ (net.step arrival).1.votes i ↔
      v ∈ net.votes i ∨ i = arrival.1 ∧ v ∈ (net.nodes arrival.1).casts arrival.2 := by
  unfold votes
  rw [log_step]
  by_cases hi : i = arrival.1
  · subst hi
    simp
  · simp [hi]

theorem mem_commits_step {net : Network ι} {arrival : ι × Input} {i : ι}
    {commit : UInt64 × Hash32} :
    commit ∈ (net.step arrival).1.commits i ↔
      commit ∈ net.commits i ∨
        i = arrival.1 ∧ commit ∈ (net.nodes arrival.1).commitsOn arrival.2 := by
  unfold commits
  rw [log_step]
  by_cases hi : i = arrival.1
  · subst hi
    simp
  · simp [hi]

/-! ## What holds in every reachable network -/

/-- The nodes are who they were, their loop variables fit, and each signature is
one on the hash of a vote that went out. -/
structure Regular (engines : ι → ConsensusEngine) (net : Network ι) : Prop where
  sameNode : ∀ i, (engines i).SameNode (net.nodes i).engine
  coherent : ∀ i, (net.nodes i).Coherent
  signed : ∀ i, Action.signed (net.log i) = (net.votes i).map (·.blockHash.toList)

omit [DecidableEq ι] [Blake3] [Nova] in
theorem regular_start (engines : ι → ConsensusEngine) : (start engines).Regular engines where
  sameNode i := (engines i).sameNode_enterState 0
  coherent i := LoopState.coherent_enterState (engines i) 0
  signed _ := rfl

theorem Regular.step {engines : ι → ConsensusEngine} {net : Network ι} (h : net.Regular engines)
    (arrival : ι × Input) : (net.step arrival).1.Regular engines where
  sameNode i := by
    rw [nodes_step]
    split
    · subst i
      exact (h.sameNode _).trans (LoopState.sameNode_step _ _)
    · exact h.sameNode i
  coherent i := by
    rw [nodes_step]
    split
    · exact (h.coherent _).step _
    · exact h.coherent i
  signed i := by
    unfold votes
    rw [log_step]
    split
    · rw [Action.signed_append, Action.votes_append, List.map_append, LoopState.signed_step,
        LoopState.votes_step, h.signed]
      rfl
    · exact h.signed i

theorem regular_final (engines : ι → ConsensusEngine) (arrivals : List (ι × Input)) :
    (networkMachine.final (start engines) arrivals).Regular engines :=
  networkMachine.invariant_final (Regular engines) (fun _ arrival h => h.step arrival)
    (regular_start engines) arrivals

omit [DecidableEq ι] [Blake3] [Nova] in
/-- A signed hash is the hash of a vote that went out. -/
theorem Regular.exists_vote {engines : ι → ConsensusEngine} {net : Network ι}
    (h : net.Regular engines) {i : ι} {hash : Hash32}
    (hsign : Action.sign hash.toList ∈ net.log i) : ∃ v ∈ net.votes i, v.blockHash = hash := by
  rw [← Action.mem_signed, h.signed, List.mem_map] at hsign
  obtain ⟨v, hv, hhash⟩ := hsign
  exact ⟨v, hv, Vector.toList_inj.mp hhash⟩

omit [DecidableEq ι] [Blake3] [Nova] in
/-- The validators a node counts votes of are those its store knew at the start. -/
theorem Regular.valSet {engines : ι → ConsensusEngine} {net : Network ι}
    (h : net.Regular engines) (i : ι) :
    (net.nodes i).valSet =
      (engines i).stateStore.getValidatorSet ((net.nodes i).height / EPOCH_BLOCKS) := by
  rw [(h.coherent i).valSet]
  exact StateStore.getValidatorSet_congr (h.sameNode i).validators _

end Network

end NoirNet
