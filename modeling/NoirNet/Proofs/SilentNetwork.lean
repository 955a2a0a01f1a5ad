import NoirNet.Consensus.Evolution
import NoirNet.Network.Wiring
import NoirNet.Proofs.Gossip
import NoirNet.Proofs.OwnVotes

/-!
# A network that does not hear its votes

No encoded vote can be decoded, and an encoded block is too long for one.  So
the consensus loops hear no votes at all: nobody commits, and the blocks that
are executed are those that some node stored before the run.

* `not_published_vote`: no message on the topic of the votes is read as a vote;
* `quiet_step`: what a step without a vote keeps;
* `silent_step`, `silent_network`: the network.
-/

namespace NoirNet

open Lib Lib.Wire Reader

/-! ## Decoding a vote -/

theorem length_le_of_varint {v : Nat} {s t : List UInt8} (h : varint s = some (v, t)) :
    s.length ≤ t.length + 9 := by
  rcases varint_cases h with ⟨-, rfl⟩ | ⟨w, tag, hw, -, -, rfl⟩
  · rw [List.length_cons]
    omega
  · rw [List.length_cons, List.length_append, length_leBytes]
    omega

theorem Vote.length_le_of_decode {data : Bytes} {vote : Vote}
    (h : decode Vote.read data = some vote) : data.length ≤ 187 := by
  have hread := decode_eq_some.mp h
  simp only [read, VoteType.read, bind_eq_some, pure_eq_some] at hread
  obtain ⟨_, t₁, h₁, _, t₂, h₂, _, t₃, h₃, _, t₄, ⟨variant, t₄', h₄, hvariant⟩, _, t₅, h₅, _,
    t₆, h₆, hread⟩ := hread
  have ht₄ : t₄ = t₄' := by
    split at hvariant
    · exact (Prod.mk.inj (pure_eq_some.mp hvariant)).2
    · split at hvariant
      · exact (Prod.mk.inj (pure_eq_some.mp hvariant)).2
      · exact absurd hvariant not_failure
  subst ht₄
  obtain ⟨-, rfl⟩ := Prod.mk.inj hread
  have hheight := length_le_of_varint (u64_eq_some h₁)
  have hround := length_le_of_varint (u32_eq_some h₂)
  have hvoteType := length_le_of_varint (u32_eq_some h₄)
  have hhash := congrArg List.length (array_eq_some.mp h₃)
  have hid := congrArg List.length (array_eq_some.mp h₅)
  have hsig := congrArg List.length (array_eq_some.mp h₆)
  simp at hhash hid hsig
  omega

theorem Block.length_serialize_ge (block : Block) : 188 ≤ block.serialize.length := by
  simp only [serialize, BlockHeader.serialize, List.length_append, length_putU64, length_putU32,
    Vector.length_toList]
  omega

theorem Block.decode_vote (block : Block) : decode Vote.read block.serialize = none := by
  rw [Option.eq_none_iff_forall_not_mem]
  intro vote hvote
  have hshort := Vote.length_le_of_decode hvote
  have hlong := block.length_serialize_ge
  omega

theorem handleGossip_vote {topic : String} {data : Bytes} {vote : Vote}
    (h : handleGossip topic data = some (.vote vote)) :
    topic = "noirnet-votes" ∧ decode Vote.read data = some vote := by
  unfold handleGossip at h
  split at h
  · cases h
  split at h
  · obtain ⟨_, -, hmessage⟩ := Option.map_eq_some_iff.mp h
    cases hmessage
  split at h
  · obtain ⟨_, -, hmessage⟩ := Option.map_eq_some_iff.mp h
    cases hmessage
  split at h
  · rename_i htopic
    obtain ⟨_, hread, hmessage⟩ := Option.map_eq_some_iff.mp h
    cases hmessage
    exact ⟨htopic, hread⟩
  · cases h

section

variable {ι : Type} {topics : ι → Topics}
  (hroute : ∀ i, (topics i).nth 0 ≠ "noirnet-votes")

include hroute

/-- As long as transactions are not published on the topic of the votes, nothing that is
published there is read as a vote. -/
theorem not_published_vote {data : Bytes} {vote : Vote}
    (hpublished : Published topics "noirnet-votes" data) :
    decode Vote.read data ≠ some vote := by
  obtain ⟨i, cmd, hencoded, peerCount, hcall⟩ := hpublished
  cases cmd with
  | broadcastTx bytes =>
      obtain ⟨htopic, -⟩ := SwarmCall.publish.inj hcall
      exact absurd htopic (hroute i)
  | broadcastBlock bytes =>
      obtain ⟨-, rfl⟩ := SwarmCall.publish.inj hcall
      obtain ⟨block, rfl⟩ := hencoded
      rw [block.decode_vote]
      exact nofun
  | broadcastVote bytes =>
      obtain ⟨-, rfl⟩ := SwarmCall.publish.inj hcall
      obtain ⟨other, rfl⟩ := hencoded
      rw [other.decode_serialize]
      exact nofun
  | _ => cases hcall

variable [Bls]

theorem Network.Carries.ne_vote {net : Network ι} {event : Event}
    (h : net.Carries topics event) (vote : Vote) : event ≠ .vote vote := by
  rintro rfl
  obtain ⟨swarm, hevent, hoffers⟩ := h
  cases swarm with
  | gossip topic data =>
      obtain ⟨message, hmessage, hkind⟩ := Option.map_eq_some_iff.mp hevent
      cases message with
      | vote received =>
          obtain ⟨rfl, hread⟩ := handleGossip_vote hmessage
          exact not_published_vote hroute hoffers hread
      | tx tx => cases hkind
      | block block => cases hkind
  | request peer req => cases hevent
  | response peer res => cases hevent
  | other => cases hevent

end

/-! ## One node -/

namespace LoopState

variable [Bls] [Blake3] [Nova]

theorem quiet_step {state : LoopState} (h : state.engine.syncManager.Requests) {input : Input}
    (hquiet : ∀ vote, input.event ≠ .vote vote) :
    (state.step input).1.height = state.height ∧ state.commitsOn input = [] := by
  have hstays : state.leaves input = false :=
    leaves_eq_false h fun vote hevent => absurd hevent (hquiet vote)
  constructor
  · refine step_cases (motive := fun left state' => left = false → state'.height = state.height)
      state input ?stay ?timeout ?enter hstays
    case stay => exact fun _ _ _ => rfl
    case timeout => exact fun _ _ _ _ => rfl
    case enter => exact fun _ _ hleft => nomatch hleft
  · rw [List.eq_nil_iff_forall_not_mem]
    intro commit hcommit
    obtain ⟨vote, hevent, -⟩ := mem_commitsOn hcommit
    exact hquiet vote hevent

theorem executed_of_quiet {state : LoopState} {input : Input}
    (hquiet : ∀ vote, input.event ≠ .vote vote) {o : Block × BlockOutcome}
    (ho : o ∈ Action.outcomes (state.step input).2) :
    ∃ peer res, input.event = .syncResponse peer res ∧ o.1 ∈ res.blocks := by
  rw [state.outcomes_step input] at ho
  obtain ⟨env, event⟩ := input
  cases event with
  | vote vote => exact absurd rfl (hquiet vote)
  | syncResponse peer res =>
      dsimp only at ho
      split at ho
      · exact ⟨peer, res, rfl, (ConsensusEngine.mem_syncOutcomes ho).1⟩
      · cases ho
  | _ => cases ho

end LoopState

/-! ## The network -/

section

variable {ι : Type} [Bls]

def StoredBy (stores : ι → StateStore) (block : Block) : Prop :=
  ∃ i, ∃ hash : BlockHash, (stores i).db.blocks[hash]? = some block

/-- No node has committed or moved on, and only blocks from the start are stored and served. -/
structure Silent (stores : ι → StateStore) (net : Network ι) : Prop where
  requests : ∀ i, (net.nodes i).engine.syncManager.Requests
  height : ∀ i, (net.nodes i).height = (stores i).getChainHeight + 1
  uncommitted : ∀ i, net.commits i = []
  stored : ∀ i (hash : BlockHash) block,
    (net.nodes i).engine.stateStore.db.blocks[hash]? = some block → StoredBy stores block
  served : ∀ i, ∀ res ∈ Action.responses (net.log i), ∀ block ∈ res.blocks, StoredBy stores block

theorem silent_start (stores : ι → StateStore) (mempools : ι → PrivateMempool)
    (validators : ι → Option (Bytes32 × Bls.SecretKey)) :
    Silent stores (Network.start fun i =>
      ConsensusEngine.new (stores i) (mempools i) (validators i)) where
  requests i := by
    have hnew : (ConsensusEngine.new (stores i) (mempools i) (validators i)).syncManager.Requests :=
      nofun
    exact hnew.checkSyncStatus (ConsensusEngine.parentHeight ((stores i).getChainHeight + 1))
  height _ := rfl
  uncommitted _ := rfl
  stored i hash _ hget := ⟨i, hash, hget⟩
  served _ _ hres := by cases hres

variable [Blake3] [Nova] {stores : ι → StateStore} {net : Network ι}
  {topics : ι → Topics} (hroute : ∀ i, (topics i).nth 0 ≠ "noirnet-votes")

include hroute

/-- What a node executes was served by another, who has it from the start. -/
theorem Silent.executed (h : Silent stores net) {arrival : ι × Input}
    (hcarried : net.Carries topics arrival.2.event) {o : Block × BlockOutcome}
    (ho : o ∈ Action.outcomes ((net.nodes arrival.1).step arrival.2).2) : StoredBy stores o.1 := by
  obtain ⟨peer, res, hevent, hblock⟩ := LoopState.executed_of_quiet (hcarried.ne_vote hroute) ho
  rw [hevent] at hcarried
  obtain ⟨swarm, hswarm, hoffers⟩ := hcarried
  cases swarm with
  | response peer' res' =>
      cases hswarm
      obtain ⟨i, hres⟩ := hoffers
      exact h.served i res hres o.1 hblock
  | gossip topic data =>
      obtain ⟨message, -, hkind⟩ := Option.map_eq_some_iff.mp hswarm
      cases message <;> cases hkind
  | request peer' req => cases hswarm
  | other => cases hswarm

theorem silent_step [DecidableEq ι] (h : Silent stores net) {arrival : ι × Input}
    (hcarried : net.Carries topics arrival.2.event) : Silent stores (net.step arrival).1 := by
  obtain ⟨hheight, hcommits⟩ :=
    LoopState.quiet_step (h.requests arrival.1) (hcarried.ne_vote hroute)
  have hstored : ∀ (hash : BlockHash) block,
      ((net.nodes arrival.1).step arrival.2).1.engine.stateStore.db.blocks[hash]? = some block →
        StoredBy stores block := by
    intro hash block hget
    rcases blocks_evolves ((net.nodes arrival.1).evolves_step arrival.2) hget with
      ⟨o, ho, rfl⟩ | hold
    · exact h.executed hroute hcarried ho
    · exact h.stored arrival.1 hash block hold
  refine ⟨?_, ?_, ?_, ?_, ?_⟩
  · intro i
    rw [Network.nodes_step]
    split
    · exact LoopState.requests_step (h.requests arrival.1) arrival.2
    · exact h.requests i
  · intro i
    rw [Network.nodes_step]
    split
    · subst i
      exact hheight.trans (h.height arrival.1)
    · exact h.height i
  · intro i
    rw [List.eq_nil_iff_forall_not_mem]
    intro commit hcommit
    rcases Network.mem_commits_step.mp hcommit with hold | ⟨rfl, hnew⟩
    · rw [h.uncommitted i] at hold
      cases hold
    · rw [hcommits] at hnew
      cases hnew
  · intro i hash block hget
    rw [Network.nodes_step] at hget
    split at hget
    · exact hstored hash block hget
    · exact h.stored i hash block hget
  · intro i res hres block hblock
    rw [Network.log_step] at hres
    split at hres
    · rw [Action.responses_append] at hres
      rcases List.mem_append.mp hres with hold | hnew
      · exact h.served arrival.1 res hold block hblock
      · obtain ⟨hash, hget⟩ := LoopState.stored_of_responses hnew hblock
        exact h.stored arrival.1 hash block hget
    · exact h.served i res hres block hblock

end

/-- In a network of any nodes, validators or not, in which all gossip is encoded by the nodes
and none of them publishes transactions on the topic of the votes, no node ever commits or
leaves the height at which it came up.  In every run, whatever is delayed, repeated or lost,
the blocks that are executed, and all that are stored at its end, were in the store of some
node at its start. -/
theorem silent_network {ι : Type} [DecidableEq ι] [Bls] [Blake3] [Nova] (stores : ι → StateStore)
    (mempools : ι → PrivateMempool) (validators : ι → Option (Bytes32 × Bls.SecretKey))
    (topics : ι → Topics) (hroute : ∀ i, (topics i).nth 0 ≠ "noirnet-votes")
    (arrivals : List (ι × Input)) :
    let start := Network.start fun i =>
      ConsensusEngine.new (stores i) (mempools i) (validators i)
    networkMachine.Admissible (fun net arrival => net.Carries topics arrival.2.event) start
        arrivals →
      (∀ i block outcome, (i, .executed block outcome) ∈ networkMachine.outputs start arrivals →
          StoredBy stores block) ∧
        ∀ i, (networkMachine.final start arrivals).commits i = [] ∧
          ((networkMachine.final start arrivals).nodes i).height =
            (stores i).getChainHeight + 1 ∧
          ∀ (hash : BlockHash) block,
            ((networkMachine.final start arrivals).nodes
                i).engine.stateStore.db.blocks[hash]? = some block → StoredBy stores block := by
  intro start hcarried
  have hstart : Silent stores start := silent_start stores mempools validators
  have hstep (net : Network ι) (arrival : ι × Input)
      (hcarries : net.Carries topics arrival.2.event) (h : Silent stores net) :
      Silent stores (networkMachine.step net arrival).1 :=
    silent_step hroute h hcarries
  have hfinal := networkMachine.invariant (Silent stores) hstep hstart hcarried
  refine ⟨?_, fun i => ⟨hfinal.uncommitted i, hfinal.height i, hfinal.stored i⟩⟩
  intro i block outcome hexecuted
  obtain ⟨⟨net, arrival⟩, hvisit, houtput⟩ := networkMachine.mem_outputs.mp hexecuted
  obtain ⟨front, rest, rfl, rfl⟩ := networkMachine.mem_visits hvisit
  obtain ⟨hfront, hcarries, -⟩ := networkMachine.admissible_append.mp hcarried
  have hsilent := networkMachine.invariant (Silent stores) hstep hstart hfront
  obtain ⟨action, haction, hpair⟩ := List.mem_map.mp houtput
  cases hpair
  exact hsilent.executed hroute hcarries (List.mem_filterMap.mpr ⟨_, haction, rfl⟩)

/-! ## Two nodes -/

section

attribute [local instance] Bls.plain Blake3.sum Nova.rejecting

def asked : List (Bool × Input) :=
  [(true, Event.input (.syncRequest [] { startHeight := 1, limit := 5 })),
    (false, Event.input (.syncResponse [] { blocks := [blockA] })), (false, Event.input .timeout)]

def storesOf : Bool → StateStore
  | true => ((StateStore.withValidators [1, 2]).applyBlock blockA ∅ []).1
  | false => StateStore.withValidators [1, 2]

theorem two_nodes_silent :
    let start := Network.start fun i => ConsensusEngine.new (storesOf i) {} none
    (∀ i block outcome, (i, .executed block outcome) ∈ networkMachine.outputs start asked →
        StoredBy storesOf block) ∧
      ∀ i, (networkMachine.final start asked).commits i = [] ∧
        ((networkMachine.final start asked).nodes i).height =
          (storesOf i).getChainHeight + 1 ∧
        ∀ (hash : BlockHash) block,
          ((networkMachine.final start asked).nodes i).engine.stateStore.db.blocks[hash]? =
            some block → StoredBy storesOf block := by
  refine silent_network storesOf (fun _ => {}) (fun _ => none) (fun _ => ⟨SUBSCRIBED, .refl _⟩)
    (fun _ => by decide) asked ⟨?_, ?_, ?_, trivial⟩
  · exact ⟨.request [] { startHeight := 1, limit := 5 }, rfl, trivial⟩
  · refine ⟨.response [] { blocks := [blockA] }, rfl, true, ?_⟩
    decide +kernel
  · trivial

end

end NoirNet
