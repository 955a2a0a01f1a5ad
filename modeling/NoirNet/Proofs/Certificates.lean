import NoirNet.Consensus.Concrete
import NoirNet.Consensus.Writes
import NoirNet.Lib.Quorum

/-!
# What stands behind a block that is written

A commit counts precommits for a hash and executes `current_block`; a sync
response is executed as it comes.  Neither looks at the aggregate signature of
the block beyond its length, so a written block has a quorum behind it only if
it is the one that was voted for, or if somebody has put a signature of a quorum
into it.
-/

namespace NoirNet

open Lib

/-! ## Aggregate signatures -/

/-- The aggregate signatures of `blst`, through `BlsAggregateSignature`. -/
class BlsAggregates [Bls] where
  AggregateSignature : Type
  /-- `BlsAggregateSignature::from_bytes` -/
  aggregateFromBytes : Bytes96 → Option AggregateSignature
  /-- `fast_aggregate_verify` -/
  fastAggregateVerify : AggregateSignature → Bytes → List Bls.PublicKey → Bool

section

variable [Bls]

def verifyBatch [BlsAggregates] (sig : BlsAggregates.AggregateSignature) (msg : Bytes)
    (pks : List Bls.PublicKey) : Bool :=
  if pks.isEmpty then false else BlsAggregates.fastAggregateVerify sig msg pks

/-- The aggregate signature of a block, if its field holds 96 bytes that are one. -/
def Block.aggregateSignature [BlsAggregates] (block : Block) :
    Option BlsAggregates.AggregateSignature :=
  if h : block.blsAggregateSig.length = 96 then
    BlsAggregates.aggregateFromBytes ⟨block.blsAggregateSig.toArray, by simp [h]⟩
  else none

/-! ## Certificates -/

def ValidatorSet.Signs (vals : ValidatorSet) (vote : Vote) : Prop :=
  ∃ entry pk sig, vals.getById vote.validatorId = some entry ∧
    Bls.publicKeyFromBytes entry.blsPubkey = some pk ∧
    Bls.signatureFromBytes vote.signature = some sig ∧
    Bls.verify sig vote.blockHash.toList pk

def ValidatorSet.Precommitted (vals : ValidatorSet) (votes : List Vote) (hash : Hash32) : Prop :=
  ∃ signers : Finset Bytes32, IsQuorum vals.len signers ∧
    ∀ id ∈ signers, ∃ vote ∈ votes, vote.voteType = .precommit ∧ vote.blockHash = hash ∧
      vote.validatorId = id ∧ vals.Signs vote

/-- `verify_batch` accepts the aggregate signature of the block for the keys of
more than two thirds of the validators. -/
def ValidatorSet.Aggregated [Blake3] [BlsAggregates] (vals : ValidatorSet) (block : Block) :
    Prop :=
  ∃ signers pks sig, List.Sublist signers vals.validators ∧ vals.len * 2 < signers.length * 3 ∧
    signers.mapM (fun entry => Bls.publicKeyFromBytes entry.blsPubkey) = some pks ∧
    block.aggregateSignature = some sig ∧ verifyBatch sig block.header.hash.toList pks

def ValidatorSet.Certified [Blake3] [BlsAggregates] (vals : ValidatorSet) (votes : List Vote)
    (block : Block) : Prop :=
  vals.Precommitted votes block.header.hash ∨ vals.Aggregated block

namespace ConsensusEngine

def validatorsOf (engine : ConsensusEngine) (block : Block) : ValidatorSet :=
  engine.stateStore.getValidatorSet (block.header.height / EPOCH_BLOCKS)

theorem SameNode.validatorsOf {engine engine' : ConsensusEngine} (h : engine.SameNode engine')
    (block : Block) : engine'.validatorsOf block = engine.validatorsOf block :=
  StateStore.getValidatorSet_congr h.validators _

/-- What the node signs verifies under the key that its id is registered with. -/
def Registered (engine : ConsensusEngine) (vals : ValidatorSet) : Prop :=
  ∀ sk, engine.secretKey = some sk →
    ∃ entry pk, vals.getById engine.localValidatorId = some entry ∧
      Bls.publicKeyFromBytes entry.blsPubkey = some pk ∧
      ∀ message, ∃ sig,
        Bls.signatureFromBytes (Bls.signatureToBytes (Bls.sign sk message)) = some sig ∧
        Bls.verify sig message pk

theorem Registered.signs {engine : ConsensusEngine} {vals : ValidatorSet}
    (h : engine.Registered vals) {sk : Bls.SecretKey} (hkey : engine.secretKey = some sk)
    (height : UInt64) (round : UInt32) (hash : Hash32) (voteType : VoteType) :
    vals.Signs (engine.castVote sk height round hash voteType) := by
  obtain ⟨entry, pk, hentry, hpk, hverify⟩ := h sk hkey
  obtain ⟨sig, hsig, haccept⟩ := hverify hash.toList
  exact ⟨entry, pk, sig, hentry, hpk, hsig, haccept⟩

end ConsensusEngine

/-! ## The votes of a run -/

variable [Blake3]

def LoopState.countedVotes (state : LoopState) (input : Input) : List Vote :=
  (match input.event with
    | .vote vote => if state.counts vote then [vote] else []
    | _ => []) ++ state.casts input

def countedVotes (turns : List (LoopState × Input)) : List Vote :=
  turns.flatMap fun turn => turn.1.countedVotes turn.2

theorem countedVotes_concat (past : List (LoopState × Input)) (state : LoopState) (input : Input) :
    countedVotes (past ++ [(state, input)]) = countedVotes past ++ state.countedVotes input := by
  simp [countedVotes]

theorem mem_countedVotes_of_counts {state : LoopState} {input : Input} {vote : Vote}
    (hevent : input.event = .vote vote) (hcounts : state.counts vote) :
    vote ∈ state.countedVotes input := by
  simp [LoopState.countedVotes, hevent, hcounts]

theorem mem_countedVotes_of_casts {state : LoopState} {input : Input} {vote : Vote}
    (h : vote ∈ state.casts input) : vote ∈ state.countedVotes input :=
  List.mem_append_right _ h

namespace LoopState

def Attests (state : LoopState) (vote : Vote) : Prop :=
  state.valSet.Signs vote ∨
    ∃ sk, state.engine.secretKey = some sk ∧
      vote = state.engine.castVote sk vote.height vote.round vote.blockHash vote.voteType

def AttestedBy (state : LoopState) (votes : List Vote) (hash : Hash32) (id : Bytes32) : Prop :=
  ∃ vote ∈ votes, vote.voteType = .precommit ∧ vote.blockHash = hash ∧ vote.validatorId = id ∧
    state.Attests vote

omit [Blake3] in
theorem AttestedBy.mono {state : LoopState} {votes votes' : List Vote} {hash : Hash32}
    {id : Bytes32} (h : state.AttestedBy votes hash id) (hvotes : votes ⊆ votes') :
    state.AttestedBy votes' hash id := by
  obtain ⟨vote, hmem, hvote⟩ := h
  exact ⟨vote, hvotes hmem, hvote⟩

omit [Blake3] in
theorem AttestedBy.of_sameNode {state state' : LoopState} {votes : List Vote} {hash : Hash32}
    {id : Bytes32} (h : state.AttestedBy votes hash id)
    (hnode : state.engine.SameNode state'.engine) (hvalSet : state'.valSet = state.valSet) :
    state'.AttestedBy votes hash id := by
  obtain ⟨vote, hmem, htype, hhash, hid, hattests⟩ := h
  refine ⟨vote, hmem, htype, hhash, hid, ?_⟩
  rcases hattests with hsigns | ⟨sk, hkey, hcast⟩
  · left
    rwa [hvalSet]
  · right
    refine ⟨sk, hnode.secretKey.trans hkey, ?_⟩
    rw [ConsensusEngine.castVote, hnode.localValidatorId]
    exact hcast

/-- What the loop knows behind the votes it has counted: the variables fit, and
every precommit that is counted for a hash is one of the votes. -/
structure Attested (votes : List Vote) (state : LoopState) : Prop where
  coherent : state.Coherent
  currentBlock : ∀ block, state.currentBlock = some block → block.header.height = state.height
  voters : state.valSet.isEmpty = false → ∀ hash, ∀ id ∈ state.bft.voters .precommit hash,
    state.AttestedBy votes hash id

omit [Blake3] in
theorem attested_enterState (engine : ConsensusEngine) (generation : Nat) (votes : List Vote) :
    (engine.enterState generation).Attested votes where
  coherent := coherent_enterState engine generation
  currentBlock := by
    intro block hblock
    cases hblock
  voters := by
    intro _ hash id hid
    simp [ConsensusEngine.enterState] at hid

theorem Attested.voters_addVote {votes : List Vote} {state : LoopState} (h : Attested votes state)
    (hmembers : state.valSet.isEmpty = false) {input : Input} {vote : Vote}
    (hevent : input.event = .vote vote) (hcounts : state.counts vote) {hash : Hash32}
    {id : Bytes32} (hid : id ∈ (state.bft.addVote vote).1.voters .precommit hash) :
    state.AttestedBy (votes ++ state.countedVotes input) hash id := by
  rcases BftRoundState.mem_voters_addVote.mp hid with hold | ⟨-, htype, hhash, hvoter⟩
  · exact (h.voters hmembers hash id hold).mono (List.subset_append_left _ _)
  · obtain ⟨-, -, hvalid, -⟩ := counts_iff.mp hcounts
    refine ⟨vote, ?_, htype, hhash, hvoter, .inl (isValid_of_members hmembers hvalid)⟩
    exact List.mem_append_right _ (mem_countedVotes_of_counts hevent hcounts)

theorem Attested.voters_nextBft {votes : List Vote} {state : LoopState} (h : Attested votes state)
    (hmembers : state.valSet.isEmpty = false) (input : Input) (hash : Hash32) (id : Bytes32)
    (hid : id ∈ (state.nextBft input).voters .precommit hash) :
    state.AttestedBy (votes ++ state.countedVotes input) hash id := by
  rcases mem_voters_nextBft hid with hold | ⟨vote, hevent, hcounts, hvoter⟩ | hown
  · exact (h.voters hmembers hash id hold).mono (List.subset_append_left _ _)
  · exact h.voters_addVote hmembers hevent hcounts hvoter
  · obtain ⟨vote, hcast, htype, hhash, hvoter⟩ := hown
    refine ⟨vote, ?_, htype, hhash, hvoter, .inr ?_⟩
    · exact List.mem_append_right _ (mem_countedVotes_of_casts hcast)
    · obtain ⟨sk, hkey⟩ := exists_key_of_mem_casts hcast
      refine ⟨sk, hkey, ?_⟩
      rcases (mem_casts hkey).mp hcast with ⟨_, -, -, rfl⟩ | ⟨_, -, -, rfl⟩
      · rfl
      · rfl

omit [Blake3] in
theorem height_of_nextBlock {state : LoopState} {input : Input}
    (h : ∀ block, state.currentBlock = some block → block.header.height = state.height) :
    ∀ block, state.nextBlock input = some block → block.header.height = state.height := by
  intro block hblock
  unfold nextBlock at hblock
  cases hevent : input.event with
  | block proposal =>
      rw [hevent] at hblock
      by_cases hadmits : state.admits input.env.randomPeer proposal
      · simp only [hadmits, if_true, Option.some.injEq] at hblock
        subst hblock
        simp only [admits, Bool.decide_and, Bool.and_eq_true, decide_eq_true_eq] at hadmits
        exact hadmits.1
      · simp only [hadmits, if_false, Bool.false_eq_true] at hblock
        exact h block hblock
  | _ =>
      rw [hevent] at hblock
      exact h block hblock

theorem Attested.step [Nova] {votes : List Vote} {state : LoopState} (h : Attested votes state)
    (input : Input) : Attested (votes ++ state.countedVotes input) (state.step input).1 := by
  have hcoherent := h.coherent.step input
  revert hcoherent
  refine step_cases state input ?stay ?timeout ?enter
  case stay =>
    intro engine hnode hcoherent
    refine ⟨hcoherent, height_of_nextBlock h.currentBlock, ?_⟩
    intro hmembers hash id hid
    exact (h.voters_nextBft hmembers input hash id hid).of_sameNode hnode rfl
  case timeout =>
    intro engine hnode _ hcoherent
    refine ⟨hcoherent, h.currentBlock, ?_⟩
    intro _ hash id hid
    simp at hid
  case enter =>
    intro engine hnode _
    exact attested_enterState engine _ _

end LoopState

/-! ## What is written -/

variable [Nova] [BlsAggregates]

namespace ConsensusEngine

def Takes (engine : ConsensusEngine) (now : UInt64) (block : Block) : Prop :=
  Passes engine.isValidator now block ∧ engine.stateStore.Accepts block

omit [BlsAggregates] in
theorem takes_of_written {engine : ConsensusEngine} {vm : WasmRuntime} {now : UInt64}
    {block : Block} (h : (engine.outcome vm now block).written) : engine.Takes now block :=
  (outcome_written_iff vm engine.mempool).mp h

/-- Every block of a sync response that is taken, behind the ones before it,
has an aggregate signature of the validators of its epoch. -/
def SyncsAggregated (env : Env) (height : UInt64) : ConsensusEngine → Nat → List Block → Prop
  | _, _, [] => True
  | engine, k, block :: blocks =>
      if block.header.height ≥ height then
        (engine.Takes (env.now k) block → (engine.validatorsOf block).Aggregated block) ∧
          SyncsAggregated env height (engine.execute env.vm (env.now k) block).1 (k + 1) blocks
      else SyncsAggregated env height engine k blocks

theorem aggregated_of_syncOutcomes {env : Env} {height : UInt64} {engine : ConsensusEngine}
    {k : Nat} {blocks : List Block} (h : SyncsAggregated env height engine k blocks)
    {block : Block} {outcome : BlockOutcome}
    (hmem : (block, outcome) ∈ syncOutcomes env height engine k blocks)
    (hwritten : outcome.written) : (engine.validatorsOf block).Aggregated block := by
  induction blocks generalizing engine k with
  | nil => simp [syncOutcomes] at hmem
  | cons first blocks ih =>
      rw [SyncsAggregated] at h
      rw [syncOutcomes] at hmem
      by_cases hheight : first.header.height ≥ height
      · rw [if_pos hheight] at h hmem
        obtain ⟨hfirst, hrest⟩ := h
        rcases List.mem_cons.mp hmem with heq | htail
        · cases heq
          exact hfirst (takes_of_written hwritten)
        · have hnode := engine.sameNode_execute env.vm (env.now k) first
          rw [← hnode.validatorsOf block]
          exact ih hrest htail
      · rw [if_neg hheight] at h hmem
        exact ih h hmem

end ConsensusEngine

namespace LoopState

/-- Whatever the step takes is vouched for: what a commit executes is what was
voted for, by others than a node that is not itself a validator, or it has an
aggregate signature; what a sync response brings has an aggregate signature. -/
structure Vouched (state : LoopState) (input : Input) : Prop where
  commit : ∀ vote, input.event = .vote vote → state.decides vote →
    ∀ block, state.currentBlock = some block → state.engine.Takes (input.env.now 0) block →
      (block.header.hash = vote.blockHash ∧
          (state.engine.localValidatorId ∈
              (state.bft.addVote vote).1.voters .precommit vote.blockHash →
            state.engine.Registered state.valSet)) ∨
        state.valSet.Aggregated block
  sync : ∀ peer res, input.event = .syncResponse peer res → state.engine.syncManager.isSyncing →
    state.engine.SyncsAggregated input.env state.height 0 res.blocks

theorem vouched_of_voted {state : LoopState} {input : Input} {vote : Vote} {b : Block}
    (hevent : input.event = .vote vote) (hcurrent : state.currentBlock = some b)
    (hhash : b.header.hash = vote.blockHash)
    (hother : state.engine.localValidatorId ∉
      (state.bft.addVote vote).1.voters .precommit vote.blockHash) : state.Vouched input := by
  constructor
  · intro vote' hevent' _ block hblock _
    rw [hevent] at hevent'
    rw [hcurrent] at hblock
    cases hevent'
    cases hblock
    exact .inl ⟨hhash, fun hown => absurd hown hother⟩
  · intro peer res hresponse
    rw [hevent] at hresponse
    cases hresponse

omit [Nova] [BlsAggregates] in
/-- A quorum that is counted is a quorum of signatures, if the node's own is one. -/
theorem Attested.precommitted {votes : List Vote} {state : LoopState} (h : Attested votes state)
    (hmembers : state.valSet.isEmpty = false) {input : Input} {vote : Vote}
    (hevent : input.event = .vote vote) (hdecides : state.decides vote)
    (hown : state.engine.localValidatorId ∈
        (state.bft.addVote vote).1.voters .precommit vote.blockHash →
      state.engine.Registered state.valSet) :
    state.valSet.Precommitted (votes ++ state.countedVotes input) vote.blockHash := by
  have hcounts := (decides_iff.mp hdecides).1
  refine ⟨(state.bft.addVote vote).1.voters .precommit vote.blockHash, ?_, ?_⟩
  · have htotal := state.bft.addVote_totalValidators vote
    exact h.coherent.quorum hmembers htotal (quorum_of_decides hdecides)
  · intro id hid
    obtain ⟨v, hmem, htype, hhash, hvoter, hattests⟩ :=
      h.voters_addVote hmembers hevent hcounts hid
    refine ⟨v, hmem, htype, hhash, hvoter, ?_⟩
    rcases hattests with hsigns | ⟨sk, hkey, hcast⟩
    · exact hsigns
    · have hid' : state.engine.localValidatorId = id := by
        rw [← hvoter, hcast]
        rfl
      rw [← hid'] at hid
      rw [hcast]
      exact (hown hid).signs hkey _ _ _ _

omit [Blake3] [Nova] [BlsAggregates] in
theorem Attested.validatorsOf_currentBlock {votes : List Vote} {state : LoopState}
    (h : Attested votes state) {block : Block} (hcurrent : state.currentBlock = some block) :
    state.engine.validatorsOf block = state.valSet := by
  rw [ConsensusEngine.validatorsOf, h.currentBlock block hcurrent, h.coherent.valSet]

/-- What a step writes has a certificate, if the step is vouched for. -/
theorem Attested.certified {votes : List Vote} {state : LoopState} (h : Attested votes state)
    (hmembers : state.valSet.isEmpty = false) {input : Input} (hvouched : state.Vouched input)
    {block : Block} {outcome : BlockOutcome}
    (hmem : (block, outcome) ∈ Action.outcomes (state.step input).2)
    (hwritten : outcome.written) :
    (state.engine.validatorsOf block).Certified (votes ++ state.countedVotes input) block := by
  rw [outcomes_step] at hmem
  cases hevent : input.event with
  | vote vote =>
      simp only [hevent] at hmem
      by_cases hdecides : state.decides vote
      · rw [if_pos hdecides, List.mem_map] at hmem
        obtain ⟨current, hcurrent, heq⟩ := hmem
        cases heq
        rw [Option.mem_toList] at hcurrent
        have htaken := ConsensusEngine.takes_of_written hwritten
        rw [h.validatorsOf_currentBlock hcurrent]
        rcases hvouched.commit vote hevent hdecides block hcurrent htaken with
          ⟨hhash, hown⟩ | haggregated
        · left
          rw [hhash]
          exact h.precommitted hmembers hevent hdecides hown
        · exact .inr haggregated
      · rw [if_neg hdecides] at hmem
        cases hmem
  | syncResponse peer res =>
      simp only [hevent] at hmem
      by_cases hsyncing : state.engine.syncManager.isSyncing
      · rw [if_pos hsyncing] at hmem
        right
        have hsync := hvouched.sync peer res hevent hsyncing
        exact ConsensusEngine.aggregated_of_syncOutcomes hsync hmem hwritten
      · rw [if_neg hsyncing] at hmem
        cases hmem
  | _ =>
      simp only [hevent] at hmem
      cases hmem

end LoopState

/-- In any run from the head of the outer loop every step of which is vouched
for while there are validators, every block that is written then has behind it
the precommits counted so far of more than two thirds of the validators of its
epoch, or an aggregate signature of theirs. -/
theorem written_certified (engine : ConsensusEngine) (generation : Nat) (inputs : List Input)
    (hvouched : engineMachine.Admissible
      (fun state input => state.valSet.isEmpty = false → state.Vouched input)
      (engine.enterState generation) inputs) :
    ∀ before input after, inputs = before ++ input :: after →
      let state := engineMachine.final (engine.enterState generation) before
      let turns := engineMachine.visits (engine.enterState generation) (before ++ [input])
      state.valSet.isEmpty = false →
        ∀ block outcome, (block, outcome) ∈ Action.outcomes (state.step input).2 →
          outcome.written →
            (state.engine.validatorsOf block).Certified (countedVotes turns) block := by
  rintro before input after rfl
  intro state turns hmembers block outcome hmem hwritten
  have hattested : state.Attested
      (countedVotes (engineMachine.visits (engine.enterState generation) before)) := by
    apply engineMachine.invariant_visits fun past state => state.Attested (countedVotes past)
    · intro past state input h
      rw [countedVotes_concat]
      exact h.step input
    · exact LoopState.attested_enterState engine generation _
  have hturns : countedVotes turns =
      countedVotes (engineMachine.visits (engine.enterState generation) before) ++
        state.countedVotes input := by
    rw [← countedVotes_concat]
    exact congrArg countedVotes (engineMachine.visits_append _ before [input])
  have hallowed := (engineMachine.admissible_append.mp hvouched).2.1
  rw [hturns]
  exact hattested.certified hmembers (hallowed hmembers) hmem hwritten

end

/-! ## Blocks without a certificate -/

section

attribute [local instance] Blake3.sum Bls.plain Nova.rejecting

@[reducible] def BlsAggregates.plain : @BlsAggregates Bls.plain where
  AggregateSignature := Bytes96
  aggregateFromBytes := some
  fastAggregateVerify sig msg pks := sig.toList.take 2 == [pks.foldl (· + ·) 0, msg.headD 0]

attribute [local instance] BlsAggregates.plain

def fullNode : ConsensusEngine :=
  ConsensusEngine.new (StateStore.withValidators [1]) {} none

def unsignedBlock : Block := emptyBlock 1 (fill 32 0)

theorem unsigned_block_applied :
    let ahead := (Event.block (Block.blank 20 (fill 32 0) [])).input
    let response := (Event.syncResponse [] { blocks := [unsignedBlock] }).input
    let state := engineMachine.final (fullNode.enterState 0) [ahead]
    let turns := engineMachine.visits (fullNode.enterState 0) ([ahead] ++ [response])
    state.valSet.isEmpty = false ∧
      Action.outcomes (state.step response).2 =
        [(unsignedBlock, .applied unsignedBlock.header.stateRoot)] ∧
      ¬ (state.engine.validatorsOf unsignedBlock).Certified (countedVotes turns)
        unsignedBlock := by
  refine ⟨by decide +kernel, by decide +kernel, ?_⟩
  rintro (⟨signers, hquorum, hsigned⟩ | ⟨_, _, sig, _, _, _, hsig, _⟩)
  · -- a quorum is not empty, and no vote has come in
    have hpos : 0 < signers.card := by
      unfold IsQuorum at hquorum
      omega
    obtain ⟨id, hid⟩ := Finset.card_pos.mp hpos
    obtain ⟨vote, hmem, -⟩ := hsigned id hid
    have hnone : countedVotes (engineMachine.visits (fullNode.enterState 0)
        ([(Event.block (Block.blank 20 (fill 32 0) [])).input] ++
          [(Event.syncResponse [] { blocks := [unsignedBlock] }).input])) = [] := by
      decide +kernel
    rw [hnone] at hmem
    cases hmem
  · cases hsig

def votedHash : Hash32 := unsignedBlock.header.hash

def votedRun : List Input :=
  [(Event.block unsignedBlock).input,
    (Event.vote (Vote.plain 1 0 votedHash .prevote)).input]

def lastVote : Vote := Vote.plain 1 0 votedHash .precommit

theorem vouched_votedRun :
    engineMachine.Admissible (fun state input => state.valSet.isEmpty = false → state.Vouched input)
      (fullNode.enterState 0) (votedRun ++ [(Event.vote lastVote).input]) := by
  rw [Machine.admissible_append]
  refine ⟨⟨fun _ => ?_, fun _ => ?_, trivial⟩, fun _ => ?_, trivial⟩
  · exact ⟨fun _ hevent => (nomatch hevent), fun _ _ hevent => (nomatch hevent)⟩
  · apply LoopState.vouched_of_voted (b := unsignedBlock) rfl
    · decide +kernel
    · rfl
    · decide +kernel
  · apply LoopState.vouched_of_voted (b := unsignedBlock) rfl
    · decide +kernel
    · rfl
    · decide +kernel

theorem voted_block_certified :
    let start := fullNode.enterState 0
    let last := (Event.vote lastVote).input
    ((engineMachine.final start votedRun).engine.validatorsOf unsignedBlock).Certified
      (countedVotes (engineMachine.visits start (votedRun ++ [last]))) unsignedBlock := by
  intro start last
  exact written_certified fullNode 0 (votedRun ++ [last]) vouched_votedRun votedRun last [] rfl
    (by decide +kernel) unsignedBlock (.applied unsignedBlock.header.stateRoot)
    (by decide +kernel) rfl

end

end NoirNet
