import NoirNet.Consensus.Committee
import NoirNet.Consensus.Concrete

/-!
# Agreement

Two honest nodes that reach the commit phase at one height agree, as long as
every step of the run is disciplined.  Under that the ballot of the height stays
locked, and what a node counts stays certified; the agreement of locked ballots
is a general fact.  Without it two honest nodes can commit different blocks.
-/

namespace NoirNet

open Lib

namespace Committee

variable {ι : Type} [Fintype ι] [Bls] {height : UInt64} {committee : Committee ι height}

def Backed (committee : Committee ι height) (net : Network ι) (voteType : VoteType) (round : Nat)
    (hash : Hash32) (id : Bytes32) : Prop :=
  id ∈ committee.members ∧ (id ∉ committee.faulty → committee.Cast net voteType round hash id)

/-- What the runs of disciplined networks keep. -/
structure Sound (committee : Committee ι height) (net : Network ι) : Prop where
  regular : net.Regular committee.engines
  backed : ∀ i, (net.nodes i).height = height → ∀ voteType hash,
    ∀ id ∈ (net.nodes i).bft.voters voteType hash,
      committee.Backed net voteType (net.nodes i).round.toNat hash id
  locked : (committee.ballot net).Locked
  committed : ∀ i hash, (height, hash) ∈ net.commits i →
    ∃ round, committee.Certified net .precommit round hash

section Counted

variable {net : Network ι}

/-! ## Votes that are counted -/

theorem Sound.is_iff (h : committee.Sound net) {i : ι} {id : Bytes32} :
    committee.Is i id ↔ (net.nodes i).engine.secretKey.isSome ∧
      (net.nodes i).engine.localValidatorId = id := by
  rw [(h.regular.sameNode i).secretKey, (h.regular.sameNode i).localValidatorId]
  rfl

theorem Sound.valSet_node (h : committee.Sound net) {i : ι}
    (hheight : (net.nodes i).height = height) : (net.nodes i).valSet = committee.valSet := by
  rw [h.regular.valSet i, hheight]
  exact StateStore.getValidatorSet_congr (committee.shared i) _

variable [Blake3]

theorem Sound.is_of_casts (h : committee.Sound net) {i : ι} {input : Input} {v : Vote}
    (hv : v ∈ (net.nodes i).casts input) : committee.Is i v.validatorId := by
  obtain ⟨sk, hkey⟩ := LoopState.exists_key_of_mem_casts hv
  obtain ⟨-, -, hid, -⟩ := LoopState.casts_origin hv
  rw [h.is_iff, hkey, hid]
  exact ⟨rfl, rfl⟩

/-- A counted vote names a member, who has cast it if honest. -/
theorem Sound.backed_vote (h : committee.Sound net) {i : ι} {env : Env} {vote : Vote}
    (hunforgeable : net.Unforgeable committee.publicKey (i, { env, event := .vote vote }))
    (hdisciplined : committee.Disciplined net (i, { env, event := .vote vote }))
    (hheight : (net.nodes i).height = height) (hcounts : (net.nodes i).counts vote) :
    committee.Backed net vote.voteType (net.nodes i).round.toNat vote.blockHash
      vote.validatorId := by
  obtain ⟨-, hround, hvalid, -⟩ := LoopState.counts_iff.mp hcounts
  have hvalSet := h.valSet_node hheight
  obtain ⟨entry, pk, sig, hentry, hpk, hsig, hverify⟩ :=
    LoopState.isValid_of_members (by rw [hvalSet, committee.isEmpty_valSet]) hvalid
  rw [hvalSet] at hentry
  have hmem := mem_members hentry
  refine ⟨hmem, ?_⟩
  intro hcorrect
  obtain ⟨j, hj⟩ := exists_is hmem hcorrect
  -- the key under which the signature verifies is the one the honest node registered
  obtain ⟨entry', hentry', hpk'⟩ := hj.registered
  rw [hentry] at hentry'
  obtain rfl := Option.some.inj hentry'
  rw [hpk] at hpk'
  obtain rfl := Option.some.inj hpk'
  have hsigned := hunforgeable vote rfl sig hsig j hverify
  have hcast := hdisciplined.original hheight vote rfl hcounts j hj
    (h.regular.exists_vote hsigned)
  rwa [hround] at hcast

theorem Sound.backed_addVote (h : committee.Sound net) {i : ι} {env : Env} {vote : Vote}
    (hunforgeable : net.Unforgeable committee.publicKey (i, { env, event := .vote vote }))
    (hdisciplined : committee.Disciplined net (i, { env, event := .vote vote }))
    (hheight : (net.nodes i).height = height) (hcounts : (net.nodes i).counts vote)
    {voteType : VoteType} {hash : Hash32} {id : Bytes32}
    (hid : id ∈ ((net.nodes i).bft.addVote vote).1.voters voteType hash) :
    committee.Backed net voteType (net.nodes i).round.toNat hash id := by
  rcases BftRoundState.mem_voters_addVote.mp hid with hold | ⟨-, rfl, rfl, rfl⟩
  · exact h.backed i hheight voteType hash id hold
  · exact h.backed_vote hunforgeable hdisciplined hheight hcounts

/-- A quorum that a counted vote completes is a certificate. -/
theorem Sound.certified_of_quorum (h : committee.Sound net) {i : ι} {env : Env} {vote : Vote}
    (hunforgeable : net.Unforgeable committee.publicKey (i, { env, event := .vote vote }))
    (hdisciplined : committee.Disciplined net (i, { env, event := .vote vote }))
    (hheight : (net.nodes i).height = height) (hcounts : (net.nodes i).counts vote)
    {voteType : VoteType} {hash : Hash32}
    (hquorum : ((net.nodes i).bft.addVote vote).1.hasQuorum voteType hash) :
    committee.Certified net voteType (net.nodes i).round.toNat hash := by
  have hvalSet := h.valSet_node hheight
  have hbacked {id : Bytes32}
      (hid : id ∈ ((net.nodes i).bft.addVote vote).1.voters voteType hash) :=
    h.backed_addVote hunforgeable hdisciplined hheight hcounts hid
  have hcard := (h.regular.coherent i).quorum (by rw [hvalSet, committee.isEmpty_valSet])
    (BftRoundState.addVote_totalValidators _ vote) hquorum
  rw [hvalSet] at hcard
  exact ⟨_, fun id hid => (hbacked hid).1, hcard, fun id hid => (hbacked hid).2⟩

end Counted

/-! ## One step -/

section Step

variable [DecidableEq ι] [Blake3] [Nova] {net : Network ι} {arrival : ι × Input}

/-- The votes of a step are old, or the receiving node has just cast them. -/
theorem cast_step_iff {voteType : VoteType} {round : Nat} {hash : Hash32} {id : Bytes32} :
    committee.Cast (net.step arrival).1 voteType round hash id ↔
      committee.Cast net voteType round hash id ∨ committee.Is arrival.1 id ∧
        ∃ v ∈ (net.nodes arrival.1).casts arrival.2, v.height = height ∧
          v.round.toNat = round ∧ v.voteType = voteType ∧ v.blockHash = hash := by
  unfold Cast
  constructor
  · rintro ⟨i, hi, v, hv, hvote⟩
    rcases Network.mem_votes_step.mp hv with hold | ⟨rfl, hnew⟩
    · exact .inl ⟨i, hi, v, hold, hvote⟩
    · exact .inr ⟨hi, v, hnew, hvote⟩
  · rintro (⟨i, hi, v, hold, hvote⟩ | ⟨hi, v, hnew, hvote⟩)
    · exact ⟨i, hi, v, Network.mem_votes_step.mpr (.inl hold), hvote⟩
    · exact ⟨arrival.1, hi, v, Network.mem_votes_step.mpr (.inr ⟨rfl, hnew⟩), hvote⟩

theorem Cast.step {voteType : VoteType} {round : Nat} {hash : Hash32} {id : Bytes32}
    (h : committee.Cast net voteType round hash id) (arrival : ι × Input) :
    committee.Cast (net.step arrival).1 voteType round hash id :=
  cast_step_iff.mpr (.inl h)

theorem Certified.step {voteType : VoteType} {round : Nat} {hash : Hash32}
    (h : committee.Certified net voteType round hash) (arrival : ι × Input) :
    committee.Certified (net.step arrival).1 voteType round hash :=
  Ballot.Certified.mono h fun _ hcast => hcast.step arrival

theorem Backed.step {voteType : VoteType} {round : Nat} {hash : Hash32} {id : Bytes32}
    (h : committee.Backed net voteType round hash id) (arrival : ι × Input) :
    committee.Backed (net.step arrival).1 voteType round hash id :=
  ⟨h.1, fun hcorrect => (h.2 hcorrect).step arrival⟩

/-! ### The ballot stays locked -/

theorem prevote_new_unique (hdisciplined : committee.Disciplined net arrival) {round : Nat}
    {hash : Hash32} {id : Bytes32} (hi : committee.Is arrival.1 id) {v : Vote}
    (hv : v ∈ (net.nodes arrival.1).casts arrival.2) (hheight : v.height = height)
    (hround : v.round.toNat = round) (htype : v.voteType = .prevote)
    (hcast : committee.Cast (net.step arrival).1 .prevote round hash id) :
    v.blockHash = hash := by
  obtain ⟨block, hevent, hadmits, hhash⟩ := LoopState.prevote_of_casts hv htype
  obtain ⟨hheight', hround', -, -⟩ := LoopState.casts_origin hv
  rcases cast_step_iff.mp hcast with hold | ⟨-, v', hv', -, -, htype', rfl⟩
  · obtain ⟨v', hv', hvheight, hvround, hvtype, rfl⟩ := hold.exists_vote hi
    have hsame : v'.round = (net.nodes arrival.1).round := by
      rw [← hround']
      exact UInt32.toNat_inj.mp (hvround.trans hround.symm)
    have honce := hdisciplined.once (hheight'.symm.trans hheight) block hevent hadmits v' hv'
      hvheight hvtype hsame
    exact hhash.trans honce.symm
  · obtain ⟨block', hevent', -, hhash'⟩ := LoopState.prevote_of_casts hv' htype'
    rw [hevent] at hevent'
    cases hevent'
    exact hhash.trans hhash'.symm

theorem Sound.prevote_unique_step (h : committee.Sound net)
    (hdisciplined : committee.Disciplined net arrival) {round : Nat} {hash hash' : Hash32}
    {id : Bytes32} (hcorrect : id ∉ committee.faulty)
    (hcast : committee.Cast (net.step arrival).1 .prevote round hash id)
    (hcast' : committee.Cast (net.step arrival).1 .prevote round hash' id) : hash = hash' := by
  rcases cast_step_iff.mp hcast with hold | ⟨hi, v, hv, hheight, hround, htype, rfl⟩
  · rcases cast_step_iff.mp hcast' with hold' | ⟨hi, v, hv, hheight, hround, htype, rfl⟩
    · exact h.locked.prevote_unique id hcorrect round hash hash' hold hold'
    · exact (prevote_new_unique hdisciplined hi hv hheight hround htype hcast).symm
  · exact prevote_new_unique hdisciplined hi hv hheight hround htype hcast'

theorem Sound.precommit_certified_step (h : committee.Sound net)
    (hunforgeable : net.Unforgeable committee.publicKey arrival)
    (hdisciplined : committee.Disciplined net arrival) {round : Nat} {hash : Hash32}
    {id : Bytes32} (hcorrect : id ∉ committee.faulty)
    (hcast : committee.Cast (net.step arrival).1 .precommit round hash id) :
    committee.Certified (net.step arrival).1 .prevote round hash := by
  rcases cast_step_iff.mp hcast with hold | ⟨hi, v, hv, hheight, rfl, htype, rfl⟩
  · have hcertified : committee.Certified net .prevote round hash :=
      h.locked.precommit_certified id hcorrect round hash hold
    exact hcertified.step arrival
  · obtain ⟨i, env, event⟩ := arrival
    obtain ⟨vote, hevent, hcompletes, hhash⟩ := LoopState.precommit_of_casts hv htype
    obtain ⟨hheight', hround', -, -⟩ := LoopState.casts_origin hv
    obtain rfl : event = .vote vote := hevent
    have hcertified := h.certified_of_quorum hunforgeable hdisciplined
      (hheight'.symm.trans hheight) (LoopState.counts_of_completesPrevote hcompletes)
      (LoopState.quorum_of_completesPrevote hcompletes)
    rw [hround', hhash]
    exact hcertified.step _

theorem Sound.lock_step (h : committee.Sound net)
    (hdisciplined : committee.Disciplined net arrival) {round later : Nat}
    {hash hash' : Hash32} {id : Bytes32} (hcorrect : id ∉ committee.faulty)
    (hprecommit : committee.Cast (net.step arrival).1 .precommit round hash id)
    (hlt : round < later)
    (hprevote : committee.Cast (net.step arrival).1 .prevote later hash' id)
    (hne : hash ≠ hash') :
    ∃ between, round < between ∧ between < later ∧
      committee.Certified (net.step arrival).1 .prevote between hash' := by
  rcases cast_step_iff.mp hprecommit with hold | ⟨hi, v, hv, hheight, hround, htype, rfl⟩
  · rcases cast_step_iff.mp hprevote with hold' | ⟨hi, v, hv, hheight, hround, htype, rfl⟩
    · obtain ⟨between, hafter, hbefore, hrelease⟩ :=
        h.locked.lock id hcorrect round hash later hash' hold hlt hold' hne
      have hrelease' : committee.Certified net .prevote between hash' := hrelease
      exact ⟨between, hafter, hbefore, hrelease'.step arrival⟩
    · -- the new prevote leaves the precommit behind
      obtain ⟨block, hevent, hadmits, hhash⟩ := LoopState.prevote_of_casts hv htype
      obtain ⟨hheight', hround', -, -⟩ := LoopState.casts_origin hv
      obtain ⟨v', hv', hvheight, hvround, hvtype, rfl⟩ := hold.exists_vote hi
      have hearlier : v'.round < (net.nodes arrival.1).round := by
        rw [UInt32.lt_iff_toNat_lt, ← hround']
        omega
      obtain ⟨between, hafter, hbefore, hrelease⟩ :=
        hdisciplined.lock (hheight'.symm.trans hheight) block hevent hadmits v' hv' hvheight
          hvtype hearlier (hhash ▸ hne)
      rw [← hround'] at hbefore
      rw [hhash]
      exact ⟨between, by omega, by omega, hrelease.step arrival⟩
  · -- a precommit of the step is not of an earlier round than the prevote
    exfalso
    obtain ⟨vote, hevent, hcompletes, hhash⟩ := LoopState.precommit_of_casts hv htype
    obtain ⟨hheight', hround', -, -⟩ := LoopState.casts_origin hv
    rcases cast_step_iff.mp hprevote with hold' | ⟨-, v', hv', -, hvround, hvtype, -⟩
    · obtain ⟨v', hv', hvheight, hvround, hvtype, rfl⟩ := hold'.exists_vote hi
      have hle := hdisciplined.forward (hheight'.symm.trans hheight) vote hevent hcompletes v' hv'
        hvheight hvtype fun heq => hne (hhash.trans heq.symm)
      rw [UInt32.le_iff_toNat_le, ← hround'] at hle
      omega
    · obtain ⟨-, hvround', -, -⟩ := LoopState.casts_origin hv'
      have hsame : v.round.toNat = v'.round.toNat := by rw [hround', hvround']
      omega

theorem Sound.locked_step (h : committee.Sound net)
    (hunforgeable : net.Unforgeable committee.publicKey arrival)
    (hdisciplined : committee.Disciplined net arrival) :
    (committee.ballot (net.step arrival).1).Locked where
  prevote_unique _ hcorrect _ _ _ hcast hcast' :=
    h.prevote_unique_step hdisciplined hcorrect hcast hcast'
  precommit_certified _ hcorrect _ _ hcast :=
    h.precommit_certified_step hunforgeable hdisciplined hcorrect hcast
  lock _ hcorrect _ _ _ _ hprecommit hlt hprevote hne :=
    h.lock_step hdisciplined hcorrect hprecommit hlt hprevote hne

/-! ### Voters and commits stay certified -/

theorem Sound.backed_self (h : committee.Sound net) {i : ι} {input : Input}
    (hunforgeable : net.Unforgeable committee.publicKey (i, input))
    (hdisciplined : committee.Disciplined net (i, input)) {voteType : VoteType} {hash : Hash32}
    {id : Bytes32} (hheight : ((net.nodes i).step input).1.height = height)
    (hid : id ∈ ((net.nodes i).step input).1.bft.voters voteType hash) :
    committee.Backed (net.step (i, input)).1 voteType ((net.nodes i).step input).1.round.toNat
      hash id := by
  revert hheight hid
  refine LoopState.step_cases (net.nodes i) input ?stay ?timeout ?enter
  case stay =>
    intro engine _ hheight hid
    rcases LoopState.mem_voters_nextBft hid with
      hold | ⟨vote, hevent, hcounts, hvoter⟩ | ⟨v, hv, htype, hhash, rfl⟩
    · exact (h.backed i hheight voteType hash id hold).step _
    · obtain ⟨env, event⟩ := input
      obtain rfl : event = .vote vote := hevent
      exact (h.backed_addVote hunforgeable hdisciplined hheight hcounts hvoter).step _
    · have hi := h.is_of_casts hv
      obtain ⟨hvheight, hvround, -, -⟩ := LoopState.casts_origin hv
      refine ⟨hi.mem_members, fun _ => cast_step_iff.mpr (.inr ⟨hi, v, hv, ?_⟩)⟩
      exact ⟨hvheight.trans hheight, congrArg _ hvround, htype, hhash⟩
  case timeout =>
    intro engine _ _ _ hid
    simp at hid
  case enter =>
    intro engine _ _ hid
    simp [ConsensusEngine.enterState] at hid

theorem Sound.backed_step (h : committee.Sound net)
    (hunforgeable : net.Unforgeable committee.publicKey arrival)
    (hdisciplined : committee.Disciplined net arrival) (i : ι)
    (hheight : ((net.step arrival).1.nodes i).height = height) (voteType : VoteType)
    (hash : Hash32) (id : Bytes32)
    (hid : id ∈ ((net.step arrival).1.nodes i).bft.voters voteType hash) :
    committee.Backed (net.step arrival).1 voteType ((net.step arrival).1.nodes i).round.toNat
      hash id := by
  rw [Network.nodes_step] at hheight hid ⊢
  by_cases hi : i = arrival.1
  · rw [if_pos hi] at hheight hid ⊢
    exact h.backed_self hunforgeable hdisciplined hheight hid
  · rw [if_neg hi] at hheight hid ⊢
    exact (h.backed i hheight voteType hash id hid).step arrival

theorem Sound.committed_step (h : committee.Sound net)
    (hunforgeable : net.Unforgeable committee.publicKey arrival)
    (hdisciplined : committee.Disciplined net arrival) (i : ι) (hash : Hash32)
    (hcommit : (height, hash) ∈ (net.step arrival).1.commits i) :
    ∃ round, committee.Certified (net.step arrival).1 .precommit round hash := by
  rcases Network.mem_commits_step.mp hcommit with hold | ⟨rfl, hnew⟩
  · obtain ⟨round, hcertified⟩ := h.committed i hash hold
    exact ⟨round, hcertified.step arrival⟩
  · obtain ⟨i, env, event⟩ := arrival
    obtain ⟨vote, rfl, hdecides, hheight, rfl⟩ := LoopState.mem_commitsOn hnew
    have hcertified := h.certified_of_quorum hunforgeable hdisciplined hheight.symm
      (LoopState.decides_iff.mp hdecides).1 (LoopState.quorum_of_decides hdecides)
    exact ⟨_, hcertified.step _⟩

theorem Sound.step (h : committee.Sound net)
    (hunforgeable : net.Unforgeable committee.publicKey arrival)
    (hdisciplined : committee.Disciplined net arrival) :
    committee.Sound (net.step arrival).1 where
  regular := h.regular.step arrival
  backed := h.backed_step hunforgeable hdisciplined
  locked := h.locked_step hunforgeable hdisciplined
  committed := h.committed_step hunforgeable hdisciplined

end Step

/-! ## Runs -/

theorem not_cast_start (committee : Committee ι height) {voteType : VoteType} {round : Nat}
    {hash : Hash32} {id : Bytes32} :
    ¬ committee.Cast (Network.start committee.engines) voteType round hash id := by
  rintro ⟨i, -, v, hv, -⟩
  simp [Network.votes, Network.start, Action.votes] at hv

theorem sound_start (committee : Committee ι height) :
    committee.Sound (Network.start committee.engines) where
  regular := Network.regular_start committee.engines
  backed i _ voteType hash id hid := by
    simp [Network.start, ConsensusEngine.enterState] at hid
  locked :=
    { prevote_unique := fun _ _ _ _ _ hcast => absurd hcast committee.not_cast_start
      precommit_certified := fun _ _ _ _ hcast => absurd hcast committee.not_cast_start
      lock := fun _ _ _ _ _ _ hcast => absurd hcast committee.not_cast_start }
  committed i hash hcommit := by
    simp [Network.commits, Network.start, Action.commits] at hcommit

end Committee

/-- In every run in which signatures are not forged and every step is
disciplined, honest nodes that reach the commit phase at the height do so for
one hash, whatever the rounds. -/
theorem honest_commits_agree {ι : Type} [Fintype ι] [DecidableEq ι] [Bls] [Blake3] [Nova]
    {height : UInt64}
    (committee : Committee ι height) (arrivals : List (ι × Input))
    (hrun : networkMachine.Admissible
      (fun net arrival => net.Unforgeable committee.publicKey arrival ∧
        committee.Disciplined net arrival) (Network.start committee.engines) arrivals) :
    let net := networkMachine.final (Network.start committee.engines) arrivals
    ∀ i j hash hash', (height, hash) ∈ net.commits i → (height, hash') ∈ net.commits j →
      hash = hash' := by
  intro net i j hash hash' hcommit hcommit'
  have hsound : committee.Sound net :=
    networkMachine.invariant committee.Sound
      (fun _ _ hallowed h => h.step hallowed.1 hallowed.2) committee.sound_start hrun
  obtain ⟨round, hcertified⟩ := hsound.committed i hash hcommit
  obtain ⟨round', hcertified'⟩ := hsound.committed j hash' hcommit'
  exact hsound.locked.agreement committee.card_members_le committee.card_faulty_lt hcertified
    hcertified'

/-! ## Runs of small committees -/

namespace Committee

/-- Votes arrive as they were sent, and a node hears of no other hash than those
it has voted for. -/
def Steady {ι : Type} [Bls] [Blake3] [Fintype ι] {height : UInt64}
    (committee : Committee ι height) (net : Network ι) (arrival : ι × Input) : Prop :=
  (∀ block ∈ arrival.2.event.block?,
    ∀ v ∈ net.votes arrival.1, v.blockHash = block.header.hash) ∧
  ∀ vote ∈ arrival.2.event.vote?,
    (∀ v ∈ net.votes arrival.1, v.blockHash = vote.blockHash) ∧
      ∃ i, committee.Is i vote.validatorId ∧ vote ∈ net.votes i

instance Steady.decidable {ι : Type} {_ : Bls} {_ : Blake3} [Fintype ι] {height : UInt64}
    (committee : Committee ι height) (net : Network ι) (arrival : ι × Input) :
    Decidable (committee.Steady net arrival) :=
  inferInstanceAs (Decidable (_ ∧ _))

theorem Steady.disciplined {ι : Type} [Bls] [Blake3] [Fintype ι] {height : UInt64}
    {committee : Committee ι height} {net : Network ι} {arrival : ι × Input}
    (h : committee.Steady net arrival) : committee.Disciplined net arrival where
  original hheight vote hevent hcounts _ _ _ := by
    obtain ⟨-, i, hi, hsent⟩ := h.2 vote (by rw [hevent]; rfl)
    obtain ⟨hvote, -, -, -⟩ := LoopState.counts_iff.mp hcounts
    exact ⟨i, hi, vote, hsent, hvote.trans hheight, rfl, rfl, rfl⟩
  once _ block hevent _ v hv _ _ _ := h.1 block (by rw [hevent]; rfl) v hv
  lock _ block hevent _ v hv _ _ _ hne := absurd (h.1 block (by rw [hevent]; rfl) v hv) hne
  forward _ vote hevent _ v hv _ _ hne :=
    absurd ((h.2 vote (by rw [hevent]; rfl)).1 v hv) hne

end Committee

section

attribute [local instance] Blake3.sum Bls.plain Nova.rejecting

def committeeOfTwo : Committee (Fin 2) 1 where
  store := StateStore.withValidators [1, 2]
  engines := plainNodes 2 [1, 2]
  publicKey := plainKeys 2
  shared := by decide +kernel
  distinct := by decide +kernel
  registered := by decide +kernel
  few := by decide +kernel

def commonRun : List (Fin 2 × Input) :=
  let hash := blockA.header.hash
  [(0, (Event.block blockA).input), (1, (Event.block blockA).input),
    (0, (Event.vote (Vote.plain 2 0 hash .prevote)).input),
    (1, (Event.vote (Vote.plain 1 0 hash .prevote)).input),
    (0, (Event.vote (Vote.plain 2 0 hash .precommit)).input),
    (1, (Event.vote (Vote.plain 1 0 hash .precommit)).input)]

theorem commonRun_commits_agree :
    let net := networkMachine.final (Network.start committeeOfTwo.engines) commonRun
    ((1, blockA.header.hash) ∈ net.commits 0 ∧ (1, blockA.header.hash) ∈ net.commits 1) ∧
      ∀ i j hash hash', (1, hash) ∈ net.commits i → (1, hash') ∈ net.commits j →
        hash = hash' := by
  refine ⟨by decide +kernel, honest_commits_agree committeeOfTwo commonRun ?_⟩
  have hrun : networkMachine.Admissible
      (fun net arrival => net.Unforgeable committeeOfTwo.publicKey arrival ∧
        committeeOfTwo.Steady net arrival) (Network.start committeeOfTwo.engines) commonRun := by
    decide +kernel
  exact Machine.Admissible.imp _ hrun fun _ _ h => ⟨h.1, h.2.disciplined⟩

def committeeOfFour : Committee (Fin 3) 1 where
  store := StateStore.withValidators [1, 2, 3, 4]
  engines := plainNodes 3 [1, 2, 3, 4]
  publicKey := plainKeys 3
  shared := by decide +kernel
  distinct := by decide +kernel
  registered := by decide +kernel
  few := by decide +kernel

/-- The honest validators precommit the first proposal, and one of them commits
it; behind a timeout the other two turn to the second one. -/
def forkedRun : List (Fin 3 × Input) :=
  let a := blockA.header.hash
  let b := blockB.header.hash
  [(0, (Event.block blockA).input),
    (1, (Event.block blockA).input),
    (2, (Event.block blockA).input),
    (0, (Event.vote (Vote.plain 2 0 a .prevote)).input),
    (0, (Event.vote (Vote.plain 3 0 a .prevote)).input),
    (1, (Event.vote (Vote.plain 1 0 a .prevote)).input),
    (1, (Event.vote (Vote.plain 3 0 a .prevote)).input),
    (2, (Event.vote (Vote.plain 1 0 a .prevote)).input),
    (2, (Event.vote (Vote.plain 2 0 a .prevote)).input),
    (0, (Event.vote (Vote.plain 2 0 a .precommit)).input),
    (0, (Event.vote (Vote.plain 3 0 a .precommit)).input),
    (1, Event.timeout.input),
    (2, Event.timeout.input),
    (1, (Event.block blockB).input),
    (2, (Event.block blockB).input),
    (1, (Event.vote (Vote.plain 3 1 b .prevote)).input),
    (1, (Event.vote (Vote.plain 4 1 b .prevote)).input),
    (2, (Event.vote (Vote.plain 2 1 b .prevote)).input),
    (2, (Event.vote (Vote.plain 4 1 b .prevote)).input),
    (1, (Event.vote (Vote.plain 3 1 b .precommit)).input),
    (1, (Event.vote (Vote.plain 4 1 b .precommit)).input)]

/-- Without forged signatures, and with one faulty validator in four, two honest
nodes commit different blocks at one height. -/
theorem commits_disagree :
    let start := Network.start committeeOfFour.engines
    let net := networkMachine.final start forkedRun
    networkMachine.Admissible (Network.Unforgeable committeeOfFour.publicKey) start forkedRun ∧
      (1, blockA.header.hash) ∈ net.commits 0 ∧ (1, blockB.header.hash) ∈ net.commits 1 ∧
      blockA.header.hash ≠ blockB.header.hash := by
  decide +kernel

end

end NoirNet
