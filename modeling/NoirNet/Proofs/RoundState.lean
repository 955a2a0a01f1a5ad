import NoirNet.Consensus.Bft
import NoirNet.Lib.Machine
import NoirNet.Lib.Quorum
import NoirNet.Proofs.Election

/-!
# The round state by itself

What a `BftRoundState` certifies, over any sequence of votes and attempts to
advance, in whatever order and for whatever hashes.

* `voters_final`: the tallies are the votes of the right height and round;
* `commit_certified`: the phase is shared by all hashes, so the quorum of prevotes
  behind a commit is for the hash that led into the precommit phase;
* `quorum_intersection`: two states of one round have no quorums for two hashes
  while fewer than a third precommit twice.
-/

namespace NoirNet

open Lib

inductive RoundCall where
  | addVote (vote : Vote)
  | tryAdvancePhase (hash : Hash32)
  deriving DecidableEq

/-- A round state under its calls; what `try_advance_phase` returns is the output, with
the hash it was asked for. -/
def roundMachine : Machine BftRoundState RoundCall (Hash32 × BftPhase) where
  step
    | bft, .addVote vote => ((bft.addVote vote).1, [])
    | bft, .tryAdvancePhase hash =>
        ((bft.tryAdvancePhase hash).1,
          ((bft.tryAdvancePhase hash).2.map fun phase => (hash, phase)).toList)

namespace BftRoundState

theorem tryAdvancePhase_cases (bft : BftRoundState) (hash : Hash32) :
    (bft.phase = .propose ∧
        bft.tryAdvancePhase hash = ({ bft with phase := .prevote }, some .prevote)) ∨
    (bft.phase = .prevote ∧ bft.hasQuorum .prevote hash ∧
      bft.tryAdvancePhase hash = ({ bft with phase := .precommit }, some .precommit)) ∨
    (bft.phase = .precommit ∧ bft.hasQuorum .precommit hash ∧
      bft.tryAdvancePhase hash = ({ bft with phase := .commit }, some .commit)) ∨
    bft.tryAdvancePhase hash = (bft, none) := by
  unfold tryAdvancePhase hasQuorumPrevote hasQuorumPrecommit
  cases hphase : bft.phase with
  | propose => simp
  | prevote => cases hquorum : bft.hasQuorum .prevote hash <;> simp
  | precommit => cases hquorum : bft.hasQuorum .precommit hash <;> simp
  | commit => simp

theorem hasQuorum_iff {bft : BftRoundState} {voteType : VoteType} {hash : Hash32} :
    bft.hasQuorum voteType hash ↔ IsQuorum bft.totalValidators (bft.voters voteType hash) :=
  decide_eq_true_iff

theorem hasQuorum_congr {bft bft' : BftRoundState} {voteType : VoteType} {hash : Hash32}
    (hvoters : bft'.voters voteType hash = bft.voters voteType hash)
    (htotal : bft'.totalValidators = bft.totalValidators) :
    bft'.hasQuorum voteType hash = bft.hasQuorum voteType hash := by
  rw [hasQuorum, hasQuorum, hvoters, htotal]

theorem hasQuorum_addVote {bft : BftRoundState} {voteType : VoteType} {hash : Hash32}
    (h : bft.hasQuorum voteType hash) (vote : Vote) :
    (bft.addVote vote).1.hasQuorum voteType hash := by
  rw [hasQuorum_iff] at h ⊢
  have hsub : bft.voters voteType hash ⊆ (bft.addVote vote).1.voters voteType hash :=
    fun id hid => mem_voters_addVote.mpr (.inl hid)
  have hcard := Finset.card_le_card hsub
  rw [addVote_totalValidators]
  unfold IsQuorum at h ⊢
  omega

end BftRoundState

open BftRoundState

/-! ## Tallies of a run -/

theorem frame_step (bft : BftRoundState) (call : RoundCall) :
    (roundMachine.step bft call).1.height = bft.height ∧
      (roundMachine.step bft call).1.round = bft.round ∧
      (roundMachine.step bft call).1.totalValidators = bft.totalValidators := by
  cases call with
  | addVote vote => simp [roundMachine]
  | tryAdvancePhase hash => simp [roundMachine]

theorem voters_step (bft : BftRoundState) (call : RoundCall) {voteType : VoteType} {hash : Hash32}
    {id : Bytes32} :
    id ∈ (roundMachine.step bft call).1.voters voteType hash ↔
      id ∈ bft.voters voteType hash ∨ ∃ vote, call = .addVote vote ∧ bft.Matches vote ∧
        vote.voteType = voteType ∧ vote.blockHash = hash ∧ vote.validatorId = id := by
  cases call with
  | addVote vote => simpa [roundMachine] using mem_voters_addVote
  | tryAdvancePhase hash' => simp [roundMachine]

/-- A voter is counted exactly if a vote of the right height and round says so. -/
theorem voters_final (bft : BftRoundState) (calls : List RoundCall) {voteType : VoteType}
    {hash : Hash32} {id : Bytes32} :
    id ∈ (roundMachine.final bft calls).voters voteType hash ↔
      id ∈ bft.voters voteType hash ∨ ∃ vote, .addVote vote ∈ calls ∧ bft.Matches vote ∧
        vote.voteType = voteType ∧ vote.blockHash = hash ∧ vote.validatorId = id := by
  induction calls generalizing bft with
  | nil => simp
  | cons call calls ih =>
      obtain ⟨hheight, hround, -⟩ := frame_step bft call
      have hmatches (vote : Vote) :
          (roundMachine.step bft call).1.Matches vote ↔ bft.Matches vote := by
        rw [Matches, Matches, hheight, hround]
      rw [Machine.final_cons, ih, voters_step]
      simp only [hmatches, List.mem_cons]
      constructor
      · rintro ((hold | ⟨vote, hcall, hvote⟩) | ⟨vote, hmem, hvote⟩)
        · exact .inl hold
        · exact .inr ⟨vote, .inl hcall.symm, hvote⟩
        · exact .inr ⟨vote, .inr hmem, hvote⟩
      · rintro (hold | ⟨vote, hcall | hmem, hvote⟩)
        · exact .inl (.inl hold)
        · exact .inl (.inr ⟨vote, hcall.symm, hvote⟩)
        · exact .inr ⟨vote, hmem, hvote⟩

theorem totalValidators_final (bft : BftRoundState) (calls : List RoundCall) :
    (roundMachine.final bft calls).totalValidators = bft.totalValidators :=
  roundMachine.invariant_final (fun s => s.totalValidators = bft.totalValidators)
    (fun s call h => (frame_step s call).2.2.trans h) rfl calls

/-! ## What a commit certifies -/

/-- Into the precommit phase the calls have led once, with a quorum of prevotes for the
hash asked for. -/
structure Certified (s : BftRoundState × List (Hash32 × BftPhase)) : Prop where
  early : ¬ s.1.PastPrevote → (s.2.filter fun o => o.2 = .precommit) = []
  late : s.1.PastPrevote → ∃ g, (s.2.filter fun o => o.2 = .precommit) = [(g, .precommit)] ∧
    s.1.hasQuorum .prevote g

theorem Certified.step {s : BftRoundState × List (Hash32 × BftPhase)} (h : Certified s)
    (call : RoundCall) : Certified (roundMachine.recorded.step s call).1 := by
  obtain ⟨bft, past⟩ := s
  cases call with
  | addVote vote =>
      show Certified ((bft.addVote vote).1, past ++ [])
      rw [List.append_nil]
      have hpast : (bft.addVote vote).1.PastPrevote ↔ bft.PastPrevote := by
        rw [PastPrevote, PastPrevote, addVote_phase]
      constructor
      · intro hearly
        exact h.early (hpast.not.mp hearly)
      · intro hlate
        obtain ⟨g, hfilter, hquorum⟩ := h.late (hpast.mp hlate)
        exact ⟨g, hfilter, hasQuorum_addVote hquorum vote⟩
  | tryAdvancePhase hash =>
      show Certified ((bft.tryAdvancePhase hash).1,
        past ++ ((bft.tryAdvancePhase hash).2.map fun phase => (hash, phase)).toList)
      obtain ⟨hphase, heq⟩ | ⟨hphase, hquorum, heq⟩ | ⟨hphase, hquorum, heq⟩ | heq :=
        bft.tryAdvancePhase_cases hash
      · have hearly := h.early (by simp [PastPrevote, hphase])
        rw [heq]
        exact ⟨fun _ => by simpa using hearly, fun hlate => by simp [PastPrevote] at hlate⟩
      · have hearly := h.early (by simp [PastPrevote, hphase])
        rw [heq]
        refine ⟨fun hnot => absurd (.inl rfl) hnot, fun _ => ⟨hash, ?_, hquorum⟩⟩
        simpa using hearly
      · obtain ⟨g, hfilter, hprevotes⟩ := h.late (.inl hphase)
        rw [heq]
        refine ⟨fun hnot => absurd (.inr rfl) hnot, fun _ => ⟨g, ?_, hprevotes⟩⟩
        simpa using hfilter
      · rw [heq]
        simpa using h

theorem certified_final (height : UInt64) (round : UInt32) (totalValidators : Nat)
    (calls : List RoundCall) :
    let start := BftRoundState.new height round totalValidators
    Certified (roundMachine.final start calls, roundMachine.outputs start calls) := by
  intro start
  have hstart : Certified (start, []) :=
    ⟨fun _ => rfl, fun hlate => by simp [PastPrevote, start, BftRoundState.new] at hlate⟩
  have hrun := roundMachine.recorded.invariant_final Certified (fun _ call h => h.step call) hstart
    calls
  rwa [Machine.final_recorded, List.nil_append] at hrun

/-- In every run of a new round state: a commit has a quorum of precommits for its own hash,
and a quorum of prevotes for the hash of the one call that returned the precommit phase. -/
theorem commit_certified (height : UInt64) (round : UInt32) (totalValidators : Nat)
    (calls : List RoundCall) (hash : Hash32)
    (hcommit : ((roundMachine.final (BftRoundState.new height round totalValidators)
      calls).tryAdvancePhase hash).2 = some .commit) :
    let start := BftRoundState.new height round totalValidators
    let bft := ((roundMachine.final start calls).tryAdvancePhase hash).1
    bft.hasQuorumPrecommit hash ∧
      ∃ g, ((roundMachine.outputs start calls).filter fun o => o.2 = .precommit) =
          [(g, .precommit)] ∧
        bft.hasQuorumPrevote g := by
  intro start bft
  obtain ⟨hphase, hquorum⟩ := tryAdvancePhase_eq_commit.mp hcommit
  obtain ⟨g, hfilter, hprevotes⟩ := (certified_final height round totalValidators calls).late
    (.inl hphase)
  have hkeep (voteType : VoteType) (hash' : Hash32) : bft.hasQuorum voteType hash' =
      (roundMachine.final start calls).hasQuorum voteType hash' :=
    hasQuorum_congr (tryAdvancePhase_voters _ hash hash' voteType)
      (tryAdvancePhase_totalValidators _ hash)
  refine ⟨?_, g, hfilter, ?_⟩
  · rw [hasQuorumPrecommit, hkeep]
    exact hquorum
  · rw [hasQuorumPrevote, hkeep]
    exact hprevotes

/-! ### One validator, two hashes -/

def roundVote (voteType : VoteType) (hash id : UInt8) : Vote where
  height := 1
  round := 0
  blockHash := fill 32 hash
  voteType := voteType
  validatorId := fill 32 id
  signature := fill 96 0

def switching : List RoundCall :=
  [.addVote (roundVote .prevote 1 1), .tryAdvancePhase (fill 32 1), .tryAdvancePhase (fill 32 1),
    .addVote (roundVote .precommit 2 1)]

theorem switching_commits :
    let bft := roundMachine.final (BftRoundState.new 1 0 1) switching
    (bft.tryAdvancePhase (fill 32 2)).2 = some .commit ∧
      (bft.tryAdvancePhase (fill 32 2)).1.hasQuorumPrevote (fill 32 2) = false := by
  decide +kernel

theorem switching_certified :
    let start := BftRoundState.new 1 0 1
    let bft := ((roundMachine.final start switching).tryAdvancePhase (fill 32 2)).1
    bft.hasQuorumPrecommit (fill 32 2) ∧
      ∃ g, ((roundMachine.outputs start switching).filter fun o => o.2 = .precommit) =
          [(g, .precommit)] ∧
        bft.hasQuorumPrevote g :=
  commit_certified 1 0 1 switching (fill 32 2) (by decide +kernel)

/-! ## Quorums of two states -/

def equivocators (ids : Finset Bytes32) (votes : List Vote) : Finset Bytes32 :=
  ids.filter fun id => ∃ v ∈ votes, ∃ w ∈ votes, v.voteType = .precommit ∧ w.voteType = .precommit ∧
    v.validatorId = id ∧ w.validatorId = id ∧ v.blockHash ≠ w.blockHash

def tallied (height : UInt64) (round : UInt32) (totalValidators : Nat) (votes : List Vote) :
    BftRoundState :=
  roundMachine.final (BftRoundState.new height round totalValidators) (votes.map .addVote)

theorem mem_voters_tallied {height : UInt64} {round : UInt32} {totalValidators : Nat}
    {votes : List Vote} {voteType : VoteType} {hash : Hash32} {id : Bytes32} :
    id ∈ (tallied height round totalValidators votes).voters voteType hash ↔
      ∃ vote ∈ votes, vote.height = height ∧ vote.round = round ∧ vote.voteType = voteType ∧
        vote.blockHash = hash ∧ vote.validatorId = id := by
  rw [tallied, voters_final, voters_new]
  simp [Matches, BftRoundState.new, and_assoc]

theorem eq_of_quorums {n : Nat} {height : UInt64} {round : UInt32} {votes votes' : List Vote}
    {ids : Finset Bytes32} (hsize : ids.card = n)
    (hids : ∀ vote ∈ votes ++ votes', vote.validatorId ∈ ids)
    (hfaulty : 3 * (equivocators ids (votes ++ votes')).card < n) {a b : Hash32}
    (ha : (tallied height round n votes).hasQuorumPrecommit a)
    (hb : (tallied height round n votes').hasQuorumPrecommit b) : a = b := by
  have htotal (vs : List Vote) : (tallied height round n vs).totalValidators = n :=
    totalValidators_final _ _
  have hquorumA := hasQuorum_iff.mp ha
  have hquorumB := hasQuorum_iff.mp hb
  rw [htotal] at hquorumA hquorumB
  have hmembers (vs : List Vote) (hvs : ∀ vote ∈ vs, vote.validatorId ∈ ids) (hash : Hash32) :
      (tallied height round n vs).voters .precommit hash ⊆ ids := by
    intro id hid
    obtain ⟨vote, hvote, -, -, -, -, rfl⟩ := mem_voters_tallied.mp hid
    exact hvs vote hvote
  have hthird : (equivocators ids (votes ++ votes')).card * 3 < n := by omega
  obtain ⟨id, hcorrect, hidA, hidB⟩ := hquorumA.exists_correct_inter hsize.le hthird hquorumB
    (hmembers votes (fun v hv => hids v (List.mem_append_left _ hv)) a)
    (hmembers votes' (fun v hv => hids v (List.mem_append_right _ hv)) b)
  obtain ⟨v, hv, -, -, hvtype, rfl, rfl⟩ := mem_voters_tallied.mp hidA
  obtain ⟨w, hw, -, -, hwtype, rfl, hwid⟩ := mem_voters_tallied.mp hidB
  -- otherwise the common voter precommits two hashes
  by_contra hne
  apply hcorrect
  refine Finset.mem_filter.mpr ⟨hids v (List.mem_append_left _ hv), v, List.mem_append_left _ hv, w,
    List.mem_append_right _ hw, hvtype, hwtype, rfl, hwid, hne⟩

theorem hasQuorum_eq {n : Nat} {epoch : UInt64} {entries : List StakeEntry}
    (hsize : (ValidatorSet.active entries).length = n) {bft : BftRoundState}
    (htotal : bft.totalValidators = n) (voteType : VoteType) (hash : Hash32) :
    bft.hasQuorum voteType hash =
      (ValidatorSet.new epoch entries).hasQuorum (bft.voters voteType hash).card := by
  have hthreshold : (ValidatorSet.new epoch entries).quorumThreshold = n * 2 / 3 + 1 := by
    rw [← hsize, ← (ValidatorSet.validators_perm epoch entries).length_eq]
    rfl
  rw [hasQuorum, ValidatorSet.hasQuorum, hthreshold, htotal]
  apply decide_eq_decide.mpr
  omega

/-- Two states of one height and round, fed with any votes of `n` ids of which fewer than a
third precommit two hashes, have quorums of precommits for one hash at most; and in every
state for `n` validators the test is the one of a set of `n` active members. -/
theorem quorum_intersection (n : Nat) (height : UInt64) (round : UInt32) (votes votes' : List Vote)
    (ids : Finset Bytes32) (hsize : ids.card = n)
    (hids : ∀ vote ∈ votes ++ votes', vote.validatorId ∈ ids) :
    (3 * (equivocators ids (votes ++ votes')).card < n → ∀ a b,
      (tallied height round n votes).hasQuorumPrecommit a →
      (tallied height round n votes').hasQuorumPrecommit b → a = b) ∧
    ∀ (epoch : UInt64) (entries : List StakeEntry), (ValidatorSet.active entries).length = n →
      ∀ bft : BftRoundState, bft.totalValidators = n → ∀ (voteType : VoteType) (hash : Hash32),
        bft.hasQuorum voteType hash =
          (ValidatorSet.new epoch entries).hasQuorum (bft.voters voteType hash).card := by
  constructor
  · intro hfaulty a b ha hb
    exact eq_of_quorums hsize hids hfaulty ha hb
  · intro epoch entries hentries bft htotal voteType hash
    exact hasQuorum_eq hentries htotal voteType hash

theorem four_ids_intersect :
    let votes := [roundVote .precommit 9 1, roundVote .precommit 9 2, roundVote .precommit 9 3]
    let votes' := [roundVote .precommit 9 2, roundVote .precommit 9 3, roundVote .precommit 9 4]
    let ids : Finset Bytes32 := {fill 32 1, fill 32 2, fill 32 3, fill 32 4}
    (3 * (equivocators ids (votes ++ votes')).card < 4 → ∀ a b,
      (tallied 1 0 4 votes).hasQuorumPrecommit a →
      (tallied 1 0 4 votes').hasQuorumPrecommit b → a = b) ∧
    ∀ (epoch : UInt64) (entries : List StakeEntry), (ValidatorSet.active entries).length = 4 →
      ∀ bft : BftRoundState, bft.totalValidators = 4 → ∀ (voteType : VoteType) (hash : Hash32),
        bft.hasQuorum voteType hash =
          (ValidatorSet.new epoch entries).hasQuorum (bft.voters voteType hash).card := by
  intro votes votes' ids
  exact quorum_intersection 4 1 0 votes votes' ids (by decide) (by decide)

end NoirNet
