import Mathlib.Data.Set.Card
import NoirNet.Concrete
import NoirNet.Lib.Delimited
import NoirNet.Lib.Lottery
import NoirNet.Validator

/-!
# Who is elected

`elect_leader` draws a position of the validator list by its stake.

* `electLeader_eq`: the entry returned, as a position;
* `election_proportional`: while the stakes add up without wrapping, each position
  is drawn by as many residues as its stake.
-/

namespace NoirNet

open Lib Lottery Wire

namespace ValidatorSet

/-! ## The position drawn -/

def threshold (vals : ValidatorSet) (vrfOutput : Bytes32) : U128 :=
  BitVec.ofNat 128 (leValue (vrfOutput.toList.take 16)) %
    (if vals.totalStake = 0 then 1 else vals.totalStake)

/-- The position of the entry that `elect_leader` returns a reference to. -/
def electPosition (vals : ValidatorSet) (vrfOutput : Bytes32) : Option Nat :=
  if vals.isEmpty then none
  else some ((drawFrom (vals.threshold vrfOutput) 0
    (vals.validators.map StakeEntry.totalStake)).getD 0)

theorem electFrom_eq (ticket sum : U128) (entries : List StakeEntry) :
    electFrom ticket sum entries =
      (drawFrom ticket sum (entries.map StakeEntry.totalStake)).bind (entries[·]?) := by
  induction entries generalizing sum with
  | nil => rfl
  | cons v rest ih =>
      rw [electFrom, List.map_cons, drawFrom]
      by_cases hfirst : ticket < sum + v.totalStake
      · simp [hfirst]
      · simp only [hfirst, if_false, ih]
        cases drawFrom ticket (sum + v.totalStake) (rest.map StakeEntry.totalStake) with
        | none => rfl
        | some i => simp

theorem electLeader_of_loop {vals : ValidatorSet} (h : ¬ vals.isEmpty) (vrfOutput : Bytes32)
    (epoch : UInt64) :
    vals.electLeader vrfOutput epoch =
      (electFrom (vals.threshold vrfOutput) 0 vals.validators).or vals.validators.head? := by
  unfold electLeader threshold
  simp only [if_neg h]
  cases electFrom _ 0 vals.validators with
  | none => rfl
  | some v => rfl

theorem electLeader_eq (vals : ValidatorSet) (vrfOutput : Bytes32) (epoch : UInt64) :
    vals.electLeader vrfOutput epoch =
      (vals.electPosition vrfOutput).bind (vals.validators[·]?) := by
  unfold electPosition
  by_cases hempty : vals.isEmpty
  · rw [electLeader, if_pos hempty, if_pos hempty]
    rfl
  · rw [electLeader_of_loop hempty, if_neg hempty, electFrom_eq]
    cases hdraw : drawFrom (vals.threshold vrfOutput) 0
        (vals.validators.map StakeEntry.totalStake) with
    | none => exact List.head?_eq_getElem?
    | some i =>
        have hlen := lt_length_of_drawFrom hdraw
        rw [List.length_map] at hlen
        simp [hlen]

/-! ## The list of a set -/

def active (entries : List StakeEntry) : List StakeEntry :=
  entries.filter fun v => v.status = .active

def activeStake (entries : List StakeEntry) : Nat :=
  ((active entries).map fun v => v.totalStake.toNat).sum

section

variable (epoch : UInt64) (entries : List StakeEntry)

theorem validators_perm : (new epoch entries).validators.Perm (active entries) :=
  List.perm_insertionSort _ _

theorem totalStake_new :
    (new epoch entries).totalStake =
      ((new epoch entries).validators.map StakeEntry.totalStake).foldl (· + ·) 0 := by
  rw [List.foldl_map]
  rfl

theorem sum_stakes :
    (((new epoch entries).validators.map StakeEntry.totalStake).map BitVec.toNat).sum =
      activeStake entries := by
  rw [List.map_map]
  exact ((validators_perm epoch entries).map _).sum_eq

theorem mem_validators {entry : StakeEntry} (h : entry ∈ (new epoch entries).validators) :
    entry ∈ entries ∧ entry.status = .active := by
  have hmem := (validators_perm epoch entries).mem_iff.mp h
  simpa [active] using hmem

variable {entries} (hlt : activeStake entries < 2 ^ 128)

include hlt

theorem toNat_totalStake : (new epoch entries).totalStake.toNat = activeStake entries := by
  have hsum := sum_stakes epoch entries
  rw [totalStake_new, toNat_foldl_add, hsum]
  · exact Nat.zero_add _
  · rw [hsum]
    exact (Nat.zero_add _).trans_lt hlt

end

/-! ## Proportional election -/

theorem pow_16 : 256 ^ 16 = 2 ^ 128 := by norm_num

theorem leValue_take_lt (vrfOutput : Bytes32) : leValue (vrfOutput.toList.take 16) < 2 ^ 128 := by
  have hlt := leValue_lt (vrfOutput.toList.take 16)
  rwa [List.length_take, Vector.length_toList, Nat.min_eq_left (by omega), pow_16] at hlt

theorem leValue_leBytes {n : Nat} (h : n < 2 ^ 128) : leValue (leBytes 16 n) = n := by
  have hbytes := leBytes_leValue (leBytes 16 n)
  have hbound := leValue_lt (leBytes 16 n)
  rw [length_leBytes] at hbytes hbound
  rw [← pow_16] at h
  exact leBytes_inj hbound h hbytes

theorem exists_vrfOutput {n : Nat} (h : n < 2 ^ 128) :
    ∃ vrfOutput : Bytes32, leValue (vrfOutput.toList.take 16) = n := by
  let bytes := leBytes 16 n ++ List.replicate 16 0
  have hlen : bytes.toArray.size = 32 := by simp [bytes]
  have hfront : bytes.take 16 = leBytes 16 n := List.take_left' (length_leBytes 16 n)
  refine ⟨⟨bytes.toArray, hlen⟩, ?_⟩
  show leValue (bytes.take 16) = n
  rw [hfront, leValue_leBytes h]

section

variable {entries : List StakeEntry} (hpos : 0 < activeStake entries)
  (hlt : activeStake entries < 2 ^ 128) (epoch : UInt64)

include hpos hlt

theorem toNat_threshold (vrfOutput : Bytes32) :
    ((new epoch entries).threshold vrfOutput).toNat =
      leValue (vrfOutput.toList.take 16) % activeStake entries := by
  have htotal := toNat_totalStake epoch hlt
  have hne : (new epoch entries).totalStake ≠ 0 := by
    intro hzero
    rw [hzero] at htotal
    exact absurd htotal (Nat.ne_of_lt hpos)
  rw [threshold, if_neg hne, BitVec.toNat_umod, htotal, BitVec.toNat_ofNat,
    Nat.mod_eq_of_lt (leValue_take_lt vrfOutput)]

theorem draw_eq (vrfOutput : Bytes32) :
    drawFrom ((new epoch entries).threshold vrfOutput) 0
        ((new epoch entries).validators.map StakeEntry.totalStake) =
      drawFrom (leValue (vrfOutput.toList.take 16) % activeStake entries) 0
        (((new epoch entries).validators.map StakeEntry.totalStake).map BitVec.toNat) := by
  rw [← drawFrom_toNat, toNat_threshold hpos hlt epoch]
  · rfl
  · rw [sum_stakes]
    exact (Nat.zero_add _).trans_lt hlt

theorem draw_isSome (vrfOutput : Bytes32) :
    (drawFrom ((new epoch entries).threshold vrfOutput) 0
      ((new epoch entries).validators.map StakeEntry.totalStake)).isSome := by
  rw [draw_eq hpos hlt epoch]
  apply drawFrom_isSome (Nat.zero_le _)
  rw [sum_stakes, Nat.zero_add]
  exact Nat.mod_lt _ hpos

theorem electPosition_eq_some_iff (vrfOutput : Bytes32) (i : Nat) :
    (new epoch entries).electPosition vrfOutput = some i ↔
      drawFrom (leValue (vrfOutput.toList.take 16) % activeStake entries) 0
        (((new epoch entries).validators.map StakeEntry.totalStake).map BitVec.toNat) = some i := by
  have hsome := draw_isSome hpos hlt epoch vrfOutput
  rw [← draw_eq hpos hlt epoch]
  have hne : ¬ (new epoch entries).isEmpty := by
    intro hempty
    rw [List.isEmpty_iff.mp hempty] at hsome
    cases hsome
  obtain ⟨k, hk⟩ := Option.isSome_iff_exists.mp hsome
  rw [electPosition, if_neg hne, hk]
  rfl

/-- The residues for which a position is elected whatever the rest of the output is. -/
theorem residues_eq (i : Nat) :
    {t | t < activeStake entries ∧ ∀ vrfOutput : Bytes32,
        leValue (vrfOutput.toList.take 16) % activeStake entries = t →
          (new epoch entries).electPosition vrfOutput = some i} =
      ↑((Finset.range (activeStake entries)).filter fun t => drawFrom t 0
        (((new epoch entries).validators.map StakeEntry.totalStake).map BitVec.toNat) =
          some i) := by
  ext t
  rw [Set.mem_ofPred_eq, Finset.mem_coe, Finset.mem_filter, Finset.mem_range]
  apply and_congr_right
  intro ht
  constructor
  · intro h
    obtain ⟨vrfOutput, hvrf⟩ := exists_vrfOutput (ht.trans hlt)
    have hmod : leValue (vrfOutput.toList.take 16) % activeStake entries = t := by
      rw [hvrf, Nat.mod_eq_of_lt ht]
    have helect := (electPosition_eq_some_iff hpos hlt epoch vrfOutput i).mp (h vrfOutput hmod)
    rwa [hmod] at helect
  · rintro h vrfOutput rfl
    exact (electPosition_eq_some_iff hpos hlt epoch vrfOutput i).mpr h

theorem stake_pos_of_elected {vrfOutput : Bytes32} {epoch' : UInt64} {entry : StakeEntry}
    (h : (new epoch entries).electLeader vrfOutput epoch' = some entry) :
    entry ∈ (new epoch entries).validators ∧ entry.totalStake ≠ 0 := by
  rw [electLeader_eq, Option.bind_eq_some_iff] at h
  obtain ⟨i, hi, hentry⟩ := h
  obtain ⟨hlen, rfl⟩ := List.getElem?_eq_some_iff.mp hentry
  refine ⟨List.getElem_mem hlen, ?_⟩
  have hdraw := (electPosition_eq_some_iff hpos hlt epoch vrfOutput i).mp hi
  have hstake := weight_pos_of_drawFrom (Nat.zero_le _) hdraw (by simpa using hlen)
  intro hzero
  simp [hzero] at hstake

theorem electLeader_of_electPosition (vrfOutput : Bytes32) (epoch' : UInt64) :
    ∃ (i : Nat) (hi : i < (new epoch entries).validators.length),
      (new epoch entries).electPosition vrfOutput = some i ∧
        (new epoch entries).electLeader vrfOutput epoch' =
          some (new epoch entries).validators[i] := by
  obtain ⟨i, hdraw⟩ := Option.isSome_iff_exists.mp (draw_isSome hpos hlt epoch vrfOutput)
  have hi := lt_length_of_drawFrom hdraw
  rw [List.length_map] at hi
  rw [draw_eq hpos hlt epoch] at hdraw
  have hposition := (electPosition_eq_some_iff hpos hlt epoch vrfOutput i).mpr hdraw
  refine ⟨i, hi, hposition, ?_⟩
  rw [electLeader_eq, hposition, Option.bind_some, List.getElem?_eq_getElem hi]

/-- Of every set whose active stakes add up to a positive `u128`: the leader is the entry at the
position elected; each position is elected for exactly as many residues as it has at stake, the
loop always returns, and only active entries with a stake are ever elected. -/
theorem election_proportional :
    (∀ (vrfOutput : Bytes32) (epoch' : UInt64),
      ∃ (i : Nat) (hi : i < (new epoch entries).validators.length),
        (new epoch entries).electPosition vrfOutput = some i ∧
          (new epoch entries).electLeader vrfOutput epoch' =
            some (new epoch entries).validators[i]) ∧
    (∀ (i : Nat) (hi : i < (new epoch entries).validators.length),
      Set.ncard {t | t < activeStake entries ∧ ∀ vrfOutput : Bytes32,
        leValue (vrfOutput.toList.take 16) % activeStake entries = t →
          (new epoch entries).electPosition vrfOutput = some i} =
        (new epoch entries).validators[i].totalStake.toNat) ∧
    (∀ vrfOutput : Bytes32, (electFrom ((new epoch entries).threshold vrfOutput) 0
      (new epoch entries).validators).isSome) ∧
    ∀ (vrfOutput : Bytes32) (epoch' : UInt64) (entry : StakeEntry),
      (new epoch entries).electLeader vrfOutput epoch' = some entry →
        entry ∈ entries ∧ entry.status = .active ∧ entry.totalStake ≠ 0 := by
  refine ⟨electLeader_of_electPosition hpos hlt epoch, ?_, ?_, ?_⟩
  · intro i hi
    have hcard := card_draw (((new epoch entries).validators.map StakeEntry.totalStake).map
      BitVec.toNat) (i := i) (by simpa using hi)
    rw [residues_eq hpos hlt epoch, Set.ncard_coe_finset, ← sum_stakes epoch entries, hcard]
    simp
  · intro vrfOutput
    obtain ⟨i, hi⟩ := Option.isSome_iff_exists.mp (draw_isSome hpos hlt epoch vrfOutput)
    have hlen := lt_length_of_drawFrom hi
    rw [List.length_map] at hlen
    rw [electFrom_eq, hi, Option.bind_some, List.getElem?_eq_getElem hlen]
    rfl
  · intro vrfOutput epoch' entry h
    obtain ⟨hmem, hstake⟩ := stake_pos_of_elected hpos hlt epoch h
    obtain ⟨hentry, hactive⟩ := mem_validators epoch entries hmem
    exact ⟨hentry, hactive, hstake⟩

end

/-! ## Four entries -/

def entry (key : UInt8) (totalStake : U128) (status : ValidatorStatus) : StakeEntry where
  blsPubkey := fill 48 key
  networkPubkey := fill 32 key
  totalStake := totalStake
  status := status
  epochJoined := 0

def candidates : List StakeEntry :=
  [entry 1 3 .active, entry 2 0 .active, entry 3 9 .tombstoned, entry 4 5 .active]

theorem candidates_proportional :
    0 < activeStake candidates ∧ activeStake candidates < 2 ^ 128 ∧
    (∀ (vrfOutput : Bytes32) (epoch' : UInt64),
      ∃ (i : Nat) (hi : i < (new 1 candidates).validators.length),
        (new 1 candidates).electPosition vrfOutput = some i ∧
          (new 1 candidates).electLeader vrfOutput epoch' =
            some (new 1 candidates).validators[i]) ∧
    (∀ (i : Nat) (hi : i < (new 1 candidates).validators.length),
      Set.ncard {t | t < activeStake candidates ∧ ∀ vrfOutput : Bytes32,
        leValue (vrfOutput.toList.take 16) % activeStake candidates = t →
          (new 1 candidates).electPosition vrfOutput = some i} =
        (new 1 candidates).validators[i].totalStake.toNat) ∧
    (∀ vrfOutput : Bytes32, (electFrom ((new 1 candidates).threshold vrfOutput) 0
      (new 1 candidates).validators).isSome) ∧
    ∀ (vrfOutput : Bytes32) (epoch' : UInt64) (entry : StakeEntry),
      (new 1 candidates).electLeader vrfOutput epoch' = some entry →
        entry ∈ candidates ∧ entry.status = .active ∧ entry.totalStake ≠ 0 := by
  have hpos : 0 < activeStake candidates := by decide +kernel
  have hlt : activeStake candidates < 2 ^ 128 := by decide +kernel
  exact ⟨hpos, hlt, election_proportional hpos hlt 1⟩

end ValidatorSet

end NoirNet
