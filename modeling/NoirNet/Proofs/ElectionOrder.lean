import Mathlib.Data.List.Perm.Basic
import NoirNet.Proofs.Election

/-!
# Elections on reordered lists

`new` sorts by stake alone, so entries of one stake stay in the order of the list
they came in.  Which position is drawn depends on the stakes only; which entry
stands there, for entries of one stake, on that order.

* `activeStakes`, `Drawable`: the stakes in the order of the walk, and the positions
  that some residue draws;
* `orderFree_iff`: when all reorderings of a list elect alike;
* `drawable_iff_of_lt`: the drawable positions while the sums do not wrap.
-/

namespace NoirNet

open Lib Lottery Wire

namespace ValidatorSet

def activeStakes (entries : List StakeEntry) : List U128 :=
  ((active entries).map StakeEntry.totalStake).insertionSort fun a b => b ≤ a

def residues (stakes : List U128) : U128 :=
  if level 0 stakes stakes.length = 0 then 1 else level 0 stakes stakes.length

/-- Some residue exceeds none of the sums in front of the position and is exceeded by the
sum behind it; the first position also gets the residues that no sum exceeds. -/
def Drawable (stakes : List U128) (i : Nat) : Prop :=
  ∃ residue < residues stakes,
    residue < level 0 stakes (i + 1) ∧ (∀ j < i, ¬ residue < level 0 stakes (j + 1)) ∨
      i = 0 ∧ ∀ j < stakes.length, ¬ residue < level 0 stakes (j + 1)

/-! ## The stakes decide the position -/

section

variable (epoch : UInt64) (entries : List StakeEntry)

theorem stakes_validators :
    (new epoch entries).validators.map StakeEntry.totalStake = activeStakes entries :=
  List.map_insertionSort (fun a b : StakeEntry => b.totalStake ≤ a.totalStake) (fun a b => b ≤ a)
    _ _ fun _ _ _ _ => Iff.rfl

theorem pairwise_activeStakes : (activeStakes entries).Pairwise fun a b => b ≤ a := by
  have : Std.Total fun a b : U128 => b ≤ a := ⟨fun a b => BitVec.le_total b a⟩
  have : IsTrans U128 fun a b => b ≤ a := ⟨fun _ _ _ hab hbc => BitVec.le_trans hbc hab⟩
  exact List.pairwise_insertionSort _ _

variable {entries} in
theorem activeStakes_perm {entries' : List StakeEntry} (h : entries'.Perm entries) :
    activeStakes entries' = activeStakes entries := by
  have hactive : (active entries').Perm (active entries) := h.filter _
  have hperm : (activeStakes entries').Perm (activeStakes entries) :=
    (List.perm_insertionSort _ _).trans
      ((hactive.map _).trans (List.perm_insertionSort _ _).symm)
  refine List.Perm.eq_of_pairwise ?_ (pairwise_activeStakes entries')
    (pairwise_activeStakes entries) hperm
  intro a b _ _ hab hba
  exact BitVec.le_antisymm hba hab

theorem totalStake_eq_level :
    (new epoch entries).totalStake =
      level 0 (activeStakes entries) (activeStakes entries).length := by
  rw [totalStake_new, stakes_validators, level, List.take_length]

theorem threshold_eq (vrfOutput : Bytes32) :
    (new epoch entries).threshold vrfOutput =
      BitVec.ofNat 128 (leValue (vrfOutput.toList.take 16)) % residues (activeStakes entries) := by
  rw [threshold, totalStake_eq_level]
  rfl

theorem residues_pos (stakes : List U128) : 0 < residues stakes := by
  unfold residues
  by_cases h : level 0 stakes stakes.length = 0
  · rw [if_pos h]
    decide
  · rw [if_neg h]
    rw [BitVec.lt_def]
    exact Nat.pos_of_ne_zero fun hzero => h (BitVec.eq_of_toNat_eq hzero)

theorem exists_threshold {residue : U128} (h : residue < residues (activeStakes entries)) :
    ∃ vrfOutput : Bytes32, (new epoch entries).threshold vrfOutput = residue := by
  obtain ⟨vrfOutput, hvrf⟩ := exists_vrfOutput residue.isLt
  refine ⟨vrfOutput, ?_⟩
  rw [threshold_eq, hvrf, BitVec.ofNat_toNat, BitVec.setWidth_eq]
  exact BitVec.umod_eq_of_lt h

end

theorem drawable_iff {stakes : List U128} {i : Nat} (hi : i < stakes.length) :
    Drawable stakes i ↔
      ∃ residue < residues stakes, (drawFrom residue 0 stakes).getD 0 = i := by
  apply exists_congr
  intro residue
  apply and_congr_right
  intro _
  cases hdraw : drawFrom residue 0 stakes with
  | none =>
      have hnone := drawFrom_eq_none_iff.mp hdraw
      constructor
      · rintro (⟨hexceeds, -⟩ | ⟨rfl, -⟩)
        · exact absurd hexceeds (hnone i hi)
        · rfl
      · intro h
        exact .inr ⟨h.symm, hnone⟩
  | some k =>
      constructor
      · rintro (⟨hexceeds, hbelow⟩ | ⟨-, hnone⟩)
        · rw [drawFrom_eq_some_iff.mpr ⟨hi, hexceeds, hbelow⟩] at hdraw
          exact (Option.some.inj hdraw).symm
        · rw [drawFrom_eq_none_iff.mpr hnone] at hdraw
          cases hdraw
      · rintro rfl
        exact .inl (drawFrom_eq_some_iff.mp hdraw).2

/-! ## Reordered lists -/

def OrderFree (entries : List StakeEntry) : Prop :=
  ∀ entries' : List StakeEntry, entries'.Perm entries → ∀ (epoch : UInt64) (vrfOutput : Bytes32),
    (new epoch entries').electLeader vrfOutput epoch =
      (new epoch entries).electLeader vrfOutput epoch

theorem electLeader_new (epoch : UInt64) (entries : List StakeEntry) (vrfOutput : Bytes32) :
    (new epoch entries).electLeader vrfOutput epoch =
      (new epoch entries).validators[(drawFrom ((new epoch entries).threshold vrfOutput) 0
        (activeStakes entries)).getD 0]? := by
  rw [electLeader_eq, electPosition, stakes_validators]
  by_cases hempty : (new epoch entries).isEmpty
  · rw [if_pos hempty, List.isEmpty_iff.mp hempty]
    rfl
  · rw [if_neg hempty]
    rfl

theorem getElem?_activeStakes (epoch : UInt64) (entries : List StakeEntry) (i : Nat) :
    (activeStakes entries)[i]? =
      ((new epoch entries).validators[i]?).map StakeEntry.totalStake := by
  rw [← stakes_validators epoch, List.getElem?_map]

theorem length_validators (epoch : UInt64) (entries : List StakeEntry) :
    (new epoch entries).validators.length = (activeStakes entries).length := by
  rw [← stakes_validators epoch, List.length_map]

section

variable {entries : List StakeEntry}

/-- No position that is drawn at all has the stake of another one. -/
def Separated (stakes : List U128) : Prop :=
  ∀ (i j : Nat) (s : U128), i ≠ j → stakes[i]? = some s → stakes[j]? = some s → ¬ Drawable stakes i

/-- An entry at a drawable position is the only one of its stake, so it stands there in
every order. -/
theorem orderFree_of_separated (h : Separated (activeStakes entries)) : OrderFree entries := by
  intro entries' hperm epoch vrfOutput
  have hthreshold : (new epoch entries').threshold vrfOutput =
      (new epoch entries).threshold vrfOutput := by
    rw [threshold_eq, threshold_eq, activeStakes_perm hperm]
  have hresidue : (new epoch entries).threshold vrfOutput < residues (activeStakes entries) := by
    rw [threshold_eq]
    exact BitVec.umod_lt _ (residues_pos _)
  rw [electLeader_new, electLeader_new, activeStakes_perm hperm, hthreshold]
  generalize (new epoch entries).threshold vrfOutput = residue at hresidue
  generalize hposition : (drawFrom residue 0 (activeStakes entries)).getD 0 = i
  by_cases hi : i < (activeStakes entries).length
  · have hdrawable := (drawable_iff hi).mpr ⟨residue, hresidue, hposition⟩
    have hi' : i < (new epoch entries').validators.length := by
      rwa [length_validators, activeStakes_perm hperm]
    obtain ⟨entry, hentry⟩ : ∃ entry, (new epoch entries').validators[i]? = some entry :=
      ⟨_, List.getElem?_eq_getElem hi'⟩
    have hmem : entry ∈ (new epoch entries).validators :=
      ((validators_perm epoch entries').trans ((hperm.filter _).trans
        (validators_perm epoch entries).symm)).mem_iff.mp (List.mem_of_getElem? hentry)
    obtain ⟨k, hk⟩ := List.mem_iff_getElem?.mp hmem
    have hstakeI : (activeStakes entries)[i]? = some entry.totalStake := by
      rw [← activeStakes_perm hperm, getElem?_activeStakes epoch, hentry, Option.map_some]
    have hstakeK : (activeStakes entries)[k]? = some entry.totalStake := by
      rw [getElem?_activeStakes epoch, hk, Option.map_some]
    by_cases hik : i = k
    · rw [hentry, hik, hk]
    · exact absurd hdrawable (h i k _ hik hstakeI hstakeK)
  · rw [List.getElem?_eq_none, List.getElem?_eq_none]
    · rw [length_validators]
      omega
    · rw [length_validators, activeStakes_perm hperm]
      omega

/-! ## Two entries change places -/

def inOrder (front entries : List StakeEntry) : List StakeEntry :=
  front ++ entries.filter fun v => ¬ v.status = .active

theorem inOrder_perm {front : List StakeEntry} (h : front.Perm (active entries)) :
    (inOrder front entries).Perm entries := by
  have hperm := List.filter_append_perm (fun v : StakeEntry => decide (v.status = .active)) entries
  simp only [← decide_not] at hperm
  exact (h.append_right _).trans hperm

theorem validators_inOrder {front : List StakeEntry} (h : front.Perm (active entries))
    (hsorted : front.Pairwise fun a b => b.totalStake ≤ a.totalStake) (epoch : UInt64) :
    (new epoch (inOrder front entries)).validators = front := by
  have hactive : active (inOrder front entries) = front := by
    rw [active, inOrder, List.filter_append, List.filter_filter, List.filter_eq_self.mpr]
    · simp
    · intro v hv
      exact (List.mem_filter.mp (h.mem_iff.mp hv)).2
  show (active (inOrder front entries)).insertionSort _ = front
  rw [hactive]
  exact hsorted.insertionSort_eq

def swapped (vs : List StakeEntry) (i j : Nat) (hi : i < vs.length) (hj : j < vs.length) :
    List StakeEntry :=
  (vs.set i vs[j]).set j vs[i]

section

variable {vs : List StakeEntry} {i j : Nat} (hi : i < vs.length) (hj : j < vs.length)

theorem swapped_perm : (swapped vs i j hi hj).Perm vs := List.set_set_perm hi hj

theorem stakes_swapped (h : vs[i].totalStake = vs[j].totalStake) :
    (swapped vs i j hi hj).map StakeEntry.totalStake = vs.map StakeEntry.totalStake := by
  have hfirst : (vs.map StakeEntry.totalStake).set i vs[j].totalStake =
      vs.map StakeEntry.totalStake := by
    rw [← h, ← List.getElem_map StakeEntry.totalStake (h := by simpa using hi)]
    exact List.set_getElem_self _
  have hsecond : (vs.map StakeEntry.totalStake).set j vs[i].totalStake =
      vs.map StakeEntry.totalStake := by
    rw [h, ← List.getElem_map StakeEntry.totalStake (h := by simpa using hj)]
    exact List.set_getElem_self _
  rw [swapped, List.map_set, List.map_set, hfirst, hsecond]

theorem getElem?_swapped (hij : i ≠ j) : (swapped vs i j hi hj)[i]? = some vs[j] := by
  rw [swapped, List.getElem?_set_ne hij.symm, List.getElem?_set_self hi]

end

theorem separated_of_orderFree (hdistinct : (entries.map StakeEntry.blsPubkey).Nodup)
    (h : OrderFree entries) : Separated (activeStakes entries) := by
  intro i j s hij hsi hsj hdrawable
  have hlen : i < (activeStakes entries).length := (List.getElem?_eq_some_iff.mp hsi).1
  rw [getElem?_activeStakes 0, Option.map_eq_some_iff] at hsi hsj
  obtain ⟨a, ha, rfl⟩ := hsi
  obtain ⟨b, hb, hstake⟩ := hsj
  obtain ⟨hi, rfl⟩ := List.getElem?_eq_some_iff.mp ha
  obtain ⟨hj, rfl⟩ := List.getElem?_eq_some_iff.mp hb
  -- the same list with the two entries in each other's place
  let front := swapped (new 0 entries).validators i j hi hj
  have hfront : front.Perm (active entries) :=
    (swapped_perm hi hj).trans (validators_perm 0 entries)
  have hsorted : front.Pairwise fun a b => b.totalStake ≤ a.totalStake := by
    have hstakes := pairwise_activeStakes entries
    rw [← stakes_validators 0, ← stakes_swapped hi hj hstake.symm] at hstakes
    exact List.pairwise_map.mp hstakes
  have hperm := inOrder_perm hfront
  obtain ⟨residue, hresidue, hposition⟩ := (drawable_iff hlen).mp hdrawable
  obtain ⟨vrfOutput, hvrf⟩ := exists_threshold 0 entries hresidue
  have helect := h _ hperm 0 vrfOutput
  have hthreshold : (new 0 (inOrder front entries)).threshold vrfOutput = residue := by
    rw [threshold_eq, activeStakes_perm hperm, ← threshold_eq 0, hvrf]
  rw [electLeader_new, electLeader_new, activeStakes_perm hperm, hthreshold, hvrf, hposition,
    validators_inOrder hfront hsorted, getElem?_swapped hi hj hij, List.getElem?_eq_getElem hi,
    Option.some.injEq] at helect
  -- it has another entry at the drawn position
  have hnodup : (new 0 entries).validators.Nodup := by
    have hentries : entries.Nodup := hdistinct.of_map _
    exact (validators_perm 0 entries).nodup_iff.mpr (hentries.filter _)
  exact hij ((List.Nodup.getElem_inj_iff hnodup).mp helect).symm

/-- For every list of entries with different keys, all its orders elect alike on every
epoch and output exactly when no two active entries have the same stake, those apart that
no residue draws. -/
theorem orderFree_iff (hdistinct : (entries.map StakeEntry.blsPubkey).Nodup) :
    OrderFree entries ↔ Separated (activeStakes entries) :=
  ⟨separated_of_orderFree hdistinct, orderFree_of_separated⟩

end

/-! ## Sums that do not wrap -/

section

variable {stakes : List U128} (hsmall : (stakes.map BitVec.toNat).sum < 2 ^ 128)

include hsmall

theorem toNat_residues :
    (residues stakes).toNat = max 1 (stakes.map BitVec.toNat).sum := by
  have htotal : (level 0 stakes stakes.length).toNat = (stakes.map BitVec.toNat).sum := by
    rw [level, List.take_length, toNat_foldl_add]
    · exact Nat.zero_add _
    · exact (Nat.zero_add _).trans_lt hsmall
  unfold residues
  by_cases hzero : level 0 stakes stakes.length = 0
  · rw [hzero] at htotal
    rw [if_pos hzero, ← htotal]
    rfl
  · have hpos : (level 0 stakes stakes.length).toNat ≠ 0 := fun h =>
      hzero (BitVec.eq_of_toNat_eq h)
    rw [if_neg hzero]
    omega

theorem draw_toNat (residue : U128) :
    drawFrom residue 0 stakes = drawFrom residue.toNat 0 (stakes.map BitVec.toNat) :=
  (drawFrom_toNat _ ((Nat.zero_add _).trans_lt hsmall)).symm

theorem ne_zero_of_draw {residue : U128} {i : Nat} (hi : i < stakes.length)
    (hdraw : drawFrom residue 0 stakes = some i) : stakes[i] ≠ 0 := by
  rw [draw_toNat hsmall] at hdraw
  have hpos := weight_pos_of_drawFrom (Nat.zero_le _) hdraw (by simpa using hi)
  intro hzero
  simp [hzero] at hpos

theorem eq_zero_of_no_draw {residue : U128} (hresidue : residue < residues stakes)
    (hdraw : drawFrom residue 0 stakes = none) : ∀ s ∈ stakes, s = 0 := by
  rw [BitVec.lt_def, toNat_residues hsmall] at hresidue
  rw [draw_toNat hsmall] at hdraw
  have htotal : (stakes.map BitVec.toNat).sum = 0 := by
    by_contra hne
    have hsome : (drawFrom residue.toNat 0 (stakes.map BitVec.toNat)).isSome :=
      drawFrom_isSome (Nat.zero_le residue.toNat) (by omega)
    rw [hdraw] at hsome
    cases hsome
  intro s hs
  have hle := List.le_sum_of_mem (List.mem_map_of_mem (f := BitVec.toNat) hs)
  exact BitVec.eq_of_toNat_eq (Nat.le_zero.mp (hle.trans htotal.le))

theorem exists_draw {i : Nat} (hi : i < stakes.length) (hne : stakes[i] ≠ 0) :
    ∃ residue < residues stakes, drawFrom residue 0 stakes = some i := by
  have hi' : i < (stakes.map BitVec.toNat).length := by simpa using hi
  have hstep := List.sum_take_succ (stakes.map BitVec.toNat) i hi'
  have hpos : (stakes.map BitVec.toNat)[i] ≠ 0 := by
    rw [List.getElem_map]
    exact fun h => hne (BitVec.eq_of_toNat_eq h)
  have hall := sum_take_le_sum (i + 1) (stakes.map BitVec.toNat)
  have hticket : (BitVec.ofNat 128 ((stakes.map BitVec.toNat).take i).sum).toNat =
      ((stakes.map BitVec.toNat).take i).sum := by
    rw [BitVec.toNat_ofNat]
    exact Nat.mod_eq_of_lt (by omega)
  refine ⟨BitVec.ofNat 128 ((stakes.map BitVec.toNat).take i).sum, ?_, ?_⟩
  · rw [BitVec.lt_def, hticket, toNat_residues hsmall]
    omega
  · rw [draw_toNat hsmall, hticket]
    apply (drawFrom_nat_eq_some_iff (Nat.zero_le _)).mpr
    exact ⟨hi', by omega, by omega⟩

/-- A stake is drawn if it is positive; if none is, the first position is. -/
theorem drawable_iff_of_lt {i : Nat} (hi : i < stakes.length) :
    Drawable stakes i ↔ stakes[i] ≠ 0 ∨ i = 0 ∧ ∀ s ∈ stakes, s = 0 := by
  rw [drawable_iff hi]
  constructor
  · rintro ⟨residue, hresidue, hposition⟩
    cases hdraw : drawFrom residue 0 stakes with
    | some k =>
        rw [hdraw] at hposition
        cases hposition
        exact .inl (ne_zero_of_draw hsmall hi hdraw)
    | none =>
        rw [hdraw] at hposition
        exact .inr ⟨hposition.symm, eq_zero_of_no_draw hsmall hresidue hdraw⟩
  · rintro (hne | ⟨rfl, hzero⟩)
    · obtain ⟨residue, hresidue, hdraw⟩ := exists_draw hsmall hi hne
      exact ⟨residue, hresidue, by rw [hdraw, Option.getD_some]⟩
    · refine ⟨0, residues_pos stakes, ?_⟩
      cases hdraw : drawFrom 0 0 stakes with
      | none => rfl
      | some k =>
          have hk := lt_length_of_drawFrom hdraw
          exact absurd (hzero _ (List.getElem_mem hk)) (ne_zero_of_draw hsmall hk hdraw)

end

/-- While the stakes add up to a `u128`: no two active entries have the same stake, save
zero stakes beside a positive one. -/
theorem orderFree_iff_of_lt {entries : List StakeEntry}
    (hdistinct : (entries.map StakeEntry.blsPubkey).Nodup)
    (hsmall : ((activeStakes entries).map BitVec.toNat).sum < 2 ^ 128) :
    OrderFree entries ↔ ∀ (i j : Nat) (s : U128), i ≠ j → (activeStakes entries)[i]? = some s →
      (activeStakes entries)[j]? = some s → s = 0 ∧ ∃ s' ∈ activeStakes entries, s' ≠ 0 := by
  have horder : OrderFree entries ↔ Separated (activeStakes entries) :=
    ⟨separated_of_orderFree hdistinct, orderFree_of_separated⟩
  rw [horder]
  constructor
  · intro h i j s hij hi hj
    obtain ⟨hlen, rfl⟩ := List.getElem?_eq_some_iff.mp hi
    have hdrawable := h i j _ hij hi hj
    rw [drawable_iff_of_lt hsmall hlen, not_or, not_not, not_and] at hdrawable
    refine ⟨hdrawable.1, ?_⟩
    by_contra hnone
    simp only [not_exists, not_and, not_not] at hnone
    -- no stake is positive, so the first position is drawn, and one of the two is another
    have hlen0 : 0 < (activeStakes entries).length := by omega
    have hfirst : (activeStakes entries)[0]? = some (activeStakes entries)[i] := by
      rw [List.getElem?_eq_getElem hlen0, hnone _ (List.getElem_mem hlen0), hdrawable.1]
    have hdrawn : Drawable (activeStakes entries) 0 :=
      (drawable_iff_of_lt hsmall hlen0).mpr (.inr ⟨rfl, hnone⟩)
    by_cases hi0 : i = 0
    · exact hdrawable.2 hi0 hnone
    · exact h 0 i _ (Ne.symm hi0) hfirst hi hdrawn
  · intro h i j s hij hi hj
    obtain ⟨hlen, rfl⟩ := List.getElem?_eq_some_iff.mp hi
    obtain ⟨hzero, s', hs', hne⟩ := h i j _ hij hi hj
    rw [drawable_iff_of_lt hsmall hlen]
    rintro (hpos | ⟨-, hall⟩)
    · exact hpos hzero
    · exact hne (hall s' hs')

/-! ## Two entries with one stake -/

theorem tied_not_orderFree :
    ([entry 1 1 .active, entry 2 1 .active].map StakeEntry.blsPubkey).Nodup ∧
      ¬ OrderFree [entry 1 1 .active, entry 2 1 .active] := by
  refine ⟨by decide, ?_⟩
  intro h
  have helect := h [entry 2 1 .active, entry 1 1 .active] (List.Perm.swap _ _ _) 0 (fill 32 0)
  revert helect
  decide +kernel

theorem candidates_orderFree_iff :
    (candidates.map StakeEntry.blsPubkey).Nodup ∧
      (OrderFree candidates ↔ Separated (activeStakes candidates)) := by
  have hdistinct : (candidates.map StakeEntry.blsPubkey).Nodup := by decide
  exact ⟨hdistinct, orderFree_iff hdistinct⟩

end ValidatorSet

end NoirNet
