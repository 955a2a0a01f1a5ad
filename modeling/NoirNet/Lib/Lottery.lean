import Mathlib.Algebra.BigOperators.Group.List.Basic
import Mathlib.Algebra.Order.BigOperators.Group.List
import Mathlib.Algebra.Order.Ring.Nat
import Mathlib.Order.Interval.Finset.Nat

/-!
# Drawing by weight

The weights are added up one after the other, and the first position whose sum
exceeds the ticket is drawn.

* `drawFrom_eq_some_iff`: over any addition and order, wrapping or not;
* `getD_drawFrom_eq_iff`: the same with a stand-in for no position;
* `drawFrom_nat_eq_some_iff`: over the natural numbers every position owns an
  interval of tickets, and `card_draw` counts it;
* `drawFrom_toNat`: words draw like numbers while their sum does not wrap.
-/

namespace NoirNet.Lib.Lottery

section

variable {α : Type*} [Add α] [LT α] [DecidableLT α]

def drawFrom (ticket : α) : α → List α → Option Nat
  | _, [] => none
  | sum, w :: ws =>
      if ticket < sum + w then some 0 else (drawFrom ticket (sum + w) ws).map (· + 1)

def level (sum : α) (ws : List α) (i : Nat) : α := (ws.take i).foldl (· + ·) sum

theorem drawFrom_eq_some_iff {ticket sum : α} {ws : List α} {i : Nat} :
    drawFrom ticket sum ws = some i ↔
      i < ws.length ∧ ticket < level sum ws (i + 1) ∧ ∀ j < i, ¬ ticket < level sum ws (j + 1) := by
  induction ws generalizing sum i with
  | nil => simp [drawFrom]
  | cons w ws ih =>
      rw [drawFrom]
      by_cases hfirst : ticket < sum + w
      · rw [if_pos hfirst]
        constructor
        · intro h
          cases h
          exact ⟨Nat.succ_pos _, hfirst, by simp⟩
        · rintro ⟨-, -, hbelow⟩
          cases i with
          | zero => rfl
          | succ i => exact absurd hfirst (hbelow 0 (Nat.succ_pos i))
      · rw [if_neg hfirst, Option.map_eq_some_iff]
        constructor
        · rintro ⟨k, hk, rfl⟩
          obtain ⟨hlen, hexceeds, hbelow⟩ := ih.mp hk
          refine ⟨Nat.succ_lt_succ hlen, hexceeds, ?_⟩
          intro j hj
          cases j with
          | zero => exact hfirst
          | succ j => exact hbelow j (Nat.lt_of_succ_lt_succ hj)
        · rintro ⟨hlen, hexceeds, hbelow⟩
          cases i with
          | zero => exact absurd hexceeds hfirst
          | succ k =>
              refine ⟨k, ih.mpr ⟨Nat.lt_of_succ_lt_succ hlen, hexceeds, ?_⟩, rfl⟩
              intro j hj
              exact hbelow (j + 1) (Nat.succ_lt_succ hj)

theorem drawFrom_eq_none_iff {ticket sum : α} {ws : List α} :
    drawFrom ticket sum ws = none ↔ ∀ j < ws.length, ¬ ticket < level sum ws (j + 1) := by
  induction ws generalizing sum with
  | nil => simp [drawFrom]
  | cons w ws ih =>
      rw [drawFrom, List.length_cons]
      by_cases hfirst : ticket < sum + w
      · rw [if_pos hfirst]
        simp only [reduceCtorEq, false_iff, not_forall, not_not]
        exact ⟨0, Nat.succ_pos _, hfirst⟩
      · rw [if_neg hfirst, Option.map_eq_none_iff, ih]
        constructor
        · intro h j hj
          cases j with
          | zero => exact hfirst
          | succ j => exact h j (Nat.lt_of_succ_lt_succ hj)
        · intro h j hj
          exact h (j + 1) (Nat.succ_lt_succ hj)

theorem lt_length_of_drawFrom {ticket sum : α} {ws : List α} {i : Nat}
    (h : drawFrom ticket sum ws = some i) : i < ws.length := (drawFrom_eq_some_iff.mp h).1

/-- With the first position standing in where no sum exceeds the ticket. -/
theorem getD_drawFrom_eq_iff {ticket sum : α} {ws : List α} {i : Nat} (hlen : i < ws.length) :
    (drawFrom ticket sum ws).getD 0 = i ↔
      (ticket < level sum ws (i + 1) ∧ ∀ j < i, ¬ ticket < level sum ws (j + 1)) ∨
        i = 0 ∧ ∀ j < ws.length, ¬ ticket < level sum ws (j + 1) := by
  cases hdraw : drawFrom ticket sum ws with
  | some k =>
      have hk := drawFrom_eq_some_iff.mp hdraw
      constructor
      · intro h
        obtain rfl : k = i := h
        exact .inl hk.2
      · intro h
        rcases h with hi | ⟨-, hnone⟩
        · exact Option.some.inj (hdraw.symm.trans (drawFrom_eq_some_iff.mpr ⟨hlen, hi⟩))
        · exact absurd hk.2.1 (hnone k hk.1)
  | none =>
      have hnone := drawFrom_eq_none_iff.mp hdraw
      constructor
      · intro h
        exact .inr ⟨h.symm, hnone⟩
      · intro h
        rcases h with hi | ⟨hzero, -⟩
        · exact absurd hi.1 (hnone i hlen)
        · exact hzero.symm

end

/-! ## Natural weights -/

section

variable {ticket sum : Nat} {ws : List Nat} {i : Nat}

theorem level_nat (sum : Nat) (ws : List Nat) (i : Nat) :
    level sum ws i = sum + (ws.take i).sum := by
  unfold level
  induction ws.take i generalizing sum with
  | nil => rfl
  | cons w ws ih => rw [List.foldl_cons, ih, List.sum_cons, Nat.add_assoc]

theorem sum_take_le {ws : List Nat} {i j : Nat} (h : i ≤ j) : (ws.take i).sum ≤ (ws.take j).sum :=
  (List.take_sublist_take_left h).sum_le_sum (by simp)

theorem sum_take_le_sum (i : Nat) (ws : List Nat) : (ws.take i).sum ≤ ws.sum :=
  (List.take_sublist i ws).sum_le_sum (by simp)

/-- Each position owns the tickets from the sum in front of it to the sum behind it. -/
theorem drawFrom_nat_eq_some_iff (hsum : sum ≤ ticket) :
    drawFrom ticket sum ws = some i ↔
      i < ws.length ∧ sum + (ws.take i).sum ≤ ticket ∧ ticket < sum + (ws.take (i + 1)).sum := by
  rw [drawFrom_eq_some_iff]
  simp only [level_nat, Nat.not_lt]
  constructor
  · rintro ⟨hlen, hexceeds, hbelow⟩
    refine ⟨hlen, ?_, hexceeds⟩
    cases i with
    | zero => simpa using hsum
    | succ i => exact hbelow i (Nat.lt_succ_self i)
  · rintro ⟨hlen, hle, hexceeds⟩
    refine ⟨hlen, hexceeds, ?_⟩
    intro j hj
    have hbefore : (ws.take (j + 1)).sum ≤ (ws.take i).sum := sum_take_le hj
    omega

theorem drawFrom_isSome (hsum : sum ≤ ticket) (h : ticket < sum + ws.sum) :
    (drawFrom ticket sum ws).isSome := by
  rw [Option.isSome_iff_ne_none]
  intro hnone
  cases ws with
  | nil => simp at h; omega
  | cons w ws =>
      have hlast := drawFrom_eq_none_iff.mp hnone ws.length (Nat.lt_succ_self _)
      rw [level_nat, List.take_of_length_le (by simp)] at hlast
      exact hlast h

theorem weight_pos_of_drawFrom (hsum : sum ≤ ticket) (h : drawFrom ticket sum ws = some i)
    (hlen : i < ws.length) : 0 < ws[i] := by
  obtain ⟨-, hle, hlt⟩ := (drawFrom_nat_eq_some_iff hsum).mp h
  rw [List.sum_take_succ ws i hlen] at hlt
  omega

/-- As many tickets draw a position as it weighs. -/
theorem card_draw (ws : List Nat) (hlen : i < ws.length) :
    ((Finset.range ws.sum).filter fun ticket => drawFrom ticket 0 ws = some i).card = ws[i] := by
  have hinterval : ((Finset.range ws.sum).filter fun ticket => drawFrom ticket 0 ws = some i) =
      Finset.Ico (ws.take i).sum (ws.take (i + 1)).sum := by
    ext ticket
    rw [Finset.mem_filter, Finset.mem_range, Finset.mem_Ico,
      drawFrom_nat_eq_some_iff (Nat.zero_le ticket), Nat.zero_add, Nat.zero_add]
    have hall := sum_take_le_sum (i + 1) ws
    constructor
    · rintro ⟨-, -, hinterval⟩
      exact hinterval
    · rintro ⟨hle, hlt⟩
      exact ⟨lt_of_lt_of_le hlt hall, hlen, hle, hlt⟩
  rw [hinterval, Nat.card_Ico, List.sum_take_succ ws i hlen, Nat.add_sub_cancel_left]

end

/-! ## Words -/

section

variable {w : Nat} {sum : BitVec w} {ws : List (BitVec w)}

theorem toNat_add_head {v : BitVec w}
    (h : sum.toNat + ((v :: ws).map BitVec.toNat).sum < 2 ^ w) :
    (sum + v).toNat = sum.toNat + v.toNat ∧
      (sum + v).toNat + (ws.map BitVec.toNat).sum < 2 ^ w := by
  rw [List.map_cons, List.sum_cons, ← Nat.add_assoc] at h
  have hadd : (sum + v).toNat = sum.toNat + v.toNat :=
    BitVec.toNat_add_of_lt (lt_of_le_of_lt (Nat.le_add_right _ _) h)
  exact ⟨hadd, hadd ▸ h⟩

theorem drawFrom_toNat (ticket : BitVec w)
    (h : sum.toNat + (ws.map BitVec.toNat).sum < 2 ^ w) :
    drawFrom ticket.toNat sum.toNat (ws.map BitVec.toNat) = drawFrom ticket sum ws := by
  induction ws generalizing sum with
  | nil => rfl
  | cons v ws ih =>
      obtain ⟨hadd, hrest⟩ := toNat_add_head h
      rw [List.map_cons, drawFrom, drawFrom, ← ih hrest, hadd]
      simp only [BitVec.lt_def, hadd]

theorem toNat_foldl_add (h : sum.toNat + (ws.map BitVec.toNat).sum < 2 ^ w) :
    (ws.foldl (· + ·) sum).toNat = sum.toNat + (ws.map BitVec.toNat).sum := by
  induction ws generalizing sum with
  | nil => rfl
  | cons v ws ih =>
      obtain ⟨hadd, hrest⟩ := toNat_add_head h
      rw [List.foldl_cons, ih hrest, hadd, List.map_cons, List.sum_cons, Nat.add_assoc]

end

end NoirNet.Lib.Lottery
