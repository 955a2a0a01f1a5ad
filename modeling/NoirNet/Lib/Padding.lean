import Mathlib.Data.List.DropRight
import Mathlib.Data.List.GetD

/-!
# Padded lists

A list stands for an infinite sequence that goes on with a padding value.  Two
lists stand for one sequence exactly when they agree behind their last value
that is not padding.

* `getD_unpad`: dropping trailing padding does not change the sequence;
* `unpad_eq_iff`: and what is left is determined by it.
-/

namespace NoirNet.Lib

variable {α : Type*} [DecidableEq α] (pad : α)

def unpad (xs : List α) : List α := xs.rdropWhile (· = pad)

variable {pad}

theorem getD_unpad (xs : List α) (i : Nat) : (unpad pad xs).getD i pad = xs.getD i pad := by
  induction xs using List.reverseRecOn with
  | nil => rfl
  | append_singleton xs x ih =>
      by_cases hx : x = pad
      · have hdrop : unpad pad (xs ++ [x]) = unpad pad xs :=
          List.rdropWhile_concat_pos _ _ _ (decide_eq_true hx)
        rw [hdrop, ih]
        by_cases hi : i < xs.length
        · rw [List.getD_append _ _ _ _ hi]
        · rw [List.getD_append_right _ _ _ _ (by omega), List.getD_eq_default _ _ (by omega), hx]
          cases i - xs.length <;> rfl
      · have hdrop : unpad pad (xs ++ [x]) = xs ++ [x] :=
          List.rdropWhile_concat_neg _ _ _ (by simpa using hx)
        rw [hdrop]

theorem getLast_unpad {xs : List α} (hne : unpad pad xs ≠ []) :
    (unpad pad xs).getLast hne ≠ pad := by
  have hlast := List.rdropWhile_last_not (fun x => decide (x = pad)) xs hne
  exact fun hpad => hlast (decide_eq_true hpad)

theorem unpad_eq_self {xs : List α} (h : ∀ x ∈ xs, x ≠ pad) : unpad pad xs = xs := by
  apply List.rdropWhile_eq_self_iff.mpr
  intro hne hpad
  exact h _ (List.getLast_mem hne) (of_decide_eq_true hpad)

/-- A list that ends in no padding is at most as long as any list of the same sequence. -/
theorem length_unpad_le {xs ys : List α}
    (h : ∀ i, (unpad pad xs).getD i pad = ys.getD i pad) :
    (unpad pad xs).length ≤ ys.length := by
  by_contra hlt
  have hne : unpad pad xs ≠ [] := by
    intro hnil
    rw [hnil] at hlt
    exact hlt (Nat.zero_le _)
  apply getLast_unpad hne
  have hpos := List.length_pos_iff.mpr hne
  calc (unpad pad xs).getLast hne
      = (unpad pad xs).getD ((unpad pad xs).length - 1) pad := by
        rw [List.getLast_eq_getElem, List.getD_eq_getElem _ _ (by omega)]
    _ = ys.getD ((unpad pad xs).length - 1) pad := h _
    _ = pad := List.getD_eq_default _ _ (by omega)

/-- What is left of a list is determined by the sequence it stands for. -/
theorem unpad_eq_iff {xs ys : List α} :
    unpad pad xs = unpad pad ys ↔ ∀ i, xs.getD i pad = ys.getD i pad := by
  constructor
  · intro h i
    rw [← getD_unpad xs, h, getD_unpad]
  · intro h
    have hsame (i : Nat) : (unpad pad xs).getD i pad = (unpad pad ys).getD i pad := by
      rw [getD_unpad, getD_unpad, h]
    have hle := length_unpad_le hsame
    have hge := length_unpad_le fun i => (hsame i).symm
    apply List.ext_getElem (by omega)
    intro i hi hi'
    have hi'' := hsame i
    rwa [List.getD_eq_getElem _ _ hi, List.getD_eq_getElem _ _ hi'] at hi''

end NoirNet.Lib
