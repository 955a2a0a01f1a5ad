import Mathlib.Algebra.BigOperators.Group.List.Basic
import Mathlib.Algebra.Order.BigOperators.Group.List
import Mathlib.Algebra.Order.Ring.Nat
import Mathlib.Data.List.Induction

/-!
# Greedy packing

Items are taken in order while there is a place left and their weight fits into
what is left of the capacity; an item that does not fit is passed over.

* `pack_append`: packing two stretches one after the other;
* `pack_sublist`, `length_pack_le`, `load_pack_le`: what is packed is admissible;
* `load_lt_of_notMem`: what is left out did not fit behind what was packed before it;
* `pack_eq_filter`: a set of items that fits, in front of the rest, is packed.
-/

namespace NoirNet.Lib.Greedy

variable {α : Type*} (weight : α → Nat)

def load (xs : List α) : Nat := (xs.map weight).sum

def pack : Nat → Nat → List α → List α
  | _, _, [] => []
  | 0, _, _ => []
  | places + 1, room, x :: xs =>
      if weight x ≤ room then x :: pack places (room - weight x) xs
      else pack (places + 1) room xs

@[simp] theorem load_nil : load weight [] = 0 := rfl

@[simp] theorem load_cons (x : α) (xs : List α) :
    load weight (x :: xs) = weight x + load weight xs := by
  rw [load, List.map_cons, List.sum_cons]
  rfl

@[simp] theorem load_append (xs ys : List α) :
    load weight (xs ++ ys) = load weight xs + load weight ys := by
  rw [load, List.map_append, List.sum_append]
  rfl

theorem load_perm {xs ys : List α} (h : xs.Perm ys) : load weight xs = load weight ys :=
  (h.map weight).sum_eq

theorem load_sublist {xs ys : List α} (h : xs.Sublist ys) : load weight xs ≤ load weight ys := by
  induction h with
  | slnil => exact le_rfl
  | cons y _ ih =>
      rw [load_cons]
      omega
  | cons_cons x _ ih =>
      rw [load_cons, load_cons]
      omega

theorem load_subperm {xs ys : List α} (h : xs.Subperm ys) : load weight xs ≤ load weight ys := by
  obtain ⟨zs, hperm, hsub⟩ := h
  rw [← load_perm weight hperm]
  exact load_sublist weight hsub

@[simp] theorem pack_nil (places room : Nat) : pack weight places room [] = [] := by
  cases places <;> rfl

@[simp] theorem pack_zero (room : Nat) (xs : List α) : pack weight 0 room xs = [] := by
  cases xs <;> rfl

theorem pack_sublist (places room : Nat) (xs : List α) :
    (pack weight places room xs).Sublist xs := by
  fun_induction pack weight places room xs with
  | case1 places room => exact List.Sublist.slnil
  | case2 room x xs => exact List.nil_sublist _
  | case3 places room x xs hfits ih => exact ih.cons_cons x
  | case4 places room x xs hskips ih => exact ih.cons x

theorem length_pack_le (places room : Nat) (xs : List α) :
    (pack weight places room xs).length ≤ places := by
  fun_induction pack weight places room xs with
  | case1 places room => exact Nat.zero_le _
  | case2 room x xs => exact Nat.zero_le _
  | case3 places room x xs hfits ih => exact Nat.succ_le_succ ih
  | case4 places room x xs hskips ih => exact ih

theorem load_pack_le (places room : Nat) (xs : List α) :
    load weight (pack weight places room xs) ≤ room := by
  fun_induction pack weight places room xs with
  | case1 places room => exact Nat.zero_le _
  | case2 room x xs => exact Nat.zero_le _
  | case3 places room x xs hfits ih =>
      rw [load_cons]
      omega
  | case4 places room x xs hskips ih => exact ih

/-- The second stretch gets the places and the room the first one leaves. -/
theorem pack_append (places room : Nat) (xs ys : List α) :
    pack weight places room (xs ++ ys) = pack weight places room xs ++
      pack weight (places - (pack weight places room xs).length)
        (room - load weight (pack weight places room xs)) ys := by
  fun_induction pack weight places room xs with
  | case1 places room => simp
  | case2 room x xs => simp
  | case3 places room x xs hfits ih =>
      rw [List.cons_append, pack, if_pos hfits, ih, List.cons_append, List.length_cons, load_cons,
        Nat.succ_sub_succ, Nat.sub_sub]
  | case4 places room x xs hskips ih =>
      rw [List.cons_append, pack, if_neg hskips, ih]

/-- While there are places, an item that is left out does not fit behind what was packed
in front of it. -/
theorem load_lt_of_notMem {places room : Nat} {xs ys : List α} {x : α}
    (hplaces : (pack weight places room (xs ++ x :: ys)).length < places)
    (hx : x ∉ pack weight places room (xs ++ x :: ys)) :
    room < weight x + load weight (pack weight places room xs) := by
  rw [pack_append] at hplaces hx
  have hload := load_pack_le weight places room xs
  generalize pack weight places room xs = front at hplaces hx hload ⊢
  obtain ⟨left, hleft⟩ : ∃ left, places - front.length = left + 1 := by
    refine ⟨places - front.length - 1, ?_⟩
    rw [List.length_append] at hplaces
    omega
  rw [hleft, pack] at hx
  by_contra hfits
  rw [if_pos (by omega)] at hx
  exact hx (List.mem_append_right _ List.mem_cons_self)

/-- Items with a property are packed, and no others, if there are places and room for all
of them and each of the others finds too little room behind those in front of it. -/
theorem pack_eq_filter {p : α → Prop} [DecidablePred p] {places room : Nat} {items : List α}
    (hplaces : (items.filter p).length ≤ places) (hroom : load weight (items.filter p) ≤ room)
    (hothers : ∀ xs x ys, items = xs ++ x :: ys → ¬ p x →
      room < weight x + load weight (xs.filter p)) :
    pack weight places room items = items.filter p := by
  suffices hfront : ∀ xs, xs <+: items → pack weight places room xs = xs.filter p from
    hfront items (List.prefix_refl _)
  intro xs
  induction xs using List.reverseRecOn with
  | nil => simp
  | append_singleton xs x ih =>
      rintro ⟨ys, hitems⟩
      have hsplit : items = xs ++ x :: ys := by
        rw [← hitems, List.append_assoc, List.singleton_append]
      have hpacked := ih ⟨x :: ys, hsplit.symm⟩
      rw [pack_append, hpacked, List.filter_append]
      congr 1
      by_cases hx : p x
      · have hfilter : items.filter p = xs.filter p ++ x :: ys.filter p := by
          rw [hsplit, List.filter_append, List.filter_cons_of_pos (by simpa using hx)]
        rw [hfilter, List.length_append, List.length_cons] at hplaces
        rw [hfilter, load_append, load_cons] at hroom
        obtain ⟨left, hleft⟩ : ∃ left, places - (xs.filter p).length = left + 1 :=
          ⟨places - (xs.filter p).length - 1, by omega⟩
        rw [hleft, pack, if_pos (by omega), pack_nil, List.filter_cons_of_pos (by simpa using hx)]
        rfl
      · have hfull := hothers xs x ys hsplit hx
        have hfront : (xs.filter p).Sublist (items.filter p) := by
          rw [hsplit]
          exact (List.sublist_append_left xs (x :: ys)).filter p
        have hload := load_sublist weight hfront
        rw [List.filter_cons_of_neg (by simpa using hx)]
        cases hleft : places - (xs.filter p).length with
        | zero => simp
        | succ left =>
            rw [pack, if_neg (by omega), pack_nil]
            rfl

end NoirNet.Lib.Greedy
