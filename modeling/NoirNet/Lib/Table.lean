import Mathlib.Data.List.Basic

/-!
# Ordered key-value tables

A table is an extensional tree map under the key type's own order: two tables
with the same entries are equal, and iteration follows the keys.  This is what
a `sled` tree, a `HashMap` and a `DashMap` are to the code that uses them.
-/

namespace NoirNet.Lib

abbrev Table (κ ν : Type*) [Ord κ] := Std.ExtTreeMap κ ν compare

namespace Table

variable {κ ν : Type*} [Ord κ] [Std.TransOrd κ] [Std.LawfulEqOrd κ] [DecidableEq κ]

theorem get_insert (t : Table κ ν) (k a : κ) (v : ν) :
    (t.insert k v)[a]? = if k = a then some v else t[a]? := by
  simp [Std.ExtTreeMap.getElem?_insert]

theorem get_insert_eq_some {t : Table κ ν} {k a : κ} {v w : ν} :
    (t.insert k v)[a]? = some w ↔ k = a ∧ v = w ∨ k ≠ a ∧ t[a]? = some w := by
  rw [get_insert]
  by_cases hk : k = a
  · simp [hk]
  · simp [hk]

/-- A symmetric relation between the values of different keys survives an insertion of
a value that is related to the others. -/
theorem insert_pairwise {R : ν → ν → Prop} (hsymm : ∀ {v w}, R v w → R w v) {t : Table κ ν}
    {k : κ} {v : ν}
    (h : ∀ (a a' : κ) w w', a ≠ a' → t[a]? = some w → t[a']? = some w' → R w w')
    (hnew : ∀ (a : κ) w, k ≠ a → t[a]? = some w → R v w) {a a' : κ} {w w' : ν} (hne : a ≠ a')
    (hw : (t.insert k v)[a]? = some w) (hw' : (t.insert k v)[a']? = some w') : R w w' := by
  obtain ⟨rfl, rfl⟩ | ⟨hk, hw⟩ := get_insert_eq_some.mp hw
  · obtain ⟨heq, -⟩ | ⟨hk', hw'⟩ := get_insert_eq_some.mp hw'
    · exact absurd heq hne
    · exact hnew a' w' hk' hw'
  · obtain ⟨rfl, rfl⟩ | ⟨-, hw'⟩ := get_insert_eq_some.mp hw'
    · exact hsymm (hnew a w hk hw)
    · exact h a a' w w' hne hw hw'

omit [Std.LawfulEqOrd κ] [DecidableEq κ] in
theorem size_insert_le {t : Table κ ν} {k : κ} {n : Nat} (v : ν) (h : t.size ≤ n)
    (hroom : t.size < n ∨ t.contains k) : (t.insert k v).size ≤ n := by
  rcases hroom with hroom | hknown
  · calc
      (t.insert k v).size ≤ t.size + 1 := Std.ExtTreeMap.size_insert_le
      _ ≤ n := hroom
  · rw [Std.ExtTreeMap.size_insert, if_pos hknown]
    exact h

theorem get_erase (t : Table κ ν) (k a : κ) :
    (t.erase k)[a]? = if k = a then none else t[a]? := by
  simp [Std.ExtTreeMap.getElem?_erase]

theorem insert_insert (t : Table κ ν) (k : κ) (v v' : ν) :
    (t.insert k v).insert k v' = t.insert k v' := by
  apply Std.ExtTreeMap.ext_getElem?
  intro a
  rw [get_insert, get_insert, get_insert]
  split <;> rfl

theorem insert_of_get {t : Table κ ν} {k : κ} {v : ν} (h : t[k]? = some v) : t.insert k v = t := by
  apply Std.ExtTreeMap.ext_getElem?
  intro a
  rw [get_insert]
  by_cases hk : k = a
  · rw [if_pos hk, ← hk, h]
  · rw [if_neg hk]

theorem size_erase_add_one {t : Table κ ν} {k : κ} {v : ν} (h : t[k]? = some v) :
    (t.erase k).size + 1 = t.size := by
  have hback : (t.erase k).insert k v = t := by
    apply Std.ExtTreeMap.ext_getElem?
    intro a
    rw [get_insert, get_erase]
    by_cases hk : k = a
    · rw [if_pos hk, ← hk, h]
    · rw [if_neg hk, if_neg hk]
  have hgone : ¬ (t.erase k).contains k := by simp
  calc
    (t.erase k).size + 1 = ((t.erase k).insert k v).size := by
      rw [Std.ExtTreeMap.size_insert, if_neg hgone]
    _ = t.size := by rw [hback]

theorem insert_comm {k k' : κ} (h : k ≠ k') (t : Table κ ν) (v v' : ν) :
    (t.insert k v).insert k' v' = (t.insert k' v').insert k v := by
  apply Std.ExtTreeMap.ext_getElem?
  intro a
  simp only [get_insert]
  by_cases hk : k = a
  · have hk' : k' ≠ a := fun hk' => h (hk.trans hk'.symm)
    simp only [hk, hk', if_true, if_false]
  · simp only [hk, if_false]

/-- After a fold of insertions a key is present if it was, or is one of those inserted. -/
theorem isSome_foldl_insert {ι : Type*} (key : ι → κ) (value : ι → ν) (is : List ι)
    (t : Table κ ν) (a : κ) :
    (is.foldl (fun t i => t.insert (key i) (value i)) t)[a]?.isSome ↔
      a ∈ is.map key ∨ t[a]?.isSome := by
  induction is generalizing t with
  | nil => simp
  | cons i is ih =>
      rw [List.foldl_cons, ih, get_insert, List.map_cons, List.mem_cons]
      by_cases h : key i = a
      · simp [h]
      · simp [h, Ne.symm h]

theorem get_foldl_insert_of_notMem {ι : Type*} {key : ι → κ} {is : List ι} {a : κ}
    (value : ι → ν) (t : Table κ ν) (h : a ∉ is.map key) :
    (is.foldl (fun t i => t.insert (key i) (value i)) t)[a]? = t[a]? := by
  induction is generalizing t with
  | nil => rfl
  | cons i is ih =>
      rw [List.map_cons, List.mem_cons, not_or] at h
      rw [List.foldl_cons, ih _ h.2, get_insert, if_neg (Ne.symm h.1)]

/-- What is inserted under a key is found there, if it is the same each time. -/
theorem get_foldl_insert_of_mem {ι : Type*} {key : ι → κ} {value : ι → ν} {is : List ι} {a : κ}
    {v : ν} (t : Table κ ν) (h : a ∈ is.map key) (hsame : ∀ i ∈ is, key i = a → value i = v) :
    (is.foldl (fun t i => t.insert (key i) (value i)) t)[a]? = some v := by
  induction is generalizing t with
  | nil => cases h
  | cons i is ih =>
      have hrest : ∀ j ∈ is, key j = a → value j = v := fun j hj =>
        hsame j (List.mem_cons_of_mem i hj)
      rw [List.foldl_cons]
      by_cases hlater : a ∈ is.map key
      · exact ih _ hlater hrest
      · have hi : key i = a := by
          rcases List.mem_cons.mp h with rfl | hmem
          · rfl
          · exact absurd hmem hlater
        rw [get_foldl_insert_of_notMem value _ hlater, get_insert, if_pos hi,
          hsame i List.mem_cons_self hi]

theorem get_foldl_insert_const {ι : Type*} (key : ι → κ) (value : ν) (is : List ι) (t : Table κ ν)
    (a : κ) :
    (is.foldl (fun t i => t.insert (key i) value) t)[a]? =
      if a ∈ is.map key then some value else t[a]? := by
  induction is generalizing t with
  | nil => simp
  | cons i is ih =>
      rw [List.foldl_cons, ih, get_insert, List.map_cons]
      by_cases h : key i = a
      · simp [h]
      · simp [h, Ne.symm h]

theorem get_foldl_erase {ι : Type*} (key : ι → κ) (is : List ι) (t : Table κ ν) (a : κ) :
    (is.foldl (fun t i => t.erase (key i)) t)[a]? = if a ∈ is.map key then none else t[a]? := by
  induction is generalizing t with
  | nil => simp
  | cons i is ih =>
      rw [List.foldl_cons, ih, get_erase, List.map_cons]
      by_cases h : key i = a
      · simp [h]
      · simp [h, Ne.symm h]

/-! ## Values -/

omit [Std.LawfulEqOrd κ] [DecidableEq κ] in
theorem values_eq (t : Table κ ν) : t.values = t.toList.map Prod.snd := by
  have hfold : t.values = t.foldr (fun _ v vs => v :: vs) [] := rfl
  rw [hfold, Std.ExtTreeMap.foldr_eq_foldr_toList]
  exact List.map_eq_foldr.symm

omit [DecidableEq κ] in
theorem mem_values {t : Table κ ν} {v : ν} : v ∈ t.values ↔ ∃ k : κ, t[k]? = some v := by
  simp [values_eq, Std.ExtTreeMap.mem_toList_iff_getElem?_eq_some]

omit [DecidableEq κ] in
/-- A relation between the values of different keys holds along the values. -/
theorem pairwise_values {t : Table κ ν} {R : ν → ν → Prop}
    (h : ∀ (k k' : κ) v v', k ≠ k' → t[k]? = some v → t[k']? = some v' → R v v') :
    t.values.Pairwise R := by
  have hkeys : t.toList.Pairwise fun a b => ¬ compare a.1 b.1 = .eq :=
    Std.ExtTreeMap.distinct_keys_toList
  rw [values_eq, List.pairwise_map]
  apply hkeys.imp_of_mem
  intro a b ha hb hne
  refine h a.1 b.1 a.2 b.2 (fun heq => hne (by simp [heq])) ?_ ?_
  · exact Std.ExtTreeMap.mem_toList_iff_getElem?_eq_some.mp ha
  · exact Std.ExtTreeMap.mem_toList_iff_getElem?_eq_some.mp hb

/-! ## Sums -/

def sumBy (weight : κ → ν → Nat) (t : Table κ ν) : Nat :=
  (t.toList.map fun entry => weight entry.1 entry.2).foldr (· + ·) 0

omit [Std.LawfulEqOrd κ] [DecidableEq κ] in
theorem nodup_toList (t : Table κ ν) : t.toList.Nodup := by
  apply Std.ExtTreeMap.distinct_keys_toList.imp
  rintro a _ hne rfl
  exact hne (Std.ReflOrd.compare_self)

theorem perm_toList_erase {t : Table κ ν} {k : κ} {v : ν} (h : t[k]? = some v) :
    t.toList.Perm ((k, v) :: (t.erase k).toList) := by
  have hnot : (k, v) ∉ (t.erase k).toList := by
    rw [Std.ExtTreeMap.mem_toList_iff_getElem?_eq_some, get_erase, if_pos rfl]
    nofun
  apply (List.perm_ext_iff_of_nodup t.nodup_toList (List.nodup_cons.mpr ⟨hnot, nodup_toList _⟩)).mpr
  rintro ⟨a, w⟩
  rw [List.mem_cons, Std.ExtTreeMap.mem_toList_iff_getElem?_eq_some,
    Std.ExtTreeMap.mem_toList_iff_getElem?_eq_some, get_erase, Prod.mk.injEq]
  by_cases hk : k = a
  · subst hk
    simp [h, eq_comm]
  · simp [hk, Ne.symm hk]

theorem sumBy_eq_add_erase (weight : κ → ν → Nat) (t : Table κ ν) (k : κ) :
    sumBy weight t = (t[k]?.elim 0 (weight k)) + sumBy weight (t.erase k) := by
  cases h : t[k]? with
  | none =>
      have herase : t.erase k = t := by
        apply Std.ExtTreeMap.ext_getElem?
        intro a
        rw [get_erase]
        by_cases hk : k = a
        · rw [if_pos hk, ← hk, h]
        · rw [if_neg hk]
      rw [herase]
      exact (Nat.zero_add _).symm
  | some v =>
      have hperm := (perm_toList_erase h).map fun entry => weight entry.1 entry.2
      exact hperm.foldr_eq' (fun x _ y _ z => Nat.add_left_comm y x z) 0

omit [DecidableEq κ] in
theorem sumBy_eq_zero {weight : κ → ν → Nat} {t : Table κ ν}
    (h : ∀ (k : κ) (v : ν), t[k]? = some v → weight k v = 0) : sumBy weight t = 0 := by
  have hentries : ∀ entry ∈ t.toList, weight entry.1 entry.2 = 0 := fun entry hentry =>
    h entry.1 entry.2 (Std.ExtTreeMap.mem_toList_iff_getElem?_eq_some.mp hentry)
  unfold sumBy
  generalize t.toList = entries at hentries
  induction entries with
  | nil => rfl
  | cons entry entries ih =>
      rw [List.map_cons, List.foldr_cons, hentries entry List.mem_cons_self,
        ih fun e he => hentries e (List.mem_cons_of_mem _ he)]

end Table

end NoirNet.Lib
