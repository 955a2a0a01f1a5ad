import NoirNet.Lib.Table

/-!
# Tables laid over one another

`insertAll` writes the entries of one table into another, each under a key
computed from its own, and drops those for which there is none.

* `get_insertAll`: a written key reads back what was written, if anything was;
* `get_overlay`, `overlay_assoc`: the case in which every key is kept;
* `latest`, `latest_concat`: what a log of writes makes of a key.
-/

namespace NoirNet.Lib.Table

variable {κ l ν : Type*} [Ord κ] [Std.TransOrd κ] [Std.LawfulEqOrd κ] [DecidableEq κ]
  [Ord l] [Std.TransOrd l] [Std.LawfulEqOrd l] [DecidableEq l]

def put (g : κ → Option l) (t : Table l ν) (entry : κ × ν) : Table l ν :=
  match g entry.1 with
  | some a => t.insert a entry.2
  | none => t

def insertAll (g : κ → Option l) (changes : Table κ ν) (base : Table l ν) : Table l ν :=
  changes.toList.foldl (put g) base

section

variable {g : κ → Option l} {a : l}

omit [Ord κ] [Std.TransOrd κ] [Std.LawfulEqOrd κ] [DecidableEq κ] in
theorem get_put_of_ne {entry : κ × ν} (h : g entry.1 ≠ some a) (t : Table l ν) :
    (put g t entry)[a]? = t[a]? := by
  unfold put
  cases hkey : g entry.1 with
  | none => rfl
  | some b =>
      have hne : b ≠ a := fun hba => h (hkey.trans (congrArg some hba))
      exact (get_insert t b a entry.2).trans (if_neg hne)

omit [Ord κ] [Std.TransOrd κ] [Std.LawfulEqOrd κ] [DecidableEq κ] in
theorem get_foldl_put_of_ne {entries : List (κ × ν)} (h : ∀ entry ∈ entries, g entry.1 ≠ some a)
    (t : Table l ν) : (entries.foldl (put g) t)[a]? = t[a]? := by
  induction entries generalizing t with
  | nil => rfl
  | cons entry entries ih =>
      rw [List.foldl_cons, ih (fun e he => h e (List.mem_cons_of_mem _ he)),
        get_put_of_ne (h entry List.mem_cons_self)]

omit [Ord κ] [Std.TransOrd κ] [Std.LawfulEqOrd κ] [DecidableEq κ] in
theorem get_foldl_put {entries : List (κ × ν)}
    (hdistinct : entries.Pairwise fun e e' => e.1 ≠ e'.1)
    (hinj : ∀ k k', g k = some a → g k' = some a → k = k') {k : κ} {v : ν}
    (hentry : (k, v) ∈ entries) (hkey : g k = some a) (t : Table l ν) :
    (entries.foldl (put g) t)[a]? = some v := by
  induction entries generalizing t with
  | nil => cases hentry
  | cons entry entries ih =>
      obtain ⟨hne, hrest⟩ := List.pairwise_cons.mp hdistinct
      obtain rfl | htail := List.mem_cons.mp hentry
      · have hothers : ∀ e ∈ entries, g e.1 ≠ some a :=
          fun e he h => hne e he (hinj k e.1 hkey h)
        rw [List.foldl_cons, get_foldl_put_of_ne hothers, put, hkey]
        exact (get_insert t a a v).trans (if_pos rfl)
      · exact ih hrest htail _

end

variable {g : κ → Option l} {changes : Table κ ν} (base : Table l ν)

omit [DecidableEq κ] in
theorem get_insertAll {k : κ} {a : l} (hinj : ∀ k k', g k = some a → g k' = some a → k = k')
    (hkey : g k = some a) : (insertAll g changes base)[a]? = changes[k]?.or base[a]? := by
  have hdistinct : changes.toList.Pairwise fun e e' => e.1 ≠ e'.1 := by
    apply Std.ExtTreeMap.distinct_keys_toList.imp
    intro e e' hne heq
    apply hne
    simp [heq]
  cases hread : changes[k]? with
  | some v =>
      have hentry : (k, v) ∈ changes.toList :=
        Std.ExtTreeMap.mem_toList_iff_getElem?_eq_some.mpr hread
      exact get_foldl_put hdistinct hinj hentry hkey base
  | none =>
      apply get_foldl_put_of_ne
      intro entry hentry h
      have hsame : changes[entry.1]? = some entry.2 :=
        Std.ExtTreeMap.mem_toList_iff_getElem?_eq_some.mp hentry
      rw [hinj entry.1 k h hkey, hread] at hsame
      cases hsame

omit [Std.LawfulEqOrd κ] [DecidableEq κ] in
theorem get_insertAll_of_ne {a : l} (h : ∀ k, g k ≠ some a) :
    (insertAll g changes base)[a]? = base[a]? :=
  get_foldl_put_of_ne (fun entry _ => h entry.1) base

/-! ## Overlays -/

def overlay (base changes : Table κ ν) : Table κ ν := insertAll some changes base

theorem get_overlay (base changes : Table κ ν) (k : κ) :
    (overlay base changes)[k]? = changes[k]?.or base[k]? :=
  get_insertAll base (fun _ _ h h' => (Option.some.inj h).trans (Option.some.inj h').symm) rfl

theorem overlay_assoc (base changes changes' : Table κ ν) :
    overlay (overlay base changes) changes' = overlay base (overlay changes changes') := by
  apply Std.ExtTreeMap.ext_getElem?
  intro k
  rw [get_overlay, get_overlay, get_overlay, get_overlay, Option.or_assoc]

/-! ## Logs of writes -/

def latest (log : List (κ × ν)) (k : κ) : Option ν :=
  (log.reverse.find? fun entry => entry.1 = k).map Prod.snd

omit [Ord κ] [Std.TransOrd κ] [Std.LawfulEqOrd κ] in
theorem latest_concat (log : List (κ × ν)) (a : κ) (v : ν) (k : κ) :
    latest (log ++ [(a, v)]) k = if a = k then some v else latest log k := by
  rw [latest, List.reverse_append, List.reverse_singleton, List.singleton_append]
  by_cases hk : a = k
  · rw [if_pos hk, List.find?_cons_of_pos (by simpa using hk)]
    rfl
  · rw [if_neg hk, List.find?_cons_of_neg (by simpa using hk)]
    rfl

end NoirNet.Lib.Table
