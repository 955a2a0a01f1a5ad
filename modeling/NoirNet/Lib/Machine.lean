import Mathlib.Data.List.Basic
import Mathlib.Data.List.Induction

/-!
# Machines and their runs

A machine reads one input at a time, moves its state and emits outputs.  A run
is a list of inputs; nothing here knows what the states stand for.  The rules
below are the ones a proof about whole runs needs:

* `final_append`, `outputs_append`, `admissible_append` and `mem_visits` split a run;
* `invariant` lifts a step lemma to a run whose every input is allowed in the
  state that receives it, `invariant_final` to every run, `invariant_visits` a
  step lemma about a state and its past;
* `admissible_iff_of_invariant` compares two conditions on the steps of a run;
* `forall_prefix_iff` says when a property holds in every state a run reaches,
  and `recorded` turns a property of states and outputs into one of states;
* `simulation` carries a relation between the states of two machines along a run.
-/

namespace NoirNet.Lib

/-- A deterministic machine with outputs. -/
structure Machine (σ ι ο : Type*) where
  step : σ → ι → σ × List ο

namespace Machine

variable {σ ι ο : Type*} (m : Machine σ ι ο)

def final : σ → List ι → σ
  | s, [] => s
  | s, i :: is => final (m.step s i).1 is

def outputs : σ → List ι → List ο
  | _, [] => []
  | s, i :: is => (m.step s i).2 ++ outputs (m.step s i).1 is

/-- The states a run passes through, each with the input it receives there. -/
def visits : σ → List ι → List (σ × ι)
  | _, [] => []
  | s, i :: is => (s, i) :: visits (m.step s i).1 is

/-- Every input of the run is allowed in the state that receives it. -/
def Admissible (allowed : σ → ι → Prop) : σ → List ι → Prop
  | _, [] => True
  | s, i :: is => allowed s i ∧ Admissible allowed (m.step s i).1 is

instance Admissible.decidable (allowed : σ → ι → Prop) [∀ s i, Decidable (allowed s i)] :
    ∀ s is, Decidable (m.Admissible allowed s is)
  | _, [] => isTrue trivial
  | s, i :: is =>
      have := Admissible.decidable allowed (m.step s i).1 is
      inferInstanceAs (Decidable (_ ∧ _))

@[simp] theorem final_nil (s : σ) : m.final s [] = s := rfl

@[simp] theorem final_cons (s : σ) (i : ι) (is : List ι) :
    m.final s (i :: is) = m.final (m.step s i).1 is := rfl

@[simp] theorem outputs_nil (s : σ) : m.outputs s [] = [] := rfl

@[simp] theorem outputs_cons (s : σ) (i : ι) (is : List ι) :
    m.outputs s (i :: is) = (m.step s i).2 ++ m.outputs (m.step s i).1 is := rfl

@[simp] theorem visits_nil (s : σ) : m.visits s [] = [] := rfl

@[simp] theorem visits_cons (s : σ) (i : ι) (is : List ι) :
    m.visits s (i :: is) = (s, i) :: m.visits (m.step s i).1 is := rfl

theorem final_append (s : σ) (is js : List ι) :
    m.final s (is ++ js) = m.final (m.final s is) js := by
  induction is generalizing s with
  | nil => rfl
  | cons i is ih => exact ih _

theorem outputs_append (s : σ) (is js : List ι) :
    m.outputs s (is ++ js) = m.outputs s is ++ m.outputs (m.final s is) js := by
  induction is generalizing s with
  | nil => rfl
  | cons i is ih =>
      rw [List.cons_append, outputs_cons, ih, outputs_cons, List.append_assoc, final_cons]

theorem visits_append (s : σ) (is js : List ι) :
    m.visits s (is ++ js) = m.visits s is ++ m.visits (m.final s is) js := by
  induction is generalizing s with
  | nil => rfl
  | cons i is ih => exact congrArg _ (ih _)

theorem admissible_append {allowed : σ → ι → Prop} {s : σ} {is js : List ι} :
    m.Admissible allowed s (is ++ js) ↔
      m.Admissible allowed s is ∧ m.Admissible allowed (m.final s is) js := by
  induction is generalizing s with
  | nil => simp [Admissible]
  | cons i is ih => simp [Admissible, ih, and_assoc]

theorem admissible_of_forall {allowed : σ → ι → Prop} {is : List ι}
    (h : ∀ i ∈ is, ∀ s, allowed s i) (s : σ) : m.Admissible allowed s is := by
  induction is generalizing s with
  | nil => trivial
  | cons i is ih =>
      exact ⟨h i List.mem_cons_self s, ih (fun j hj => h j (List.mem_cons_of_mem i hj)) _⟩

theorem Admissible.imp {allowed allowed' : σ → ι → Prop} {s : σ} {is : List ι}
    (h : m.Admissible allowed s is) (himp : ∀ s i, allowed s i → allowed' s i) :
    m.Admissible allowed' s is := by
  induction is generalizing s with
  | nil => trivial
  | cons i is ih => exact ⟨himp _ _ h.1, ih h.2⟩

/-- Which runs are allowed is a matter of the states, not of the outputs. -/
theorem admissible_congr {ο' : Type*} {m : Machine σ ι ο} {m' : Machine σ ι ο'}
    (hstep : ∀ s i, (m.step s i).1 = (m'.step s i).1) {allowed : σ → ι → Prop} {s : σ}
    {is : List ι} : m.Admissible allowed s is ↔ m'.Admissible allowed s is := by
  induction is generalizing s with
  | nil => exact Iff.rfl
  | cons i is ih =>
      rw [Admissible, Admissible, ← hstep s i]
      exact and_congr_right fun _ => ih

theorem final_congr {ο' : Type*} {m : Machine σ ι ο} {m' : Machine σ ι ο'}
    (hstep : ∀ s i, (m.step s i).1 = (m'.step s i).1) (s : σ) (is : List ι) :
    m.final s is = m'.final s is := by
  induction is generalizing s with
  | nil => rfl
  | cons i is ih => rw [final_cons, final_cons, hstep, ih]

/-- `Admissible.imp` along an invariant of the allowed steps. -/
theorem Admissible.imp_of_invariant {allowed allowed' : σ → ι → Prop} (Inv : σ → Prop)
    (hstep : ∀ s i, allowed s i → Inv s → Inv (m.step s i).1)
    (himp : ∀ s i, Inv s → allowed s i → allowed' s i) {s : σ} {is : List ι} (hs : Inv s)
    (h : m.Admissible allowed s is) : m.Admissible allowed' s is := by
  induction is generalizing s with
  | nil => trivial
  | cons i is ih => exact ⟨himp s i hs h.1, ih (hstep s i h.1 hs) h.2⟩

/-- Two conditions on the steps that agree wherever an invariant of every step holds
allow the same runs. -/
theorem admissible_iff_of_invariant {allowed allowed' : σ → ι → Prop} (Inv : σ → Prop)
    (hstep : ∀ s i, Inv s → Inv (m.step s i).1)
    (hiff : ∀ s i, Inv s → (allowed s i ↔ allowed' s i)) {s : σ} {is : List ι} (hs : Inv s) :
    m.Admissible allowed s is ↔ m.Admissible allowed' s is := by
  induction is generalizing s with
  | nil => exact Iff.rfl
  | cons i is ih => exact and_congr (hiff s i hs) (ih (hstep s i hs))

/-- A property that every allowed step preserves holds after every allowed run. -/
theorem invariant {allowed : σ → ι → Prop} (Inv : σ → Prop)
    (hstep : ∀ s i, allowed s i → Inv s → Inv (m.step s i).1)
    {s : σ} {is : List ι} (hs : Inv s) (hrun : m.Admissible allowed s is) :
    Inv (m.final s is) := by
  induction is generalizing s with
  | nil => exact hs
  | cons i is ih => exact ih (hstep s i hrun.1 hs) hrun.2

theorem invariant_final (Inv : σ → Prop)
    (hstep : ∀ s i, Inv s → Inv (m.step s i).1) {s : σ} (hs : Inv s) (is : List ι) :
    Inv (m.final s is) := by
  induction is generalizing s with
  | nil => exact hs
  | cons i is ih => exact ih (hstep s i hs)

/-- A property of a state and of the visits behind it that every step preserves
holds after every run. -/
theorem invariant_visits (Inv : List (σ × ι) → σ → Prop)
    (hstep : ∀ past s i, Inv past s → Inv (past ++ [(s, i)]) (m.step s i).1)
    {s : σ} (hs : Inv [] s) (is : List ι) : Inv (m.visits s is) (m.final s is) := by
  induction is using List.reverseRecOn with
  | nil => exact hs
  | append_singleton is i ih =>
      rw [visits_append, final_append]
      exact hstep _ _ i ih

/-- If, along the legal inputs and as long as the run is allowed, a step ends in
a good state exactly when it is allowed, then all states reached are good exactly
when the run is allowed. -/
theorem forall_prefix_iff {legal allowed : σ → ι → Prop} (Inv Good : σ → Prop)
    (hkeep : ∀ s i, legal s i → Inv s → allowed s i → Inv (m.step s i).1)
    (hgood : ∀ s i, legal s i → Inv s → (Good (m.step s i).1 ↔ allowed s i))
    {s : σ} {is : List ι} (hs : Inv s) (hstart : Good s) (hlegal : m.Admissible legal s is) :
    (∀ js, js <+: is → Good (m.final s js)) ↔ m.Admissible allowed s is := by
  induction is generalizing s with
  | nil =>
      refine ⟨fun _ => trivial, ?_⟩
      intro _ js hjs
      rw [List.prefix_nil.mp hjs]
      exact hstart
  | cons i is ih =>
      obtain ⟨hi, hrest⟩ := hlegal
      have hone := hgood s i hi hs
      constructor
      · intro hall
        have hallowed : allowed s i := hone.mp (hall [i] (by simp))
        refine ⟨hallowed, (ih (hkeep s i hi hs hallowed) (hone.mpr hallowed) hrest).mp ?_⟩
        intro js hjs
        exact hall (i :: js) (List.cons_prefix_cons.mpr ⟨rfl, hjs⟩)
      · rintro ⟨hallowed, hadmissible⟩ js hjs
        cases js with
        | nil => exact hstart
        | cons j js =>
            obtain ⟨rfl, htail⟩ := List.cons_prefix_cons.mp hjs
            exact (ih (hkeep s j hi hs hallowed) (hone.mpr hallowed) hrest).mpr hadmissible js
              htail

/-! ## Recorded outputs -/

def recorded : Machine (σ × List ο) ι ο where
  step s i := (((m.step s.1 i).1, s.2 ++ (m.step s.1 i).2), (m.step s.1 i).2)

theorem final_recorded (s : σ) (os : List ο) (is : List ι) :
    m.recorded.final (s, os) is = (m.final s is, os ++ m.outputs s is) := by
  induction is generalizing s os with
  | nil => simp
  | cons i is ih =>
      rw [final_cons, final_cons, outputs_cons, ← List.append_assoc]
      exact ih _ _

theorem admissible_recorded {allowed : σ → ι → Prop} {s : σ} {os : List ο} {is : List ι} :
    m.recorded.Admissible (fun s i => allowed s.1 i) (s, os) is ↔ m.Admissible allowed s is := by
  induction is generalizing s os with
  | nil => exact Iff.rfl
  | cons i is ih => exact and_congr_right fun _ => ih

/-! ## Outputs and visits -/

theorem mem_outputs {s : σ} {is : List ι} {o : ο} :
    o ∈ m.outputs s is ↔ ∃ v ∈ m.visits s is, o ∈ (m.step v.1 v.2).2 := by
  induction is generalizing s with
  | nil => simp
  | cons i is ih => simp [ih]

/-- A visited state splits the run at the input it receives. -/
theorem mem_visits {s : σ} {is : List ι} {v : σ × ι} (hv : v ∈ m.visits s is) :
    ∃ js ks, is = js ++ v.2 :: ks ∧ v.1 = m.final s js := by
  induction is generalizing s with
  | nil => simp at hv
  | cons i is ih =>
      rcases List.mem_cons.mp hv with rfl | hv
      · exact ⟨[], is, rfl, rfl⟩
      · obtain ⟨js, ks, hsplit, hfinal⟩ := ih hv
        exact ⟨i :: js, ks, by simp [hsplit], hfinal⟩

/-! ## Simulation -/

/-- A relation that every allowed step of two machines keeps, with the outputs of one
read off those of the other, holds after every allowed run of both. -/
theorem simulation {σ' ο' : Type*} {m : Machine σ ι ο} {m' : Machine σ' ι ο'} (R : σ → σ' → Prop)
    (read : ο' → ο) {allowed : σ' → ι → Prop}
    (hstep : ∀ s s' i, allowed s' i → R s s' →
      R (m.step s i).1 (m'.step s' i).1 ∧ (m.step s i).2 = (m'.step s' i).2.map read)
    {s : σ} {s' : σ'} {is : List ι} (hs : R s s') (hrun : m'.Admissible allowed s' is) :
    R (m.final s is) (m'.final s' is) ∧ m.outputs s is = (m'.outputs s' is).map read := by
  induction is generalizing s s' with
  | nil => exact ⟨hs, rfl⟩
  | cons i is ih =>
      obtain ⟨hnext, hout⟩ := hstep s s' i hrun.1 hs
      obtain ⟨hfinal, hrest⟩ := ih hnext hrun.2
      refine ⟨hfinal, ?_⟩
      rw [outputs_cons, outputs_cons, List.map_append, hout, hrest]

end Machine

end NoirNet.Lib
