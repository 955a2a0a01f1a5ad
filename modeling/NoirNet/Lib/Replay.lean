import Mathlib.Data.List.Dedup
import Mathlib.Data.List.Perm.Basic

/-!
# Writes that can be replayed

A write assigns to one location: a later write to the same location covers it,
and writes to different locations commute.  Nothing here knows what the
locations are.

* `replay_of_prefix`: whoever starts a list of writes over behind any part of it
  ends where an uninterrupted run ends;
* `replay_perm`: the order of writes to pairwise different locations is
  immaterial;
* `replay_map`: writes to one part of the state are a fold over that part;
* `replay_frame`: what no write changes is unchanged.
-/

namespace NoirNet.Lib

/-- Writes of type `ω` to the locations `l` of a state. -/
structure Assignments (σ ω l : Type*) where
  write : σ → ω → σ
  location : ω → l
  cover : ∀ s w w', location w = location w' → write (write s w) w' = write s w'
  commute : ∀ s w w', location w ≠ location w' → write (write s w) w' = write (write s w') w

namespace Assignments

variable {σ ω l : Type*} (a : Assignments σ ω l)

def replay (s : σ) (ws : List ω) : σ := ws.foldl a.write s

@[simp] theorem replay_nil (s : σ) : a.replay s [] = s := rfl

@[simp] theorem replay_cons (s : σ) (w : ω) (ws : List ω) :
    a.replay s (w :: ws) = a.replay (a.write s w) ws := rfl

theorem replay_append (s : σ) (ws ws' : List ω) :
    a.replay s (ws ++ ws') = a.replay (a.replay s ws) ws' := List.foldl_append

/-- A write is lost in front of one to the same location. -/
theorem replay_write {w : ω} {ws : List ω} (h : a.location w ∈ ws.map a.location) (s : σ) :
    a.replay (a.write s w) ws = a.replay s ws := by
  induction ws generalizing s with
  | nil => simp at h
  | cons w' ws ih =>
      rw [replay_cons, replay_cons]
      by_cases hsame : a.location w = a.location w'
      · rw [a.cover s w w' hsame]
      · have htail : a.location w ∈ ws.map a.location := by
          rw [List.map_cons, List.mem_cons] at h
          exact h.resolve_left hsame
        rw [a.commute s w w' hsame, ih htail]

theorem replay_replay {done ws : List ω}
    (h : ∀ w ∈ done, a.location w ∈ ws.map a.location) (s : σ) :
    a.replay (a.replay s done) ws = a.replay s ws := by
  induction done generalizing s with
  | nil => rfl
  | cons w done ih =>
      have htail : ∀ w ∈ done, a.location w ∈ ws.map a.location :=
        fun w hw => h w (List.mem_cons_of_mem _ hw)
      calc a.replay (a.replay s (w :: done)) ws
          = a.replay (a.write s w) ws := ih htail (a.write s w)
        _ = a.replay s ws := a.replay_write (h w List.mem_cons_self) s

theorem replay_of_prefix {done ws : List ω} (h : done <+: ws) (s : σ) :
    a.replay (a.replay s done) ws = a.replay s ws := by
  apply a.replay_replay
  intro w hw
  exact List.mem_map_of_mem (h.subset hw)

theorem replay_perm {ws ws' : List ω} (hperm : ws.Perm ws')
    (hdistinct : (ws.map a.location).Nodup) (s : σ) : a.replay s ws = a.replay s ws' := by
  apply hperm.foldl_eq'
  intro w hw w' hw' s
  by_cases hsame : w = w'
  · rw [hsame]
  · apply a.commute s w w'
    intro hlocation
    exact hsame (List.inj_on_of_nodup_map hdistinct hw hw' hlocation)

/-- Writes that all go to one part of the state are a fold over that part. -/
theorem replay_map {τ ι : Type*} (get : σ → τ) (set : σ → τ → σ) (mk : ι → ω) (step : τ → ι → τ)
    (hwrite : ∀ s i, a.write s (mk i) = set s (step (get s) i))
    (hself : ∀ s, set s (get s) = s) (hget : ∀ s t, get (set s t) = t)
    (hset : ∀ s t t', set (set s t) t' = set s t') (is : List ι) (s : σ) :
    a.replay s (is.map mk) = set s (is.foldl step (get s)) := by
  induction is generalizing s with
  | nil => exact (hself s).symm
  | cons i is ih =>
      calc a.replay s ((i :: is).map mk)
          = a.replay (set s (step (get s) i)) (is.map mk) := by
            rw [List.map_cons, replay_cons, hwrite]
        _ = set (set s (step (get s) i)) (is.foldl step (step (get s) i)) := by rw [ih, hget]
        _ = set s ((i :: is).foldl step (get s)) := hset s _ _

theorem replay_frame {α : Type*} (f : σ → α) {ws : List ω}
    (h : ∀ w ∈ ws, ∀ s, f (a.write s w) = f s) (s : σ) : f (a.replay s ws) = f s := by
  induction ws generalizing s with
  | nil => rfl
  | cons w ws ih =>
      have htail : ∀ w ∈ ws, ∀ s, f (a.write s w) = f s :=
        fun w hw => h w (List.mem_cons_of_mem _ hw)
      rw [replay_cons, ih htail, h w List.mem_cons_self]

end Assignments

end NoirNet.Lib
