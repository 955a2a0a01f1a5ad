import Mathlib.Data.List.Basic
import Mathlib.Tactic.Linarith
import Mathlib.Tactic.Ring

/-!
# Fixed-width writers and variable-width readers

The two integer encodings of `bincode` 1.3.  Its free functions write every
integer little-endian at the width of its type.  `DefaultOptions` reads a tag
byte first: up to 250 it is the value, and 251, 252 and 253 announce a 2-, 4-
or 8-byte little-endian value.  Lengths are `u64` in both.

The second half of the file is about a variable-width reader that runs over
fixed-width bytes and still returns the values that were written.  Such a
reader can only be in one of two positions:

* behind the writer (`Lags`), and then the bytes between the two are zeros;
* ahead of the writer (`Ahead`), and then the bytes it skipped are nonzero.
-/

namespace NoirNet.Lib.Wire

/-! ## Little-endian integers -/

/-- The `w` low bytes of `n`, least significant first. -/
def leBytes : Nat → Nat → List UInt8
  | 0, _ => []
  | w + 1, n => UInt8.ofNat n :: leBytes w (n / 256)

def leValue : List UInt8 → Nat
  | [] => 0
  | b :: bs => b.toNat + 256 * leValue bs

def digit (n i : Nat) : UInt8 := UInt8.ofNat (n / 256 ^ i)

@[simp] theorem length_leBytes (w n : Nat) : (leBytes w n).length = w := by
  induction w generalizing n with
  | zero => rfl
  | succ w ih => simp [leBytes, ih]

theorem leBytes_zero (w : Nat) : leBytes w 0 = List.replicate w 0 := by
  induction w with
  | zero => rfl
  | succ w ih => simp [leBytes, ih, List.replicate_succ]

theorem leBytes_leValue (bs : List UInt8) : leBytes bs.length (leValue bs) = bs := by
  induction bs with
  | nil => rfl
  | cons b bs ih =>
      have hb := b.toNat_lt
      have hlow : UInt8.ofNat (b.toNat + 256 * leValue bs) = b := by
        apply UInt8.toNat_inj.mp
        simp
      have hhigh : (b.toNat + 256 * leValue bs) / 256 = leValue bs := by omega
      simp [leBytes, leValue, hlow, hhigh, ih]

theorem leValue_lt (bs : List UInt8) : leValue bs < 256 ^ bs.length := by
  induction bs with
  | nil => simp [leValue]
  | cons b bs ih =>
      have hb : b.toNat < 256 := b.toNat_lt
      simp only [leValue, List.length_cons, Nat.pow_succ]
      omega

theorem getD_leBytes {w i : Nat} (n : Nat) (hi : i < w) :
    (leBytes w n).getD i 0 = digit n i := by
  induction w generalizing n i with
  | zero => omega
  | succ w ih =>
      cases i with
      | zero => simp [leBytes, digit]
      | succ i =>
          have h := ih (n / 256) (i := i) (by omega)
          simp only [leBytes, List.getD_cons_succ, h, digit, Nat.div_div_eq_div_mul]
          rw [Nat.pow_succ, Nat.mul_comm]

theorem digit_eq_zero {n w i : Nat} (hn : n < 256 ^ w) (hi : w ≤ i) : digit n i = 0 := by
  have hle : 256 ^ w ≤ 256 ^ i := Nat.pow_le_pow_right (by omega) hi
  rw [digit, Nat.div_eq_of_lt (by omega)]
  rfl

def putU32 (v : UInt32) : List UInt8 := leBytes 4 v.toNat

def putU64 (v : UInt64) : List UInt8 := leBytes 8 v.toNat

def putVec {α : Type} (put : α → List UInt8) (as : List α) : List UInt8 :=
  leBytes 8 as.length ++ as.flatMap put

def putBytes (bs : List UInt8) : List UInt8 := putVec (fun b => [b]) bs

def putString (str : String) : List UInt8 := putBytes str.toUTF8.toList

def putOption {α : Type} (put : α → List UInt8) : Option α → List UInt8
  | none => [0]
  | some a => 1 :: put a

@[simp] theorem length_putU32 (v : UInt32) : (putU32 v).length = 4 := by simp [putU32]

@[simp] theorem length_putU64 (v : UInt64) : (putU64 v).length = 8 := by simp [putU64]

/-! ## Readers -/

/-- A reader consumes a prefix of its input or fails. -/
abbrev Reader := StateT (List UInt8) Option

namespace Reader

variable {α β : Type}

def byte : Reader UInt8 := fun s =>
  match s with
  | [] => none
  | b :: bs => some (b, bs)

def take (n : Nat) : Reader (List UInt8) := fun s =>
  if n ≤ s.length then some (s.take n, s.drop n) else none

def le (w : Nat) : Reader Nat := do
  let bs ← take w
  return leValue bs

/-- The integer encoding of `DefaultOptions`. -/
def varint : Reader Nat := do
  let tag ← byte
  if tag ≤ 250 then return tag.toNat
  else if tag = 251 then le 2
  else if tag = 252 then le 4
  else if tag = 253 then le 8
  else failure

def replicate (r : Reader α) : Nat → Reader (List α)
  | 0 => return []
  | n + 1 => do
      let a ← r
      let rest ← replicate r n
      return a :: rest

def vec (r : Reader α) : Reader (List α) := do
  let n ← varint
  replicate r n

def option (r : Reader α) : Reader (Option α) := do
  let tag ← byte
  if tag = 0 then return none
  else if tag = 1 then
    let a ← r
    return some a
  else failure

def array (n : Nat) : Reader (Vector UInt8 n) := fun s =>
  if h : n ≤ s.length then some (⟨(s.take n).toArray, by simp [h]⟩, s.drop n) else none

def u32 : Reader UInt32 := do
  let v ← varint
  if v < 2 ^ 32 then return UInt32.ofNat v else failure

def u64 : Reader UInt64 := do
  let v ← varint
  return UInt64.ofNat v

def string : Reader String := do
  let n ← varint
  let bs ← take n
  match String.fromUTF8? ⟨bs.toArray⟩ with
  | some str => return str
  | none => failure

/-- Decode a whole message: input left over is an error. -/
def decode (r : Reader α) (s : List UInt8) : Option α :=
  match r s with
  | some (a, []) => some a
  | _ => none

theorem bind_eq_some {x : Reader α} {f : α → Reader β} {s : List UInt8}
    {r : β × List UInt8} :
    (x >>= f) s = some r ↔ ∃ a t, x s = some (a, t) ∧ f a t = some r := by
  show (x s).bind (fun p => f p.1 p.2) = some r ↔ _
  cases x s with
  | none => simp
  | some p => simp [Prod.ext_iff]

theorem pure_eq_some {a : α} {s : List UInt8} {r : α × List UInt8} :
    (pure a : Reader α) s = some r ↔ r = (a, s) := by
  show some (a, s) = some r ↔ _
  simp [eq_comm]

theorem not_failure {s : List UInt8} {r : α × List UInt8} :
    ¬ (failure : Reader α) s = some r := nofun

theorem decode_eq_some {r : Reader α} {s : List UInt8} {a : α} :
    decode r s = some a ↔ r s = some (a, []) := by
  unfold decode
  split
  · rename_i b h; simp [h]
  · rename_i h
    simp only [reduceCtorEq, false_iff]
    exact fun hr => h a hr

theorem byte_eq_some {s t : List UInt8} {b : UInt8} : byte s = some (b, t) ↔ s = b :: t := by
  cases s <;> simp [byte]

theorem take_eq_some {n : Nat} {s t bs : List UInt8} :
    take n s = some (bs, t) ↔ s = bs ++ t ∧ bs.length = n := by
  unfold take
  constructor
  · intro h
    split at h
    · rename_i hn
      simp only [Option.some.injEq, Prod.mk.injEq] at h
      obtain ⟨rfl, rfl⟩ := h
      exact ⟨(List.take_append_drop n s).symm, by simp [hn]⟩
    · cases h
  · rintro ⟨rfl, rfl⟩
    simp

theorem le_eq_some {w v : Nat} {s t : List UInt8} (h : le w s = some (v, t)) :
    s = leBytes w v ++ t ∧ v < 256 ^ w := by
  simp only [le, bind_eq_some, take_eq_some, pure_eq_some] at h
  obtain ⟨bs, u, ⟨rfl, rfl⟩, h⟩ := h
  cases h
  exact ⟨by rw [leBytes_leValue], leValue_lt bs⟩

theorem array_eq_some {n : Nat} {s t : List UInt8} {v : Vector UInt8 n} :
    array n s = some (v, t) ↔ s = v.toList ++ t := by
  unfold array
  constructor
  · intro h
    split at h
    · simp only [Option.some.injEq, Prod.mk.injEq] at h
      obtain ⟨rfl, rfl⟩ := h
      exact (List.take_append_drop n s).symm
    · cases h
  · rintro rfl
    simp [Vector.toList]

/-- What a variable-width read can have consumed. -/
theorem varint_cases {v : Nat} {s t : List UInt8} (h : varint s = some (v, t)) :
    (v ≤ 250 ∧ s = UInt8.ofNat v :: t) ∨
      ∃ w tag, (w = 2 ∨ w = 4 ∨ w = 8) ∧ tag ≠ 0 ∧ v < 256 ^ w ∧
        s = tag :: (leBytes w v ++ t) := by
  simp only [varint, bind_eq_some, byte_eq_some] at h
  obtain ⟨tag, u, rfl, h⟩ := h
  split at h
  · rename_i htag
    obtain ⟨rfl, rfl⟩ := Prod.mk.inj (pure_eq_some.mp h)
    exact .inl ⟨UInt8.le_iff_toNat_le.mp htag, by simp⟩
  have wide (w : Nat) (hw : w = 2 ∨ w = 4 ∨ w = 8) (htag : tag ≠ 0)
      (h : le w u = some (v, t)) : ∃ w tag', (w = 2 ∨ w = 4 ∨ w = 8) ∧ tag' ≠ 0 ∧
        v < 256 ^ w ∧ tag :: u = tag' :: (leBytes w v ++ t) := by
    obtain ⟨rfl, hv⟩ := le_eq_some h
    exact ⟨w, tag, hw, htag, hv, rfl⟩
  right
  split at h
  · exact wide 2 (by simp) (by subst tag; decide) h
  split at h
  · exact wide 4 (by simp) (by subst tag; decide) h
  split at h
  · exact wide 8 (by simp) (by subst tag; decide) h
  · exact absurd h not_failure

theorem varint_length {v : Nat} {s t : List UInt8} (h : varint s = some (v, t)) :
    ∃ k, s.length = t.length + (2 * k + 1) := by
  rcases varint_cases h with ⟨-, rfl⟩ | ⟨w, tag, hw, -, -, rfl⟩
  · exact ⟨0, by simp⟩
  · refine ⟨w / 2, ?_⟩
    rw [List.length_cons, List.length_append, length_leBytes]
    omega

theorem length_replicate {r : Reader α} {n : Nat} {s t : List UInt8} {as : List α}
    (h : replicate r n s = some (as, t)) : as.length = n := by
  induction n generalizing s as with
  | zero =>
      obtain ⟨rfl, rfl⟩ := Prod.mk.inj (pure_eq_some.mp h)
      rfl
  | succ n ih =>
      simp only [replicate, bind_eq_some, pure_eq_some] at h
      obtain ⟨a, u, -, rest, t', hrest, h⟩ := h
      obtain ⟨rfl, rfl⟩ := Prod.mk.inj h
      rw [List.length_cons, ih hrest]

theorem vec_length {r : Reader α} {s t : List UInt8} {as : List α} (h : vec r s = some (as, t)) :
    ∃ u, varint s = some (as.length, u) := by
  simp only [vec, bind_eq_some] at h
  obtain ⟨n, u, hn, h⟩ := h
  rw [length_replicate h]
  exact ⟨u, hn⟩

end Reader

theorem Reader.varint_lt {v : Nat} {s t : List UInt8} (h : varint s = some (v, t)) :
    v < 256 ^ 8 := by
  rcases varint_cases h with ⟨hv, -⟩ | ⟨w, tag, hw, -, hv, -⟩
  · omega
  · rcases hw with rfl | rfl | rfl <;> omega

theorem Reader.u64_eq_some {v : UInt64} {s t : List UInt8} (h : u64 s = some (v, t)) :
    varint s = some (v.toNat, t) := by
  simp only [u64, bind_eq_some, pure_eq_some] at h
  obtain ⟨n, u, hn, h⟩ := h
  obtain ⟨rfl, rfl⟩ := Prod.mk.inj h
  rw [hn, UInt64.toNat_ofNat_of_lt' (varint_lt hn)]

theorem Reader.u32_eq_some {v : UInt32} {s t : List UInt8} (h : u32 s = some (v, t)) :
    varint s = some (v.toNat, t) := by
  simp only [u32, bind_eq_some] at h
  obtain ⟨n, u, hn, h⟩ := h
  split at h
  · rename_i hlt
    obtain ⟨rfl, rfl⟩ := Prod.mk.inj (pure_eq_some.mp h)
    rw [hn, UInt32.toNat_ofNat_of_lt' hlt]
  · exact absurd h not_failure

/-! ## A reader behind the writer -/

open Reader

variable {α : Type}

/-- Started on zeros in front of `enc`, a reader that returns `a` stops on zeros
behind `enc`. -/
def Lags (r : Reader α) (a : α) (enc : List UInt8) : Prop :=
  ∀ z rest out, r (0 :: (List.replicate z 0 ++ (enc ++ rest))) = some (a, out) →
    ∃ z', out = 0 :: (List.replicate z' 0 ++ rest)

/-- Some zeros are left in front of `rest`. -/
def Behind (rest s : List UInt8) : Prop := ∃ z, s = 0 :: (List.replicate z 0 ++ rest)

theorem Lags.behind {r : Reader α} {a : α} {enc rest s out : List UInt8} (hr : Lags r a enc)
    (hs : Behind (enc ++ rest) s) (h : r s = some (a, out)) : Behind rest out := by
  obtain ⟨z, rfl⟩ := hs
  exact hr z rest out h

theorem Behind.ne_nil {rest s : List UInt8} (h : Behind rest s) : s ≠ [] := by
  obtain ⟨z, rfl⟩ := h
  exact List.cons_ne_nil _ _

/-- A one-byte read of a wider integer leaves its zeros behind. -/
theorem behind_of_narrow {w v : Nat} {Y out : List UInt8} (hv : v ≤ 250)
    (h : leBytes (w + 2) v ++ Y = UInt8.ofNat v :: out) : Behind Y out := by
  refine ⟨w, ?_⟩
  have hhigh : leBytes (w + 2) v = UInt8.ofNat v :: List.replicate (w + 1) 0 := by
    rw [leBytes, Nat.div_eq_of_lt (by omega), leBytes_zero]
  rw [hhigh, List.cons_append] at h
  exact (List.cons.inj h).2.symm

private theorem zeros_append (z n : Nat) (rest : List UInt8) :
    List.replicate z 0 ++ (List.replicate (n + 1) 0 ++ rest) =
      0 :: (List.replicate (z + n) 0 ++ rest) := by
  rw [← List.append_assoc, List.replicate_append_replicate, ← Nat.add_assoc,
    List.replicate_succ]
  rfl

theorem eq_of_zeros_append (z : Nat) {bs rest out : List UInt8}
    (h : 0 :: (List.replicate z 0 ++ (bs ++ rest)) = bs ++ out) :
    out = 0 :: (List.replicate z 0 ++ rest) := by
  induction bs with
  | nil => exact h.symm
  | cons b bs ih =>
      obtain ⟨rfl, h⟩ := List.cons.inj h
      exact ih ((zeros_append z 0 (bs ++ rest)).symm.trans h)

theorem lags_array {n : Nat} (v : Vector UInt8 n) : Lags (array n) v v.toList := by
  intro z rest out h
  exact ⟨z, eq_of_zeros_append z (array_eq_some.mp h)⟩

/-- A lagging integer read returns zero. -/
theorem varint_of_zero {v : Nat} {s out : List UInt8} (h : varint (0 :: s) = some (v, out)) :
    v = 0 ∧ out = s := by
  simp only [varint, bind_eq_some, byte_eq_some] at h
  obtain ⟨tag, u, hs, h⟩ := h
  obtain ⟨rfl, rfl⟩ := List.cons.inj hs
  rw [if_pos (by decide)] at h
  obtain ⟨rfl, rfl⟩ := Prod.mk.inj (pure_eq_some.mp h)
  exact ⟨rfl, rfl⟩

theorem lags_varint (w v : Nat) : Lags varint v (leBytes (w + 1) v) := by
  intro z rest out h
  obtain ⟨rfl, rfl⟩ := varint_of_zero h
  exact ⟨z + w, by rw [leBytes_zero, zeros_append]⟩

theorem lags_u64 (v : UInt64) : Lags u64 v (putU64 v) := by
  intro z rest out h
  exact lags_varint 7 v.toNat z rest out (u64_eq_some h)

theorem lags_u32 (v : UInt32) : Lags u32 v (putU32 v) := by
  intro z rest out h
  exact lags_varint 3 v.toNat z rest out (u32_eq_some h)

theorem lags_vec (r : Reader α) (put : α → List UInt8) (as : List α) :
    Lags (vec r) as (putVec put as) := by
  intro z rest out h
  simp only [vec, bind_eq_some] at h
  obtain ⟨n, t, hn, h⟩ := h
  obtain ⟨rfl, rfl⟩ := varint_of_zero hn
  obtain ⟨rfl, rfl⟩ := Prod.mk.inj (pure_eq_some.mp h)
  refine ⟨z + 7, ?_⟩
  show List.replicate z 0 ++ (leBytes 8 0 ++ [] ++ rest) = _
  rw [List.append_nil, leBytes_zero, zeros_append]

theorem lags_option (r : Reader α) (put : α → List UInt8) (a : Option α) :
    Lags (option r) a (putOption put a) := by
  intro z rest out h
  simp only [option, bind_eq_some, byte_eq_some] at h
  obtain ⟨tag, t, hs, h⟩ := h
  obtain ⟨rfl, rfl⟩ := List.cons.inj hs
  rw [if_pos rfl] at h
  obtain ⟨rfl, rfl⟩ := Prod.mk.inj (pure_eq_some.mp h)
  exact ⟨z, zeros_append z 0 rest⟩

/-! ## A reader ahead of the writer -/

def Ahead (δ : Nat) (X : List UInt8) : Prop := ∀ j < δ, X.getD j 0 ≠ 0

private theorem getD_append_left {xs ys : List UInt8} {i : Nat} (h : i < xs.length) :
    (xs ++ ys).getD i 0 = xs.getD i 0 := by
  simp [List.getD_eq_getElem?_getD, List.getElem?_append_left h]

private theorem getD_append_right (xs ys : List UInt8) (i : Nat) :
    (xs ++ ys).getD (xs.length + i) 0 = ys.getD i 0 := by
  simp only [List.getD_eq_getElem?_getD, List.getElem?_append_right (Nat.le_add_right _ i),
    Nat.add_sub_cancel_left]

private theorem getD_drop (xs : List UInt8) (n i : Nat) :
    (xs.drop n).getD i 0 = xs.getD (n + i) 0 := by
  simp [List.getD_eq_getElem?_getD]

theorem getD_int {w i : Nat} (v : Nat) (Y : List UInt8) (hi : i < w) :
    (leBytes w v ++ Y).getD i 0 = digit v i := by
  rw [getD_append_left (by simpa using hi), getD_leBytes v hi]

theorem getD_int_rest (w v i : Nat) (Y : List UInt8) :
    (leBytes w v ++ Y).getD (w + i) 0 = Y.getD i 0 := by
  simpa using getD_append_right (leBytes w v) Y i

theorem drop_int (w v n : Nat) (Y : List UInt8) : (leBytes w v ++ Y).drop (w + n) = Y.drop n := by
  rw [← List.drop_drop, List.drop_left' (length_leBytes w v)]

/-- Bytes compared with themselves `δ` places on: nonzero bytes in front of the
comparison carry over its whole range. -/
theorem ahead_of_shift {X : List UInt8} {δ n : Nat} (hδ : 0 < δ) (h : Ahead δ X)
    (hshift : ∀ i < n, X.getD (δ + i) 0 = X.getD i 0) : Ahead (δ + n) X := by
  intro j
  induction j using Nat.strongRecOn with
  | ind j ih =>
      intro hj
      by_cases hjδ : j < δ
      · exact h j hjδ
      · have hi := hshift (j - δ) (by omega)
        rw [show δ + (j - δ) = j by omega] at hi
        rw [hi]
        exact ih (j - δ) (by omega) (by omega)

theorem Ahead.rest {n δ : Nat} {xs Y : List UInt8} (hn : xs.length = n)
    (h : Ahead (n + δ) (xs ++ Y)) : Ahead δ Y := by
  intro j hj
  subst n
  rw [← getD_append_right xs Y j]
  exact h _ (by omega)

theorem Ahead.array {δ n : Nat} {v : Vector UInt8 n} {Y out : List UInt8} (hδ : 0 < δ)
    (h : Ahead δ (v.toList ++ Y))
    (hread : Reader.array n ((v.toList ++ Y).drop δ) = some (v, out)) :
    out = Y.drop δ ∧ Ahead δ Y := by
  have hdrop := array_eq_some.mp hread
  have hlen : v.toList.length = n := by simp
  constructor
  · have hout := congrArg (List.drop n) hdrop
    rw [List.drop_left' hlen, List.drop_drop, Nat.add_comm, ← List.drop_drop,
      List.drop_left' hlen] at hout
    exact hout.symm
  · have hall : Ahead (δ + n) (v.toList ++ Y) := by
      apply ahead_of_shift hδ h
      intro i hi
      rw [← getD_drop, hdrop, getD_append_left (by omega), getD_append_left (by omega)]
    exact Ahead.rest hlen (by rwa [Nat.add_comm])

/-- A wide read ahead of the integer it returns sees nonzero bytes only. -/
private theorem ahead_of_wide {W w δ v k : Nat} {tag : UInt8} {Y out : List UInt8}
    (h : Ahead δ (leBytes W v ++ Y)) (htag : tag ≠ 0) (hk : k ≤ w) (hkW : k ≤ W)
    (hread : (leBytes W v ++ Y).drop δ = tag :: (leBytes w v ++ out)) :
    Ahead (δ + 1 + k) (leBytes W v ++ Y) := by
  apply ahead_of_shift (by omega)
  · intro j hj
    by_cases hjδ : j < δ
    · exact h j hjδ
    · have hj' : j = δ + 0 := by omega
      rw [hj', ← getD_drop, hread]
      exact htag
  · intro i hi
    rw [Nat.add_assoc, ← getD_drop, hread, Nat.add_comm 1 i, List.getD_cons_succ,
      getD_int v out (by omega), getD_int v Y (by omega)]

/-- A one-byte read cannot return the integer it is ahead of. -/
private theorem not_ahead_of_narrow {W δ v : Nat} {Y out : List UInt8} (hW : 2 ≤ W)
    (hδ : 0 < δ) (h : Ahead δ (leBytes W v ++ Y)) (hv : v ≤ 250)
    (hread : (leBytes W v ++ Y).drop δ = UInt8.ofNat v :: out) : False := by
  have hlow : (leBytes W v ++ Y).getD 0 0 ≠ 0 := h 0 hδ
  rw [getD_int v Y (by omega)] at hlow
  have hhigh : (leBytes W v ++ Y).getD 1 0 = 0 := by
    rw [getD_int v Y (by omega), digit_eq_zero (w := 1) (by omega) (by omega)]
  have htag : (leBytes W v ++ Y).getD (δ + 0) 0 = UInt8.ofNat v := by
    rw [← getD_drop, hread]
    rfl
  by_cases hone : δ = 1
  · subst hone
    rw [hhigh] at htag
    apply hlow
    simpa [digit] using htag.symm
  · exact h 1 (by omega) hhigh

/-- What a read at offset `δ` of a `W`-byte integer can be when it returns that
integer: one byte, with the reader not yet ahead; exactly as wide as the writer,
and then one byte further ahead; or, for `W < 8`, wider than the writer. -/
theorem Ahead.varint {W δ v : Nat} {Y out : List UInt8} (hW : W = 4 ∨ W = 8)
    (hvW : v < 256 ^ W) (h : Ahead δ (leBytes W v ++ Y))
    (hread : Reader.varint ((leBytes W v ++ Y).drop δ) = some (v, out)) :
    (δ = 0 ∧ v ≤ 250 ∧ leBytes W v ++ Y = UInt8.ofNat v :: out) ∨
      (out = Y.drop (δ + 1) ∧ Ahead (δ + 1) Y ∧ ∀ i < W, digit v i ≠ 0) ∨
      (W = 4 ∧ out = Y.drop (δ + 5) ∧ Ahead (δ + 1) Y ∧ (∀ i < W, digit v i ≠ 0) ∧
        ∀ i < 4, Y.getD (δ + 1 + i) 0 = 0) := by
  rcases varint_cases hread with ⟨hv, hs⟩ | ⟨w, tag, hw, htag, hv, hs⟩
  · by_cases hδ : δ = 0
    · subst hδ
      exact .inl ⟨rfl, hv, hs⟩
    · exact (not_ahead_of_narrow (by omega) (by omega) h hv hs).elim
  right
  have hout : out = (leBytes W v ++ Y).drop (δ + 1 + w) := by
    rw [Nat.add_assoc, ← List.drop_drop, hs, Nat.add_comm 1 w, List.drop_succ_cons,
      List.drop_left' (length_leBytes w v)]
  by_cases hlt : w < W
  · have hall := ahead_of_wide h htag (k := w) (by omega) (by omega) hs
    have hzero : (leBytes W v ++ Y).getD w 0 = 0 := by
      rw [getD_int v Y hlt, digit_eq_zero hv (by omega)]
    exact absurd hzero (hall w (by omega))
  have hall := ahead_of_wide h htag (k := W) (by omega) (by omega) hs
  have hY : Ahead (δ + 1) Y := Ahead.rest (length_leBytes W v) (by rwa [Nat.add_comm])
  have hdigits : ∀ i < W, digit v i ≠ 0 := by
    intro i hi
    rw [← getD_int v Y hi]
    exact hall i (by omega)
  by_cases heq : w = W
  · subst heq
    refine .inl ⟨?_, hY, hdigits⟩
    rw [hout, Nat.add_comm, drop_int]
  · have hw8 : w = 8 ∧ W = 4 := by omega
    obtain ⟨rfl, rfl⟩ := hw8
    refine .inr ⟨rfl, ?_, hY, hdigits, ?_⟩
    · rw [hout, show δ + 1 + 8 = 4 + (δ + 5) by omega, drop_int]
    · intro i hi
      rw [← getD_int_rest 4 v, show 4 + (δ + 1 + i) = δ + (4 + i + 1) by omega, ← getD_drop, hs,
        List.getD_cons_succ, getD_int v out (by omega), digit_eq_zero hvW (by omega)]

/-- An eight-byte integer read ahead of itself puts the reader one byte further
ahead. -/
theorem Ahead.u64 {δ : Nat} {v : UInt64} {Y out : List UInt8} (hδ : 0 < δ)
    (h : Ahead δ (putU64 v ++ Y)) (hread : Reader.u64 ((putU64 v ++ Y).drop δ) = some (v, out)) :
    out = Y.drop (δ + 1) ∧ Ahead (δ + 1) Y := by
  rcases h.varint (.inr rfl) v.toNat_lt (u64_eq_some hread) with
    ⟨h0, -⟩ | ⟨hout, hY, -⟩ | ⟨hW, -⟩
  · omega
  · exact ⟨hout, hY⟩
  · omega

end NoirNet.Lib.Wire
