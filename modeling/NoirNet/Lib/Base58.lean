import Mathlib.Data.Nat.Digits.Lemmas
import Mathlib.Tactic.NormNum

/-!
# Base 58 text

The digits of a number in one base are rewritten as its digits in another, most
significant first, and the leading zeros are kept one for one.  Nothing is lost
on the way, so a text in base 58 determines the bytes it was made from.
-/

namespace NoirNet.Lib.Base58

/-! ## Change of base -/

def zeros : List ℕ → ℕ
  | 0 :: ds => zeros ds + 1
  | _ => 0

def value (b : ℕ) (ds : List ℕ) : ℕ := Nat.ofDigits b ds.reverse

def rebase (b c : ℕ) (ds : List ℕ) : List ℕ :=
  List.replicate (zeros ds) 0 ++ (Nat.digits c (value b ds)).reverse

variable {b c : ℕ} {ds : List ℕ}

theorem value_cons (b d : ℕ) (ds : List ℕ) :
    value b (d :: ds) = value b ds + b ^ ds.length * d := by
  rw [value, List.reverse_cons, Nat.ofDigits_append, Nat.ofDigits_singleton, List.length_reverse,
    value]

theorem value_lt (hb : 1 < b) (hds : ∀ d ∈ ds, d < b) : value b ds < b ^ ds.length := by
  rw [value, ← List.length_reverse]
  exact Nat.ofDigits_lt_base_pow_length hb fun d hd => hds d (List.mem_reverse.mp hd)

theorem value_replicate_append (b z : ℕ) (ds : List ℕ) :
    value b (List.replicate z 0 ++ ds) = value b ds := by
  rw [value, List.reverse_append, List.reverse_replicate, Nat.ofDigits_append_replicate_zero,
    value]

theorem zeros_cons_of_ne {d : ℕ} (hd : d ≠ 0) (ds : List ℕ) : zeros (d :: ds) = 0 := by
  cases d with
  | zero => exact absurd rfl hd
  | succ d => rfl

theorem zeros_replicate_append (z : ℕ) (ds : List ℕ) :
    zeros (List.replicate z 0 ++ ds) = z + zeros ds := by
  induction z with
  | zero => rw [List.replicate_zero, List.nil_append, Nat.zero_add]
  | succ z ih =>
      rw [List.replicate_succ, List.cons_append, zeros, ih]
      omega

theorem zeros_digits (c n : ℕ) : zeros (Nat.digits c n).reverse = 0 := by
  by_cases hn : n = 0
  · rw [hn, Nat.digits_zero]
    rfl
  · have hne : Nat.digits c n ≠ [] := Nat.digits_ne_nil_iff_ne_zero.mpr hn
    rw [← List.dropLast_append_getLast hne, List.reverse_append]
    exact zeros_cons_of_ne (Nat.getLast_digit_ne_zero c hn) _

/-- The digits below the base are those of the number, after the leading zeros. -/
theorem expand (hb : 1 < b) (hds : ∀ d ∈ ds, d < b) :
    List.replicate (zeros ds) 0 ++ (Nat.digits b (value b ds)).reverse = ds := by
  induction ds with
  | nil => rw [value, List.reverse_nil, Nat.ofDigits_nil, Nat.digits_zero]; rfl
  | cons d ds ih =>
      by_cases hd : d = 0
      · subst hd
        rw [value_cons, Nat.mul_zero, Nat.add_zero, zeros, List.replicate_succ, List.cons_append,
          ih fun d hd => hds d (List.mem_cons_of_mem _ hd)]
      · have hlast (h : (d :: ds).reverse ≠ []) : (d :: ds).reverse.getLast h ≠ 0 := by
          rw [List.getLast_reverse]
          exact hd
        rw [zeros_cons_of_ne hd, value, Nat.digits_ofDigits b hb _
          (fun d hd => hds d (List.mem_reverse.mp hd)) hlast, List.reverse_reverse]
        rfl

theorem zeros_rebase : zeros (rebase b c ds) = zeros ds := by
  rw [rebase, zeros_replicate_append, zeros_digits, Nat.add_zero]

theorem value_rebase : value c (rebase b c ds) = value b ds := by
  rw [rebase, value_replicate_append, value, List.reverse_reverse, Nat.ofDigits_digits]

theorem rebase_rebase (hb : 1 < b) (hds : ∀ d ∈ ds, d < b) :
    rebase c b (rebase b c ds) = ds := by
  rw [rebase, zeros_rebase, value_rebase, expand hb hds]

theorem rebase_lt (hc : 1 < c) {d : ℕ} (hd : d ∈ rebase b c ds) : d < c := by
  rcases List.mem_append.mp hd with hzero | hdigit
  · rw [List.eq_of_mem_replicate hzero]
    omega
  · exact Nat.digits_lt_base hc (List.mem_reverse.mp hdigit)

/-- Without leading zeros the length is given by the powers of the base that the number is
between. -/
theorem length_rebase (hc : 1 < c) {k : ℕ} (hzeros : zeros ds = 0) (hlow : c ^ k ≤ value b ds)
    (hhigh : value b ds < c ^ (k + 1)) : (rebase b c ds).length = k + 1 := by
  have hle := (Nat.digits_length_le_iff hc (value b ds)).mpr hhigh
  have hlt := (Nat.lt_digits_length_iff hc (value b ds)).mpr hlow
  rw [rebase, hzeros, List.replicate_zero, List.nil_append, List.length_reverse]
  omega

/-! ## Text -/

/-- Digits and letters without `0`, `O`, `I` and `l`. -/
def alphabet : List Char :=
  "123456789ABCDEFGHJKLMNPQRSTUVWXYZabcdefghijkmnopqrstuvwxyz".toList

def digit (v : ℕ) : Char := alphabet.getD v '1'

theorem idxOf_digit {v : ℕ} (hv : v < 58) : alphabet.idxOf (digit v) = v := by
  have hall : ∀ v : Fin 58, alphabet.idxOf (digit v) = v := by decide
  exact hall ⟨v, hv⟩

def encode (bytes : List UInt8) : String :=
  String.ofList ((rebase 256 58 (bytes.map UInt8.toNat)).map digit)

theorem bytes_lt (bytes : List UInt8) : ∀ d ∈ bytes.map UInt8.toNat, d < 256 := by
  intro d hd
  obtain ⟨byte, -, rfl⟩ := List.mem_map.mp hd
  exact byte.toNat_lt

theorem length_encode (bytes : List UInt8) :
    (encode bytes).length = (rebase 256 58 (bytes.map UInt8.toNat)).length := by
  rw [encode, String.length_ofList, List.length_map]

/-- What is read off the text are the bytes it was made from. -/
theorem rebase_idxOf_encode (bytes : List UInt8) :
    rebase 58 256 ((encode bytes).toList.map alphabet.idxOf) = bytes.map UInt8.toNat := by
  have hdigits : ((encode bytes).toList.map alphabet.idxOf) =
      rebase 256 58 (bytes.map UInt8.toNat) := by
    rw [encode, String.toList_ofList, List.map_map]
    exact (List.map_congr_left fun d hd => idxOf_digit (rebase_lt (by decide) hd)).trans
      (List.map_id _)
  rw [hdigits, rebase_rebase (by decide) (bytes_lt bytes)]

theorem encode_injective : Function.Injective encode := by
  intro bytes bytes' h
  have hread := rebase_idxOf_encode bytes
  rw [h, rebase_idxOf_encode] at hread
  exact (List.map_injective_iff.mpr (fun _ _ => UInt8.toNat_inj.mp) hread).symm

end NoirNet.Lib.Base58
