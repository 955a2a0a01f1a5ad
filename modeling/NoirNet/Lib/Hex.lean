import Mathlib.Data.List.Basic
import Mathlib.Logic.Function.Basic
import Mathlib.Tactic.SplitIfs

/-!
# Hexadecimal text

Two digits a byte, the high half first.  The writer uses small letters, the
reader takes letters of both sizes, so it reads what the writer writes and
nothing else, up to the size of the letters.
-/

namespace NoirNet.Lib.Hex

def value (c : Char) : Option Nat :=
  if 48 ≤ c.toNat ∧ c.toNat ≤ 57 then some (c.toNat - 48)
  else if 97 ≤ c.toNat ∧ c.toNat ≤ 102 then some (c.toNat - 87)
  else if 65 ≤ c.toNat ∧ c.toNat ≤ 70 then some (c.toNat - 55)
  else none

def digit (v : Nat) : Char := if v < 10 then Char.ofNat (48 + v) else Char.ofNat (87 + v)

def encodeByte (b : UInt8) : List Char := [digit (b.toNat / 16), digit (b.toNat % 16)]

def encodeChars (bytes : List UInt8) : List Char := bytes.flatMap encodeByte

def decodeChars : List Char → Option (List UInt8)
  | [] => some []
  | [_] => none
  | high :: low :: rest => do
      let h ← value high
      let l ← value low
      let bytes ← decodeChars rest
      return UInt8.ofNat (16 * h + l) :: bytes

def encode (bytes : List UInt8) : String := String.ofList (encodeChars bytes)

def decode (text : String) : Option (List UInt8) := decodeChars text.toList

def decodeArray (n : Nat) (text : String) : Option (Vector UInt8 n) :=
  match decode text with
  | some bytes => if h : bytes.length = n then some ⟨bytes.toArray, h⟩ else none
  | none => none

/-! ## Digits -/

theorem toNat_digit {v : Nat} (hv : v < 16) :
    (digit v).toNat = if v < 10 then 48 + v else 87 + v := by
  have hall : ∀ v : Fin 16, (digit v).toNat = if v.val < 10 then 48 + v.val else 87 + v.val := by
    decide
  exact hall ⟨v, hv⟩

theorem value_lt {c : Char} {v : Nat} (h : value c = some v) : v < 16 := by
  unfold value at h
  split at h
  · cases h
    omega
  split at h
  · cases h
    omega
  split at h
  · cases h
    omega
  · cases h

theorem toNat_toLower (c : Char) :
    c.toLower.toNat = if 65 ≤ c.toNat ∧ c.toNat ≤ 90 then c.toNat + 32 else c.toNat := by
  have hcapital : c.val ≥ 'A'.val ∧ c.val ≤ 'Z'.val ↔ 65 ≤ c.toNat ∧ c.toNat ≤ 90 :=
    and_congr UInt32.le_iff_toNat_le UInt32.le_iff_toNat_le
  unfold Char.toLower
  by_cases h : c.val ≥ 'A'.val ∧ c.val ≤ 'Z'.val
  · have hle : c.val.toNat ≤ 90 := (hcapital.mp h).2
    rw [dif_pos h, if_pos (hcapital.mp h)]
    show (c.val + ('a'.val - 'A'.val)).toNat = c.val.toNat + 32
    rw [UInt32.toNat_add]
    exact Nat.mod_eq_of_lt (Nat.lt_of_le_of_lt (Nat.add_le_add_right hle 32) (by decide))
  · rw [dif_neg h, if_neg (mt hcapital.mpr h)]

theorem value_eq_some_iff {c : Char} {v : Nat} (hv : v < 16) :
    value c = some v ↔ c.toLower = digit v := by
  have hchar : c.toLower = digit v ↔ c.toLower.toNat = (digit v).toNat := Char.toNat_inj.symm
  rw [hchar, toNat_toLower, toNat_digit hv]
  unfold value
  split_ifs <;> simp <;> omega

/-! ## Texts -/

theorem halves_lt (b : UInt8) : b.toNat / 16 < 16 ∧ b.toNat % 16 < 16 := by
  have hb := b.toNat_lt
  omega

theorem toNat_ofNat_halves {h l : Nat} (hh : h < 16) (hl : l < 16) :
    (UInt8.ofNat (16 * h + l)).toNat / 16 = h ∧ (UInt8.ofNat (16 * h + l)).toNat % 16 = l := by
  rw [UInt8.toNat_ofNat_of_lt' (by show _ < 256; omega)]
  omega

theorem ofNat_halves (b : UInt8) : UInt8.ofNat (16 * (b.toNat / 16) + b.toNat % 16) = b := by
  rw [Nat.div_add_mod, UInt8.ofNat_toNat]

/-- What is read is what is written, up to the size of the letters. -/
theorem decodeChars_eq_some_iff {text : List Char} {bytes : List UInt8} :
    decodeChars text = some bytes ↔ text.map Char.toLower = encodeChars bytes := by
  induction text using decodeChars.induct generalizing bytes with
  | case1 =>
      cases bytes with
      | nil => simp [decodeChars, encodeChars]
      | cons b bytes => simp [decodeChars, encodeChars, encodeByte]
  | case2 c =>
      cases bytes with
      | nil => simp [decodeChars, encodeChars]
      | cons b bytes => simp [decodeChars, encodeChars, encodeByte]
  | case3 high low rest ih =>
      cases bytes with
      | nil => simp [decodeChars, encodeChars, Option.bind_eq_some_iff]
      | cons b bytes =>
          obtain ⟨hhigh, hlow⟩ := halves_lt b
          have hread : decodeChars (high :: low :: rest) = some (b :: bytes) ↔
              value high = some (b.toNat / 16) ∧ value low = some (b.toNat % 16) ∧
                decodeChars rest = some bytes := by
            simp only [decodeChars, Option.bind_eq_bind, Option.bind_eq_some_iff, Option.pure_def,
              Option.some.injEq, List.cons.injEq]
            constructor
            · rintro ⟨h, hh, l, hl, tail, htail, rfl, rfl⟩
              obtain ⟨hdiv, hmod⟩ := toNat_ofNat_halves (value_lt hh) (value_lt hl)
              rw [hdiv, hmod]
              exact ⟨hh, hl, htail⟩
            · rintro ⟨hh, hl, htail⟩
              exact ⟨_, hh, _, hl, bytes, htail, ofNat_halves b, rfl⟩
          rw [hread, value_eq_some_iff hhigh, value_eq_some_iff hlow, ih]
          simp [encodeChars, encodeByte]

theorem toLower_digit {v : Nat} (hv : v < 16) : (digit v).toLower = digit v := by
  have hall : ∀ v : Fin 16, (digit v).toLower = digit v := by decide
  exact hall ⟨v, hv⟩

theorem toLower_encodeChars (bytes : List UInt8) :
    (encodeChars bytes).map Char.toLower = encodeChars bytes := by
  induction bytes with
  | nil => rfl
  | cons b bytes ih =>
      obtain ⟨hhigh, hlow⟩ := halves_lt b
      rw [encodeChars, List.flatMap_cons, ← encodeChars, List.map_append, ih, encodeByte,
        List.map_cons, List.map_cons, List.map_nil, toLower_digit hhigh, toLower_digit hlow]

theorem decode_eq_some_iff {text : String} {bytes : List UInt8} :
    decode text = some bytes ↔ text.toList.map Char.toLower = encodeChars bytes :=
  decodeChars_eq_some_iff

theorem decodeArray_eq_some_iff {n : Nat} {text : String} {array : Vector UInt8 n} :
    decodeArray n text = some array ↔ decode text = some array.toList := by
  unfold decodeArray
  cases decode text with
  | none => simp
  | some bytes =>
      simp only [Option.dite_none_right_eq_some, Option.some.injEq]
      constructor
      · rintro ⟨hlength, rfl⟩
        rfl
      · rintro rfl
        exact ⟨Vector.length_toList, rfl⟩

theorem length_encodeChars (bytes : List UInt8) :
    (encodeChars bytes).length = 2 * bytes.length := by
  induction bytes with
  | nil => rfl
  | cons b bytes ih =>
      rw [encodeChars, List.flatMap_cons, ← encodeChars, List.length_append, ih, encodeByte,
        List.length_cons, List.length_cons, List.length_nil, List.length_cons]
      omega

theorem length_of_decodeArray {n : Nat} {text : String} {array : Vector UInt8 n}
    (h : decodeArray n text = some array) : text.length = 2 * n := by
  have hdigits := congrArg List.length (decode_eq_some_iff.mp (decodeArray_eq_some_iff.mp h))
  rwa [List.length_map, length_encodeChars, Vector.length_toList, String.length_toList] at hdigits

theorem decode_encode (bytes : List UInt8) : decode (encode bytes) = some bytes := by
  rw [decode_eq_some_iff, encode, String.toList_ofList, toLower_encodeChars]

theorem decodeArray_encode {n : Nat} (array : Vector UInt8 n) :
    decodeArray n (encode array.toList) = some array :=
  decodeArray_eq_some_iff.mpr (decode_encode _)

theorem encode_injective : Function.Injective encode := by
  intro bytes bytes' h
  have hread := decode_encode bytes
  rw [h, decode_encode] at hread
  exact (Option.some.inj hread).symm

end NoirNet.Lib.Hex
