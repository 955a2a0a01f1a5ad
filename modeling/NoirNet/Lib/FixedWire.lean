import NoirNet.Lib.Delimited

/-!
# Fixed-width readers

The readers behind the free function `bincode::deserialize`: every integer has
the width of its type, a length is a `u64`, and what follows the value is
ignored.  An encoding is `Exact` for a reader if the reader accepts its words
and no others.

* `Exact.bind_iff`, `Exact.run`: one field of a record, read and written;
* `exact_u64`, `exact_array`, `exact_vec`, `exact_option`, `exact_string`: the
  types records are made of;
* `Exact.decodePrefix_iff`: a whole message, with anything behind it.
-/

namespace NoirNet.Lib.Wire

namespace Reader

variable {α : Type}

def fixedU16 : Reader UInt16 := do
  let v ← le 2
  return UInt16.ofNat v

def fixedU32 : Reader UInt32 := do
  let v ← le 4
  return UInt32.ofNat v

def fixedU64 : Reader UInt64 := do
  let v ← le 8
  return UInt64.ofNat v

def fixedU128 : Reader (BitVec 128) := do
  let v ← le 16
  return BitVec.ofNat 128 v

def fixedVec (r : Reader α) : Reader (List α) := do
  let n ← le 8
  replicate r n

def fixedString : Reader String := do
  let n ← le 8
  let bs ← take n
  match String.fromUTF8? ⟨bs.toArray⟩ with
  | some str => return str
  | none => failure

/-- Decode a message: input left over is ignored. -/
def decodePrefix (r : Reader α) (s : List UInt8) : Option α := (r s).map (·.1)

end Reader

open Reader

def putU16 (v : UInt16) : List UInt8 := leBytes 2 v.toNat

def putU128 (v : BitVec 128) : List UInt8 := leBytes 16 v.toNat

/-- The reader accepts the words of the values that fit, each in front of anything,
and nothing else. -/
def Exact {α : Type} (fits : α → Prop) (put : α → List UInt8) (r : Reader α) : Prop :=
  ∀ s a t, r s = some (a, t) ↔ fits a ∧ s = put a ++ t

variable {α β : Type} {fits : α → Prop} {put : α → List UInt8} {r : Reader α}

namespace Exact

theorem bind_iff (h : Exact fits put r) {f : α → Reader β} {s : List UInt8}
    {result : β × List UInt8} :
    (r >>= f) s = some result ↔ ∃ a t, (fits a ∧ s = put a ++ t) ∧ f a t = some result := by
  rw [bind_eq_some]
  simp only [h _ _ _]

theorem read (h : Exact fits put r) {a : α} (hfits : fits a) (t : List UInt8) :
    r (put a ++ t) = some (a, t) := (h _ _ _).mpr ⟨hfits, rfl⟩

/-- Behind the word of a value the rest of the reader goes on with that value. -/
theorem run (h : Exact fits put r) {a : α} (hfits : fits a) {f : α → Reader β}
    {t : List UInt8} : (r >>= f) (put a ++ t) = f a t := by
  show (r (put a ++ t)).bind (fun p => f p.1 p.2) = f a t
  rw [h.read hfits]
  rfl

theorem decodePrefix_iff (h : Exact fits put r) {s : List UInt8} {a : α} :
    decodePrefix r s = some a ↔ fits a ∧ ∃ t, s = put a ++ t := by
  rw [decodePrefix, Option.map_eq_some_iff]
  constructor
  · rintro ⟨⟨b, t⟩, hread, rfl⟩
    obtain ⟨hfits, hs⟩ := (h _ _ _).mp hread
    exact ⟨hfits, t, hs⟩
  · rintro ⟨hfits, t, hs⟩
    exact ⟨(a, t), (h _ _ _).mpr ⟨hfits, hs⟩, rfl⟩

theorem decodePrefix_append (h : Exact fits put r) {a : α} (hfits : fits a) (t : List UInt8) :
    decodePrefix r (put a ++ t) = some a := h.decodePrefix_iff.mpr ⟨hfits, t, rfl⟩

theorem decodePrefix_put (h : Exact fits put r) {a : α} (hfits : fits a) :
    decodePrefix r (put a) = some a := h.decodePrefix_iff.mpr ⟨hfits, [], by simp⟩

end Exact

/-! ## Integers and arrays -/

theorem exact_byte : Exact (fun _ => True) (fun b => [b]) byte := by
  intro s b t
  rw [byte_eq_some]
  simp

theorem exact_array {n : Nat} : Exact (fun _ => True) Vector.toList (array n) := by
  intro s v t
  rw [array_eq_some]
  simp

theorem leValue_leBytes {w n : Nat} (hn : n < 256 ^ w) : leValue (leBytes w n) = n := by
  have hback := leBytes_leValue (leBytes w n)
  rw [length_leBytes] at hback
  have hlt := leValue_lt (leBytes w n)
  rw [length_leBytes] at hlt
  exact leBytes_inj hlt hn hback

theorem exact_le (w : Nat) : Exact (· < 256 ^ w) (leBytes w) (le w) := by
  intro s v t
  constructor
  · intro h
    obtain ⟨hs, hv⟩ := le_eq_some h
    exact ⟨hv, hs⟩
  · rintro ⟨hv, rfl⟩
    simp only [le, bind_eq_some, take_eq_some, pure_eq_some]
    exact ⟨leBytes w v, t, ⟨rfl, length_leBytes w v⟩, by rw [leValue_leBytes hv]⟩

theorem exact_of_le {w : Nat} {toNat : α → Nat} {ofNat : Nat → α}
    (hlt : ∀ a, toNat a < 256 ^ w) (hback : ∀ a, ofNat (toNat a) = a)
    (hnat : ∀ n < 256 ^ w, toNat (ofNat n) = n) :
    Exact (fun _ => True) (fun a => leBytes w (toNat a)) (do return ofNat (← le w)) := by
  intro s a t
  rw [(exact_le w).bind_iff]
  constructor
  · rintro ⟨n, u, ⟨hn, rfl⟩, h⟩
    obtain ⟨rfl, rfl⟩ := Prod.mk.inj (pure_eq_some.mp h)
    exact ⟨trivial, by simp only [hnat n hn]⟩
  · rintro ⟨-, rfl⟩
    exact ⟨toNat a, t, ⟨hlt a, rfl⟩, pure_eq_some.mpr (by rw [hback])⟩

theorem exact_u16 : Exact (fun _ => True) putU16 fixedU16 :=
  exact_of_le UInt16.toNat_lt (fun _ => UInt16.ofNat_toNat)
    fun _ hn => UInt16.toNat_ofNat_of_lt' hn

theorem exact_u32 : Exact (fun _ => True) putU32 fixedU32 :=
  exact_of_le UInt32.toNat_lt (fun _ => UInt32.ofNat_toNat)
    fun _ hn => UInt32.toNat_ofNat_of_lt' hn

theorem exact_u64 : Exact (fun _ => True) putU64 fixedU64 :=
  exact_of_le UInt64.toNat_lt (fun _ => UInt64.ofNat_toNat)
    fun _ hn => UInt64.toNat_ofNat_of_lt' hn

theorem exact_u128 : Exact (fun _ => True) putU128 fixedU128 :=
  exact_of_le BitVec.isLt (fun v => by simp) fun n hn => by
    rw [BitVec.toNat_ofNat]
    exact Nat.mod_eq_of_lt hn

/-! ## Containers -/

def FitsVec (fits : α → Prop) (as : List α) : Prop :=
  as.length < lengthBound ∧ ∀ a ∈ as, fits a

def FitsOption (fits : α → Prop) (a : Option α) : Prop := ∀ b ∈ a, fits b

theorem exact_replicate (h : Exact fits put r) (n : Nat) :
    Exact (fun as => as.length = n ∧ ∀ a ∈ as, fits a) (fun as => as.flatMap put)
      (replicate r n) := by
  induction n with
  | zero =>
      intro s as t
      rw [replicate, pure_eq_some, Prod.mk.injEq]
      constructor
      · rintro ⟨rfl, rfl⟩
        simp
      · rintro ⟨⟨hlen, -⟩, rfl⟩
        obtain rfl := List.length_eq_zero_iff.mp hlen
        simp
  | succ n ih =>
      intro s as t
      rw [replicate, h.bind_iff]
      simp only [ih.bind_iff, pure_eq_some, Prod.mk.injEq]
      constructor
      · rintro ⟨a, u, ⟨ha, rfl⟩, rest, u', ⟨⟨hlen, hrest⟩, rfl⟩, rfl, rfl⟩
        exact ⟨⟨by simp [hlen], List.forall_mem_cons.mpr ⟨ha, hrest⟩⟩, by simp⟩
      · rintro ⟨⟨hlen, hfits⟩, rfl⟩
        cases as with
        | nil => cases hlen
        | cons a rest =>
            obtain ⟨ha, hrest⟩ := List.forall_mem_cons.mp hfits
            exact ⟨a, rest.flatMap put ++ t, ⟨ha, by simp⟩, rest, t,
              ⟨⟨Nat.succ.inj hlen, hrest⟩, rfl⟩, rfl, rfl⟩

theorem exact_vec (h : Exact fits put r) : Exact (FitsVec fits) (putVec put) (fixedVec r) := by
  intro s as t
  rw [fixedVec, (exact_le 8).bind_iff]
  simp only [exact_replicate h _ _ _ _]
  constructor
  · rintro ⟨n, u, ⟨hn, rfl⟩, ⟨rfl, hfits⟩, rfl⟩
    exact ⟨⟨hn, hfits⟩, by rw [putVec, List.append_assoc]⟩
  · rintro ⟨⟨hlen, hfits⟩, rfl⟩
    exact ⟨as.length, as.flatMap put ++ t, ⟨hlen, by rw [putVec, List.append_assoc]⟩,
      ⟨rfl, hfits⟩, rfl⟩

theorem exact_bytes : Exact (fun bs => bs.length < lengthBound) putBytes (fixedVec byte) := by
  intro s bs t
  rw [exact_vec exact_byte, FitsVec]
  simp [putBytes]

theorem exact_option (h : Exact fits put r) :
    Exact (FitsOption fits) (putOption put) (option r) := by
  intro s a t
  rw [option, exact_byte.bind_iff]
  constructor
  · rintro ⟨tag, u, ⟨-, rfl⟩, hrest⟩
    by_cases hzero : tag = 0
    · rw [if_pos hzero, pure_eq_some] at hrest
      obtain ⟨rfl, rfl⟩ := Prod.mk.inj hrest
      refine ⟨?_, by rw [hzero]; rfl⟩
      intro b hnone
      cases hnone
    · rw [if_neg hzero] at hrest
      by_cases hone : tag = 1
      · rw [if_pos hone, h.bind_iff] at hrest
        obtain ⟨b, u', ⟨hb, rfl⟩, hrest⟩ := hrest
        obtain ⟨rfl, rfl⟩ := Prod.mk.inj (pure_eq_some.mp hrest)
        refine ⟨?_, by rw [hone]; rfl⟩
        rintro _ ⟨⟩
        exact hb
      · rw [if_neg hone] at hrest
        exact absurd hrest not_failure
  · rintro ⟨hfits, rfl⟩
    cases a with
    | none => exact ⟨0, t, ⟨trivial, rfl⟩, rfl⟩
    | some b =>
        refine ⟨1, put b ++ t, ⟨trivial, rfl⟩, ?_⟩
        rw [if_neg (by decide), if_pos rfl, h.run (hfits b rfl)]
        rfl

/-! ## Strings -/

theorem fromUTF8?_eq_some {bs : List UInt8} {str : String} :
    String.fromUTF8? ⟨bs.toArray⟩ = some str ↔ str.toUTF8.toList = bs := by
  unfold String.fromUTF8?
  rw [toList_eq_data]
  constructor
  · intro h
    split at h
    · obtain rfl := Option.some.inj h
      rfl
    · cases h
  · rintro rfl
    have hvalid : ByteArray.IsValidUTF8 ⟨str.toUTF8.data.toList.toArray⟩ := str.isValidUTF8
    rw [dif_pos hvalid]
    rfl

theorem exact_string :
    Exact (fun str => str.toUTF8.toList.length < lengthBound) putString fixedString := by
  intro s str t
  rw [fixedString, (exact_le 8).bind_iff]
  simp only [bind_eq_some, take_eq_some]
  constructor
  · rintro ⟨n, u, ⟨hn, rfl⟩, bs, u', ⟨rfl, rfl⟩, hrest⟩
    cases hutf8 : String.fromUTF8? ⟨bs.toArray⟩ with
    | none =>
        rw [hutf8] at hrest
        exact absurd hrest not_failure
    | some str' =>
        rw [hutf8] at hrest
        obtain ⟨rfl, rfl⟩ := Prod.mk.inj (pure_eq_some.mp hrest)
        rw [← fromUTF8?_eq_some.mp hutf8] at hn ⊢
        exact ⟨hn, by simp [putString, putBytes, putVec]⟩
  · rintro ⟨hlen, rfl⟩
    refine ⟨_, str.toUTF8.toList ++ t, ⟨hlen, by simp [putString, putBytes, putVec]⟩, _, t,
      ⟨rfl, rfl⟩, ?_⟩
    rw [fromUTF8?_eq_some.mpr rfl]
    rfl

end NoirNet.Lib.Wire
