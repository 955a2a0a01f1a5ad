import NoirNet.Lib.Wire

/-!
# Encodings that delimit themselves

An encoding is delimited when no two values' encodings, each in front of some
rest, agree: the value and the rest can both be read off.  A length prefix has
64 bits, so this is asked of encodings shorter than `2 ^ 64` bytes.

* `delimited_of_length`: an injective encoding of one length;
* `delimited_putVec`, `delimited_putOption`: the containers of `bincode`;
* `flatMap_append_eq_iff`: when records without a length prefix read back in two ways;
* `Delimited.eq_of_eq`: a delimited encoding is injective.
-/

namespace NoirNet.Lib.Wire

def lengthBound : Nat := 256 ^ 8

def Delimited {α : Type} (put : α → List UInt8) : Prop :=
  ∀ a b s t, (put a).length < lengthBound → (put b).length < lengthBound →
    put a ++ s = put b ++ t → a = b ∧ s = t

variable {α : Type} {put : α → List UInt8}

theorem Delimited.eq_of_eq (h : Delimited put) {a b : α} (ha : (put a).length < lengthBound)
    (hab : put a = put b) : a = b := by
  have hb : (put b).length < lengthBound := hab ▸ ha
  exact (h a b [] [] ha hb (by rw [hab])).1

/-! ## One length -/

theorem append_eq_iff_of_length (n : Nat) (hlen : ∀ a, (put a).length = n)
    (hinj : Function.Injective put) {a b : α} {s t : List UInt8} :
    put a ++ s = put b ++ t ↔ a = b ∧ s = t := by
  constructor
  · intro h
    obtain ⟨hput, hrest⟩ := List.append_inj h (by rw [hlen, hlen])
    exact ⟨hinj hput, hrest⟩
  · rintro ⟨rfl, rfl⟩
    rfl

theorem delimited_of_length (n : Nat) (hlen : ∀ a, (put a).length = n)
    (hinj : Function.Injective put) : Delimited put :=
  fun _ _ _ _ _ _ h => (append_eq_iff_of_length n hlen hinj).mp h

theorem leBytes_inj {w m n : Nat} (hm : m < 256 ^ w) (hn : n < 256 ^ w)
    (h : leBytes w m = leBytes w n) : m = n := by
  induction w generalizing m n with
  | zero => rw [pow_zero] at hm hn; omega
  | succ w ih =>
      rw [pow_succ] at hm hn
      obtain ⟨hlow, hhigh⟩ := List.cons.inj h
      have hdiv : m / 256 = n / 256 := ih (by omega) (by omega) hhigh
      have hmod : m % 256 = n % 256 := by simpa using congrArg UInt8.toNat hlow
      omega

theorem putU64_injective : Function.Injective putU64 := fun v v' h =>
  UInt64.toNat_inj.mp (leBytes_inj v.toNat_lt v'.toNat_lt h)

theorem putU32_injective : Function.Injective putU32 := fun v v' h =>
  UInt32.toNat_inj.mp (leBytes_inj v.toNat_lt v'.toNat_lt h)

@[simp] theorem putU64_append_eq_iff {v v' : UInt64} {s t : List UInt8} :
    putU64 v ++ s = putU64 v' ++ t ↔ v = v' ∧ s = t :=
  append_eq_iff_of_length 8 length_putU64 putU64_injective

@[simp] theorem putU32_append_eq_iff {v v' : UInt32} {s t : List UInt8} :
    putU32 v ++ s = putU32 v' ++ t ↔ v = v' ∧ s = t :=
  append_eq_iff_of_length 4 length_putU32 putU32_injective

@[simp] theorem array_append_eq_iff {n : Nat} {v v' : Vector UInt8 n} {s t : List UInt8} :
    v.toList ++ s = v'.toList ++ t ↔ v = v' ∧ s = t :=
  append_eq_iff_of_length n (fun _ => Vector.length_toList) fun _ _ => Vector.toList_inj.mp

theorem delimited_byte : Delimited fun b : UInt8 => [b] :=
  delimited_of_length 1 (fun _ => rfl) fun _ _ h => List.singleton_inj.mp h

/-! ## Containers -/

theorem length_le_flatMap (hpos : ∀ a, 1 ≤ (put a).length) (as : List α) :
    as.length ≤ (as.flatMap put).length := by
  induction as with
  | nil => exact le_rfl
  | cons a as ih =>
      have ha := hpos a
      rw [List.length_cons, List.flatMap_cons, List.length_append]
      omega

theorem delimited_flatMap (h : Delimited put) {as bs : List α} {s t : List UInt8}
    (hlen : as.length = bs.length) (has : (as.flatMap put).length < lengthBound)
    (hbs : (bs.flatMap put).length < lengthBound)
    (heq : as.flatMap put ++ s = bs.flatMap put ++ t) : as = bs ∧ s = t := by
  induction as generalizing bs with
  | nil =>
      rw [List.length_eq_zero_iff.mp hlen.symm] at heq ⊢
      exact ⟨rfl, heq⟩
  | cons a as ih =>
      cases bs with
      | nil => simp at hlen
      | cons b bs =>
          rw [List.flatMap_cons, List.length_append] at has hbs
          rw [List.flatMap_cons, List.flatMap_cons, List.append_assoc, List.append_assoc] at heq
          obtain ⟨rfl, htail⟩ := h a b _ _ (by omega) (by omega) heq
          obtain ⟨rfl, hrest⟩ := ih (Nat.succ.inj hlen) (by omega) (by omega) htail
          exact ⟨rfl, hrest⟩

theorem delimited_putVec (h : Delimited put) (hpos : ∀ a, 1 ≤ (put a).length) :
    Delimited (putVec put) := by
  intro as bs s t has hbs heq
  simp only [putVec, List.length_append, length_leBytes, List.append_assoc] at has hbs heq
  have hasLength := length_le_flatMap hpos as
  have hbsLength := length_le_flatMap hpos bs
  obtain ⟨hlength, hbody⟩ := List.append_inj heq (by simp)
  have hlen : as.length = bs.length :=
    leBytes_inj (show _ < lengthBound by omega) (show _ < lengthBound by omega) hlength
  exact delimited_flatMap h hlen (by omega) (by omega) hbody

theorem delimited_putBytes : Delimited putBytes :=
  delimited_putVec delimited_byte fun _ => le_rfl

theorem delimited_putOption (h : Delimited put) : Delimited (putOption put) := by
  intro a b s t ha hb heq
  cases a with
  | none =>
      cases b with
      | none => exact ⟨rfl, List.append_cancel_left heq⟩
      | some b => simp [putOption] at heq
  | some a =>
      cases b with
      | none => simp [putOption] at heq
      | some b =>
          simp only [putOption, List.length_cons] at ha hb
          obtain ⟨rfl, hrest⟩ := h a b s t (by omega) (by omega) (List.cons.inj heq).2
          exact ⟨rfl, hrest⟩

/-! ## Records without their number -/

/-- `bs` continues `as`, and `s` spells out what it has more, in front of `t`. -/
def Spells (put : α → List UInt8) (as bs : List α) (s t : List UInt8) : Prop :=
  as <+: bs ∧ s = (bs.drop as.length).flatMap put ++ t

theorem spells_nil {bs : List α} {s t : List UInt8} :
    Spells put [] bs s t ↔ s = bs.flatMap put ++ t := by simp [Spells]

theorem spells_cons {a : α} {as bs : List α} {s t : List UInt8} :
    Spells put (a :: as) (a :: bs) s t ↔ Spells put as bs s t := by
  simp [Spells, List.cons_prefix_cons]

/-- Records of one length can be told from each other, but their end cannot be
told from what follows. -/
theorem flatMap_append_eq_iff (n : Nat) (hlen : ∀ a, (put a).length = n)
    (hinj : Function.Injective put) {as bs : List α} {s t : List UInt8} :
    as.flatMap put ++ s = bs.flatMap put ++ t ↔ Spells put as bs s t ∨ Spells put bs as t s := by
  induction as generalizing bs with
  | nil =>
      rw [spells_nil, List.flatMap_nil, List.nil_append]
      refine ⟨.inl, ?_⟩
      rintro (h | ⟨hbs, h⟩)
      · exact h
      · rw [List.prefix_nil.mp hbs] at h ⊢
        simpa using h.symm
  | cons a as ih =>
      cases bs with
      | nil =>
          rw [spells_nil, List.flatMap_nil, List.nil_append, eq_comm]
          refine ⟨.inr, ?_⟩
          rintro (⟨has, -⟩ | h)
          · exact absurd (List.prefix_nil.mp has) (List.cons_ne_nil a as)
          · exact h
      | cons b bs =>
          rw [List.flatMap_cons, List.flatMap_cons, List.append_assoc, List.append_assoc,
            append_eq_iff_of_length n hlen hinj, ih]
          constructor
          · rintro ⟨rfl, h⟩
            rwa [spells_cons, spells_cons]
          · intro h
            obtain rfl : a = b := by
              rcases h with ⟨hpre, -⟩ | ⟨hpre, -⟩
              · exact (List.cons_prefix_cons.mp hpre).1
              · exact (List.cons_prefix_cons.mp hpre).1.symm
            rw [spells_cons, spells_cons] at h
            exact ⟨rfl, h⟩

/-! ## Strings -/

private theorem toList_loop (bytes : ByteArray) (i : Nat) (r : List UInt8) :
    ByteArray.toList.loop bytes i r = r.reverse ++ bytes.data.toList.drop i := by
  rw [ByteArray.toList.loop]
  by_cases hi : i < bytes.size
  · rw [if_pos hi, toList_loop, List.reverse_cons, List.append_assoc]
    have hlen : i < bytes.data.toList.length := hi
    have hget : bytes.get! i = bytes.data.toList[i] := getElem!_pos bytes.data i hi
    rw [List.drop_eq_getElem_cons hlen, hget]
    rfl
  · rw [if_neg hi, List.drop_eq_nil_of_le (Nat.le_of_not_lt hi), List.append_nil]
termination_by bytes.size - i

theorem toList_eq_data (bytes : ByteArray) : bytes.toList = bytes.data.toList := by
  simp [ByteArray.toList, toList_loop]

theorem delimited_putString : Delimited putString := by
  intro a b s t ha hb heq
  obtain ⟨hbytes, hrest⟩ := delimited_putBytes _ _ s t ha hb heq
  refine ⟨?_, hrest⟩
  have hdata : a.toUTF8.data.toList = b.toUTF8.data.toList := by
    simpa [ByteArray.toList, toList_loop] using hbytes
  exact String.toByteArray_inj.mp (ByteArray.ext (Array.toList_inj.mp hdata))

end NoirNet.Lib.Wire
