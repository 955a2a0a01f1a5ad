import Mathlib.Data.Set.Function
import NoirNet.Lib.FixedWire
import NoirNet.Lib.Table

/-!
# Typed tables kept as bytes

A table of byte strings `Stores` a typed one when each key's encoding leads to
the encoding of its value.  Keys are told apart by their encoding on a domain,
and only values that fit their encoding are in the table.

* `Stores.insert`, `Stores.erase`: the two tables are written side by side;
* `Stores.insert_other`: a key of another kind.
-/

namespace NoirNet.Lib

open Wire

/-- How the entries of a typed table are written as bytes. -/
structure Layout (κ ν : Type) where
  /-- The keys that are written. -/
  dom : Set κ
  key : κ → List UInt8
  key_injOn : Set.InjOn key dom
  fits : ν → Prop
  put : ν → List UInt8

/-- `raw` holds the entries of `t` in the layout. -/
structure Stores {κ ν : Type} [Ord κ] [Std.TransOrd κ] (l : Layout κ ν)
    (raw : Table (List UInt8) (List UInt8))
    (t : Table κ ν) : Prop where
  get : ∀ k ∈ l.dom, raw[l.key k]? = (t[k]?).map l.put
  fits : ∀ (k : κ) (v : ν), t[k]? = some v → l.fits v

namespace Stores

variable {κ ν : Type} [Ord κ] [Std.TransOrd κ] {l : Layout κ ν}
  {raw : Table (List UInt8) (List UInt8)}
  {t : Table κ ν}

theorem empty : Stores l ∅ (∅ : Table κ ν) where
  get k _ := by simp
  fits k v h := by simp at h

section

variable [Std.LawfulEqOrd κ] [DecidableEq κ] (h : Stores l raw t)

include h

theorem insert {k : κ} {v : ν} (hk : k ∈ l.dom) (hv : l.fits v) :
    Stores l (raw.insert (l.key k) (l.put v)) (t.insert k v) where
  get a ha := by
    rw [Table.get_insert, Table.get_insert]
    by_cases heq : k = a
    · rw [if_pos heq, if_pos (congrArg l.key heq)]
      rfl
    · have hne : l.key k ≠ l.key a := fun hkey => heq (l.key_injOn hk ha hkey)
      rw [if_neg heq, if_neg hne, h.get a ha]
  fits a w hw := by
    obtain ⟨-, rfl⟩ | ⟨-, hw⟩ := Table.get_insert_eq_some.mp hw
    · exact hv
    · exact h.fits a w hw

theorem erase {k : κ} (hk : k ∈ l.dom) : Stores l (raw.erase (l.key k)) (t.erase k) where
  get a ha := by
    rw [Table.get_erase, Table.get_erase]
    by_cases heq : k = a
    · rw [if_pos heq, if_pos (congrArg l.key heq)]
      rfl
    · have hne : l.key k ≠ l.key a := fun hkey => heq (l.key_injOn hk ha hkey)
      rw [if_neg heq, if_neg hne, h.get a ha]
  fits a w hw := by
    rw [Table.get_erase] at hw
    split at hw
    · cases hw
    · exact h.fits a w hw

end

theorem insert_other (h : Stores l raw t) {b w : List UInt8} (hb : ∀ k ∈ l.dom, b ≠ l.key k) :
    Stores l (raw.insert b w) t where
  get a ha := by
    rw [Table.get_insert, if_neg (hb a ha), h.get a ha]
  fits := h.fits

end Stores

end NoirNet.Lib
