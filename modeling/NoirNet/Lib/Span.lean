import Mathlib.Data.List.Basic

/-!
# Spans of a list

Reading and overwriting the elements of a list from a position on, as code does
with a range of a buffer.

* `getElem?_write`: the written list, position by position;
* `wrote_write`: a write that fits fills its span and leaves the rest.
-/

namespace NoirNet.Lib.Span

variable {α : Type*}

def read (buffer : List α) (start n : Nat) : List α := (buffer.drop start).take n

def write (buffer : List α) (start : Nat) (data : List α) : List α :=
  buffer.take start ++ data ++ buffer.drop (start + data.length)

/-- `data` has been put at `start`, and nothing else has changed. -/
structure Wrote (before after : List α) (start : Nat) (data : List α) : Prop where
  size : after.length = before.length
  inside : read after start data.length = data
  outside : ∀ i, i < start ∨ start + data.length ≤ i → after[i]? = before[i]?

theorem length_read {buffer : List α} {start n : Nat} (h : start + n ≤ buffer.length) :
    (read buffer start n).length = n := by
  rw [read, List.length_take, List.length_drop]
  omega

theorem length_write {buffer : List α} {start : Nat} {data : List α}
    (h : start + data.length ≤ buffer.length) :
    (write buffer start data).length = buffer.length := by
  rw [write, List.length_append, List.length_append, List.length_take, List.length_drop]
  omega

theorem read_write {buffer : List α} {start : Nat} (data : List α) (h : start ≤ buffer.length) :
    read (write buffer start data) start data.length = data := by
  have hfront : (buffer.take start).length = start := List.length_take_of_le h
  have hdrop : (write buffer start data).drop start =
      data ++ buffer.drop (start + data.length) := by
    rw [write, List.append_assoc]
    exact List.drop_left' hfront
  rw [read, hdrop]
  exact List.take_left

theorem getElem?_write {buffer : List α} {start : Nat} {data : List α}
    (h : start + data.length ≤ buffer.length) (i : Nat) :
    (write buffer start data)[i]? =
      if i < start then buffer[i]?
      else if i < start + data.length then data[i - start]? else buffer[i]? := by
  have hfront : (buffer.take start).length = start := List.length_take_of_le (by omega)
  rw [write, List.append_assoc]
  by_cases hbefore : i < start
  · rw [if_pos hbefore, List.getElem?_append_left (by omega), List.getElem?_take_of_lt hbefore]
  · rw [if_neg hbefore, List.getElem?_append_right (by omega), hfront]
    by_cases hinside : i < start + data.length
    · rw [if_pos hinside, List.getElem?_append_left (by omega)]
    · rw [if_neg hinside, List.getElem?_append_right (by omega), List.getElem?_drop]
      congr 1
      omega

theorem wrote_write {buffer : List α} {start : Nat} {data : List α}
    (h : start + data.length ≤ buffer.length) :
    Wrote buffer (write buffer start data) start data where
  size := length_write h
  inside := read_write data (by omega)
  outside i hi := by
    rw [getElem?_write h]
    by_cases hbefore : i < start
    · rw [if_pos hbefore]
    · rw [if_neg hbefore, if_neg (by omega)]

end NoirNet.Lib.Span
