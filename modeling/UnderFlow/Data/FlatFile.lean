import Mathlib.Data.Nat.Notation
import Mathlib.Data.List.Basic
import Mathlib.Algebra.Order.Group.Nat

/-!
# Files of fixed-size records

A file is its bytes; `pread` and `pwrite` at an offset are complete, and a read past the end is
short. A *flat* file holds records of `n` bytes one after the other, with less than a record
behind them.

* `readRecord_flat` : the record at a multiple of `n`.
* `writeAt_flat` : rewriting a record changes no other byte.
* `getElem?_writeAt` : a write inside the file changes the bytes it writes and no others.
* `writeAt_end` : writing at the end appends.
-/

namespace UnderFlow

/-- The bytes of a file. -/
abbrev ByteFile := List UInt8

/-- `pread`: at most `n` bytes from an offset on. -/
def readAt (f : ByteFile) (off n : ℕ) : List UInt8 := (f.drop off).take n

/-- `pwrite`: the bytes at an offset, behind a hole of zeros if it lies past the end. -/
def writeAt (f : ByteFile) (off : ℕ) (bytes : List UInt8) : ByteFile :=
  f.take off ++ List.replicate (off - f.length) 0 ++ bytes ++ f.drop (off + bytes.length)

/-- A read of `n` bytes that is not short. -/
def readRecord (n : ℕ) (f : ByteFile) (off : ℕ) : Option (Vector UInt8 n) :=
  if h : (readAt f off n).length = n then some ⟨(readAt f off n).toArray, by simpa using h⟩
    else none

variable {n i off : ℕ} {f tail : ByteFile} {r : Vector UInt8 n} {recs recs' : List (Vector UInt8 n)}

/-- The records one after the other. -/
def flat (recs : List (Vector UInt8 n)) : ByteFile := recs.flatMap Vector.toList

theorem flat_cons : flat (r :: recs) = r.toList ++ flat recs := rfl

theorem flat_append : flat (recs ++ recs') = flat recs ++ flat recs' := List.flatMap_append

theorem flat_length : (flat recs).length = n * recs.length := by
  induction recs with
  | nil => rfl
  | cons r recs ih =>
    rw [flat_cons, List.length_append, Vector.length_toList, ih, List.length_cons, Nat.mul_succ,
      Nat.add_comm]

theorem readRecord_eq_some : readRecord n f off = some r ↔ readAt f off n = r.toList := by
  unfold readRecord
  constructor
  · intro h
    split_ifs at h
    cases h
    rfl
  · intro h
    rw [dif_pos (by rw [h, Vector.length_toList])]
    refine congrArg some (Vector.toList_inj.1 ?_)
    exact h

/-- A read that does not end in the file is short. -/
theorem readRecord_eq_none (hn : 0 < n) (h : f.length < off + n) : readRecord n f off = none := by
  refine dif_neg ?_
  simp only [readAt, List.length_take, List.length_drop]
  omega

theorem readRecord_le (hn : 0 < n) (h : readRecord n f off = some r) : off + n ≤ f.length := by
  by_contra hlt
  rw [readRecord_eq_none hn (Nat.not_le.1 hlt)] at h
  cases h

/-- The file falls into the records before a record and those from it on. -/
theorem flat_split (h : i ≤ recs.length) :
    flat recs = flat (recs.take i) ++ flat (recs.drop i) ∧ (flat (recs.take i)).length = n * i := by
  rw [← flat_append, List.take_append_drop, flat_length, List.length_take, Nat.min_eq_left h]
  exact ⟨rfl, rfl⟩

theorem drop_flat (h : i ≤ recs.length) :
    (flat recs ++ tail).drop (n * i) = flat (recs.drop i) ++ tail := by
  obtain ⟨hsplit, hlength⟩ := flat_split h
  rw [hsplit, List.append_assoc, ← hlength, List.drop_left]

theorem take_flat (h : i ≤ recs.length) :
    (flat recs ++ tail).take (n * i) = flat (recs.take i) := by
  obtain ⟨hsplit, hlength⟩ := flat_split h
  rw [hsplit, List.append_assoc, ← hlength, List.take_left]

/-- **Reading a record** of a flat file. -/
theorem readRecord_flat (ht : tail.length < n) :
    readRecord n (flat recs ++ tail) (n * i) = recs[i]? := by
  by_cases hi : i < recs.length
  · rw [List.getElem?_eq_getElem hi, readRecord_eq_some, readAt, drop_flat hi.le,
      List.drop_eq_getElem_cons hi, flat_cons, List.append_assoc]
    exact List.take_left' Vector.length_toList
  · rw [List.getElem?_eq_none (Nat.not_lt.1 hi)]
    refine readRecord_eq_none (Nat.zero_lt_of_lt ht) ?_
    have hle : n * recs.length ≤ n * i := Nat.mul_le_mul_left n (Nat.not_lt.1 hi)
    rw [List.length_append, flat_length]
    omega

/-- **Rewriting a record** of a flat file changes no other byte. -/
theorem writeAt_flat (hi : i < recs.length) :
    writeAt (flat recs ++ tail) (n * i) r.toList = flat (recs.set i r) ++ tail := by
  have hle : n * i ≤ n * recs.length := Nat.mul_le_mul_left n hi.le
  have hhole : n * i - (flat recs ++ tail).length = 0 := by
    rw [List.length_append, flat_length]
    omega
  have hend : n * i + r.toList.length = n * (i + 1) := by rw [Vector.length_toList, Nat.mul_succ]
  rw [writeAt, hhole, hend, take_flat hi.le, drop_flat hi, List.replicate_zero, List.append_nil,
    List.set_eq_take_append_cons_drop, if_pos hi, flat_append, flat_cons]
  simp only [List.append_assoc]

/-- Writing at the end appends. -/
theorem writeAt_end (f : ByteFile) (bytes : List UInt8) :
    writeAt f f.length bytes = f ++ bytes := by
  simp [writeAt]

/-- **A write inside the file** changes the bytes it writes and no others. -/
theorem getElem?_writeAt {bytes : List UInt8} (h : off + bytes.length ≤ f.length) (j : ℕ) :
    (writeAt f off bytes)[j]? = if off ≤ j ∧ j < off + bytes.length then bytes[j - off]?
    else f[j]? := by
  have hhole : off - f.length = 0 := by omega
  have htake : (f.take off).length = off := by
    rw [List.length_take]
    omega
  rw [writeAt, hhole, List.replicate_zero, List.append_nil, List.append_assoc]
  rcases Nat.lt_or_ge j off with hj | hj
  · rw [List.getElem?_append_left (by omega), List.getElem?_take_of_lt hj, if_neg (by omega)]
  · rw [List.getElem?_append_right (by omega), htake]
    rcases Nat.lt_or_ge (j - off) bytes.length with hin | hin
    · rw [List.getElem?_append_left hin, if_pos ⟨hj, by omega⟩]
    · rw [List.getElem?_append_right hin, List.getElem?_drop, if_neg (by omega)]
      congr 1
      omega

theorem writeAt_length {bytes : List UInt8} (h : off + bytes.length ≤ f.length) :
    (writeAt f off bytes).length = f.length := by
  simp only [writeAt, List.length_append, List.length_take, List.length_replicate, List.length_drop]
  omega

theorem flat_concat : flat (recs ++ [r]) = flat recs ++ r.toList := by
  rw [flat_append, flat_cons]
  exact congrArg _ (List.append_nil _)

end UnderFlow
