import Mathlib.Algebra.BigOperators.Group.List.Basic
import Mathlib.Algebra.Ring.Nat

/-!
# Printing behind a running length

A loop of `len += snprintf(out + len, size - len, …)` into a buffer of `size` bytes.  `snprintf`
returns the length of the whole text, also when it cuts the text off, and `size - len` is unsigned.

* `printsInside_iff` : the calls stay in the buffer exactly as long as the texts before the last one
  fit into it.
* `terminated_prints` : they leave a NUL in it.
-/

namespace UnderFlow

/-- The values of `size_t`. -/
def sizeMod : ℕ := 2 ^ 64

/-- What `snprintf` writes when it is given `n` bytes, the NUL included. -/
def snprintf (n : ℕ) (text : List UInt8) : List UInt8 :=
  if n = 0 then [] else text.take (n - 1) ++ [0]

/-- A call of `snprintf`: where it writes, the size it is given, and the bytes. -/
structure Print where
  /-- Where it begins. -/
  offset : ℕ
  /-- The room it is given. -/
  size : ℕ
  /-- The text. -/
  bytes : List UInt8

/-- The calls of the loop, and the length it ends with. -/
def printFrom (size : ℕ) : ℕ → List (List UInt8) → List Print × ℕ
  | len, [] => ([], len)
  | len, text :: texts =>
    let n := (size + sizeMod - len) % sizeMod
    let rest := printFrom size (len + text.length) texts
    (⟨len, n, snprintf n text⟩ :: rest.1, rest.2)

/-- Store bytes at an offset of memory. -/
def putBytes (m : ℕ → UInt8) (off : ℕ) (bytes : List UInt8) : ℕ → UInt8 := fun i =>
  if off ≤ i ∧ i < off + bytes.length then bytes.getD (i - off) 0 else m i

/-- What calls leave in memory. -/
def putPrints (m : ℕ → UInt8) (prints : List Print) : ℕ → UInt8 :=
  prints.foldl (fun m p => putBytes m p.offset p.bytes) m

/-- The size of a call did not wrap, and its bytes lie in the buffer. -/
def Print.Inside (size : ℕ) (p : Print) : Prop :=
  p.size + p.offset = size ∧ p.offset + p.bytes.length ≤ size

variable {size len n i off : ℕ} {text : List UInt8} {texts : List (List UInt8)} {m : ℕ → UInt8}

/-! ### One call -/

theorem snprintf_length : (snprintf n text).length = min n (text.length + 1) := by
  unfold snprintf
  split_ifs with h
  · simp [h]
  · rw [List.length_append, List.length_take, List.length_singleton]
    omega

theorem size_of_le (h : len ≤ size) (hs : size < sizeMod) :
    (size + sizeMod - len) % sizeMod = size - len := by
  rw [show size + sizeMod - len = size - len + sizeMod by omega, Nat.add_mod_right]
  exact Nat.mod_eq_of_lt (by omega)

/-- **A call is inside** exactly when its offset is. -/
theorem print_inside_iff (hs : size < sizeMod) (text : List UInt8) :
    Print.Inside size ⟨len, (size + sizeMod - len) % sizeMod,
      snprintf ((size + sizeMod - len) % sizeMod) text⟩ ↔ len ≤ size := by
  constructor
  · rintro ⟨hsize, -⟩
    simp only at hsize
    omega
  · intro h
    simp only [Print.Inside, size_of_le h hs, snprintf_length]
    omega

/-! ### The loop -/

/-- **The calls are inside** exactly when the texts before the last one fit. -/
theorem printsInside_iff (hs : size < sizeMod) :
    (∀ p ∈ (printFrom size len texts).1, p.Inside size) ↔
    texts = [] ∨ len + (texts.dropLast.map List.length).sum ≤ size := by
  induction texts generalizing len with
  | nil => simp [printFrom]
  | cons text texts ih =>
    simp only [printFrom, List.forall_mem_cons, print_inside_iff hs, ih, reduceCtorEq, false_or]
    rcases texts with _ | ⟨text', texts⟩
    · simp
    · rw [List.dropLast_cons_cons, List.map_cons, List.sum_cons]
      simp only [reduceCtorEq, false_or]
      omega

/-- A NUL at the length, or at the last byte. -/
def Terminated (size len : ℕ) (m : ℕ → UInt8) : Prop := m (min len (size - 1)) = 0

theorem terminated_put (text : List UInt8) (hpos : 1 ≤ size) (h : Terminated size len m)
    (hle : len ≤ size) :
    Terminated size (len + text.length) (putBytes m len (snprintf (size - len) text)) := by
  unfold Terminated putBytes
  rw [snprintf_length]
  rcases Nat.lt_or_eq_of_le hle with hlt | rfl
  · -- the call writes its NUL behind the text, or at the last byte
    have hn : size - len ≠ 0 := by omega
    rw [if_pos (by omega), snprintf, if_neg hn, List.getD_eq_getElem?_getD,
      List.getElem?_append_right (by rw [List.length_take]; omega)]
    rw [List.length_take, show min (len + text.length) (size - 1) - len -
      min (size - len - 1) text.length = 0 by omega]
    rfl
  · rw [if_neg (by omega), show min (len + text.length) (len - 1) = min len (len - 1) by omega]
    exact h

/-- **The buffer stays terminated.** -/
theorem terminated_prints (hpos : 1 ≤ size) (hs : size < sizeMod) (h : Terminated size len m)
    (hin : ∀ p ∈ (printFrom size len texts).1, p.Inside size) :
    Terminated size (printFrom size len texts).2 (putPrints m (printFrom size len texts).1) := by
  induction texts generalizing len m with
  | nil => exact h
  | cons text texts ih =>
    obtain ⟨hfirst, hrest⟩ := List.forall_mem_cons.1 hin
    have hle := (print_inside_iff hs text).1 hfirst
    refine ih ?_ hrest
    show Terminated size _ (putBytes m len (snprintf ((size + sizeMod - len) % sizeMod) text))
    rw [size_of_le hle hs]
    exact terminated_put text hpos h hle

end UnderFlow
