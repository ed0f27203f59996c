import Mathlib.Data.List.Basic
import Mathlib.Data.Nat.Digits.Defs

/-!
# Decimal numerals

`atoi` of the C library on strings of bytes: white space, a sign, and the digits that follow.

* `digitsValue_map` : the value of the digits of a number.
* `atoi_digits`, `atoi_neg` : `atoi` of a numeral in range, with and without a minus, whatever
  follows it.
-/

namespace UnderFlow

/-- The number an `int32_t` holds after `x` is stored in it, in two's complement. -/
def wrapInt32 (x : ℤ) : ℤ := (BitVec.ofInt 32 x).toInt

/-- The number fits into an `int32_t`. -/
def InInt32 (x : ℤ) : Prop := -2 ^ 31 ≤ x ∧ x < 2 ^ 31

instance (x : ℤ) : Decidable (InInt32 x) := inferInstanceAs (Decidable (_ ∧ _))

/-- `isspace` -/
def isSpace (b : UInt8) : Bool := b == 32 || (9 ≤ b && b ≤ 13)

/-- `isdigit` -/
def isDigit (b : UInt8) : Bool := 48 ≤ b && b ≤ 57

/-- The number a sequence of digits stands for. -/
def digitsValue (ds : List UInt8) : ℕ := ds.foldl (fun n d => 10 * n + (d.toNat - 48)) 0

/-- `atoi`: the value `strtol` keeps within a 64-bit integer, cut to 32 bits. -/
def atoi (s : List UInt8) : ℤ :=
  let s := s.dropWhile isSpace
  let number (s : List UInt8) : ℤ := digitsValue (s.takeWhile isDigit)
  wrapInt32 <| match s with
    | 45 :: s => max (-number s) (-2 ^ 63)
    | 43 :: s => min (number s) (2 ^ 63 - 1)
    | s => min (number s) (2 ^ 63 - 1)

variable {b : UInt8} {rest : List UInt8} {ds : List ℕ} {d : ℕ} {x : ℤ}

theorem wrapInt32_eq (h : InInt32 x) : wrapInt32 x = x := by
  obtain ⟨hlo, hhi⟩ := h
  rw [wrapInt32, BitVec.toInt_ofInt]
  exact Int.bmod_eq_of_le (by omega) (by omega)

/-! ### Digits -/

/-- The character of a digit. -/
def digitByte (d : ℕ) : UInt8 := UInt8.ofNat (48 + d)

theorem digitByte_toNat (hd : d < 10) : (digitByte d).toNat = 48 + d := by
  rw [digitByte, UInt8.toNat_ofNat']
  omega

theorem isDigit_iff : isDigit b = true ↔ 48 ≤ b.toNat ∧ b.toNat ≤ 57 := by
  rw [isDigit, Bool.and_eq_true, decide_eq_true_eq, decide_eq_true_eq]
  exact Iff.rfl

theorem isDigit_digitByte (hd : d < 10) : isDigit (digitByte d) = true := by
  rw [isDigit_iff, digitByte_toNat hd]
  omega

/-- A digit is neither white space nor a sign. -/
theorem not_space_of_digit (h : isDigit b = true) : isSpace b = false ∧ b ≠ 45 ∧ b ≠ 43 := by
  have hrange := isDigit_iff.1 h
  refine ⟨?_, ?_, ?_⟩
  · rw [isSpace, Bool.or_eq_false_iff, Bool.and_eq_false_iff, decide_eq_false_iff_not,
      decide_eq_false_iff_not]
    refine ⟨beq_eq_false_iff_ne.2 ?_, .inr fun hle => ?_⟩
    · rintro rfl
      exact absurd hrange.1 (by decide)
    · have hle' : b.toNat ≤ 13 := hle
      omega
  · rintro rfl
    exact absurd hrange.1 (by decide)
  · rintro rfl
    exact absurd hrange.1 (by decide)

/-- The digits of a number are all the digits a string begins with. -/
theorem takeWhile_digits (hds : ∀ d ∈ ds, d < 10) (hrest : ∀ b ∈ rest.head?, isDigit b = false) :
    (ds.map digitByte ++ rest).takeWhile isDigit = ds.map digitByte := by
  have hall : ∀ b ∈ ds.map digitByte, isDigit b = true := by
    intro b hb
    obtain ⟨d, hd, rfl⟩ := List.mem_map.1 hb
    exact isDigit_digitByte (hds d hd)
  rw [List.takeWhile_append_of_pos hall]
  cases rest with
  | nil => exact List.append_nil _
  | cons b rest =>
    rw [List.takeWhile_cons_of_neg (by rw [hrest b rfl]; exact Bool.false_ne_true), List.append_nil]

/-- **The value of the digits of a number**, the most significant first. -/
theorem digitsValue_map (hds : ∀ d ∈ ds, d < 10) :
    digitsValue (ds.map digitByte) = Nat.ofDigits 10 ds.reverse := by
  rw [digitsValue, List.foldl_map, Nat.ofDigits_eq_foldr, List.foldr_reverse]
  refine List.foldl_ext _ _ _ fun n d hd => ?_
  rw [digitByte_toNat (hds d hd), Nat.add_sub_cancel_left, Nat.add_comm]
  rfl

/-! ### Numerals -/

/-- **A numeral in range** is read as it is. -/
theorem atoi_digits (hds : ∀ d ∈ ds, d < 10) (hne : ds ≠ [])
    (hrest : ∀ b ∈ rest.head?, isDigit b = false) (hlt : Nat.ofDigits 10 ds.reverse < 2 ^ 31) :
    atoi (ds.map digitByte ++ rest) = (Nat.ofDigits 10 ds.reverse : ℕ) := by
  have hvalue := digitsValue_map hds
  have htake := takeWhile_digits hds hrest
  obtain ⟨d, ds, rfl⟩ := List.exists_cons_of_ne_nil hne
  obtain ⟨hspace, hminus, hplus⟩ :=
    not_space_of_digit (isDigit_digitByte (hds d List.mem_cons_self))
  have hdrop : (digitByte d :: (ds.map digitByte ++ rest)).dropWhile isSpace =
      digitByte d :: (ds.map digitByte ++ rest) :=
    List.dropWhile_cons_of_neg (by rw [hspace]; exact Bool.false_ne_true)
  have hmin : min ((Nat.ofDigits 10 (d :: ds).reverse : ℕ) : ℤ) (2 ^ 63 - 1) = _ :=
    min_eq_left (by omega)
  simp only [List.map_cons, List.cons_append] at hvalue htake ⊢
  simp only [atoi, hdrop]
  split
  · rename_i heq
    exact absurd (List.cons.inj heq).1 hminus
  · rename_i heq
    exact absurd (List.cons.inj heq).1 hplus
  · rw [htake, hvalue, hmin]
    exact wrapInt32_eq ⟨by omega, by omega⟩

/-- The same with a minus. -/
theorem atoi_neg (hds : ∀ d ∈ ds, d < 10) (hrest : ∀ b ∈ rest.head?, isDigit b = false)
    (hle : Nat.ofDigits 10 ds.reverse ≤ 2 ^ 31) :
    atoi (45 :: (ds.map digitByte ++ rest)) = -(Nat.ofDigits 10 ds.reverse : ℕ) := by
  have hdrop : (45 :: (ds.map digitByte ++ rest)).dropWhile isSpace =
      45 :: (ds.map digitByte ++ rest) := List.dropWhile_cons_of_neg (by decide)
  have hmax : max (-((Nat.ofDigits 10 ds.reverse : ℕ) : ℤ)) (-2 ^ 63) = _ :=
    max_eq_left (by omega)
  simp only [atoi, hdrop]
  rw [takeWhile_digits hds hrest, digitsValue_map hds, hmax]
  exact wrapInt32_eq ⟨by omega, by omega⟩

end UnderFlow
