import Mathlib.Data.List.Basic
import Mathlib.Data.Nat.Notation

/-!
# The bytes of a character

The UTF-8 encoding of a character: one byte of ASCII, or a lead byte and continuation bytes.

* `encodeChar_cases` : the two forms.
-/

namespace UnderFlow

/-- What holds of all 256 values holds of every byte. -/
theorem forall_byte {P : UInt8 → Prop} (h : ∀ n : Fin 256, P (UInt8.ofFin n)) (b : UInt8) : P b :=
  h b.toFin

/-- A byte inside a character, behind its lead byte. -/
def IsContinuation (b : UInt8) : Prop := b &&& 0xC0 = 0x80

instance (b : UInt8) : Decidable (IsContinuation b) := inferInstanceAs (Decidable (_ = _))

/-- What is checked on all bytes: what the masks of an encoder give, and which bytes are which. -/
theorem byte_checked (b : UInt8) : IsContinuation (b &&& 0x3f ||| 0x80) ∧
    (0xC0 ≤ b &&& 0x1f ||| 0xc0 ∧ 0xC0 ≤ b &&& 0x0f ||| 0xe0 ∧ 0xC0 ≤ b &&& 0x07 ||| 0xf0) ∧
    (0xC0 ≤ b → ¬ IsContinuation b) ∧ (b < 0x80 → ¬ IsContinuation b) ∧
    (IsContinuation b → 0x80 ≤ b) :=
  forall_byte (P := fun b => IsContinuation (b &&& 0x3f ||| 0x80) ∧
    (0xC0 ≤ b &&& 0x1f ||| 0xc0 ∧ 0xC0 ≤ b &&& 0x0f ||| 0xe0 ∧ 0xC0 ≤ b &&& 0x07 ||| 0xf0) ∧
    (0xC0 ≤ b → ¬ IsContinuation b) ∧ (b < 0x80 → ¬ IsContinuation b) ∧
    (IsContinuation b → 0x80 ≤ b)) (by decide +kernel) b

theorem continuation_or (b : UInt8) : IsContinuation (b &&& 0x3f ||| 0x80) := (byte_checked b).1

theorem lead_or_c0 (b : UInt8) : 0xC0 ≤ b &&& 0x1f ||| 0xc0 := (byte_checked b).2.1.1

theorem lead_or_e0 (b : UInt8) : 0xC0 ≤ b &&& 0x0f ||| 0xe0 := (byte_checked b).2.1.2.1

theorem lead_or_f0 (b : UInt8) : 0xC0 ≤ b &&& 0x07 ||| 0xf0 := (byte_checked b).2.1.2.2

theorem not_continuation_of_lead {b : UInt8} (h : 0xC0 ≤ b) : ¬ IsContinuation b :=
  (byte_checked b).2.2.1 h

theorem not_continuation_of_ascii {b : UInt8} (h : b < 0x80) : ¬ IsContinuation b :=
  (byte_checked b).2.2.2.1 h

theorem le_of_continuation {b : UInt8} (h : IsContinuation b) : 0x80 ≤ b :=
  (byte_checked b).2.2.2.2 h

/-- **The bytes of a character**: one byte of ASCII, or a lead byte and continuation bytes. -/
theorem encodeChar_cases (c : Char) :
    (c.toNat < 0x80 ∧ String.utf8EncodeChar c = [UInt8.ofNat c.toNat]) ∨
      (0x80 ≤ c.toNat ∧ ∃ b rest, String.utf8EncodeChar c = b :: rest ∧ 0xC0 ≤ b ∧
        ∀ x ∈ rest, IsContinuation x) := by
  have hascii : c.utf8Size = 1 ↔ c.toNat < 0x80 := by
    rw [Char.utf8Size_eq_one_iff, UInt32.le_iff_toNat_le]
    exact Nat.lt_succ_iff.symm
  rcases Nat.lt_or_ge c.toNat 0x80 with hlt | hge
  · refine .inl ⟨hlt, ?_⟩
    rw [String.utf8EncodeChar_eq_singleton (hascii.2 hlt)]
    rfl
  · refine .inr ⟨hge, ?_⟩
    have hne : c.utf8Size ≠ 1 := fun h => Nat.not_lt.2 hge (hascii.1 h)
    have hpos := c.utf8Size_pos
    have hle := c.utf8Size_le_four
    obtain h2 | h3 | h4 : c.utf8Size = 2 ∨ c.utf8Size = 3 ∨ c.utf8Size = 4 := by omega
    · refine ⟨_, _, String.utf8EncodeChar_eq_cons_cons h2, lead_or_c0 _, ?_⟩
      simp [continuation_or]
    · refine ⟨_, _, String.utf8EncodeChar_eq_cons_cons_cons h3, lead_or_e0 _, ?_⟩
      simp [continuation_or]
    · refine ⟨_, _, String.utf8EncodeChar_eq_cons_cons_cons_cons h4, lead_or_f0 _, ?_⟩
      simp [continuation_or]

/-- A character is a byte that continues nothing, and bytes that do. -/
theorem encodeChar_shape (c : Char) : ∃ b rest, String.utf8EncodeChar c = b :: rest ∧
    ¬ IsContinuation b ∧ ∀ x ∈ rest, IsContinuation x := by
  rcases encodeChar_cases c with ⟨hlt, heq⟩ | ⟨-, b, rest, heq, hlead, hrest⟩
  · refine ⟨_, [], heq, not_continuation_of_ascii ?_, by simp⟩
    have hsize : c.toNat < UInt8.size := Nat.lt_of_lt_of_le hlt (by decide)
    rw [UInt8.lt_iff_toNat_lt, UInt8.toNat_ofNat_of_lt' hsize]
    exact hlt
  · exact ⟨b, rest, heq, not_continuation_of_lead hlead, hrest⟩

end UnderFlow
