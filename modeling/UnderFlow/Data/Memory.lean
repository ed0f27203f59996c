import Mathlib.Algebra.Group.Nat.Defs
import Mathlib.Data.List.Basic

/-!
# Words in memory

A block of memory is a vector of bytes.  A host keeps the four bytes of a word in its own order, and
`ntohl` turns network order into host order and back.

* `load`, `store` : a word at an offset.
* `swapWord` : the word at an offset, turned in place.  Turning twice restores it
  (`swapWord_swapWord`), and words that do not overlap are turned independently (`swapWord_comm`).
* `swapWords_swapWords` : the same for a table of words.
* `terminate` : a NUL at each offset of a table.
* `CType` : the layout of a packed structure, with the offsets of its words and its strings.
-/

namespace UnderFlow

/-- The order in which a host keeps the bytes of a word. -/
inductive ByteOrder where
  | little
  | big
  deriving DecidableEq

/-! ### Words and their bytes -/

/-- Byte `k` of a word, from the least significant one. -/
def byteOf (v : BitVec 32) (k : ℕ) : UInt8 := UInt8.ofNat (v.toNat / 256 ^ k)

/-- The word with the given bytes, the most significant one first. -/
def ofBytes (b₃ b₂ b₁ b₀ : UInt8) : BitVec 32 :=
  BitVec.ofNat 32 (((b₃.toNat * 256 + b₂.toNat) * 256 + b₁.toNat) * 256 + b₀.toNat)

theorem byteOf_ofBytes (b₃ b₂ b₁ b₀ : UInt8) :
    byteOf (ofBytes b₃ b₂ b₁ b₀) 0 = b₀ ∧ byteOf (ofBytes b₃ b₂ b₁ b₀) 1 = b₁ ∧
      byteOf (ofBytes b₃ b₂ b₁ b₀) 2 = b₂ ∧ byteOf (ofBytes b₃ b₂ b₁ b₀) 3 = b₃ := by
  have h₀ := b₀.toNat_lt
  have h₁ := b₁.toNat_lt
  have h₂ := b₂.toNat_lt
  have h₃ := b₃.toNat_lt
  refine ⟨?_, ?_, ?_, ?_⟩ <;> refine UInt8.toNat_inj.1 ?_ <;>
    simp only [byteOf, ofBytes, UInt8.toNat_ofNat', BitVec.toNat_ofNat] <;> omega

theorem ofBytes_byteOf (v : BitVec 32) :
    ofBytes (byteOf v 3) (byteOf v 2) (byteOf v 1) (byteOf v 0) = v := by
  have h := v.isLt
  refine BitVec.eq_of_toNat_eq ?_
  simp only [byteOf, ofBytes, UInt8.toNat_ofNat', BitVec.toNat_ofNat]
  omega

/-- `ntohl` and `htonl`. -/
def ntohl : ByteOrder → BitVec 32 → BitVec 32
  | .big, v => v
  | .little, v => ofBytes (byteOf v 0) (byteOf v 1) (byteOf v 2) (byteOf v 3)

/-! ### Memory -/

variable {n : ℕ}

/-- The byte at an offset. -/
def byteAt (m : Vector UInt8 n) (i : ℕ) : UInt8 := m[i]?.getD 0

/-- The word at an offset. -/
def load (e : ByteOrder) (off : ℕ) (m : Vector UInt8 n) : BitVec 32 :=
  match e with
  | .little => ofBytes (byteAt m (off + 3)) (byteAt m (off + 2)) (byteAt m (off + 1)) (byteAt m off)
  | .big => ofBytes (byteAt m off) (byteAt m (off + 1)) (byteAt m (off + 2)) (byteAt m (off + 3))

/-- The place of byte `k` of a word in memory. -/
def ByteOrder.place : ByteOrder → ℕ → ℕ
  | .little, k => k
  | .big, k => 3 - k

/-- A 32-bit word is stored at an offset. -/
def store (e : ByteOrder) (off : ℕ) (v : BitVec 32) (m : Vector UInt8 n) : Vector UInt8 n :=
  Vector.ofFn fun i =>
    if off ≤ i ∧ i < off + 4 then byteOf v (e.place (i - off)) else m.get i

/-- The word at an offset, turned from host order to network order or back. -/
def swapWord (e : ByteOrder) (off : ℕ) (m : Vector UInt8 n) : Vector UInt8 n :=
  store e off (ntohl e (load e off m)) m

/-- The words at the offsets, turned one after the other. -/
def swapWords (e : ByteOrder) (offs : List ℕ) (m : Vector UInt8 n) : Vector UInt8 n :=
  offs.foldl (fun m off => swapWord e off m) m

/-- A NUL at an offset. -/
def putNul (off : ℕ) (m : Vector UInt8 n) : Vector UInt8 n := m.setIfInBounds off 0

/-- A NUL at each of the offsets. -/
def terminate (offs : List ℕ) (m : Vector UInt8 n) : Vector UInt8 n :=
  offs.foldl (fun m off => putNul off m) m

variable {e : ByteOrder} {m m' : Vector UInt8 n} {off off' i : ℕ} {v : BitVec 32} {offs : List ℕ}

theorem byteAt_of_lt (h : i < n) : byteAt m i = m[i] := by
  rw [byteAt, Vector.getElem?_eq_getElem h, Option.getD_some]

theorem byteAt_of_le (h : n ≤ i) : byteAt m i = 0 := by
  rw [byteAt, Vector.getElem?_eq_none h, Option.getD_none]

/-- Memory is what its bytes are. -/
theorem memory_ext (h : ∀ i, byteAt m i = byteAt m' i) : m = m' := by
  refine Vector.ext fun i hi => ?_
  have hb := h i
  rwa [byteAt_of_lt hi, byteAt_of_lt hi] at hb

theorem byteAt_store (h : off + 4 ≤ n) : byteAt (store e off v m) i =
    if off ≤ i ∧ i < off + 4 then byteOf v (e.place (i - off)) else byteAt m i := by
  by_cases hi : i < n
  · rw [byteAt_of_lt hi, byteAt_of_lt hi, store, Vector.getElem_ofFn]
    rfl
  · have hout : ¬(off ≤ i ∧ i < off + 4) := by omega
    rw [byteAt_of_le (Nat.not_lt.1 hi), byteAt_of_le (Nat.not_lt.1 hi), if_neg hout]

theorem byteOf_load {k : ℕ} (h : k < 4) : byteOf (load e off m) k = byteAt m (off + e.place k) := by
  have hk : k = 0 ∨ k = 1 ∨ k = 2 ∨ k = 3 := by omega
  cases e
  · obtain ⟨h₀, h₁, h₂, h₃⟩ := byteOf_ofBytes (byteAt m (off + 3)) (byteAt m (off + 2))
      (byteAt m (off + 1)) (byteAt m off)
    rcases hk with rfl | rfl | rfl | rfl <;> assumption
  · obtain ⟨h₀, h₁, h₂, h₃⟩ := byteOf_ofBytes (byteAt m off) (byteAt m (off + 1))
      (byteAt m (off + 2)) (byteAt m (off + 3))
    rcases hk with rfl | rfl | rfl | rfl <;> assumption

theorem swapWord_big (h : off + 4 ≤ n) : swapWord .big off m = m := by
  refine memory_ext fun i => ?_
  rw [swapWord, byteAt_store h]
  split_ifs with hi
  · have hk : ByteOrder.big.place (i - off) < 4 := by
      show 3 - (i - off) < 4
      omega
    rw [ntohl, byteOf_load hk]
    show byteAt m (off + (3 - (3 - (i - off)))) = byteAt m i
    congr 1
    omega
  · rfl

/-- A little-endian host mirrors the bytes of a word. -/
theorem byteAt_swapWord (h : off + 4 ≤ n) : byteAt (swapWord .little off m) i =
    if off ≤ i ∧ i < off + 4 then byteAt m (2 * off + 3 - i) else byteAt m i := by
  rw [swapWord, byteAt_store h]
  split_ifs with hi
  · obtain ⟨h₀, h₁, h₂, h₃⟩ := byteOf_ofBytes (byteOf (load .little off m) 0)
      (byteOf (load .little off m) 1) (byteOf (load .little off m) 2)
        (byteOf (load .little off m) 3)
    have hbyte : ∀ k < 4, byteOf (load .little off m) k = byteAt m (off + k) :=
      fun k hk => byteOf_load hk
    obtain rfl | rfl | rfl | rfl : i = off ∨ i = off + 1 ∨ i = off + 2 ∨ i = off + 3 := by omega
    · rw [ntohl, Nat.sub_self, ByteOrder.place, h₀, hbyte 3 (by omega)]
      congr 1
      omega
    · rw [ntohl, Nat.add_sub_cancel_left, ByteOrder.place, h₁, hbyte 2 (by omega)]
      congr 1
      omega
    · rw [ntohl, Nat.add_sub_cancel_left, ByteOrder.place, h₂, hbyte 1 (by omega)]
      congr 1
      omega
    · rw [ntohl, Nat.add_sub_cancel_left, ByteOrder.place, h₃, hbyte 0 (by omega)]
      congr 1
      omega
  · rfl

/-- **Turning a word twice** restores it. -/
theorem swapWord_swapWord (h : off + 4 ≤ n) : swapWord e off (swapWord e off m) = m := by
  cases e with
  | big => rw [swapWord_big h, swapWord_big h]
  | little =>
    refine memory_ext fun i => ?_
    rw [byteAt_swapWord h, byteAt_swapWord h]
    split_ifs with h₁ h₂
    · congr 1
      omega
    · omega
    · rw [byteAt_swapWord h, if_neg h₁]

/-- Words that do not overlap are turned independently. -/
theorem swapWord_comm (h : off + 4 ≤ n) (h' : off' + 4 ≤ n) (hd : off + 4 ≤ off' ∨ off' + 4 ≤ off) :
    swapWord e off (swapWord e off' m) = swapWord e off' (swapWord e off m) := by
  cases e with
  | big => rw [swapWord_big h, swapWord_big h', swapWord_big h', swapWord_big h]
  | little =>
    refine memory_ext fun i => ?_
    simp only [byteAt_swapWord h, byteAt_swapWord h']
    split_ifs <;> first | rfl | omega

/-! ### Tables of words -/

/-- The words at the offsets lie in the memory and do not overlap. -/
structure WordsApart (n : ℕ) (offs : List ℕ) : Prop where
  fits : ∀ off ∈ offs, off + 4 ≤ n
  apart : offs.Pairwise fun off off' => off + 4 ≤ off' ∨ off' + 4 ≤ off

instance (n : ℕ) (offs : List ℕ) : Decidable (WordsApart n offs) :=
  decidable_of_iff (_ ∧ _) ⟨fun ⟨h₁, h₂⟩ => ⟨h₁, h₂⟩, fun h => ⟨h.fits, h.apart⟩⟩

theorem WordsApart.tail (h : WordsApart n (off :: offs)) : WordsApart n offs :=
  ⟨fun o ho => h.fits o (List.mem_cons_of_mem off ho), (List.pairwise_cons.1 h.apart).2⟩

theorem swapWords_cons : swapWords e (off :: offs) m = swapWords e offs (swapWord e off m) := rfl

theorem swapWords_append {offs' : List ℕ} :
    swapWords e (offs ++ offs') m = swapWords e offs' (swapWords e offs m) :=
  List.foldl_append

/-- A word that overlaps none of a table can be turned before or after it. -/
theorem swapWords_swapWord (h : WordsApart n (off :: offs)) :
    swapWords e offs (swapWord e off m) = swapWord e off (swapWords e offs m) := by
  induction offs generalizing m with
  | nil => rfl
  | cons o os ih =>
    have hfits := h.fits off List.mem_cons_self
    have hfits' := h.fits o (List.mem_cons_of_mem off List.mem_cons_self)
    obtain ⟨hoff, hos⟩ := List.pairwise_cons.1 h.apart
    have hskip : WordsApart n (off :: os) := by
      refine ⟨fun x hx => h.fits x ?_, List.pairwise_cons.2 ⟨?_, (List.pairwise_cons.1 hos).2⟩⟩
      · rcases List.mem_cons.1 hx with rfl | hx
        · exact List.mem_cons_self
        · exact List.mem_cons_of_mem _ (List.mem_cons_of_mem _ hx)
      · exact fun x hx => hoff x (List.mem_cons_of_mem o hx)
    rw [swapWords_cons, swapWords_cons, swapWord_comm hfits' hfits (hoff o List.mem_cons_self).symm,
      ih hskip]

/-- **Turning a table twice** restores the memory. -/
theorem swapWords_swapWords (h : WordsApart n offs) :
    swapWords e offs (swapWords e offs m) = m := by
  induction offs generalizing m with
  | nil => rfl
  | cons o os ih =>
    rw [swapWords_cons, swapWords_cons, swapWords_swapWord h, ih h.tail,
      swapWord_swapWord (h.fits o List.mem_cons_self)]

/-- A byte outside the words of a table is not moved. -/
theorem byteAt_swapWords_of_out (hfits : ∀ off ∈ offs, off + 4 ≤ n)
    (hout : ∀ off ∈ offs, i < off ∨ off + 4 ≤ i) : byteAt (swapWords e offs m) i = byteAt m i := by
  induction offs generalizing m with
  | nil => rfl
  | cons o os ih =>
    have ho := hfits o List.mem_cons_self
    rw [swapWords_cons, ih (fun x hx => hfits x (List.mem_cons_of_mem o hx))
      fun x hx => hout x (List.mem_cons_of_mem o hx)]
    cases e with
    | big => rw [swapWord_big ho]
    | little =>
      rw [byteAt_swapWord ho, if_neg]
      have := hout o List.mem_cons_self
      omega

/-- A word of a table is turned exactly once. -/
theorem byteAt_swapWords_of_mem (h : WordsApart n offs) (hoff : off ∈ offs) {k : ℕ} (hk : k < 4) :
    byteAt (swapWords e offs m) (off + k) = byteAt (swapWord e off m) (off + k) := by
  induction offs generalizing m with
  | nil => cases hoff
  | cons o os ih =>
    rcases List.mem_cons.1 hoff with rfl | hoff
    · rw [swapWords_cons]
      refine byteAt_swapWords_of_out h.tail.fits fun x hx => ?_
      have := (List.pairwise_cons.1 h.apart).1 x hx
      omega
    · have ho := h.fits o List.mem_cons_self
      have hfits := h.fits off (List.mem_cons_of_mem o hoff)
      have hd := (List.pairwise_cons.1 h.apart).1 off hoff
      rw [swapWords_cons, ih h.tail hoff, swapWord_comm hfits ho (by omega)]
      cases e with
      | big => rw [swapWord_big ho]
      | little =>
        rw [byteAt_swapWord ho, if_neg]
        omega

/-! ### Terminators -/

theorem byteAt_putNul : byteAt (putNul off m) i = if i = off then 0 else byteAt m i := by
  by_cases hi : i < n
  · rw [byteAt_of_lt hi, byteAt_of_lt hi, putNul, Vector.getElem_setIfInBounds]
    split_ifs with h₁ h₂ h₂ <;> first | rfl | omega
  · rw [byteAt_of_le (Nat.not_lt.1 hi), byteAt_of_le (Nat.not_lt.1 hi), ite_self]

theorem byteAt_terminate : byteAt (terminate offs m) i = if i ∈ offs then 0 else byteAt m i := by
  induction offs generalizing m with
  | nil => rfl
  | cons o os ih =>
    show byteAt (terminate os (putNul o m)) i = _
    rw [ih, byteAt_putNul]
    by_cases hos : i ∈ os
    · rw [if_pos hos, if_pos (List.mem_cons_of_mem o hos)]
    · rw [if_neg hos]
      by_cases ho : i = o
      · rw [if_pos ho, if_pos (ho ▸ List.mem_cons_self)]
      · rw [if_neg ho, if_neg (by simp [ho, hos])]

theorem terminate_terminate : terminate offs (terminate offs m) = terminate offs m := by
  refine memory_ext fun i => ?_
  rw [byteAt_terminate, byteAt_terminate]
  split_ifs <;> rfl

/-- A word is what its bytes are. -/
theorem load_congr (h : ∀ k < 4, byteAt m (off + k) = byteAt m' (off + k)) :
    load e off m = load e off m' := by
  have h₀ := h 0 (by omega)
  have h₁ := h 1 (by omega)
  have h₂ := h 2 (by omega)
  have h₃ := h 3 (by omega)
  rw [Nat.add_zero] at h₀
  cases e <;> simp only [load, h₀, h₁, h₂, h₃]

/-- A word whose bytes lie in memory in the order of the host. -/
theorem load_eq (h : ∀ k < 4, byteAt m (off + k) = byteOf v (e.place k)) : load e off m = v := by
  have h₀ := h 0 (by omega)
  rw [Nat.add_zero] at h₀
  cases e <;> rw [load, h₀, h 1 (by omega), h 2 (by omega), h 3 (by omega)] <;>
    exact ofBytes_byteOf v

/-- Network order is what a turned word has on the wire. -/
theorem load_big_swapWord (h : off + 4 ≤ n) : load .big off (swapWord e off m) = load e off m := by
  cases e with
  | big => rw [swapWord_big h]
  | little =>
    have hbyte : ∀ k < 4, byteAt (swapWord .little off m) (off + k) = byteAt m (off + (3 - k)) := by
      intro k hk
      rw [byteAt_swapWord h, if_pos (by omega)]
      congr 1
      omega
    have h₀ := hbyte 0 (by omega)
    rw [Nat.add_zero] at h₀
    rw [load, load, h₀, hbyte 1 (by omega), hbyte 2 (by omega), hbyte 3 (by omega)]
    rfl

/-- A host reads a turned word as what it was in network order. -/
theorem load_swapWord (h : off + 4 ≤ n) : load e off (swapWord e off m) = load .big off m := by
  rw [← load_big_swapWord (e := e) (m := swapWord e off m) h, swapWord_swapWord h]

/-! ### Layouts -/

/-- The type of a field of a packed structure. -/
inductive CType where
  | int32
  | chars (n : ℕ)
  | array (k : ℕ) (t : CType)
  /-- Two consecutive members. -/
  | seq (a b : CType)
  | empty

namespace CType

/-- The bytes a value takes. -/
def size : CType → ℕ
  | int32 => 4
  | chars n => n
  | array k t => k * t.size
  | seq a b => a.size + b.size
  | empty => 0

/-- The offsets of the words. -/
def words : CType → ℕ → List ℕ
  | int32, off => [off]
  | array k t, off => (List.range k).flatMap fun i => t.words (off + i * t.size)
  | seq a b, off => a.words off ++ b.words (off + a.size)
  | _, _ => []

/-- The offsets and the sizes of the character arrays. -/
def strings : CType → ℕ → List (ℕ × ℕ)
  | chars n, off => [(off, n)]
  | array k t, off => (List.range k).flatMap fun i => t.strings (off + i * t.size)
  | seq a b, off => a.strings off ++ b.strings (off + a.size)
  | _, _ => []

/-- A structure with the given members. -/
def struct : List CType → CType
  | [] => empty
  | t :: ts => seq t (struct ts)

end CType

end UnderFlow
