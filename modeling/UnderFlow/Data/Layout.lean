import UnderFlow.Data.Memory
import Mathlib.Data.Vector.Basic
import Mathlib.Data.List.FinRange

/-!
# Values of a packed structure

A layout (`CType`) says what may be kept in memory: words, C strings in character arrays, arrays and
structures of these.  `CType.Val` is the type of the values of a layout.

* `CType.put`, `CType.get` : write a value at an offset, and read it.
* `CType.get_put` : what is written is read again, if every string leaves room for its NUL.
* `CType.get_agree` : two hosts read the same value when they agree on the words of the layout and
  on its strings.
-/

namespace UnderFlow

variable {n : ℕ} {m m' : Vector UInt8 n} {e e' : ByteOrder} {off i k : ℕ} {s : List UInt8}

/-! ### Strings -/

/-- A string in a character array of `k` bytes, with NULs behind it. -/
def putStr (off k : ℕ) (s : List UInt8) (m : Vector UInt8 n) : Vector UInt8 n :=
  Vector.ofFn fun i => if off ≤ i ∧ i < off + k then s.getD (i - off) 0 else m.get i

/-- The C string in a character array. -/
def getStr (off k : ℕ) (m : Vector UInt8 n) : List UInt8 :=
  ((List.range k).map fun i => byteAt m (off + i)).takeWhile (· ≠ 0)

theorem byteAt_putStr (h : off + k ≤ n) : byteAt (putStr off k s m) i =
    if off ≤ i ∧ i < off + k then s.getD (i - off) 0 else byteAt m i := by
  by_cases hi : i < n
  · rw [byteAt_of_lt hi, byteAt_of_lt hi, putStr, Vector.getElem_ofFn]
    rfl
  · have hout : ¬(off ≤ i ∧ i < off + k) := by omega
    rw [byteAt_of_le (Nat.not_lt.1 hi), byteAt_of_le (Nat.not_lt.1 hi), if_neg hout]

theorem getStr_congr (h : ∀ i < k, byteAt m (off + i) = byteAt m' (off + i)) :
    getStr off k m = getStr off k m' := by
  rw [getStr, getStr, List.map_congr_left fun i hi => h i (List.mem_range.1 hi)]

/-- A string that leaves room for its NUL is read as it was written. -/
theorem getStr_putStr (h : off + k ≤ n) (hlen : s.length < k) (hnul : 0 ∉ s) :
    getStr off k (putStr off k s m) = s := by
  have hbytes : (List.range k).map (fun i => byteAt (putStr off k s m) (off + i)) =
      s ++ List.replicate (k - s.length) 0 := by
    refine List.ext_getElem (by simp; omega) fun i h₁ h₂ => ?_
    have hi : i < k := by simpa using h₁
    rw [List.getElem_map, List.getElem_range, byteAt_putStr h, if_pos (by omega),
      Nat.add_sub_cancel_left, List.getD_eq_getElem?_getD, List.getElem_append]
    split_ifs with hs
    · rw [List.getElem?_eq_getElem hs, Option.getD_some]
    · rw [List.getElem?_eq_none (Nat.not_lt.1 hs), Option.getD_none, List.getElem_replicate]
  obtain ⟨r, hr⟩ : ∃ r, k - s.length = r + 1 := ⟨k - s.length - 1, by omega⟩
  have hall : ∀ b ∈ s, decide (b ≠ 0) = true := fun b hb => by
    have hne : b ≠ 0 := fun h0 => hnul (h0 ▸ hb)
    simpa using hne
  rw [getStr, hbytes, hr, List.replicate_succ, List.takeWhile_append_of_pos hall,
    List.takeWhile_cons_of_neg (by simp), List.append_nil]

/-- A NUL in the last byte does not cut a string that is shorter than its array. -/
theorem getStr_terminated (hlen : (getStr off k m).length < k)
    (h : ∀ i < k, byteAt m' (off + i) = byteAt m (off + i) ∨
      i + 1 = k ∧ byteAt m' (off + i) = 0) : getStr off k m' = getStr off k m := by
  obtain ⟨r, rfl⟩ := Nat.exists_eq_succ_of_ne_zero (Nat.ne_zero_of_lt hlen)
  have hinit : (List.range r).map (fun i => byteAt m' (off + i)) =
      (List.range r).map fun i => byteAt m (off + i) := by
    refine List.map_congr_left fun i hi => ?_
    have hir : i < r := List.mem_range.1 hi
    exact (h i (by omega)).resolve_right fun hlast => by omega
  simp only [getStr, List.range_succ, List.map_append, hinit, List.takeWhile_append,
    List.map_singleton] at hlen ⊢
  split_ifs at hlen ⊢ with hall
  -- every byte but the last is a character, so the last one is the NUL
  · have hlast : byteAt m (off + r) = 0 := by
      by_contra hne
      simp [hne] at hlen
    have hlast' : byteAt m' (off + r) = 0 := by
      rcases h r (by omega) with heq | ⟨-, h0⟩
      · rw [heq, hlast]
      · exact h0
    rw [hlast, hlast']
  · rfl

namespace CType

/-! ### Values -/

/-- The values a layout can keep. -/
@[reducible] def Val : CType → Type
  | int32 => BitVec 32
  | chars _ => List UInt8
  | array k t => Vector t.Val k
  | seq a b => a.Val × b.Val
  | empty => Unit

/-- Every string of the value leaves room for its NUL. -/
def Fits : (t : CType) → t.Val → Prop
  | int32, _ => True
  | chars k, s => s.length < k ∧ 0 ∉ s
  | array k t, vs => ∀ i : Fin k, t.Fits (vs.get i)
  | seq a b, v => a.Fits v.1 ∧ b.Fits v.2
  | empty, _ => True

instance decidableFits : (t : CType) → (v : t.Val) → Decidable (t.Fits v)
  | int32, _ | empty, _ => .isTrue trivial
  | chars _, _ => inferInstanceAs (Decidable (_ ∧ _))
  | array k t, vs =>
    have := decidableFits t
    inferInstanceAs (Decidable (∀ i : Fin k, t.Fits (vs.get i)))
  | seq a b, v =>
    have := decidableFits a v.1
    have := decidableFits b v.2
    inferInstanceAs (Decidable (a.Fits v.1 ∧ b.Fits v.2))

/-- Write a value at an offset. -/
def put (e : ByteOrder) : (t : CType) → ℕ → t.Val → Vector UInt8 n → Vector UInt8 n
  | int32, off, v, m => store e off v m
  | chars k, off, s, m => putStr off k s m
  | array k t, off, vs, m =>
    (List.finRange k).foldl (fun m (i : Fin k) => t.put e (off + i * t.size) (vs.get i) m) m
  | seq a b, off, v, m => b.put e (off + a.size) v.2 (a.put e off v.1 m)
  | empty, _, _, m => m

/-- The value at an offset. -/
def get (e : ByteOrder) : (t : CType) → ℕ → Vector UInt8 n → t.Val
  | int32, off, m => load e off m
  | chars k, off, m => getStr off k m
  | array _ t, off, m => Vector.ofFn fun i => t.get e (off + i * t.size) m
  | seq a b, off, m => (a.get e off m, b.get e (off + a.size) m)
  | empty, _, _ => ()

variable {t : CType}

/-- An entry of an array lies within the array. -/
theorem entry_le (off : ℕ) (i : Fin k) : off + i * t.size + t.size ≤ off + (array k t).size := by
  have hle : (i + 1) * t.size ≤ k * t.size := Nat.mul_le_mul_right _ i.isLt
  rw [Nat.succ_mul] at hle
  simp only [size]
  omega

/-- Different entries of an array do not overlap. -/
theorem entry_apart (off : ℕ) {i j : Fin k} (h : i ≠ j) :
    off + i * t.size + t.size ≤ off + j * t.size ∨
      off + j * t.size + t.size ≤ off + i * t.size := by
  have hlt : ∀ {i j : Fin k}, i < j → off + i * t.size + t.size ≤ off + j * t.size := by
    intro i j hij
    have hle : (i + 1 : ℕ) * t.size ≤ j * t.size := Nat.mul_le_mul_right _ hij
    rw [Nat.succ_mul] at hle
    omega
  rcases Nat.lt_or_gt_of_ne (Fin.val_ne_of_ne h) with hij | hij
  · exact .inl (hlt hij)
  · exact .inr (hlt hij)

/-- The value at an offset depends on the bytes of its window. -/
theorem get_congr (h : ∀ i, off ≤ i → i < off + t.size → byteAt m i = byteAt m' i) :
    t.get e off m = t.get e off m' := by
  induction t generalizing off with
  | int32 => exact load_congr fun j hj => h _ (by omega) (by simp only [size]; omega)
  | chars k => exact getStr_congr fun j hj => h _ (by omega) (by simp only [size]; omega)
  | array k t ih =>
    simp only [get]
    congr 1
    funext i
    have hle := entry_le (t := t) off i
    exact ih fun j hlo hhi => h j (by omega) (by omega)
  | seq a b iha ihb =>
    simp only [get, size] at h ⊢
    rw [iha fun j hlo hhi => h j hlo (by omega), ihb fun j hlo hhi => h j (by omega) (by omega)]
  | empty => rfl

/-- **Frame.**  A write changes the bytes of its window only. -/
theorem byteAt_put (h : off + t.size ≤ n) (hi : i < off ∨ off + t.size ≤ i) (v : t.Val) :
    byteAt (t.put e off v m) i = byteAt m i := by
  induction t generalizing off m with
  | int32 =>
    simp only [size] at h hi
    rw [put, byteAt_store h, if_neg (by omega)]
  | chars k =>
    simp only [size] at h hi
    rw [put, byteAt_putStr h, if_neg (by omega)]
  | array k t ih =>
    have hfold : ∀ (l : List (Fin k)) (m : Vector UInt8 n), byteAt (l.foldl
        (fun m (i : Fin k) => t.put e (off + i * t.size) (v.get i) m) m) i = byteAt m i := by
      intro l
      induction l with
      | nil => exact fun m => rfl
      | cons j l ihl =>
        intro m
        have hle := entry_le (t := t) off j
        rw [List.foldl_cons, ihl, ih (by omega) (by omega)]
    exact hfold _ m
  | seq a b iha ihb =>
    simp only [size] at h hi
    rw [put, ihb (by omega) (by omega), iha (by omega) (by omega)]
  | empty => rfl

/-- **What is written is read again.** -/
theorem get_put (h : off + t.size ≤ n) {v : t.Val} (hv : t.Fits v) :
    t.get e off (t.put e off v m) = v := by
  induction t generalizing off m with
  | int32 =>
    refine load_eq fun j hj => ?_
    rw [put, byteAt_store h, if_pos (by omega), Nat.add_sub_cancel_left]
  | chars k => exact getStr_putStr h hv.1 hv.2
  | array k t ih =>
    have hfold : ∀ (l : List (Fin k)) (m : Vector UInt8 n) (i : Fin k), l.Nodup →
        (i ∈ l ∨ t.get e (off + i * t.size) m = v.get i) →
        t.get e (off + i * t.size) (l.foldl
          (fun m (i : Fin k) => t.put e (off + i * t.size) (v.get i) m) m) = v.get i := by
      intro l
      induction l with
      | nil => exact fun m i _ hi => hi.resolve_left (List.not_mem_nil)
      | cons j l ihl =>
        intro m i hnd hi
        have hle := entry_le (t := t) off j
        have hle' := entry_le (t := t) off i
        refine ihl _ i (List.nodup_cons.1 hnd).2 ?_
        by_cases hij : i = j
        · subst hij
          exact .inr (ih (by omega) (hv i))
        · refine (hi.imp_left fun hmem => (List.mem_cons.1 hmem).resolve_left hij).imp_right ?_
          intro hold
          rw [← hold]
          refine get_congr fun x hlo hhi => byteAt_put (by omega) ?_ _
          have := entry_apart (t := t) off hij
          omega
    refine Vector.ext fun i hi => ?_
    simp only [get, put, Vector.getElem_ofFn]
    exact hfold _ m ⟨i, hi⟩ (List.nodup_finRange k) (.inl (List.mem_finRange _))
  | seq a b iha ihb =>
    simp only [size] at h
    have hfirst : a.get e off (b.put e (off + a.size) v.2 (a.put e off v.1 m)) = v.1 := by
      rw [get_congr fun j hlo hhi => byteAt_put (by omega) (by omega) v.2]
      exact iha (by omega) hv.1
    simp only [get, put]
    rw [hfirst, ihb (by omega) hv.2]
  | empty => rfl

/-- **Two hosts read the same value** when they agree on the words of the layout and on its
strings. -/
theorem get_agree (hwords : ∀ o ∈ t.words off, load e' o m' = load e o m)
    (hstrings : ∀ x ∈ t.strings off, getStr x.1 x.2 m' = getStr x.1 x.2 m) :
    t.get e' off m' = t.get e off m := by
  induction t generalizing off with
  | int32 => exact hwords off List.mem_cons_self
  | chars k => exact hstrings (off, k) List.mem_cons_self
  | array k t ih =>
    simp only [get]
    congr 1
    funext i
    have hmem : (i : ℕ) ∈ List.range k := List.mem_range.2 i.isLt
    exact ih (fun o ho => hwords o (List.mem_flatMap.2 ⟨i, hmem, ho⟩))
      fun x hx => hstrings x (List.mem_flatMap.2 ⟨i, hmem, hx⟩)
  | seq a b iha ihb =>
    simp only [get]
    rw [iha (fun o ho => hwords o (List.mem_append_left _ ho))
      fun x hx => hstrings x (List.mem_append_left _ hx),
      ihb (fun o ho => hwords o (List.mem_append_right _ ho))
        fun x hx => hstrings x (List.mem_append_right _ hx)]
  | empty => rfl

/-- Every string of a value that fits is shorter than its array. -/
theorem short_of_fits (h : t.Fits (t.get e off m)) :
    ∀ x ∈ t.strings off, (getStr x.1 x.2 m).length < x.2 := by
  induction t generalizing off with
  | int32 | empty => exact List.forall_mem_nil _
  | chars k =>
    rintro x hx
    obtain rfl := List.mem_singleton.1 hx
    exact h.1
  | array k t ih =>
    intro x hx
    obtain ⟨i, hi, hx⟩ := List.mem_flatMap.1 hx
    have hentry := h ⟨i, List.mem_range.1 hi⟩
    have hval : (get e (array k t) off m).get ⟨i, List.mem_range.1 hi⟩ =
        t.get e (off + i * t.size) m := Vector.getElem_ofFn _
    rw [hval] at hentry
    exact ih hentry x hx
  | seq a b iha ihb =>
    intro x hx
    rcases List.mem_append.1 hx with hx | hx
    · exact iha h.1 x hx
    · exact ihb h.2 x hx

end CType

end UnderFlow
