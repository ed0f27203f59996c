import UnderFlow.Common.Protocol
import Mathlib.Algebra.BigOperators.Group.List.Basic
import Mathlib.Algebra.Ring.Nat

/-!
# Wrapping a text

`mvw_print_wrapped` of `src/client/ui_client.c` breaks a text into lines of a given width.  It walks
by the lengths that lead bytes announce, and copies up to the NUL.

* `wrapLoop_unit` : one pass of the loop, on a whole character.
* `wrapsSafely_iff` : the text is wrapped as it should be exactly when its last character is whole.
-/

namespace UnderFlow

/-- `sizeof(line)` -/
def wrapLineSize : ℕ := 256

/-- The bytes and the columns of a character, by its lead byte. -/
def announced (b : UInt8) : ℕ × ℕ :=
  if b < 0x80 then (1, 1)
  else if b >>> 5 = 0x6 then (2, 1)
  else if b >>> 4 = 0xE then (3, 2)
  else if b >>> 3 = 0x1E then (4, 2)
  else (1, 1)

/-- What goes wrong: a read behind the NUL, a store outside `line`, or too little fuel. -/
inductive WrapFault where
  | read
  | write
  | fuel
  deriving DecidableEq

/-- The locals of `mvw_print_wrapped`, and what it has printed. -/
structure WrapState where
  /-- The row of the next line. -/
  y : ℤ
  /-- The columns of the line so far. -/
  col : ℕ := 0
  /-- The bytes of the line so far. -/
  line : Bytes := []
  /-- The lines that were printed, with their rows. -/
  printed : List (ℤ × Bytes) := []
  deriving DecidableEq

/-- The byte at an offset of a C string. -/
def charAt (s : Bytes) (p : ℕ) : Except WrapFault UInt8 :=
  if p ≤ s.length then .ok (s.getD p 0) else .error .read

/-- `line[li] = '\0'`, `mvwprintw`, and the next row. -/
def WrapState.flush (st : WrapState) : Except WrapFault WrapState :=
  if st.line.length < wrapLineSize then
    .ok { y := st.y + 1, printed := st.printed ++ [(st.y, st.line)] }
  else .error .write

/-- The copy of a character, up to `n` bytes from `p` on. -/
def copyChar (s : Bytes) : ℕ → ℕ → Bytes → Except WrapFault Bytes
  | 0, _, line => .ok line
  | n + 1, p, line =>
    match charAt s p with
    | .error e => .error e
    | .ok b =>
      if b = 0 then .ok line
      else if line.length < wrapLineSize then copyChar s n (p + 1) (line ++ [b])
      else .error .write

/-- The line is printed when the next character does not fit. -/
def WrapState.room (colW cw : ℕ) (st : WrapState) : Except WrapFault WrapState :=
  if colW < st.col + cw ∨ wrapLineSize - 8 < st.line.length then st.flush else .ok st

/-- The loop from an offset on; the fuel bounds its passes. -/
def wrapLoop (s : Bytes) (colW : ℕ) : ℕ → ℕ → WrapState → Except WrapFault WrapState
  | 0, _, _ => .error .fuel
  | fuel + 1, p, st =>
    match charAt s p with
    | .error e => .error e
    | .ok b =>
      if b = 0 then .ok st
      else
        (st.room colW (announced b).2).bind fun st =>
          (copyChar s (announced b).1 p st.line).bind fun line =>
            wrapLoop s colW fuel (p + (announced b).1)
              { st with line := line, col := st.col + (announced b).2 }

/-- `mvw_print_wrapped` on a string without NULs: the printed lines and the returned number. -/
def mvwPrintWrapped (s : Bytes) (startY : ℤ) (colW : ℕ) : Except WrapFault (List (ℤ × Bytes) × ℤ) :=
  (wrapLoop s colW (s.length + 1) 0 { y := startY }).bind fun st =>
    (if st.line = [] then .ok st else st.flush).bind fun st => .ok (st.printed, st.y - startY)

/-- A character as the function reads it: a lead byte and the bytes it announces. -/
def IsChar (u : Bytes) : Prop := ∃ b rest, u = b :: rest ∧ u.length = (announced b).1

/-- The columns of a character. -/
def charCols (u : Bytes) : ℕ := (announced (u.headD 0)).2

/-- The columns of a line. -/
def lineCols (us : List Bytes) : ℕ := (us.map charCols).sum

/-- A text whose last character is whole. -/
def WholeChars (s : Bytes) : Prop := ∃ us : List Bytes, (∀ u ∈ us, IsChar u) ∧ us.flatten = s

/-- **A text is wrapped as it should be**: without a fault, into lines of whole characters that are
not too wide, with the number of lines returned. -/
def WrapsSafely (s : Bytes) (startY : ℤ) (colW : ℕ) : Prop :=
  ∃ lines : List (List Bytes),
    mvwPrintWrapped s startY colW =
      .ok (lines.mapIdx fun i us => (startY + i, us.flatten), lines.length) ∧
    (lines.map List.flatten).flatten = s ∧
    ∀ us ∈ lines, (∀ u ∈ us, IsChar u) ∧ lineCols us ≤ colW

variable {s u rest : Bytes} {us cur : List Bytes} {lines : List (List Bytes)} {b : UInt8}
  {p n fuel colW : ℕ} {startY : ℤ} {st st' : WrapState} {line : Bytes}

/-! ### Characters -/

theorem announced_fst (b : UInt8) : 1 ≤ (announced b).1 ∧ (announced b).1 ≤ 4 := by
  unfold announced
  split_ifs <;> simp

theorem announced_snd (b : UInt8) : 1 ≤ (announced b).2 ∧ (announced b).2 ≤ 2 := by
  unfold announced
  split_ifs <;> simp

/-- The first character of a text that has all its bytes. -/
theorem isChar_take (h : (announced b).1 ≤ (b :: rest).length) :
    IsChar ((b :: rest).take (announced b).1) := by
  obtain ⟨hpos, -⟩ := announced_fst b
  obtain ⟨n, hn⟩ := Nat.exists_eq_succ_of_ne_zero (Nat.pos_iff_ne_zero.1 hpos)
  refine ⟨b, rest.take n, ?_, ?_⟩
  · rw [hn, List.take_succ_cons]
  · rw [List.length_take, Nat.min_eq_left h]

/-- **A text of whole characters** is one, and such a text. -/
theorem wholeChars_cons : WholeChars (b :: rest) ↔
    (announced b).1 ≤ (b :: rest).length ∧ WholeChars ((b :: rest).drop (announced b).1) := by
  constructor
  · rintro ⟨us, hus, hflat⟩
    cases us with
    | nil => cases hflat
    | cons u us =>
      obtain ⟨hu, hrestChars⟩ := List.forall_mem_cons.1 hus
      obtain ⟨c, tail, rfl, hlen⟩ := hu
      rw [List.flatten_cons, List.cons_append] at hflat
      obtain ⟨rfl, hrest⟩ := List.cons.inj hflat
      have hall : (c :: tail) ++ us.flatten = c :: rest := by rw [List.cons_append, hrest]
      refine ⟨?_, us, hrestChars, ?_⟩
      · rw [← hlen, ← hall, List.length_append]
        exact Nat.le_add_right _ _
      · rw [← hlen, ← hall, List.drop_left]
  · rintro ⟨hle, us, hus, hflat⟩
    refine ⟨(b :: rest).take (announced b).1 :: us,
      List.forall_mem_cons.2 ⟨isChar_take hle, hus⟩, ?_⟩
    rw [List.flatten_cons, hflat, List.take_append_drop]

theorem wholeChars_nil : WholeChars [] := ⟨[], by simp, rfl⟩

/-! ### The lines so far -/

/-- What the loop has laid out: lines that are printed, and one that is not yet. -/
structure Laid (startY : ℤ) (colW : ℕ) (lines : List (List Bytes)) (cur : List Bytes)
    (st : WrapState) : Prop where
  y_eq : st.y = startY + lines.length
  printed_eq : st.printed = lines.mapIdx fun i us => (startY + i, us.flatten)
  line_eq : st.line = cur.flatten
  col_eq : st.col = lineCols cur
  col_le : st.col ≤ colW
  line_le : st.line.length ≤ wrapLineSize - 4
  lines_ok : ∀ us ∈ lines, (∀ u ∈ us, IsChar u) ∧ lineCols us ≤ colW
  cur_ok : ∀ u ∈ cur, IsChar u

theorem Laid.flush (h : Laid startY colW lines cur st) :
    ∃ st', st.flush = .ok st' ∧ Laid startY colW (lines ++ [cur]) [] st' := by
  have hroom : st.line.length < wrapLineSize := by
    have hle := h.line_le
    simp only [wrapLineSize] at hle ⊢
    omega
  refine ⟨_, if_pos hroom, ?_, ?_, rfl, rfl, Nat.zero_le _, Nat.zero_le _, ?_, by simp⟩
  · rw [h.y_eq, List.length_append, List.length_singleton]
    push_cast
    omega
  · rw [List.mapIdx_concat, h.printed_eq, h.y_eq, h.line_eq]
  · intro us hus
    rcases List.mem_append.1 hus with hus | hus
    · exact h.lines_ok us hus
    · obtain rfl := List.mem_singleton.1 hus
      exact ⟨h.cur_ok, by rw [← h.col_eq]; exact h.col_le⟩

/-- There is room for the next character, in this line or in a new one. -/
theorem Laid.room {cw : ℕ} (h : Laid startY colW lines cur st) (hcw : cw ≤ 2) (hw : 2 ≤ colW) :
    ∃ st' lines' cur', st.room colW cw = .ok st' ∧ Laid startY colW lines' cur' st' ∧
      lines'.flatten ++ cur' = lines.flatten ++ cur ∧ st'.col + cw ≤ colW ∧
      st'.line.length ≤ wrapLineSize - 8 := by
  unfold WrapState.room
  split_ifs with hfull
  · obtain ⟨st', hst', hlaid⟩ := h.flush
    refine ⟨st', lines ++ [cur], [], hst', hlaid, by simp, ?_, ?_⟩
    · rw [hlaid.col_eq]
      exact (Nat.zero_add cw).le.trans (hcw.trans hw)
    · rw [hlaid.line_eq]
      exact Nat.zero_le _
  · rw [not_or, not_lt, not_lt] at hfull
    exact ⟨st, lines, cur, rfl, h, rfl, hfull.1, hfull.2⟩

theorem Laid.append (h : Laid startY colW lines cur st) (hu : IsChar u)
    (hcol : st.col + charCols u ≤ colW) (hline : st.line.length ≤ wrapLineSize - 8) :
    Laid startY colW lines (cur ++ [u])
      { st with line := st.line ++ u, col := st.col + charCols u } := by
  refine ⟨h.y_eq, h.printed_eq, ?_, ?_, hcol, ?_, h.lines_ok, ?_⟩
  · rw [h.line_eq, List.flatten_concat]
  · rw [h.col_eq, lineCols, lineCols, List.map_append, List.sum_append, List.map_singleton,
      List.sum_singleton]
  · obtain ⟨b, rest, -, hlen⟩ := hu
    have hle := (announced_fst b).2
    simp only [wrapLineSize, List.length_append] at hline ⊢
    omega
  · intro v hv
    rcases List.mem_append.1 hv with hv | hv
    · exact h.cur_ok v hv
    · obtain rfl := List.mem_singleton.1 hv
      exact hu

/-! ### The loop -/

theorem charAt_of_lt (h : p < s.length) : charAt s p = .ok s[p] := by
  rw [charAt, if_pos h.le, List.getD_eq_getElem?_getD, List.getElem?_eq_getElem h, Option.getD_some]

theorem charAt_end : charAt s s.length = .ok 0 := by
  rw [charAt, if_pos le_rfl, List.getD_eq_getElem?_getD, List.getElem?_eq_none le_rfl,
    Option.getD_none]

/-- The copy stops at the end of the text. -/
theorem copyChar_eq (h0 : 0 ∉ s) (hp : p ≤ s.length) (hn : line.length + n ≤ wrapLineSize) :
    copyChar s n p line = .ok (line ++ (s.drop p).take n) := by
  induction n generalizing p line with
  | zero => simp [copyChar]
  | succ n ih =>
    rcases Nat.lt_or_eq_of_le hp with hlt | rfl
    · have hne : s[p] ≠ 0 := fun hzero => h0 (hzero ▸ List.getElem_mem hlt)
      have hroom : line.length < wrapLineSize := by omega
      rw [copyChar, charAt_of_lt hlt]
      simp only [if_neg hne, if_pos hroom]
      rw [ih hlt (by simp; omega), List.drop_eq_getElem_cons hlt, List.take_succ_cons,
        List.append_assoc]
      rfl
    · rw [copyChar, charAt_end]
      simp

/-- **One pass of the loop** lays out the next bytes and goes on behind them. -/
theorem wrapLoop_pass (fuel : ℕ) (h0 : 0 ∉ s) (hw : 2 ≤ colW) (hlt : p < s.length)
    (hL : Laid startY colW lines cur st) :
    ∃ st₁ lines₁ cur₁, Laid startY colW lines₁ cur₁ st₁ ∧
      lines₁.flatten ++ cur₁ = lines.flatten ++ cur ∧
      st₁.col + (announced s[p]).2 ≤ colW ∧ st₁.line.length ≤ wrapLineSize - 8 ∧
      wrapLoop s colW (fuel + 1) p st = wrapLoop s colW fuel (p + (announced s[p]).1)
        { st₁ with
          line := st₁.line ++ (s.drop p).take (announced s[p]).1
          col := st₁.col + (announced s[p]).2 } := by
  have hne : s[p] ≠ 0 := fun hzero => h0 (hzero ▸ List.getElem_mem hlt)
  obtain ⟨st₁, lines₁, cur₁, hroom, hL₁, hsame, hcol, hline⟩ := hL.room (announced_snd s[p]).2 hw
  refine ⟨st₁, lines₁, cur₁, hL₁, hsame, hcol, hline, ?_⟩
  have hcopy : copyChar s (announced s[p]).1 p st₁.line =
      .ok (st₁.line ++ (s.drop p).take (announced s[p]).1) := by
    refine copyChar_eq h0 hlt.le ?_
    have hle := (announced_fst s[p]).2
    simp only [wrapLineSize] at hline ⊢
    omega
  rw [wrapLoop, charAt_of_lt hlt]
  simp only [if_neg hne]
  rw [hroom]
  show (copyChar s (announced s[p]).1 p st₁.line).bind _ = _
  rw [hcopy]
  rfl

/-- A character that is not whole sends the loop behind the NUL. -/
theorem wrapLoop_behind (h : s.length < p) : wrapLoop s colW (fuel + 1) p st = .error .read := by
  rw [wrapLoop, charAt, if_neg (Nat.not_le.2 h)]

/-- **The loop** from an offset on: it lays out the rest of the text, or reads behind its NUL. -/
theorem wrapLoop_run (h0 : 0 ∉ s) (hw : 2 ≤ colW) (hp : p ≤ s.length) (hfuel : s.length - p < fuel)
    (hL : Laid startY colW lines cur st) :
    (WholeChars (s.drop p) ∧ ∃ st' lines' cur', wrapLoop s colW fuel p st = .ok st' ∧
      Laid startY colW lines' cur' st' ∧
      (lines'.flatten ++ cur').flatten = (lines.flatten ++ cur).flatten ++ s.drop p) ∨
    (¬ WholeChars (s.drop p) ∧ wrapLoop s colW fuel p st = .error .read) := by
  induction fuel generalizing p lines cur st with
  | zero => exact absurd hfuel (Nat.not_lt_zero _)
  | succ fuel ih =>
    rcases Nat.lt_or_eq_of_le hp with hlt | rfl
    · obtain ⟨st₁, lines₁, cur₁, hL₁, hsame, hcol, hline, hpass⟩ := wrapLoop_pass fuel h0 hw hlt hL
      have hdrop : s.drop p = s[p] :: s.drop (p + 1) := List.drop_eq_getElem_cons hlt
      have hlen : (s[p] :: s.drop (p + 1)).length = s.length - p := by
        rw [← hdrop, List.length_drop]
      have hpos := (announced_fst s[p]).1
      rw [hpass]
      by_cases hwhole : (announced s[p]).1 ≤ s.length - p
      · have hchar : IsChar ((s.drop p).take (announced s[p]).1) := by
          rw [hdrop]
          exact isChar_take (hlen ▸ hwhole)
        have hcols : charCols ((s.drop p).take (announced s[p]).1) = (announced s[p]).2 := by
          obtain ⟨n, hn⟩ := Nat.exists_eq_succ_of_ne_zero (Nat.pos_iff_ne_zero.1 hpos)
          rw [charCols, hdrop, hn, List.take_succ_cons, List.headD_cons]
        have hL₂ := hL₁.append hchar (by rw [hcols]; exact hcol) hline
        rw [hcols] at hL₂
        have hiff : WholeChars (s.drop p) ↔ WholeChars (s.drop (p + (announced s[p]).1)) := by
          rw [hdrop, wholeChars_cons, hlen, ← hdrop, List.drop_drop]
          exact and_iff_right hwhole
        rw [hiff]
        rcases ih (p := p + (announced s[p]).1) (by omega) (by omega) hL₂ with ⟨hrest, st', lines',
          cur', hrun, hL', hflat⟩ | hbad
        · refine .inl ⟨hrest, st', lines', cur', hrun, hL', ?_⟩
          rw [hflat, ← List.append_assoc, hsame, List.flatten_concat, List.append_assoc,
            ← List.drop_drop, List.take_append_drop]
        · exact .inr hbad
      · obtain ⟨fuel, rfl⟩ : ∃ k, fuel = k + 1 := ⟨fuel - 1, by omega⟩
        refine .inr ⟨fun hwhole' => hwhole ?_, wrapLoop_behind (by omega)⟩
        rw [hdrop, wholeChars_cons, hlen] at hwhole'
        exact hwhole'.1
    · refine .inl ⟨by rw [List.drop_length]; exact wholeChars_nil, st, lines, cur, ?_, hL, ?_⟩
      · rw [wrapLoop, charAt_end]
        rfl
      · rw [List.drop_length, List.append_nil]

/-! ### The text -/

theorem laid_start (startY : ℤ) : Laid startY colW [] [] { y := startY } :=
  ⟨by simp, rfl, rfl, rfl, Nat.zero_le _, Nat.zero_le _, by simp, by simp⟩

/-- The function: its lines, or the fault it ends with. -/
theorem mvwPrintWrapped_cases (startY : ℤ) (h0 : 0 ∉ s) (hw : 2 ≤ colW) :
    (WholeChars s ∧ WrapsSafely s startY colW) ∨
      (¬ WholeChars s ∧ mvwPrintWrapped s startY colW = .error .read) := by
  have hfuel : s.length - 0 < s.length + 1 := Nat.lt_succ_self _
  rcases wrapLoop_run h0 hw (Nat.zero_le _) hfuel (laid_start startY) with ⟨hwhole, st, lines, cur,
    hrun, hL, hflat⟩ | ⟨hbad, hrun⟩
  · refine .inl ⟨hwhole, ?_⟩
    rw [List.drop_zero, List.flatten_nil, List.append_nil, List.flatten_nil,
      List.nil_append] at hflat
    unfold WrapsSafely mvwPrintWrapped
    rw [hrun]
    by_cases hnil : st.line = []
    · refine ⟨lines, ?_, ?_, hL.lines_ok⟩
      · simp only [Except.bind, if_pos hnil, hL.printed_eq, hL.y_eq]
        rw [add_sub_cancel_left]
      · rw [← List.flatten_flatten, ← hflat, List.flatten_append, ← hL.line_eq, hnil,
          List.append_nil]
    · obtain ⟨st', hflush, hL'⟩ := hL.flush
      refine ⟨lines ++ [cur], ?_, ?_, hL'.lines_ok⟩
      · simp only [Except.bind, if_neg hnil, hflush, hL'.printed_eq, hL'.y_eq]
        rw [add_sub_cancel_left]
      · rw [← List.flatten_flatten, List.flatten_concat, hflat]
  · refine .inr ⟨hbad, ?_⟩
    rw [mvwPrintWrapped, hrun]
    rfl

/-- **A text is wrapped as it should be** exactly when its last character is whole. -/
theorem wrapsSafely_iff (startY : ℤ) (h0 : 0 ∉ s) (hw : 2 ≤ colW) :
    WrapsSafely s startY colW ↔ WholeChars s := by
  rcases mvwPrintWrapped_cases startY h0 hw with ⟨hwhole, hwraps⟩ | ⟨hbad, hfault⟩
  · exact iff_of_true hwraps hwhole
  · refine iff_of_false ?_ hbad
    rintro ⟨lines, hok, -⟩
    rw [hfault] at hok
    cases hok

/-- A text of two characters in lines of three columns. -/
theorem wrapsSafely_hangul : WrapsSafely (utf8 "사유") 3 3 := by
  refine (wrapsSafely_iff 3 (by decide +kernel) (by decide)).2
    ⟨[utf8 "사", utf8 "유"], ?_, by decide +kernel⟩
  rintro u hu
  rcases List.mem_pair.1 hu with rfl | rfl
  · exact ⟨0xEC, [0x82, 0xAC], by decide +kernel, by decide +kernel⟩
  · exact ⟨0xEC, [0x9C, 0xA0], by decide +kernel, by decide +kernel⟩

/-- A text that is cut off inside its last character. -/
theorem not_wrapsSafely_cut : ¬ WrapsSafely [0xEC, 0x82] 3 58 := by
  rintro ⟨lines, hok, -⟩
  have hfault : mvwPrintWrapped [0xEC, 0x82] 3 58 = .error .read := by decide +kernel
  rw [hfault] at hok
  cases hok

end UnderFlow
