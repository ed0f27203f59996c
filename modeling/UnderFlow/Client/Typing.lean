import UnderFlow.Client.Input
import UnderFlow.Data.Utf8

/-!
# Typing whole characters

The input line of `ui_client.c` under keystrokes that are whole characters, Backspace and Esc.  The
terminal delivers a character byte by byte, and each byte is admitted on its own.

* `UiLoop.type_run`, `UiLoop.erase_line` : what a character and a Backspace do to the line.
* `UiLoop.editsWhole_iff` : the line holds whole characters exactly as long as each typed character
  finds room for all its bytes or for none.
-/

namespace UnderFlow

/-- The codes of Backspace. -/
inductive BackspaceCode where
  | key
  | del
  | bs

/-- A keystroke; the codes of Enter, Backspace and Esc are not typed as characters. -/
inductive Keystroke where
  | char (c : Char) (h : c.toNat ∉ [8, 10, 27, 127])
  | backspace (code : BackspaceCode)
  | esc

/-- The event a terminal sends for the key. -/
def BackspaceCode.event : BackspaceCode → UiEvent
  | .key => .backspace
  | .del => .byte 127
  | .bs => .byte 8

/-- What the terminal delivers of a keystroke. -/
def Keystroke.events : Keystroke → List UiEvent
  | .char c _ => (String.utf8EncodeChar c).map .byte
  | .backspace code => [code.event]
  | .esc => [.byte 27]

/-- What a keystroke is to do to the characters of the line: a character is taken or not. -/
def Keystroke.Edits (cs cs' : List Char) : Keystroke → Prop
  | .char c _ => cs' = cs ++ [c] ∨ cs' = cs
  | .backspace _ => cs' = cs.dropLast
  | .esc => cs' = []

namespace UiLoop

/-- The line is a C string in its buffer, and holds the given characters. -/
def Holds (s : UiLoop) (cs : List Char) : Prop :=
  s.Sound ∧ s.line = cs.flatMap String.utf8EncodeChar

/-- **Whole characters**: after each keystroke the line holds characters, and they are the ones
before with what the keystroke is to do. -/
def EditsWhole : UiLoop → List Keystroke → List Char → Prop
  | s, [], cs => s.Holds cs
  | s, k :: ks, cs => s.Holds cs ∧ ∃ cs', k.Edits cs cs' ∧ EditsWhole (s.run k.events) ks cs'

/-- The room that is left in the line. -/
def room (s : UiLoop) : ℕ := (min ((inputMax : ℤ) - 1) (s.width - 45) - s.len).toNat

/-- A character of text finds room for all its bytes or for none. -/
def Admits (s : UiLoop) : Keystroke → Prop
  | .char c _ => c.toNat < 32 ∨ s.room = 0 ∨ (String.utf8EncodeChar c).length ≤ s.room
  | _ => True

instance (s : UiLoop) : (k : Keystroke) → Decidable (s.Admits k)
  | .char _ _ => inferInstanceAs (Decidable (_ ∨ _))
  | .backspace _ | .esc => inferInstanceAs (Decidable True)

/-- Each keystroke is admitted. -/
def AdmitsAll : UiLoop → List Keystroke → Prop
  | _, [] => True
  | s, k :: ks => s.Admits k ∧ AdmitsAll (s.run k.events) ks

instance : (s : UiLoop) → (ks : List Keystroke) → Decidable (s.AdmitsAll ks)
  | _, [] => inferInstanceAs (Decidable True)
  | s, k :: ks =>
    have := instDecidableAdmitsAll (s.run k.events) ks
    inferInstanceAs (Decidable (_ ∧ _))

variable {s : UiLoop} {bs rest : Bytes} {b : UInt8} {c : Char} {cs cs' : List Char} {k : Keystroke}
  {ks : List Keystroke} {n m : ℕ}

/-! ### A character -/

/-- A byte of text: it is not one of the codes the loop looks at. -/
def IsText (b : UInt8) : Prop := 32 ≤ b ∧ b ≠ 127

theorem onByte_text (hb : IsText b) : s.onByte b = (s.typeByte b, []) := by
  have h10 : b ≠ 10 := fun h => absurd hb.1 (by rw [h]; decide)
  have h8 : b ≠ 8 := fun h => absurd hb.1 (by rw [h]; decide)
  have h27 : b ≠ 27 := fun h => absurd hb.1 (by rw [h]; decide)
  rw [onByte, if_neg h10, if_neg (by simp [hb.2, h8]), if_neg h27, if_pos hb.1]

theorem fits_iff : s.Fits ↔ 0 < s.room := by
  unfold Fits room
  simp only [inputMax]
  omega

theorem typeByte_fields (h : s.Fits) : (s.typeByte b).len = s.len + 1 ∧
    (s.typeByte b).width = s.width ∧ (s.typeByte b).running = s.running := by
  unfold typeByte
  rw [if_pos ⟨h.1, h.2⟩]
  exact ⟨rfl, rfl, rfl⟩

theorem room_typeByte (h : s.Fits) : (s.typeByte b).room = s.room - 1 := by
  obtain ⟨hlen, hwidth, -⟩ := typeByte_fields (b := b) h
  unfold room
  rw [hlen, hwidth]
  omega

/-- **Bytes of text** are appended as far as there is room. -/
theorem type_run (hs : s.Sound) (hr : s.running = true) (hbs : ∀ b ∈ bs, IsText b) :
    (s.run (bs.map .byte)).running = true ∧ (s.run (bs.map .byte)).Sound ∧
      (s.run (bs.map .byte)).line = s.line ++ bs.take s.room := by
  induction bs generalizing s with
  | nil => simp [hr, hs]
  | cons b bs ih =>
    obtain ⟨hb, hbs⟩ := List.forall_mem_cons.1 hbs
    have hne : b ≠ 0 := fun h => absurd hb.1 (by rw [h]; decide)
    have hstep : s.step (.byte b) = (s.typeByte b, []) := by
      rw [step, if_pos hr]
      exact onByte_text hb
    have hrun : s.run ((b :: bs).map .byte) = (s.typeByte b).run (bs.map .byte) := by
      rw [List.map_cons, run, List.foldl_cons, hstep]
      rfl
    by_cases hfits : s.Fits
    · have hr' : (s.typeByte b).running = true := (typeByte_fields hfits).2.2.trans hr
      obtain ⟨m, hm⟩ := Nat.exists_eq_succ_of_ne_zero (Nat.pos_iff_ne_zero.1 (fits_iff.1 hfits))
      obtain ⟨h1, h2, h3⟩ := ih (hs.typeByte hne) hr' hbs
      refine ⟨by rw [hrun]; exact h1, by rw [hrun]; exact h2, ?_⟩
      rw [hrun, h3, line_typeByte hs hne hfits, room_typeByte hfits, hm, List.take_succ_cons,
        List.append_assoc, Nat.succ_sub_one]
      rfl
    · have hzero : s.room = 0 := Nat.eq_zero_of_not_pos fun h => hfits (fits_iff.2 h)
      rw [hrun, typeByte_of_not_fits hfits]
      obtain ⟨h1, h2, h3⟩ := ih hs hr hbs
      refine ⟨h1, h2, ?_⟩
      rw [h3, hzero, List.take_zero, List.take_zero]

/-- The bytes of a typed character are text. -/
theorem isText_char (h : c.toNat ∉ [8, 10, 27, 127]) (h32 : 32 ≤ c.toNat) :
    ∀ b ∈ String.utf8EncodeChar c, IsText b := by
  intro b hb
  rcases encodeChar_cases c with ⟨hlt, heq⟩ | ⟨-, lead, rest, heq, hlead, hrest⟩
  · rw [heq, List.mem_singleton] at hb
    have hnat : b.toNat = c.toNat := by
      rw [hb, UInt8.toNat_ofNat_of_lt' (Nat.lt_of_lt_of_le hlt (by decide))]
    refine ⟨UInt8.le_iff_toNat_le.2 (by rw [hnat]; exact h32), fun h127 => h ?_⟩
    have : c.toNat = 127 := by rw [← hnat, h127]; rfl
    simp [this]
  · have hhigh : ∀ x : UInt8, 0x80 ≤ x → IsText x := fun x hx =>
      forall_byte (P := fun x => 0x80 ≤ x → 32 ≤ x ∧ x ≠ 127) (by decide +kernel) x hx
    rw [heq] at hb
    rcases List.mem_cons.1 hb with rfl | hb
    · exact hhigh b (UInt8.le_trans (by decide) hlead)
    · exact hhigh b (le_of_continuation (hrest b hb))

/-- A control character is not taken. -/
theorem control_run (h : c.toNat ∉ [8, 10, 27, 127]) (h32 : c.toNat < 32) :
    s.run ((String.utf8EncodeChar c).map .byte) = s := by
  rcases encodeChar_cases c with ⟨hlt, heq⟩ | ⟨hge, -⟩
  · have hnat : (UInt8.ofNat c.toNat).toNat = c.toNat :=
      UInt8.toNat_ofNat_of_lt' (Nat.lt_of_lt_of_le hlt (by decide))
    have hcode : ∀ b : UInt8, UInt8.ofNat c.toNat = b → c.toNat = b.toNat := by
      rintro b rfl
      exact hnat.symm
    have h10 : UInt8.ofNat c.toNat ≠ 10 := fun hb => h (by rw [hcode _ hb]; decide)
    have h127 : UInt8.ofNat c.toNat ≠ 127 := fun hb => h (by rw [hcode _ hb]; decide)
    have h8 : UInt8.ofNat c.toNat ≠ 8 := fun hb => h (by rw [hcode _ hb]; decide)
    have h27 : UInt8.ofNat c.toNat ≠ 27 := fun hb => h (by rw [hcode _ hb]; decide)
    have hlow : ¬ 32 ≤ UInt8.ofNat c.toNat := by
      rw [UInt8.le_iff_toNat_le, hnat]
      exact Nat.not_le.2 h32
    have hstep : s.step (.byte (UInt8.ofNat c.toNat)) = (s, []) := by
      unfold step
      split_ifs
      · show s.onByte (UInt8.ofNat c.toNat) = (s, [])
        rw [onByte, if_neg h10, if_neg (by simp [h127, h8]), if_neg h27, if_neg hlow]
      · rfl
    rw [heq, List.map_singleton, run, List.foldl_cons, hstep]
    rfl
  · omega

/-! ### Backspace and Esc -/

/-- The walk back stops at the byte that starts the character. -/
theorem charStart_eq {input : Vector UInt8 inputMax} (hle : m ≤ n)
    (hstart : m = 0 ∨ ¬ IsContinuation (input[m]?.getD 0))
    (hrest : ∀ i, m < i → i ≤ n → IsContinuation (input[i]?.getD 0)) : charStart input n = m := by
  induction n with
  | zero => rw [Nat.le_zero.1 hle]; rfl
  | succ n ih =>
    rw [charStart]
    rcases Nat.lt_or_eq_of_le hle with hlt | rfl
    · have hbyte : input[n + 1]?.getD 0 &&& 0xC0 = 0x80 := hrest (n + 1) hlt le_rfl
      rw [if_pos hbyte]
      exact ih (Nat.le_of_lt_succ hlt) fun i hi hin => hrest i hi (Nat.le_succ_of_le hin)
    · have hbyte : ¬ input[n + 1]?.getD 0 &&& 0xC0 = 0x80 :=
        hstart.resolve_left (Nat.succ_ne_zero n)
      rw [if_neg hbyte]

theorem Sound.input_getD (h : s.Sound) {i : ℕ} (hi : i < s.len) :
    s.input[i]?.getD 0 = s.line[i]?.getD 0 := by
  rw [h.line_eq, List.getElem?_take_of_lt hi, Vector.getElem?_toList]

/-- **Backspace** removes the last character. -/
theorem erase_line (hs : s.Sound) (hline : s.line = (cs ++ [c]).flatMap String.utf8EncodeChar) :
    s.erase.line = cs.flatMap String.utf8EncodeChar := by
  obtain ⟨b, rest, hc, hlead, hrest⟩ := encodeChar_shape c
  have hsplit : s.line = cs.flatMap String.utf8EncodeChar ++ b :: rest := by
    rw [hline, List.flatMap_append, List.flatMap_singleton, hc]
  have hlen : s.len = (cs.flatMap String.utf8EncodeChar).length + (rest.length + 1) := by
    rw [← hs.line_length, hsplit, List.length_append, List.length_cons]
  have hstart : charStart s.input (s.len - 1) = (cs.flatMap String.utf8EncodeChar).length := by
    refine charStart_eq (by omega) (.inr ?_) fun i hi hin => ?_
    · rw [hs.input_getD (by omega), hsplit, List.getElem?_append_right le_rfl, Nat.sub_self]
      exact hlead
    · obtain ⟨j, rfl⟩ : ∃ j, i = (cs.flatMap String.utf8EncodeChar).length + (j + 1) :=
        ⟨i - (cs.flatMap String.utf8EncodeChar).length - 1, by omega⟩
      have hj : j < rest.length := by omega
      rw [hs.input_getD (by omega), hsplit, List.getElem?_append_right (Nat.le_add_right _ _),
        Nat.add_sub_cancel_left, List.getElem?_cons_succ, List.getElem?_eq_getElem hj]
      exact hrest _ (List.getElem_mem hj)
  have hlenErase : s.erase.len = (cs.flatMap String.utf8EncodeChar).length := by
    rw [erase, if_pos (by omega)]
    exact hstart
  have hinput : s.erase.input = s.input.setIfInBounds (charStart s.input (s.len - 1)) 0 := by
    rw [erase, if_pos (by omega)]
  rw [hs.erase.line_eq, hlenErase, hinput, Vector.toList_setIfInBounds, hstart,
    List.take_set_of_le le_rfl]
  have hhead : s.input.toList.take (cs.flatMap String.utf8EncodeChar).length =
      s.line.take (cs.flatMap String.utf8EncodeChar).length := by
    rw [hs.line_eq, List.take_take, Nat.min_eq_left (by omega)]
  rw [hhead, hsplit, List.take_left]

theorem erase_nil (hs : s.Sound) (hline : s.line = []) : s.erase = s := by
  have hlen : s.len = 0 := by rw [← hs.line_length, hline]; rfl
  rw [erase, if_neg (by omega)]

theorem backspace_run (hr : s.running = true) (code : BackspaceCode) :
    s.run [code.event] = s.erase := by
  have hstep : s.step code.event = (s.erase, []) := by
    unfold step
    rw [if_pos hr]
    cases code <;> rfl
  rw [run, List.foldl_cons, hstep]
  rfl

theorem esc_run (hr : s.running = true) : s.run [.byte 27] = s.clearLine := by
  have hstep : s.step (.byte 27) = (s.clearLine, []) := by
    rw [step, if_pos hr]
    rfl
  rw [run, List.foldl_cons, hstep]
  rfl

theorem erase_running (s : UiLoop) : s.erase.running = s.running := by
  unfold erase
  split_ifs <;> rfl

/-! ### Keystrokes -/

/-- **A keystroke** that is admitted edits whole characters, and another does not. -/
theorem keystroke_run (hr : s.running = true) (h : s.Holds cs) (k : Keystroke) :
    (s.run k.events).running = true ∧
      ((∃ cs', k.Edits cs cs' ∧ (s.run k.events).Holds cs') ↔ s.Admits k) := by
  obtain ⟨hs, hline⟩ := h
  cases k with
  | char c hc =>
    show (s.run ((String.utf8EncodeChar c).map .byte)).running = true ∧ _
    rcases Nat.lt_or_ge c.toNat 32 with h32 | h32
    · have hrun := control_run (s := s) hc h32
      rw [hrun]
      refine ⟨hr, iff_of_true ⟨cs, .inr rfl, ?_⟩ (.inl h32)⟩
      rw [Keystroke.events, hrun]
      exact ⟨hs, hline⟩
    · obtain ⟨hr', hs', hline'⟩ := type_run hs hr (isText_char hc h32)
      refine ⟨hr', ⟨?_, ?_⟩⟩
      · rintro ⟨cs', hedit, -, hholds⟩
        refine .inr ?_
        rw [Keystroke.events, hline', hline] at hholds
        rcases hedit with rfl | rfl
        · rw [List.flatMap_append, List.flatMap_singleton, List.append_cancel_left_eq,
            List.take_eq_self_iff] at hholds
          exact .inr hholds
        · rw [List.append_right_eq_self, List.take_eq_nil_iff] at hholds
          exact .inl (hholds.resolve_right String.utf8EncodeChar_ne_nil)
      · rintro (hlow | hzero | hle)
        · exact absurd hlow (Nat.not_lt.2 h32)
        · refine ⟨cs, .inr rfl, hs', ?_⟩
          rw [Keystroke.events, hline', hzero, List.take_zero, List.append_nil, hline]
        · refine ⟨cs ++ [c], .inl rfl, hs', ?_⟩
          rw [Keystroke.events, hline', List.take_of_length_le hle, hline, List.flatMap_append,
            List.flatMap_singleton]
  | backspace code =>
    rw [Keystroke.events, backspace_run hr]
    refine ⟨(erase_running s).trans hr, iff_of_true ⟨cs.dropLast, rfl, hs.erase, ?_⟩ trivial⟩
    rcases List.eq_nil_or_concat cs with rfl | ⟨cs, c, rfl⟩
    · rw [erase_nil hs hline, hline]
      rfl
    · rw [List.concat_eq_append] at hline ⊢
      rw [List.dropLast_concat]
      exact erase_line hs hline
  | esc =>
    rw [Keystroke.events, esc_run hr]
    exact ⟨hr, iff_of_true ⟨[], rfl, hs.clearLine, line_clearLine s⟩ trivial⟩

/-- **The line holds whole characters** exactly as long as every keystroke is admitted. -/
theorem editsWhole_iff_admitsAll (hr : s.running = true) (h : s.Holds cs) :
    s.EditsWhole ks cs ↔ s.AdmitsAll ks := by
  induction ks generalizing s cs with
  | nil => exact iff_of_true h trivial
  | cons k ks ih =>
    obtain ⟨hr', hiff⟩ := keystroke_run hr h k
    simp only [EditsWhole, AdmitsAll]
    constructor
    · rintro ⟨-, cs', hedit, hrest⟩
      have hholds : (s.run k.events).Holds cs' := by
        cases ks with
        | nil => exact hrest
        | cons k' ks => exact hrest.1
      exact ⟨hiff.1 ⟨cs', hedit, hholds⟩, (ih hr' hholds).1 hrest⟩
    · rintro ⟨hlets, hall⟩
      obtain ⟨cs', hedit, hholds⟩ := hiff.2 hlets
      exact ⟨h, cs', hedit, (ih hr' hholds).2 hall⟩

/-- The client starts with an empty line on a screen that is large enough. -/
theorem start_holds (money goal : ℤ) {height width : ℤ} (hw : minWidth ≤ width)
    (hh : minHeight ≤ height) :
    (start money goal height width).running = true ∧ (start money goal height width).Holds [] := by
  have hredraw : start money goal height width =
      { client := .start money goal, height := height, width := width } := by
    unfold start redraw
    rw [if_neg (by simp only [not_or, not_lt]; exact ⟨hw, hh⟩)]
  refine ⟨by rw [hredraw], sound_start money goal height width, ?_⟩
  rw [hredraw]
  exact line_clearLine { client := .start money goal, height := height, width := width }

/-- **Typed characters stay whole** on a screen of any sufficient size exactly if each finds room
for all its bytes or for none. -/
theorem editsWhole_iff {height width : ℤ} (money goal : ℤ) (hw : minWidth ≤ width)
    (hh : minHeight ≤ height) (ks : List Keystroke) :
    (start money goal height width).EditsWhole ks [] ↔
    (start money goal height width).AdmitsAll ks := by
  obtain ⟨hr, hholds⟩ := start_holds money goal hw hh
  exact editsWhole_iff_admitsAll hr hholds

/-- A Hangul syllable is typed. -/
def keyGa : Keystroke := .char '가' (by decide)

/-- A syllable is typed on the smallest screen and erased. -/
theorem editsWhole_ga :
    (start 1000 10000 30 100).EditsWhole [keyGa, .backspace .key, .esc] [] :=
  (editsWhole_iff 1000 10000 (by decide) (by decide) [keyGa, .backspace .key, .esc]).2
    (by decide +kernel)

/-- The line takes 55 bytes on the smallest screen, and a nineteenth syllable is cut in it. -/
theorem not_editsWhole_ga : ¬ (start 1000 10000 30 100).EditsWhole
    (List.replicate 19 keyGa) [] := by
  obtain ⟨hr, hholds⟩ :=
    start_holds 1000 10000 (by decide : minWidth ≤ 100) (by decide : minHeight ≤ 30)
  rw [editsWhole_iff_admitsAll hr hholds]
  decide +kernel

end UiLoop

end UnderFlow
