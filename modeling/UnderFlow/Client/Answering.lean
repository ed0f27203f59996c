import UnderFlow.Client.Input
import UnderFlow.LTS.Run

/-!
# Answering a raid

A raided player types the passcode and presses Enter.  Which request that makes is decided by the
mode of the client at the Enter and by what has become of the line since the Esc.

* `typing_line` : what is in the line after some bytes were typed, whatever packets came in between.
* `panic_run` : the raid stands until the next packet that sets the mode.
* `answered_iff` : when the passcode is submitted.
* `not_answered` : a scoreboard after the raid turns the answer into a chat.
-/

namespace UnderFlow

namespace UiLoop

variable {s : UiLoop} {e : UiEvent} {q : Bytes} {es : List UiEvent}

/-! ### Typing -/

/-- The bytes `q` are typed, and only packets come in between. -/
inductive Typing : Bytes → List UiEvent → Prop
  | nil : Typing [] []
  | packet {q : Bytes} {es : List UiEvent} (pkt : UiPacket) :
    Typing q es → Typing q (es ++ [.packet pkt])
  | byte {q : Bytes} {es : List UiEvent} (b : UInt8) :
    Typing q es → Typing (q ++ [b]) (es ++ [.byte b])

/-- A code the loop takes as a byte of text. -/
def Typeable (b : UInt8) : Prop := 32 ≤ b ∧ b ≠ 127

instance (b : UInt8) : Decidable (Typeable b) := inferInstanceAs (Decidable (_ ∧ _))

/-- The event is a raid. -/
def isRaid : UiEvent → Bool
  | .packet (.policeRaid _ _) => true
  | _ => false

/-- No raid comes after the first byte. -/
def Unbroken (es : List UiEvent) : Prop :=
  Along (fun before e => isRaid e = true → ∀ b, UiEvent.byte b ∉ before) es

theorem Typing.byte_mem (h : Typing q es) : q ≠ [] ↔ ∃ b, UiEvent.byte b ∈ es := by
  induction h with
  | nil => simp
  | packet pkt _ ih => simpa using ih
  | byte b _ ih => simp

theorem unbroken_concat : Unbroken (es ++ [e]) ↔
    Unbroken es ∧ (isRaid e = true → ∀ b, UiEvent.byte b ∉ es) := along_concat

/-- Everything typed is taken into the line, and stays there. -/
structure Smooth (width : ℤ) (q : Bytes) (es : List UiEvent) : Prop where
  typeable : ∀ b ∈ q, Typeable b
  fits : q ≠ [] → q.length ≤ inputMax - 1 ∧ (q.length : ℤ) ≤ width - 45
  unbroken : Unbroken es

/-- A byte is appended to the line, or the line does not get longer. -/
theorem onByte_cases (h : s.Sound) (b : UInt8) :
    (Typeable b ∧ s.Fits ∧ (s.onByte b).1 = s.typeByte b) ∨
      (¬ (Typeable b ∧ s.Fits) ∧
        ((s.onByte b).1.running = true → (s.onByte b).1.len ≤ s.len)) := by
  by_cases htake : Typeable b ∧ s.Fits
  · have h127 : ¬ (b = 127 ∨ b = 8) := by
      rintro (rfl | rfl)
      · exact htake.1.2 rfl
      · exact absurd htake.1.1 (by decide)
    have h10 : b ≠ 10 := fun heq => absurd htake.1.1 (by rw [heq]; decide)
    have h27 : b ≠ 27 := fun heq => absurd htake.1.1 (by rw [heq]; decide)
    refine .inl ⟨htake.1, htake.2, ?_⟩
    rw [onByte, if_neg h10, if_neg h127, if_neg h27, if_pos htake.1.1]
  · refine .inr ⟨htake, ?_⟩
    unfold onByte
    split_ifs with h10 h127 h27 h32
    · rw [h.terminate_eq]
      rcases s.submit_cases with ⟨-, heq⟩ | ⟨-, -, heq⟩ | ⟨-, -, heq⟩ | ⟨-, -, -, heq⟩ <;> rw [heq]
      · exact fun hr => absurd hr (by simp)
      · exact fun _ => Nat.zero_le _
      · exact fun _ => Nat.zero_le _
      · rcases s.command_cases with ⟨reqs, heq⟩ | heq | heq <;> rw [heq]
        · exact fun _ => Nat.zero_le _
        · exact fun _ => Nat.zero_le _
        · exact fun hr => absurd hr (by simp)
    · have hle := s.erase_len_le
      exact fun _ => by show s.erase.len ≤ s.len; omega
    · exact fun _ => Nat.zero_le _
    · have hfits : ¬ s.Fits := fun hfits => htake ⟨⟨h32, fun heq => h127 (.inl heq)⟩, hfits⟩
      rw [typeByte_of_not_fits hfits]
      exact fun _ => le_rfl
    · exact fun _ => le_rfl

@[simp] theorem redraw_input (s : UiLoop) : s.redraw.input = s.input := by
  unfold redraw
  split_ifs <;> rfl

@[simp] theorem redraw_len (s : UiLoop) : s.redraw.len = s.len := by
  unfold redraw
  split_ifs <;> rfl

@[simp] theorem redraw_width (s : UiLoop) : s.redraw.width = s.width := by
  unfold redraw
  split_ifs <;> rfl

@[simp] theorem redraw_client (s : UiLoop) : s.redraw.client = s.client := by
  unfold redraw
  split_ifs <;> rfl

@[simp] theorem onResize_client (s : UiLoop) (height width : ℤ) :
    (s.onResize height width).client = s.client := by
  rcases hmode : s.client.mode with _ | _ | _ | _ <;> simp [onResize, clearLine, hmode]

@[simp] theorem onResize_width (s : UiLoop) (height width : ℤ) :
    (s.onResize height width).width = width := by
  rcases hmode : s.client.mode with _ | _ | _ | _ <;> simp [onResize, clearLine, hmode]

/-- Only a raid touches the line among the packets. -/
theorem onPacket_line (s : UiLoop) (pkt : UiPacket) :
    (isRaid (.packet pkt) = true ∧ (s.onPacket pkt).1.len = 0 ∧ (s.onPacket pkt).1.line = []) ∨
      (isRaid (.packet pkt) = false ∧ (s.onPacket pkt).1.len = s.len ∧
        (s.onPacket pkt).1.line = s.line) := by
  cases pkt with
  | policeRaid passcode limit => exact .inl ⟨rfl, rfl, line_clearLine _⟩
  | minigameOk => exact .inr ⟨rfl, by simp [onPacket], by simp [onPacket, line]⟩
  | gameOver message =>
    simp only [onPacket]
    refine .inr ⟨rfl, ?_⟩
    split_ifs
    · exact ⟨by simp, by simp [line]⟩
    · exact ⟨rfl, rfl⟩
  | _ => exact .inr ⟨rfl, rfl, rfl⟩

theorem width_step (h : s.Sound) (he : ∀ height width, e ≠ .resize height width) :
    (s.step e).1.width = s.width := by
  unfold step
  split_ifs
  · cases e with
    | packet pkt =>
      cases pkt with
      | gameOver message =>
        simp only [onPacket]
        split_ifs <;> simp
      | minigameOk => simp [onPacket]
      | _ => rfl
    | byte b =>
      simp only [onByte]
      split_ifs
      · rw [h.terminate_eq]
        rcases s.submit_cases with ⟨-, heq⟩ | ⟨-, -, heq⟩ | ⟨-, -, heq⟩ | ⟨-, -, -, heq⟩ <;>
          rw [heq]
        · rfl
        · rfl
        · rcases s.command_cases with ⟨reqs, heq⟩ | heq | heq <;> rw [heq]
          · rfl
          · simp [clearLine]
      · unfold erase
        split_ifs <;> rfl
      · rfl
      · unfold typeByte
        split_ifs <;> rfl
      · rfl
    | backspace =>
      simp only [erase]
      split_ifs <;> rfl
    | resize height width => exact absurd rfl (he height width)
    | functionKey => rfl
  · rfl

/-- The width of the screen after the events, if it was `width` before. -/
def screenWidth (width : ℤ) (es : List UiEvent) : ℤ :=
  es.foldl (fun width e => match e with | .resize _ width => width | _ => width) width

theorem screenWidth_append (width : ℤ) (es es' : List UiEvent) :
    screenWidth width (es ++ es') = screenWidth (screenWidth width es) es' := List.foldl_append

theorem width_run (h : s.Sound) (hr : (s.run es).running = true) :
    (s.run es).width = screenWidth s.width es := by
  induction es using List.reverseRecOn with
  | nil => rfl
  | append_singleton es e ih =>
    rw [run_concat] at hr ⊢
    have hbefore := running_of_step hr
    rw [screenWidth_append, ← ih hbefore]
    cases e with
    | resize height width =>
      rw [step, if_pos hbefore]
      exact onResize_width _ _ _
    | packet pkt | byte b | backspace | functionKey =>
      exact width_step (h.run es) (by rintro _ _ ⟨⟩)

theorem Typing.width_run (h : Typing q es) (hs : s.Sound) : (s.run es).width = s.width := by
  induction h with
  | nil => rfl
  | packet pkt _ ih | byte b _ ih =>
    rw [run_concat, width_step (hs.run _) (by rintro _ _ ⟨⟩), ih]

theorem smooth_nil (width : ℤ) : Smooth width [] [] where
  typeable := nofun
  fits h := absurd rfl h
  unbroken := along_nil

theorem smooth_packet {width : ℤ} (ht : Typing q es) (pkt : UiPacket) :
    Smooth width q (es ++ [.packet pkt]) ↔
      Smooth width q es ∧ (isRaid (.packet pkt) = true → q = []) := by
  have hbyte : q = [] ↔ ∀ b, UiEvent.byte b ∉ es := by
    have hmem := ht.byte_mem
    constructor
    · exact fun hq b hb => hmem.2 ⟨b, hb⟩ hq
    · intro hno
      by_contra hq
      obtain ⟨b, hb⟩ := hmem.1 hq
      exact hno b hb
  constructor
  · rintro ⟨htypeable, hfits, hunbroken⟩
    obtain ⟨hbefore, hlast⟩ := unbroken_concat.1 hunbroken
    exact ⟨⟨htypeable, hfits, hbefore⟩, fun hraid => hbyte.2 (hlast hraid)⟩
  · rintro ⟨⟨htypeable, hfits, hbefore⟩, hlast⟩
    exact ⟨htypeable, hfits, unbroken_concat.2 ⟨hbefore, fun hraid => hbyte.1 (hlast hraid)⟩⟩

theorem smooth_byte {width : ℤ} (b : UInt8) :
    Smooth width (q ++ [b]) (es ++ [.byte b]) ↔
      Smooth width q es ∧ Typeable b ∧ q.length < inputMax - 1 ∧ (q.length : ℤ) < width - 45 := by
  constructor
  · rintro ⟨htypeable, hfits, hunbroken⟩
    obtain ⟨hroom, hwide⟩ := hfits (by simp)
    rw [List.length_append, List.length_singleton] at hroom hwide
    refine ⟨⟨fun c hc => htypeable c (List.mem_append_left _ hc), fun _ => ⟨by omega, by omega⟩,
      (unbroken_concat.1 hunbroken).1⟩, htypeable b (by simp), by omega, by omega⟩
  · rintro ⟨⟨htypeable, -, hunbroken⟩, hb, hroom, hwide⟩
    refine ⟨fun c hc => ?_, fun _ => ?_, unbroken_concat.2 ⟨hunbroken, nofun⟩⟩
    · rcases List.mem_append.1 hc with hc | hc
      · exact htypeable c hc
      · rwa [List.mem_singleton.1 hc]
    · rw [List.length_append, List.length_singleton]
      exact ⟨by omega, by omega⟩

/-- What the line holds after the bytes `q` were typed into an empty line. -/
structure Typed (width : ℤ) (q : Bytes) (es : List UiEvent) (s : UiLoop) : Prop where
  len_le : s.len ≤ q.length
  /-- A line of full length holds what was typed. -/
  line_eq : s.len = q.length → s.line = q
  smooth_iff : s.len = q.length ↔ Smooth width q es

/-- **Typing a line**, whatever packets come in between. -/
theorem typing_line (hs : s.Sound) (h0 : s.len = 0) (ht : Typing q es)
    (hr : (s.run es).running = true) : Typed s.width q es (s.run es) := by
  induction ht with
  | nil =>
    have hline : s.line = [] := List.eq_nil_of_length_eq_zero (hs.line_length.trans h0)
    exact ⟨h0.le, fun _ => hline, fun _ => smooth_nil _, fun _ => h0⟩
  | @packet q es pkt ht ih =>
    rw [run_concat] at hr ⊢
    have hbefore := running_of_step hr
    obtain ⟨hle, hline, hsmooth⟩ := ih hbefore
    rw [show (s.run es).step (.packet pkt) = (s.run es).onPacket pkt from if_pos hbefore]
    rcases (s.run es).onPacket_line pkt with ⟨hraid, hlen, hnil⟩ | ⟨hraid, hlen, hkept⟩
    · -- a raid leaves an empty line, which is right only if nothing was typed
      refine ⟨by omega, fun heq => ?_, ?_⟩
      · rw [hnil, List.eq_nil_of_length_eq_zero (heq.symm.trans hlen)]
      · rw [smooth_packet ht, ← hsmooth, hlen]
        constructor
        · intro heq
          exact ⟨by omega, fun _ => List.eq_nil_of_length_eq_zero heq.symm⟩
        · rintro ⟨-, hq⟩
          rw [hq hraid, List.length_nil]
    · refine ⟨by omega, fun heq => hkept.trans (hline (by omega)), ?_⟩
      rw [smooth_packet ht, ← hsmooth, hlen, hraid]
      simp
  | @byte q es b ht ih =>
    rw [run_concat] at hr ⊢
    have hbefore := running_of_step hr
    obtain ⟨hle, hline, hsmooth⟩ := ih hbefore
    have hsound := hs.run es
    have hwidth := ht.width_run hs
    rw [show (s.run es).step (.byte b) = (s.run es).onByte b from if_pos hbefore] at hr ⊢
    have hlength : (q ++ [b]).length = q.length + 1 := by simp
    rcases onByte_cases hsound b with ⟨hb, hfits, heq⟩ | ⟨hnot, hlen⟩
    · have hb0 : b ≠ 0 := by
        rintro rfl
        exact absurd hb.1 (by decide)
      have htyped := line_typeByte hsound hb0 hfits
      have hlen : ((s.run es).typeByte b).len = (s.run es).len + 1 := by
        unfold typeByte
        rw [if_pos ⟨hfits.1, hfits.2⟩]
      rw [heq]
      refine ⟨by omega, fun hfull => ?_, ?_⟩
      · rw [htyped, hline (by omega)]
      · rw [smooth_byte, ← hsmooth, hlen, ← hwidth]
        constructor
        · intro hfull
          have hfull : (s.run es).len = q.length := by omega
          rw [← hfull]
          exact ⟨rfl, hb, hfits⟩
        · exact fun hall => by omega
    · have hlt := hlen hr
      refine ⟨by omega, fun hfull => by omega, fun hfull => by omega, fun hall => ?_⟩
      rw [smooth_byte, ← hsmooth, ← hwidth] at hall
      obtain ⟨hfull, hb, hfits⟩ := hall
      rw [← hfull] at hfits
      exact absurd ⟨hb, hfits⟩ hnot

/-! ### The mode -/

/-- Whether the event puts the client into a raid, or out of one. -/
def setsPanic : UiEvent → Option Bool
  | .packet (.policeRaid _ _) => some true
  | .packet (.scoreboard _ _ _ _ _) => some false
  | .packet (.gameOver message) => if roundResetMark.isPrefixOf message then some false else none
  | _ => none

/-- Whether a client is in a raid after the events, if it was before (`b`); the packet that accepts
an answer is not looked at. -/
def raidStands (b : Bool) (es : List UiEvent) : Bool :=
  es.foldl (fun b e => (setsPanic e).getD b) b

theorem raidStands_append (b : Bool) (es es' : List UiEvent) :
    raidStands b (es ++ es') = raidStands (raidStands b es) es' := List.foldl_append

theorem panic_onByte (h : s.Sound) (b : UInt8) (hr : (s.onByte b).1.running = true) :
    (s.onByte b).1.client.mode = .panic ↔ s.client.mode = .panic := by
  revert hr
  unfold onByte
  split_ifs
  · rw [h.terminate_eq]
    rcases s.submit_cases with ⟨-, heq⟩ | ⟨-, -, heq⟩ | ⟨-, -, heq⟩ | ⟨-, hmode, -, heq⟩ <;>
      rw [heq]
    · exact fun hr => absurd hr (by simp)
    · exact fun _ => Iff.rfl
    · exact fun _ => Iff.rfl
    · rcases s.command_cases with ⟨reqs, heq⟩ | heq | heq <;> rw [heq]
      · exact fun _ => Iff.rfl
      · simp [clearLine, hmode]
      · exact fun hr => absurd hr (by simp)
  · unfold erase
    split_ifs <;> exact fun _ => Iff.rfl
  · exact fun _ => Iff.rfl
  · unfold typeByte
    split_ifs <;> exact fun _ => Iff.rfl
  · exact fun _ => Iff.rfl

theorem panic_onPacket (h : s.client.mode ≠ .gameOver) {pkt : UiPacket} (hok : pkt ≠ .minigameOk)
    (hr : (s.onPacket pkt).1.running = true) :
    decide ((s.onPacket pkt).1.client.mode = .panic) =
      (setsPanic (.packet pkt)).getD (decide (s.client.mode = .panic)) := by
  cases pkt with
  | minigameOk => exact absurd rfl hok
  | victory => exact absurd hr (by simp [onPacket])
  | gameOver message =>
    simp only [onPacket, setsPanic] at hr ⊢
    by_cases hmark : roundResetMark.isPrefixOf message = true
    · simp [hmark, UiClient.receive, h]
    · simp [hmark] at hr
  | _ => simp [onPacket, setsPanic, UiClient.receive, h, clearLine]

/-- One pass that is not the acceptance of an answer. -/
theorem panic_step (h : s.Sound) (hok : e ≠ .packet .minigameOk)
    (hr : (s.step e).1.running = true) :
    decide ((s.step e).1.client.mode = .panic) =
      (setsPanic e).getD (decide (s.client.mode = .panic)) := by
  have hs := running_of_step hr
  unfold step at hr ⊢
  rw [if_pos hs] at hr ⊢
  cases e with
  | packet pkt => exact panic_onPacket (h.playing hs) (by rintro rfl; exact hok rfl) hr
  | byte b => simp only [setsPanic, Option.getD_none, panic_onByte h b hr]
  | backspace =>
    simp only [setsPanic, Option.getD_none, erase]
    split_ifs <;> rfl
  | resize height width =>
    simp only [setsPanic, Option.getD_none, onResize_client]
  | functionKey => rfl

/-- **The raid stands** until the next packet that sets the mode. -/
theorem panic_run (h : s.Sound) (hok : .packet .minigameOk ∉ es) (hr : (s.run es).running = true) :
    decide ((s.run es).client.mode = .panic) =
      raidStands (decide (s.client.mode = .panic)) es := by
  induction es using List.reverseRecOn with
  | nil => rfl
  | append_singleton es e ih =>
    rw [run_concat] at hr ⊢
    rw [List.mem_append, List.mem_singleton, not_or] at hok
    rw [panic_step (h.run es) (fun heq => hok.2 heq.symm) hr, ih hok.1 (running_of_step hr),
      raidStands_append]
    rfl

/-! ### The answer to a raid -/

/-- The client when the answer is entered: a raid, whatever happens then, an Esc and the typing. -/
def atEnter (s : UiLoop) (passcode : Bytes) (limit : ℤ) (mid typed : List UiEvent) : UiLoop :=
  s.run (.packet (.policeRaid passcode limit) :: mid ++ .byte 27 :: typed)

/-- The Enter key sends exactly the passcode. -/
def Answered (s : UiLoop) (passcode : Bytes) : Prop :=
  (s.step (.byte 10)).2 = [.minigameSubmit (cstr maxTextLen passcode)]

/-- Nothing takes the raid or the line from the player. -/
structure Unhindered (width : ℤ) (passcode : Bytes) (mid typed : List UiEvent) : Prop where
  /-- No scoreboard or round reset comes after the last raid. -/
  stands : raidStands true (mid ++ typed) = true
  /-- The passcode can be typed, and no raid comes after its first byte. -/
  smooth : Smooth width (cstr maxTextLen passcode) typed
  notQuit : cstr maxTextLen passcode ≠ utf8 "/quit"

/-- What an Enter sends. -/
theorem answered_iff_mode {passcode : Bytes} (h : s.Sound) (hr : s.running = true) :
    Answered s passcode ↔
      s.client.mode = .panic ∧ s.line ≠ utf8 "/quit" ∧ s.line = cstr maxTextLen passcode := by
  have hstep : s.step (.byte 10) = s.submit := by
    rw [step, if_pos hr]
    simp only [onByte, ↓reduceIte, h.terminate_eq]
  rw [Answered, hstep]
  rcases s.submit_cases with ⟨hquit, heq⟩ | ⟨hquit, hmode, heq⟩ | ⟨hquit, hmode, heq⟩ |
    ⟨hquit, hmode, -, heq⟩ <;> rw [heq]
  · simp [hquit]
  · simp [hmode, hquit, h.cstr_line]
  · simp only [hmode]
    split_ifs <;> simp
  · simp only [hmode, false_and, iff_false]
    unfold command
    split_ifs <;> try simp
    unfold request
    split_ifs <;> simp [sellRequest]

theorem step_esc (h : s.running = true) : s.step (.byte 27) = (s.clearLine, []) := if_pos h

theorem Sound.atEnter (h : s.Sound) (passcode : Bytes) (limit : ℤ) (mid typed : List UiEvent) :
    (s.atEnter passcode limit mid typed).Sound := h.run _

/-- The raid stands at the Enter if no other packet has taken the mode since. -/
theorem panic_atEnter {passcode : Bytes} {limit : ℤ} {mid typed : List UiEvent} (h : s.Sound)
    (hok : .packet .minigameOk ∉ mid ++ typed)
    (hr : (s.atEnter passcode limit mid typed).running = true) :
    (s.atEnter passcode limit mid typed).client.mode = .panic ↔
    raidStands true (mid ++ typed) = true := by
  have hrun : s.running = true := running_of_run hr
  have hraid : decide ((s.step (.packet (.policeRaid passcode limit))).1.client.mode = .panic) =
    true := by
    rw [step, if_pos hrun]
    simp [onPacket, clearLine, UiClient.receive, h.playing hrun]
  have hsplit : s.atEnter passcode limit mid typed =
      (s.step (.packet (.policeRaid passcode limit))).1.run (mid ++ .byte 27 :: typed) := rfl
  rw [hsplit] at hr ⊢
  have hstands := panic_run (h.step _) (by simpa using hok) hr
  rw [hraid] at hstands
  refine decide_eq_true_iff.symm.trans ?_
  rw [hstands, raidStands_append, raidStands_append]
  rfl

/-- The line at the Enter is the passcode if nothing has broken the typing. -/
theorem line_atEnter {passcode q : Bytes} {limit : ℤ} {mid typed : List UiEvent} (h : s.Sound)
    (ht : Typing q typed) (hr : (s.atEnter passcode limit mid typed).running = true) :
    (s.atEnter passcode limit mid typed).line = q ↔ Smooth (screenWidth s.width mid) q typed := by
  have hsplit : s.atEnter passcode limit mid typed =
      (((s.step (.packet (.policeRaid passcode limit))).1.run mid).step (.byte 27)).1.run
        typed := by
    rw [atEnter, run_append]
    rfl
  have hline := h.atEnter passcode limit mid typed
  rw [hsplit] at hline hr ⊢
  have hmid := running_of_step (running_of_run hr)
  have hsound := (h.step (.packet (.policeRaid passcode limit))).run mid
  rw [step_esc hmid] at hline hr ⊢
  have htyped := typing_line hsound.clearLine rfl ht hr
  have hwidth : ((s.step (.packet (.policeRaid passcode limit))).1.run mid).clearLine.width =
      screenWidth s.width mid := by
    show ((s.step (.packet (.policeRaid passcode limit))).1.run mid).width = _
    rw [width_run (h.step _) hmid, width_step h (by rintro _ _ ⟨⟩)]
  rw [hwidth] at htyped
  rw [← htyped.smooth_iff]
  constructor
  · intro heq
    rw [← hline.line_length, heq]
  · exact htyped.line_eq

/-- **When a raided player's answer is sent.**  At any time before an answer is accepted, by a
client that still runs, the passcode that is typed after an Esc and entered is submitted if and only
if nothing has taken the raid or the line from the player. -/
theorem answered_iff {money goal height width limit : ℤ} {before mid typed : List UiEvent}
    {passcode : Bytes} (ht : Typing (cstr maxTextLen passcode) typed)
    (hok : .packet .minigameOk ∉ mid ++ typed)
    (hr : (((start money goal height width).run before).atEnter passcode limit mid typed).running =
      true) :
    Answered (((start money goal height width).run before).atEnter passcode limit mid typed)
      passcode ↔ Unhindered (screenWidth width (before ++ mid)) passcode mid typed := by
  have hsound := (sound_start money goal height width).run before
  have hwidth : ((start money goal height width).run before).width = screenWidth width before := by
    rw [width_run (sound_start ..) (running_of_run hr), start, redraw_width]
  have hmode := panic_atEnter hsound hok hr
  have hline := line_atEnter hsound ht hr
  rw [hwidth, ← screenWidth_append] at hline
  rw [answered_iff_mode (hsound.atEnter ..) hr]
  constructor
  · rintro ⟨hpanic, hquit, heq⟩
    exact ⟨hmode.1 hpanic, hline.1 heq, heq ▸ hquit⟩
  · rintro ⟨hstands, hsmooth, hquit⟩
    have heq := hline.2 hsmooth
    exact ⟨hmode.2 hstands, by rwa [heq], heq⟩

/-- Typing without an interruption. -/
theorem typing_map (q : Bytes) : Typing q (q.map .byte) := by
  induction q using List.reverseRecOn with
  | nil => exact .nil
  | append_singleton q b ih =>
    rw [List.map_append]
    exact .byte b ih

/-- A raid, and then the events, in a client that has just started. -/
def raidedClient (mid typed : List UiEvent) : UiLoop :=
  ((start 1000 10000 40 120).run []).atEnter (utf8 "PURGE") 15 mid typed

instance (s : UiLoop) (passcode : Bytes) : Decidable (Answered s passcode) :=
  inferInstanceAs (Decidable (_ = _))

theorem typing_purge :
    Typing (cstr maxTextLen (utf8 "PURGE")) ((utf8 "PURGE").map .byte) := by
  rw [show cstr maxTextLen (utf8 "PURGE") = utf8 "PURGE" by decide +kernel]
  exact typing_map _

/-- A chat comes in between, and the answer is sent. -/
theorem answered_purge :
    Answered (raidedClient [.packet (.chat [] [])] ((utf8 "PURGE").map .byte)) (utf8 "PURGE") ∧
      (Answered (raidedClient [.packet (.chat [] [])] ((utf8 "PURGE").map .byte)) (utf8 "PURGE") ↔
        Unhindered (screenWidth 120 [.packet (.chat [] [])]) (utf8 "PURGE") [.packet (.chat [] [])]
          ((utf8 "PURGE").map .byte)) :=
  ⟨by decide +kernel, answered_iff typing_purge (by simp) (by decide +kernel)⟩

/-- **A scoreboard after the raid** makes a chat of the answer. -/
theorem not_answered : ∃ mid typed, Typing (cstr maxTextLen (utf8 "PURGE")) typed ∧
    .packet .minigameOk ∉ mid ++ typed ∧ (raidedClient mid typed).running = true ∧
    ((raidedClient mid typed).step (.byte 10)).2 = [.chat (utf8 "PURGE")] ∧
    ¬ Answered (raidedClient mid typed) (utf8 "PURGE") := by
  refine ⟨[.packet (.scoreboard 10 0 (padTo _ ⟨Key.empty, 0, 0⟩ []) 0 (padTo _ ⟨Key.empty, 0⟩ []))],
    (utf8 "PURGE").map .byte, typing_purge, by simp, ?_, ?_, ?_⟩ <;>
  decide +kernel

end UiLoop

end UnderFlow
