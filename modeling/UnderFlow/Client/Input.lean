import UnderFlow.Client.Board
import Mathlib.Data.List.Induction

/-!
# The input line

The main loop of `ui_client.c` with the line the player types: every pass of the loop takes one
code of `wgetch` or, when there is none, one packet (`UiEvent`), and says what is sent to the
server.  The countdowns and animations on the screen are left out.

* `UiLoop.step` : one pass of the loop.
* `UiLoop.Sound` : the line is a C string of `len` bytes, and a client that has left the game has
  left the loop; every pass keeps it.
* `UiLoop.typing_line` : what is in the line after some bytes were typed, whatever packets came
  in between.
-/

namespace UnderFlow

/-- `INPUT_MAX`: the size of the input buffer. -/
def inputMax : ℕ := 256
/-- `MIN_WIDTH`: the columns the screen needs. -/
def minWidth : ℤ := 100
/-- `MIN_HEIGHT`: the rows the screen needs. -/
def minHeight : ℤ := 30

/-! ### Words of a line -/

/-- The tokens of `strtok` with a blank as the only delimiter. -/
def words (s : Bytes) : List Bytes := (s.splitOn 32).filter (· ≠ [])

/-! ### The loop -/

/-- What a pass of the loop takes. -/
inductive UiEvent where
  | packet (pkt : UiPacket)
  /-- A code below 256. -/
  | byte (b : UInt8)
  /-- `KEY_BACKSPACE` -/
  | backspace
  /-- `KEY_RESIZE`, with the new size of the screen. -/
  | resize (height width : ℤ)
  /-- Any other code above 255. -/
  | functionKey

/-- The client in its main loop, with its input line. -/
structure UiLoop where
  /-- What packets have made of the client. -/
  client : UiClient
  /-- The input buffer. -/
  input : Vector UInt8 inputMax := Vector.replicate _ 0
  /-- How much of the buffer is typed. -/
  len : ℕ := 0
  /-- The passcode the player is shown in a raid. -/
  panicPasscode : Bytes := utf8 "PURGE"
  /-- The rows of the screen. -/
  height : ℤ
  /-- The columns of the screen. -/
  width : ℤ
  /-- The loop goes on. -/
  running : Bool := true

namespace UiLoop

variable (s : UiLoop)

/-- The input line as a C string. -/
def line : Bytes := s.input.toList.takeWhile (· ≠ 0)

/-- `len = 0; memset(input, 0, sizeof(input))` -/
def clearLine : UiLoop := { s with input := Vector.replicate _ 0, len := 0 }

/-- `redraw`, which exits when the screen is too small. -/
def redraw : UiLoop :=
  if s.width < minWidth ∨ s.height < minHeight then { s with running := false } else s

/-- The last index up to `n`, from 1 on, that does not hold a continuation byte of UTF-8. -/
def charStart (input : Vector UInt8 inputMax) : ℕ → ℕ
  | 0 => 0
  | n + 1 => if (input[n + 1]?.getD 0) &&& 0xC0 = 0x80 then charStart input n else n + 1

/-- Backspace: the last byte goes, and with a continuation byte all of its character. -/
def erase : UiLoop :=
  if 0 < s.len then
    let n := charStart s.input (s.len - 1)
    { s with input := s.input.setIfInBounds n 0, len := n }
  else s

/-- A byte of text. -/
def typeByte (b : UInt8) : UiLoop :=
  if s.len < inputMax - 1 ∧ (s.len : ℤ) < s.width - 45 then
    { s with
      input := (s.input.setIfInBounds s.len b).setIfInBounds (s.len + 1) 0
      len := s.len + 1 }
  else s

/-- `/sell <npc> <doc> …` -/
def sellRequest (args : Bytes) : Request :=
  let tokens := (words args).map atoi
  let docs := tokens.tail.take maxInvenSize
  .sell (tokens.headD 0) docs.length (padTo _ 0 docs)

/-- The request a line stands for. -/
def request (line : Bytes) : Request :=
  if (utf8 "/buy ").isPrefixOf line then .buy (atoi (line.drop 5))
  else if (utf8 "/dispose ").isPrefixOf line then .dispose (atoi (line.drop 9))
  else if line = utf8 "/inventory" ∨ line = utf8 "/inv" then .inven
  else if (utf8 "/rumor ").isPrefixOf line then .rumor (Key.ofBytes (line.drop 7))
  else if (utf8 "/sell ").isPrefixOf line then sellRequest (line.drop 6)
  else .chat (cstr maxTextLen line)

/-- A line in the normal mode. -/
def command : UiLoop × List Request :=
  if s.line = utf8 "/fake rumor" then (s.clearLine, [])
  else if s.line = utf8 "/fake raid" then (s.clearLine, [.triggerRaid])
  else if s.line = utf8 "/fake leak" then (s.clearLine, [.triggerLeak])
  else if s.line = utf8 "/fake rich" then (s.clearLine, [.triggerRich])
  else if s.line = utf8 "/fake endround" then (s.clearLine, [.triggerEndround])
  else if s.line = utf8 "/fake ok" then
    ({ s with client := { s.client with mode := .normal } }.redraw.clearLine, [])
  else if s.line = utf8 "/fake over" then
    ({ s with client := { s.client with mode := .gameOver }, running := false }, [])
  else (s.clearLine, [request s.line])

/-- `input[len] = '\0'` -/
def terminate : UiLoop := { s with input := s.input.setIfInBounds s.len 0 }

/-- The line is entered. -/
def submit : UiLoop × List Request :=
  if s.line = utf8 "/quit" then ({ s with running := false }, [])
  else
    match s.client.mode with
    | .panic => (s.clearLine, [.minigameSubmit (cstr maxTextLen s.line)])
    | .roundEnd =>
      -- game commands are locked, only chats are sent
      (s.clearLine,
        if s.line.head? = some 47 ∨ s.len = 0 then [] else [.chat (cstr maxTextLen s.line)])
    | _ => s.command

/-- A code of one byte. -/
def onByte (b : UInt8) : UiLoop × List Request :=
  if b = 10 then s.terminate.submit
  else if b = 127 ∨ b = 8 then (s.erase, [])
  else if b = 27 then (s.clearLine, [])
  else if 32 ≤ b then (s.typeByte b, [])
  else (s, [])

/-- `KEY_RESIZE`; the panic box is drawn on a screen of any size. -/
def onResize (height width : ℤ) : UiLoop :=
  let s := { s with height := height, width := width }.clearLine
  match s.client.mode with
  | .normal | .roundEnd => s.redraw
  | _ => s

/-- A packet, and the requests it makes the client send. -/
def onPacket (pkt : UiPacket) : UiLoop × List Request :=
  let s' := { s with client := s.client.receive pkt }
  match pkt with
  | .policeRaid passcode _ => ({ s' with panicPasscode := cstr maxTextLen passcode }.clearLine, [])
  | .minigameOk => (s'.redraw, [])
  | .gameOver message =>
    if roundResetMark.isPrefixOf message then (s'.redraw, [])
    else ({ s' with running := false }, [])
  | .victory _ => ({ s' with running := false }, [])
  | .buyOk _ _ _ | .sellOk _ _ | .disposeOk => (s', [.inven])
  | _ => (s', [])

/-- One pass of the loop; a client that has left the loop takes nothing more. -/
def step (e : UiEvent) : UiLoop × List Request :=
  if s.running then
    match e with
    | .packet pkt => s.onPacket pkt
    | .byte b => s.onByte b
    | .backspace => (s.erase, [])
    | .resize height width => (s.onResize height width, [])
    | .functionKey => (s, [])
  else (s, [])

/-- The client after some passes. -/
def run (events : List UiEvent) : UiLoop := events.foldl (fun s e => (s.step e).1) s

/-- What the client sends in some passes. -/
def sends : UiLoop → List UiEvent → List Request
  | _, [] => []
  | s, e :: events => (s.step e).2 ++ sends (s.step e).1 events

end UiLoop

/-- The client at the start of the loop: its screen has at least the minimum size. -/
def UiLoop.start (money goal height width : ℤ) : UiLoop :=
  { client := .start money goal, height := height, width := width : UiLoop }.redraw

namespace UiLoop

variable {s : UiLoop} {e : UiEvent} {events : List UiEvent}

@[simp] theorem run_nil (s : UiLoop) : s.run [] = s := rfl

theorem run_append (s : UiLoop) (es es' : List UiEvent) : s.run (es ++ es') = (s.run es).run es' :=
  List.foldl_append

theorem run_concat (s : UiLoop) (es : List UiEvent) (e : UiEvent) :
    s.run (es ++ [e]) = ((s.run es).step e).1 := by
  rw [run_append]
  rfl

theorem sends_append (s : UiLoop) (es es' : List UiEvent) :
    s.sends (es ++ es') = s.sends es ++ (s.run es).sends es' := by
  induction es generalizing s with
  | nil => rfl
  | cons e es ih =>
    rw [List.cons_append, sends, sends, ih, List.append_assoc]
    rfl

theorem step_of_not_running (h : s.running = false) (e : UiEvent) : s.step e = (s, []) := by
  simp [step, h]

/-- Who runs after some passes ran before them. -/
theorem running_of_step (h : (s.step e).1.running = true) : s.running = true := by
  by_contra hs
  rw [step_of_not_running (by simpa using hs)] at h
  exact hs h

theorem running_of_run (h : (s.run events).running = true) : s.running = true := by
  induction events using List.reverseRecOn with
  | nil => exact h
  | append_singleton events e ih =>
    rw [run_concat] at h
    exact ih (running_of_step h)

/-! ### The line -/

/-- The line is a C string of `len` bytes, and who runs has not left the game. -/
structure Sound (s : UiLoop) : Prop where
  len_lt : s.len < inputMax
  nul : s.input.toList[s.len]? = some 0
  full : ∀ i < s.len, s.input.toList[i]? ≠ some 0
  playing : s.running = true → s.client.mode ≠ .gameOver

theorem takeWhile_eq_take {l : Bytes} {n : ℕ} (hn : l[n]? = some 0)
    (hlt : ∀ i < n, l[i]? ≠ some 0) : l.takeWhile (· ≠ 0) = l.take n := by
  induction l generalizing n with
  | nil => cases hn
  | cons b l ih =>
    cases n with
    | zero =>
      obtain rfl : b = 0 := by simpa using hn
      simp
    | succ n =>
      have hb : b ≠ 0 := by simpa using hlt 0 (Nat.succ_pos n)
      rw [List.takeWhile_cons_of_pos (by simpa using hb), List.take_succ_cons,
        ih (by simpa using hn) fun i hi => by simpa using hlt (i + 1) (Nat.succ_lt_succ hi)]

theorem Sound.line_eq (h : s.Sound) : s.line = s.input.toList.take s.len :=
  takeWhile_eq_take h.nul h.full

theorem Sound.line_length (h : s.Sound) : s.line.length = s.len := by
  have hlt := h.len_lt
  rw [h.line_eq, List.length_take, Vector.length_toList]
  omega

theorem noNul (s : UiLoop) : ∀ b ∈ s.line, b ≠ 0 := fun b hb => by
  simpa using List.mem_takeWhile_imp hb

/-- What is copied of the line into a packet is the line. -/
theorem Sound.cstr_line (h : s.Sound) : cstr maxTextLen s.line = s.line := by
  have hlt := h.len_lt
  rw [cstr, List.takeWhile_eq_self_iff.2 (by simpa using s.noNul), List.take_of_length_le]
  rw [h.line_length]
  exact Nat.le_pred_of_lt hlt

/-- Soundness looks at the line, the mode and whether the loop runs. -/
theorem Sound.of_line {s' : UiLoop} (h : s.Sound) (hinput : s'.input = s.input)
    (hlen : s'.len = s.len) (hplays : s'.running = true → s'.client.mode ≠ .gameOver) :
    s'.Sound := by
  refine ⟨?_, ?_, ?_, hplays⟩
  · rw [hlen]
    exact h.len_lt
  · rw [hinput, hlen]
    exact h.nul
  · rw [hinput, hlen]
    exact h.full

theorem sound_clearLine (h : s.running = true → s.client.mode ≠ .gameOver) :
    s.clearLine.Sound where
  len_lt := by simp [clearLine, inputMax]
  nul := by
    show (Vector.replicate inputMax (0 : UInt8)).toList[0]? = some 0
    rw [Vector.toList_replicate, List.getElem?_replicate, if_pos (by decide)]
  full i hi := absurd hi (Nat.not_lt_zero i)
  playing := h

@[simp] theorem line_clearLine (s : UiLoop) : s.clearLine.line = [] := by
  rw [line, clearLine, Vector.toList_replicate]
  rfl

theorem Sound.terminate_eq (h : s.Sound) : s.terminate = s := by
  have hset : s.input.setIfInBounds s.len 0 = s.input := by
    apply Vector.toList_inj.1
    obtain ⟨hlt, heq⟩ := List.getElem?_eq_some_iff.1 h.nul
    have hself := List.set_getElem_self hlt
    rw [heq] at hself
    rw [Vector.toList_setIfInBounds, hself]
  rw [terminate, hset]

theorem charStart_le (input : Vector UInt8 inputMax) (n : ℕ) : charStart input n ≤ n := by
  induction n with
  | zero => exact le_rfl
  | succ n ih =>
    unfold charStart
    split_ifs
    · exact ih.trans n.le_succ
    · exact le_rfl

theorem Sound.erase (h : s.Sound) : s.erase.Sound := by
  unfold UiLoop.erase
  split_ifs with hpos
  · have hle := charStart_le s.input (s.len - 1)
    have hlt := h.len_lt
    refine ⟨?_, ?_, fun i hi => ?_, h.playing⟩
    · show charStart s.input (s.len - 1) < inputMax
      omega
    · simp only [Vector.toList_setIfInBounds]
      rw [List.getElem?_set_self (by rw [Vector.length_toList]; omega)]
    · simp only [Vector.toList_setIfInBounds]
      have hne : charStart s.input (s.len - 1) ≠ i := Nat.ne_of_gt hi
      rw [List.getElem?_set_ne hne]
      exact h.full i (by change i < charStart s.input (s.len - 1) at hi; omega)
  · exact h

theorem erase_len_le (s : UiLoop) : s.erase.len ≤ s.len - 1 := by
  unfold UiLoop.erase
  split_ifs with hpos
  · exact charStart_le _ _
  · omega

/-- There is room for one more byte, in the buffer and on the screen. -/
def Fits (s : UiLoop) : Prop := s.len < inputMax - 1 ∧ (s.len : ℤ) < s.width - 45

instance : Decidable s.Fits := inferInstanceAs (Decidable (_ ∧ _))

theorem Sound.typeByte {b : UInt8} (h : s.Sound) (hb : b ≠ 0) : (s.typeByte b).Sound := by
  unfold UiLoop.typeByte
  split_ifs with hfits
  · have hroom : s.len + 1 < inputMax := Nat.add_lt_of_lt_sub hfits.1
    have hlen : s.input.toList.length = inputMax := Vector.length_toList
    refine ⟨hroom, ?_, fun i hi => ?_, h.playing⟩
    · simp only [Vector.toList_setIfInBounds]
      rw [List.getElem?_set_self (by rw [List.length_set]; omega)]
    · simp only [Vector.toList_setIfInBounds]
      change i < s.len + 1 at hi
      rw [List.getElem?_set_ne (by omega)]
      by_cases heq : s.len = i
      · subst heq
        rw [List.getElem?_set_self (by omega)]
        simpa using hb
      · rw [List.getElem?_set_ne heq]
        exact h.full i (by omega)
  · exact h

theorem line_typeByte {b : UInt8} (h : s.Sound) (hb : b ≠ 0) (hfits : s.Fits) :
    (s.typeByte b).line = s.line ++ [b] := by
  have hsound := h.typeByte hb
  have hlen : s.input.toList.length = inputMax := Vector.length_toList
  have hroom : s.len + 1 < inputMax := Nat.add_lt_of_lt_sub hfits.1
  rw [hsound.line_eq, h.line_eq]
  simp only [UiLoop.typeByte, hfits.1, hfits.2, and_self, ↓reduceIte,
    Vector.toList_setIfInBounds]
  rw [List.take_set_of_le (le_refl _), List.take_add_one, List.take_set_of_le (le_refl _),
    List.getElem?_set_self (by omega)]
  rfl

theorem typeByte_of_not_fits {b : UInt8} (hfits : ¬ s.Fits) : s.typeByte b = s := if_neg hfits

/-! ### Every pass keeps the line sound -/

theorem Sound.redraw (h : s.Sound) : s.redraw.Sound := by
  unfold UiLoop.redraw
  split_ifs
  · exact h.of_line rfl rfl nofun
  · exact h

theorem sound_start (money goal height width : ℤ) : (start money goal height width).Sound := by
  refine Sound.redraw ?_
  exact sound_clearLine (s := { client := .start money goal, height := height, width := width })
    fun _ => by simp [UiClient.start]

theorem Sound.clearLine (h : s.Sound) : s.clearLine.Sound := sound_clearLine h.playing

/-- A mode of somebody who plays, and an empty line. -/
theorem sound_mode (mode : ClientMode) (hmode : mode ≠ .gameOver) (s : UiLoop) :
    ({ s with client := { s.client with mode := mode } } : UiLoop).redraw.clearLine.Sound := by
  refine sound_clearLine fun _ => ?_
  unfold UiLoop.redraw
  split_ifs <;> exact hmode

/-- A command clears the line, after a local test with the mode set back or the game left. -/
theorem command_cases (s : UiLoop) :
    (∃ reqs, s.command = (s.clearLine, reqs)) ∨
      s.command =
        (({ s with client := { s.client with mode := .normal } } : UiLoop).redraw.clearLine, []) ∨
      s.command = ({ s with client := { s.client with mode := .gameOver }, running := false },
        []) := by
  unfold UiLoop.command
  split_ifs
  all_goals first | exact .inl ⟨_, rfl⟩ | exact .inr (.inl rfl) | exact .inr (.inr rfl)

/-- What an entered line does in each mode. -/
theorem submit_cases (s : UiLoop) :
    (s.line = utf8 "/quit" ∧ s.submit = ({ s with running := false }, [])) ∨
      (s.line ≠ utf8 "/quit" ∧ s.client.mode = .panic ∧
        s.submit = (s.clearLine, [.minigameSubmit (cstr maxTextLen s.line)])) ∨
      (s.line ≠ utf8 "/quit" ∧ s.client.mode = .roundEnd ∧
        s.submit = (s.clearLine,
          if s.line.head? = some 47 ∨ s.len = 0 then [] else [.chat (cstr maxTextLen s.line)])) ∨
      (s.line ≠ utf8 "/quit" ∧ s.client.mode ≠ .panic ∧ s.client.mode ≠ .roundEnd ∧
        s.submit = s.command) := by
  by_cases hquit : s.line = utf8 "/quit"
  · exact .inl ⟨hquit, by rw [submit, if_pos hquit]⟩
  · refine .inr ?_
    rw [submit, if_neg hquit]
    cases hmode : s.client.mode with
    | panic => exact .inl ⟨hquit, rfl, rfl⟩
    | roundEnd => exact .inr (.inl ⟨hquit, rfl, rfl⟩)
    | normal | gameOver => exact .inr (.inr ⟨hquit, by decide, by decide, rfl⟩)

theorem Sound.command (h : s.Sound) : s.command.1.Sound := by
  rcases s.command_cases with ⟨reqs, heq⟩ | heq | heq <;> rw [heq]
  · exact h.clearLine
  · exact sound_mode .normal (by decide) s
  · exact h.of_line rfl rfl nofun

theorem Sound.submit (h : s.Sound) : s.submit.1.Sound := by
  rcases s.submit_cases with ⟨-, heq⟩ | ⟨-, -, heq⟩ | ⟨-, -, heq⟩ | ⟨-, -, -, heq⟩ <;> rw [heq]
  · exact h.of_line rfl rfl nofun
  · exact h.clearLine
  · exact h.clearLine
  · exact h.command

theorem Sound.onByte (h : s.Sound) (b : UInt8) : (s.onByte b).1.Sound := by
  unfold UiLoop.onByte
  split_ifs with h10 h127 h27 h32
  · rw [h.terminate_eq]
    exact h.submit
  · exact h.erase
  · exact h.clearLine
  · exact h.typeByte (by rintro rfl; exact absurd h32 (by decide))
  · exact h

theorem Sound.onResize (h : s.Sound) (height width : ℤ) : (s.onResize height width).Sound := by
  have hcleared : ({ s with height := height, width := width } : UiLoop).clearLine.Sound :=
    sound_clearLine h.playing
  simp only [UiLoop.onResize]
  split
  · exact hcleared.redraw
  · exact hcleared.redraw
  · exact hcleared

/-- The packets that end the game leave the loop, no other does. -/
theorem mode_receive_ne {c : UiClient} {pkt : UiPacket} (h : c.mode ≠ .gameOver)
    (hover : ∀ message, pkt = .gameOver message → roundResetMark.isPrefixOf message = true)
    (hvictory : ∀ message, pkt ≠ .victory message) : (c.receive pkt).mode ≠ .gameOver := by
  unfold UiClient.receive
  rw [if_neg h]
  cases pkt with
  | gameOver message =>
    simp only [hover message rfl, ↓reduceIte]
    decide
  | victory => exact absurd rfl (hvictory _)
  | policeRaid passcode limit | minigameOk => simp
  | scoreboard e es r rs => simp
  | _ => exact h

theorem Sound.onPacket (h : s.Sound) (hs : s.running = true) (pkt : UiPacket) :
    (s.onPacket pkt).1.Sound := by
  have hmode := h.playing hs
  have hkept : (∀ message, pkt = .gameOver message → roundResetMark.isPrefixOf message = true) →
      (∀ message, pkt ≠ .victory message) →
        ({ s with client := s.client.receive pkt } : UiLoop).Sound :=
    fun hover hvictory => h.of_line rfl rfl fun _ => mode_receive_ne hmode hover hvictory
  cases pkt with
  | policeRaid passcode limit =>
    refine sound_clearLine fun _ => ?_
    exact mode_receive_ne hmode (fun _ h => nomatch h) fun _ h => nomatch h
  | minigameOk => exact (hkept nofun nofun).redraw
  | gameOver message =>
    simp only [UiLoop.onPacket]
    by_cases hmark : roundResetMark.isPrefixOf message = true
    · rw [if_pos hmark]
      exact (hkept (fun _ heq => by cases heq; exact hmark) nofun).redraw
    · rw [if_neg hmark]
      exact h.of_line rfl rfl nofun
  | victory message => exact h.of_line rfl rfl nofun
  | _ => exact hkept nofun nofun

/-- **Every pass keeps the line sound.** -/
theorem Sound.step (h : s.Sound) (e : UiEvent) : (s.step e).1.Sound := by
  unfold UiLoop.step
  split_ifs with hs
  · cases e with
    | packet pkt => exact h.onPacket hs pkt
    | byte b => exact h.onByte b
    | backspace => exact h.erase
    | resize height width => exact h.onResize height width
    | functionKey => exact h
  · exact h

theorem Sound.run (h : s.Sound) (events : List UiEvent) : (s.run events).Sound := by
  induction events generalizing s with
  | nil => exact h
  | cons e events ih => exact ih (h.step e)

end UiLoop

end UnderFlow
