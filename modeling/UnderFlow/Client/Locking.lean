import UnderFlow.Client.Answering

/-!
# The lock of the countdown

Between a scoreboard and the next round reset the client is to send no command of the game.  The
lock is the mode of the client, which other packets set as well.

* `Shut` : the mode is one of those in which no command is sent.
* `shut_run`, `sends_of_shut` : a client keeps shut, and sends nothing forbidden, as long as no
  answer to a raid is accepted.
* `keepsLocked_iff` : the packet sequences under which the lock holds, whatever is typed.
* `not_keepsLocked` : an accepted answer opens the lock.
-/

namespace UnderFlow

namespace UiLoop

variable {s : UiLoop} {e : UiEvent} {es : List UiEvent}

/-! ### Locked requests -/

/-- The requests that are locked during the countdown. -/
def locked : Request → Bool
  | .buy _ | .sell _ _ _ | .dispose _ | .rumor _ => true
  | .chat text => text.head? == some 47
  | _ => false

/-- The packets among the events. -/
def packets (es : List UiEvent) : List UiPacket :=
  es.filterMap fun | .packet pkt => some pkt | _ => none

/-- The packet resets the round. -/
def isReset : UiPacket → Bool
  | .gameOver message => roundResetMark.isPrefixOf message
  | _ => false

/-- The packet ends the countdown, or the game. -/
def endsCountdown : UiPacket → Bool
  | .gameOver _ | .victory _ => true
  | _ => false

/-- The lock holds under a sequence of packets that follows a scoreboard: whatever came before,
whatever is typed, and however far the sequence has been received, no locked request is sent
before the round is reset. -/
def KeepsLocked (pkts : List UiPacket) : Prop :=
  ∀ (money goal height width : ℤ) (before es : List UiEvent) (countdownSec escapedCount : ℤ)
    (escaped : Vector ScoreEscaped maxScoreEscaped) (remainingCount : ℤ)
    (remaining : Vector ScoreRemaining maxScoreRemaining),
    packets es <+: pkts → (∀ pkt ∈ packets es, isReset pkt = false) →
    ∀ req ∈ ((start money goal height width).run (before ++
      [.packet (.scoreboard countdownSec escapedCount escaped remainingCount remaining)])).sends es,
      locked req = false

/-! ### A shut client -/

/-- No command is sent in the mode; a client that has left the loop sends nothing. -/
def Shut (s : UiLoop) : Prop :=
  s.running = true → s.client.mode = .panic ∨ s.client.mode = .roundEnd

theorem shut_onByte (h : s.Sound) (hs : s.running = true) (hshut : Shut s) (b : UInt8) :
    Shut (s.onByte b).1 ∧ ∀ req ∈ (s.onByte b).2, locked req = false := by
  unfold onByte
  split_ifs
  · rw [h.terminate_eq]
    rcases s.submit_cases with ⟨-, heq⟩ | ⟨-, -, heq⟩ | ⟨-, -, heq⟩ | ⟨-, hpanic, hround, heq⟩ <;>
      rw [heq]
    · exact ⟨nofun, by simp⟩
    · exact ⟨hshut, by simp [locked]⟩
    · refine ⟨hshut, ?_⟩
      rw [h.cstr_line]
      split_ifs with hslash
      · simp
      · simpa [locked] using fun hhead => hslash (.inl hhead)
    · rcases hshut hs with hmode | hmode
      · exact absurd hmode hpanic
      · exact absurd hmode hround
  · unfold erase
    split_ifs <;> exact ⟨hshut, by simp⟩
  · exact ⟨hshut, by simp⟩
  · unfold typeByte
    split_ifs <;> exact ⟨hshut, by simp⟩
  · exact ⟨hshut, by simp⟩

theorem shut_onPacket (h : s.Sound) (hs : s.running = true) (hshut : Shut s) {pkt : UiPacket}
    (hok : pkt ≠ .minigameOk) (hreset : isReset pkt = false) :
    Shut (s.onPacket pkt).1 ∧ ∀ req ∈ (s.onPacket pkt).2, locked req = false := by
  have hmode := h.playing hs
  cases pkt with
  | minigameOk => exact absurd rfl hok
  | policeRaid passcode limit =>
    exact ⟨fun _ =>
      .inl (by simp [onPacket, clearLine, UiClient.receive, hmode]), by simp [onPacket]⟩
  | scoreboard e es r rs =>
    exact ⟨fun _ => .inr (by simp [onPacket, UiClient.receive, hmode]), by simp [onPacket]⟩
  | gameOver message =>
    simp only [isReset] at hreset
    simp only [onPacket, hreset, Bool.false_eq_true, ↓reduceIte]
    exact ⟨(by rintro ⟨⟩), by simp⟩
  | victory => exact ⟨(by rintro ⟨⟩), by simp [onPacket]⟩
  | _ =>
    refine ⟨fun hr => ?_, by simp [onPacket, locked]⟩
    simpa [onPacket, UiClient.receive, hmode] using hshut hs

theorem shut_step (h : s.Sound) (hshut : Shut s) (hok : e ≠ .packet .minigameOk)
    (hreset : ∀ pkt, e = .packet pkt → isReset pkt = false) :
    Shut (s.step e).1 ∧ ∀ req ∈ (s.step e).2, locked req = false := by
  unfold step
  split_ifs with hs
  · cases e with
    | packet pkt => exact shut_onPacket h hs hshut (by rintro rfl; exact hok rfl) (hreset pkt rfl)
    | byte b => exact shut_onByte h hs hshut b
    | backspace =>
      unfold erase
      split_ifs <;> exact ⟨hshut, by simp⟩
    | resize height width =>
      refine ⟨fun hr => ?_, by simp⟩
      rw [onResize_client]
      exact hshut hs
    | functionKey => exact ⟨hshut, by simp⟩
  · exact ⟨hshut, by simp⟩

theorem sends_of_not_running (h : s.running = false) (es : List UiEvent) : s.sends es = [] := by
  induction es with
  | nil => rfl
  | cons e es ih => rw [sends, step_of_not_running h, ih, List.append_nil]

/-- A game over that is no reset leaves the loop, as a victory does. -/
theorem not_running_of_ends {pkt : UiPacket} (hends : endsCountdown pkt = true)
    (hreset : isReset pkt = false) : (s.step (.packet pkt)).1.running = false := by
  unfold step
  split_ifs with hs
  · cases pkt with
    | gameOver message =>
      simp only [isReset] at hreset
      simp [onPacket, hreset]
    | victory => rfl
    | _ => simp [endsCountdown] at hends
  · simpa using hs

/-- The packets up to the one that ends the countdown or the game. -/
def countdown (pkts : List UiPacket) : List UiPacket := pkts.takeWhile fun pkt => !endsCountdown pkt

theorem packets_cons (e : UiEvent) (es : List UiEvent) :
    (∃ pkt, e = .packet pkt ∧ packets (e :: es) = pkt :: packets es) ∨
      ((∀ pkt, e ≠ .packet pkt) ∧ packets (e :: es) = packets es) := by
  cases e with
  | packet pkt => exact .inl ⟨pkt, rfl, rfl⟩
  | _ => exact .inr ⟨by rintro pkt ⟨⟩, rfl⟩

/-- **A shut client sends nothing that is locked** until an answer is accepted or the round is
reset. -/
theorem sends_of_shut (h : s.Sound) (hshut : Shut s) (hok : .minigameOk ∉ countdown (packets es))
    (hreset : ∀ pkt ∈ packets es, isReset pkt = false) :
    ∀ req ∈ s.sends es, locked req = false := by
  induction es generalizing s with
  | nil => simp [sends]
  | cons e es ih =>
    rcases packets_cons e es with ⟨pkt, rfl, hpkts⟩ | ⟨hother, hpkts⟩ <;> rw [hpkts] at hok hreset
    · have hthis := hreset pkt List.mem_cons_self
      have hrest := fun p hp => hreset p (List.mem_cons_of_mem pkt hp)
      have hne : pkt ≠ .minigameOk := by
        rintro rfl
        exact hok List.mem_cons_self
      obtain ⟨hshut', hsent⟩ := shut_step (e := .packet pkt) h hshut
        (fun heq => hne (by cases heq; rfl)) (by rintro _ ⟨⟩; exact hthis)
      intro req hreq
      rcases List.mem_append.1 hreq with hreq | hreq
      · exact hsent req hreq
      · by_cases hends : endsCountdown pkt = true
        · rw [sends_of_not_running (not_running_of_ends hends hthis)] at hreq
          cases hreq
        · rw [countdown, List.takeWhile_cons_of_pos (by simpa using hends)] at hok
          exact ih (h.step _) hshut' (fun hmem => hok (List.mem_cons_of_mem _ hmem)) hrest req hreq
    · obtain ⟨hshut', hsent⟩ :=
        shut_step h hshut (hother _) (fun pkt heq => absurd heq (hother pkt))
      intro req hreq
      rcases List.mem_append.1 hreq with hreq | hreq
      · exact hsent req hreq
      · exact ih (h.step _) hshut' hok hreset req hreq

/-- A scoreboard shuts the client. -/
theorem shut_scoreboard (h : s.Sound) (countdownSec escapedCount : ℤ)
    (escaped : Vector ScoreEscaped maxScoreEscaped) (remainingCount : ℤ)
    (remaining : Vector ScoreRemaining maxScoreRemaining) :
    Shut (s.step
      (.packet (.scoreboard countdownSec escapedCount escaped remainingCount remaining))).1 := by
  intro hr
  have hs := running_of_step hr
  rw [step, if_pos hs]
  exact .inr (by simp [onPacket, UiClient.receive, h.playing hs])

/-! ### An opened lock -/

/-- The screen is large enough to be redrawn. -/
def Large (s : UiLoop) : Prop := s.running = true ∧ ¬ (s.width < minWidth ∨ s.height < minHeight)

theorem Large.redraw_eq (h : s.Large) : s.redraw = s := if_neg h.2

theorem Large.onPacket (h : s.Large) {pkt : UiPacket} (hends : endsCountdown pkt = false) :
    (s.onPacket pkt).1.Large := by
  cases pkt with
  | gameOver message | victory => simp [endsCountdown] at hends
  | minigameOk =>
    have hlarge : ({ s with client := s.client.receive .minigameOk } : UiLoop).Large := h
    simpa only [UiLoop.onPacket, hlarge.redraw_eq] using hlarge
  | _ => exact h

theorem Large.run_packets (h : s.Large) {pkts : List UiPacket}
    (hends : ∀ pkt ∈ pkts, endsCountdown pkt = false) : (s.run (pkts.map .packet)).Large := by
  induction pkts generalizing s with
  | nil => exact h
  | cons pkt pkts ih =>
    have hstep : (s.step (.packet pkt)).1.Large := by
      rw [step, if_pos h.1]
      exact h.onPacket (hends pkt List.mem_cons_self)
    exact ih hstep fun p hp => hends p (List.mem_cons_of_mem _ hp)

/-- Bytes of text change nothing but the line. -/
theorem client_typing {q : Bytes} (hq : ∀ b ∈ q, Typeable b) (hs : s.running = true) :
    (s.run (q.map .byte)).client = s.client ∧ (s.run (q.map .byte)).running = true := by
  induction q generalizing s with
  | nil => exact ⟨rfl, hs⟩
  | cons b q ih =>
    have hb := hq b List.mem_cons_self
    have h10 : b ≠ 10 := fun heq => absurd hb.1 (by rw [heq]; decide)
    have h27 : b ≠ 27 := fun heq => absurd hb.1 (by rw [heq]; decide)
    have h127 : ¬ (b = 127 ∨ b = 8) := by
      rintro (rfl | rfl)
      · exact hb.2 rfl
      · exact absurd hb.1 (by decide)
    have hstep : (s.step (.byte b)).1 = s.typeByte b := by
      rw [step, if_pos hs]
      simp only [onByte, if_neg h10, if_neg h127, if_neg h27, if_pos hb.1]
    have hkept : (s.typeByte b).client = s.client ∧ (s.typeByte b).running = s.running := by
      unfold typeByte
      split_ifs <;> exact ⟨rfl, rfl⟩
    obtain ⟨hclient, hrun⟩ := ih (s := (s.step (.byte b)).1)
      (fun c hc => hq c (List.mem_cons_of_mem _ hc)) (by rw [hstep, hkept.2, hs])
    exact ⟨hclient.trans (by rw [hstep, hkept.1]), hrun⟩

/-- What is typed to buy a document. -/
def buyKeys : List UiEvent := .byte 27 :: (utf8 "/buy 1").map .byte ++ [.byte 10]

theorem command_buy (h : s.line = utf8 "/buy 1") : s.command.2 = [.buy 1] := by
  rw [command, h, if_neg (by decide +kernel), if_neg (by decide +kernel),
    if_neg (by decide +kernel),
    if_neg (by decide +kernel), if_neg (by decide +kernel), if_neg (by decide +kernel),
    if_neg (by decide +kernel)]
  show [request (utf8 "/buy 1")] = [.buy 1]
  decide +kernel

/-- In the normal mode a purchase can be entered. -/
theorem sends_buyKeys (h : s.Sound) (hlarge : s.Large) (hmode : s.client.mode = .normal) :
    .buy 1 ∈ s.sends buyKeys := by
  have hq : ∀ b ∈ utf8 "/buy 1", Typeable b := by decide +kernel
  have hesc := step_esc hlarge.1
  obtain ⟨hclient, hrun⟩ := client_typing (s := s.clearLine) hq hlarge.1
  have htyped := typing_line h.clearLine rfl (typing_map (utf8 "/buy 1")) hrun
  have hwide : 51 ≤ s.clearLine.width - 45 := by
    have hwidth := hlarge.2
    simp only [minWidth, not_or, not_lt] at hwidth
    show 51 ≤ s.width - 45
    omega
  have hsmooth : Smooth s.clearLine.width (utf8 "/buy 1") ((utf8 "/buy 1").map .byte) := by
    refine ⟨hq, fun _ => ⟨by decide +kernel, ?_⟩, ?_⟩
    · have hlength : (utf8 "/buy 1").length = 6 := by decide +kernel
      rw [hlength]
      omega
    · intro before e after heq hraid
      have hmem : e ∈ (utf8 "/buy 1").map UiEvent.byte := heq ▸ by simp
      obtain ⟨b, -, rfl⟩ := List.mem_map.1 hmem
      cases hraid
  have hline := htyped.line_eq (htyped.smooth_iff.2 hsmooth)
  have hsound := h.clearLine.run ((utf8 "/buy 1").map .byte)
  have hsplit : s.sends buyKeys = (s.clearLine.sends ((utf8 "/buy 1").map .byte)) ++
      (s.clearLine.run ((utf8 "/buy 1").map .byte)).sends [.byte 10] := by
    rw [buyKeys, List.cons_append, sends, hesc, sends_append]
    rfl
  rw [hsplit]
  refine List.mem_append_right _ ?_
  rw [sends, step, if_pos hrun]
  simp only [onByte, ↓reduceIte, hsound.terminate_eq]
  refine List.mem_append_left _ ?_
  have hnormal : (s.clearLine.run ((utf8 "/buy 1").map .byte)).client.mode = .normal := by
    rw [hclient]
    exact hmode
  rw [submit, if_neg (by rw [hline]; decide +kernel), hnormal]
  show Request.buy 1 ∈ (s.clearLine.run ((utf8 "/buy 1").map .byte)).command.2
  rw [command_buy hline]
  exact List.mem_singleton.2 rfl

theorem packets_append (es es' : List UiEvent) :
    packets (es ++ es') = packets es ++ packets es' := List.filterMap_append

theorem packets_map (pkts : List UiPacket) : packets (pkts.map .packet) = pkts := by
  simp [packets, List.filterMap_map]

theorem packets_buyKeys : packets buyKeys = [] := by
  have hbytes : packets ((utf8 "/buy 1").map .byte) = [] := by
    simp [packets, List.filterMap_map]
  rw [buyKeys, packets_append]
  exact List.append_eq_nil_iff.2 ⟨hbytes, rfl⟩

theorem mode_minigameOk (h : s.Sound) (hlarge : s.Large) :
    (s.step (.packet .minigameOk)).1.client.mode = .normal := by
  rw [step, if_pos hlarge.1]
  simp [onPacket, UiClient.receive, h.playing hlarge.1]

/-- A client that is sent an accepted answer can send a purchase after it. -/
theorem sends_after_ok (h : s.Sound) (hlarge : s.Large) {pkts : List UiPacket}
    (hends : ∀ pkt ∈ pkts, endsCountdown pkt = false) :
    .buy 1 ∈ s.sends ((pkts ++ [UiPacket.minigameOk]).map .packet ++ buyKeys) := by
  rw [sends_append, List.map_append, run_append]
  refine List.mem_append_right _ ?_
  have hsound := h.run (pkts.map .packet)
  have hstill := hlarge.run_packets hends
  have hopened : ((s.run (pkts.map .packet)).run ([UiPacket.minigameOk].map .packet)).Large :=
    hstill.run_packets (by simp [endsCountdown])
  exact sends_buyKeys (hsound.run _) hopened (mode_minigameOk hsound hstill)

/-- An accepted answer opens the lock. -/
theorem not_mem_of_keepsLocked {pkts : List UiPacket} (h : KeepsLocked pkts) :
    .minigameOk ∉ countdown pkts := by
  intro hmem
  obtain ⟨pre, post, hpre⟩ := List.append_of_mem hmem
  have hends : ∀ pkt ∈ pre, endsCountdown pkt = false := fun pkt hpkt => by
    have hin : pkt ∈ countdown pkts := hpre ▸ List.mem_append_left _ hpkt
    simpa using List.mem_takeWhile_imp hin
  have hpart : pre ++ [UiPacket.minigameOk] <+: pkts := by
    refine List.IsPrefix.trans ⟨post, ?_⟩ ( List.takeWhile_prefix fun pkt => !endsCountdown pkt)
    rw [List.append_assoc]
    exact hpre.symm
  have hes : packets ((pre ++ [UiPacket.minigameOk]).map .packet ++ buyKeys) =
      pre ++ [.minigameOk] := by
    rw [packets_append, packets_map, packets_buyKeys, List.append_nil]
  have hreset : ∀ pkt ∈ pre ++ [UiPacket.minigameOk], isReset pkt = false := by
    intro pkt hpkt
    rcases List.mem_append.1 hpkt with hpkt | hpkt
    · have hpkt := hends pkt hpkt
      cases pkt <;> simp_all [isReset, endsCountdown]
    · rw [List.mem_singleton.1 hpkt]
      rfl
  -- the smallest screen, no escapees and nobody left
  have hsent :=
    h 0 0 minHeight minWidth [] ((pre ++ [UiPacket.minigameOk]).map .packet ++ buyKeys) 10 0
    (padTo _ ⟨Key.empty, 0, 0⟩ []) 0 (padTo _ ⟨Key.empty, 0⟩ []) (by rwa [hes]) (by rwa [hes])
    (.buy 1) (sends_after_ok ((sound_start ..).run _) ⟨by decide +kernel, by decide +kernel⟩ hends)
  cases hsent

/-- **When the lock holds**: no answer to a raid is accepted during the countdown. -/
theorem keepsLocked_iff (pkts : List UiPacket) :
    KeepsLocked pkts ↔ .minigameOk ∉ countdown pkts := by
  refine ⟨not_mem_of_keepsLocked, fun hok => ?_⟩
  intro money goal height width before es countdownSec escapedCount escaped remainingCount
    remaining hpart hreset
  rw [run_concat]
  refine sends_of_shut (((sound_start ..).run before).step _)
    (shut_scoreboard ((sound_start ..).run before) _ _ _ _ _) (fun hmem => hok ?_) hreset
  obtain ⟨rest, rfl⟩ := hpart
  rw [countdown, List.takeWhile_append]
  split_ifs
  · exact List.mem_append_left _ (List.takeWhile_subset _ hmem)
  · exact hmem

/-- **A raid during the countdown** that is answered opens the lock. -/
theorem not_keepsLocked : ¬ KeepsLocked [.policeRaid (utf8 "PURGE") 15, .minigameOk] := by
  intro h
  exact not_mem_of_keepsLocked h (by simp [countdown, endsCountdown])

end UiLoop

end UnderFlow
