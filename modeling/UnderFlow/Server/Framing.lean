import UnderFlow.Common.Wire
import UnderFlow.Server.Step

/-!
# Frames

A peer sends a stream of bytes and closes the connection at some point.  The handler of the
connection reads it with `packet_recv`, whose result it compares with zero only.

* `frames` : the packets of the complete frames of a stream.
* `Handles` : the runs of a handler on a stream, with the packets it acts on.
* `framed_iff` : they are the complete frames exactly when the stream consists of whole frames;
  a shorter rest is acted on as well.
-/

namespace UnderFlow

/-! ### Requests -/

namespace PacketImage

/-- The C string in a character array. -/
def str (off len : ℕ) (m : PacketImage) : Bytes :=
  ((List.range len).map fun i => byteAt m (off + i)).takeWhile (· ≠ 0)

/-- A field of type `int32_t`. -/
def int (e : ByteOrder) (off : ℕ) (m : PacketImage) : ℤ := (load e off m).toInt

/-- The request in a received packet. -/
def request (e : ByteOrder) (m : PacketImage) : Request :=
  match packetType e m with
  | some .reqLogin => .login (Key.ofBytes (m.str body maxKeyLen))
  | some .reqChat => .chat (m.str body maxTextLen)
  | some .reqBuy => .buy (m.int e body)
  | some .reqSell => .sell (m.int e body) (m.int e (body + 4))
      (Vector.ofFn fun i => m.int e (body + 8 + i * 4))
  | some .reqDispose => .dispose (m.int e body)
  | some .reqInven => .inven
  | some .reqRumor => .rumor (Key.ofBytes (m.str body maxKeyLen))
  | some .reqMinigameSubmit => .minigameSubmit (m.str body maxTextLen)
  | some .reqTriggerRaid => .triggerRaid
  | some .reqTriggerLeak => .triggerLeak
  | some .reqTriggerRich => .triggerRich
  | some .reqTriggerEndround => .triggerEndround
  | _ => .other

end PacketImage

/-! ### Streams -/

/-- The decodings of the complete frames of a stream. -/
def frames (e : ByteOrder) (stream : List UInt8) : List PacketImage :=
  if packetSize ≤ stream.length then
    packetDecode e (.ofReceived (stream.take packetSize)) :: frames e (stream.drop packetSize)
  else []
termination_by stream.length
decreasing_by
  have hpos : 0 < packetSize := Nat.lt_of_lt_of_le (by decide : 0 < body) (Nat.le_add_right _ _)
  rw [List.length_drop]
  omega

/-- The runs of a handler: at the point `th`, with the rest of the stream before it, it acts on some
packets and leaves a rest.  What its other operations return is arbitrary. -/
inductive Handles (e : ByteOrder) :
    Thread → List UInt8 → List PacketImage → List UInt8 → Prop
  | stop {th : Thread} {stream : List UInt8} : Handles e th stream [] stream
  | act {th : Thread} {stream rest : List UInt8} {ps : List PacketImage} {a : Action Thread}
      (ha : th.action = some a) (hop : ∀ sock, a.op ≠ .packetRecv sock) (r : a.op.Ret)
      (h : Handles e (a.next r) stream ps rest) : Handles e th stream ps rest
  | recv {th : Thread} {stream rest₁ rest : List UInt8} {q : PacketImage} {ps : List PacketImage}
      {sock : ℕ} {next : Option Request → Thread} (ha : th.action = some ⟨.packetRecv sock, next⟩)
      (hq : packetRecv e stream = (some q, rest₁))
      (h : Handles e (next (some (q.request e))) rest₁ ps rest) : Handles e th stream (q :: ps) rest
  | eof {th : Thread} {stream rest₁ rest : List UInt8} {ps : List PacketImage} {sock : ℕ}
      {next : Option Request → Thread} (ha : th.action = some ⟨.packetRecv sock, next⟩)
      (hq : packetRecv e stream = (none, rest₁)) (h : Handles e (next none) rest₁ ps rest) :
      Handles e th stream ps rest

/-- What a handler has acted on is what is gone of the complete frames, in order. -/
def Framed (e : ByteOrder) (stream : List UInt8) : Prop :=
  ∀ sock ps rest, Handles e (.login sock .recv) stream ps rest →
    frames e stream = ps ++ frames e rest

variable {e : ByteOrder} {stream rest : List UInt8} {ps : List PacketImage} {th th' : Thread}

theorem packetSize_pos : 0 < packetSize :=
  Nat.lt_of_lt_of_le (by decide : 0 < body) (Nat.le_add_right _ _)

theorem frames_of_lt (h : stream.length < packetSize) : frames e stream = [] := by
  rw [frames, if_neg (by omega)]

theorem frames_of_le (h : packetSize ≤ stream.length) : frames e stream =
    packetDecode e (.ofReceived (stream.take packetSize)) :: frames e (stream.drop packetSize) := by
  rw [frames, if_pos h]

/-- There are as many frames as fit into the stream. -/
theorem length_frames (e : ByteOrder) (stream : List UInt8) :
    (frames e stream).length = stream.length / packetSize := by
  have hpos := packetSize_pos
  induction hn : stream.length using Nat.strong_induction_on generalizing stream with
  | _ n ih =>
    by_cases hle : packetSize ≤ stream.length
    · have hdrop : (stream.drop packetSize).length = n - packetSize := by
        rw [List.length_drop, hn]
      have hdiv := Nat.div_eq_sub_div hpos (hn ▸ hle)
      rw [frames_of_le hle, List.length_cons, ih (n - packetSize) (by omega) _ hdrop, hdiv]
    · rw [frames_of_lt (by omega), Nat.div_eq_of_lt (by omega)]
      rfl

/-- **On whole frames** a handler acts on the frames. -/
theorem frames_of_handles (h : Handles e th stream ps rest) (hdvd : packetSize ∣ stream.length) :
    frames e stream = ps ++ frames e rest := by
  induction h with
  | stop => rfl
  | act _ _ _ _ ih => exact ih hdvd
  | recv _ hq _ ih =>
    obtain ⟨hne, rfl, rfl⟩ := packetRecv_eq_some.1 hq
    have hle := Nat.le_of_dvd (List.length_pos_of_ne_nil hne) hdvd
    rw [frames_of_le hle, List.cons_append]
    congr 1
    refine ih ?_
    rw [List.length_drop]
    exact Nat.dvd_sub hdvd (dvd_refl packetSize)
  | @eof th stream rest₁ _ _ _ _ _ hq _ ih =>
    have hnil : stream = [] := by
      by_contra hne
      have hsome : packetRecv e stream = (some _, _) := packetRecv_eq_some.2 ⟨hne, rfl, rfl⟩
      rw [hq] at hsome
      cases (Prod.mk.inj hsome).1
    subst hnil
    cases packetRecv_nil.symm.trans hq
    exact ih hdvd

/-! ### A handler that goes on reading -/

/-- The handler gets from one point to another without reading. -/
inductive Quiet : Thread → Thread → Prop
  | refl {th : Thread} : Quiet th th
  | act {th th' : Thread} {a : Action Thread} (ha : th.action = some a)
      (hop : ∀ sock, a.op ≠ .packetRecv sock) (r : a.op.Ret)
        (h : Quiet (a.next r) th') : Quiet th th'

theorem Handles.of_quiet (hq : Quiet th th') (h : Handles e th' stream ps rest) :
    Handles e th stream ps rest := by
  induction hq with
  | refl => exact h
  | act ha hop r _ ih => exact .act ha hop r (ih h)

theorem Quiet.trans {th'' : Thread} (h : Quiet th th') (h' : Quiet th' th'') : Quiet th th'' := by
  induction h with
  | refl => exact h'
  | act ha hop r _ ih => exact .act ha hop r (ih h')

variable {sock : ℕ} {key : Key}

theorem quiet_error (code : ErrorCode) (reason : Bytes) (check : Bool) :
    Quiet (.session sock key (.error code reason check)) (.session sock key .recv) := by
  cases check
  · exact .act rfl nofun () .refl
  · exact .act rfl nofun () (.act rfl nofun (.error { key := key }) .refl)

/-- Some run of every command ends at the next `packet_recv`. -/
theorem quiet_dispatch (req : Request) :
    Quiet (.session sock key (Command.dispatch req)) (.session sock key .recv) := by
  cases req with
  | login k => exact .refl
  | other => exact .refl
  | chat text =>
    simp only [Command.dispatch]
    split_ifs
    · exact .act rfl nofun (.error { key := key }) (quiet_error _ _ _)
    · exact .act rfl nofun () .refl
  | buy d => exact .act rfl nofun none (quiet_error _ _ _)
  | sell n count ds =>
    simp only [Command.dispatch]
    split_ifs
    · exact quiet_error _ _ _
    · exact .act rfl nofun none (quiet_error _ _ _)
  | dispose d => exact .act rfl nofun false (quiet_error _ _ _)
  | inven =>
    exact .act rfl nofun none (.act rfl nofun (.error { key := key }) (.act rfl nofun () .refl))
  | rumor k => exact .act rfl nofun (.error (0 : ℕ)) (quiet_error _ _ _)
  | minigameSubmit code => exact .act rfl nofun none (quiet_error _ _ _)
  | triggerRaid => exact .act rfl nofun none (quiet_error _ _ _)
  | triggerLeak => exact .act rfl nofun (0 : Tags) (.act rfl nofun (0 : Tags) (quiet_error _ _ _))
  | triggerRich => exact .act rfl nofun (.error { key := key }) (quiet_error _ _ _)
  | triggerEndround => exact .act rfl nofun false .refl

/-- Some run of a login ends in the command loop. -/
theorem quiet_login : Quiet (.login sock (.duplicate key)) (.session sock key .recv) := by
  have hreply : ∀ rec, Quiet (.login sock (.register key rec)) (.session sock key .recv) := by
    intro rec
    refine .act rfl nofun () (.act rfl nofun true (.act rfl nofun (0 : ℤ) (.act rfl nofun () ?_)))
    exact .act rfl nofun [] (.act rfl nofun [] (.act rfl nofun (0 : Tags) .refl))
  exact .act rfl nofun false (.act rfl nofun (.error { key := key })
    (.act rfl nofun true (hreply _)))

/-- A handler in front of a `packet_recv`. -/
def Thread.Reading (th : Thread) : Prop :=
  (∃ sock, th = .login sock .recv) ∨ ∃ sock key, th = .session sock key .recv

/-- A reading handler can go on reading after any request. -/
theorem reading_recv (h : th.Reading) (req : Request) : ∃ sock next,
    th.action = some ⟨.packetRecv sock, next⟩ ∧ ∃ th', Quiet (next (some req)) th' ∧
    th'.Reading := by
  rcases h with ⟨sock, rfl⟩ | ⟨sock, key, rfl⟩
  · refine ⟨sock, _, rfl, ?_⟩
    cases req with
    | login key => exact ⟨_, quiet_login, .inr ⟨sock, key, rfl⟩⟩
    | _ => exact ⟨_, .refl, .inl ⟨sock, rfl⟩⟩
  · exact ⟨sock, _, rfl, _, quiet_dispatch req, .inr ⟨sock, key, rfl⟩⟩

/-- **A handler can act on all a stream contains**, a last short frame included. -/
theorem exists_handles (e : ByteOrder) (stream : List UInt8) (th : Thread) (hr : th.Reading) :
    ∃ ps, Handles e th stream ps [] ∧ stream.length ≤ ps.length * packetSize := by
  have hpos := packetSize_pos
  induction hn : stream.length using Nat.strong_induction_on generalizing stream th with
  | _ n ih =>
    by_cases hnil : stream = []
    · subst hnil
      exact ⟨[], .stop, by simp [← hn]⟩
    · have hlen : 0 < stream.length := List.length_pos_of_ne_nil hnil
      have hq := packetRecv_eq_some (e := e).2 ⟨hnil, rfl, rfl⟩
      obtain ⟨sock, next, ha, th', hquiet, hr'⟩ := reading_recv hr
        ((packetDecode e (.ofReceived (stream.take packetSize))).request e)
      obtain ⟨ps, hps, hle⟩ := ih (stream.drop packetSize).length
        (by rw [List.length_drop]; omega) (stream.drop packetSize) th' hr' rfl
      refine ⟨_ :: ps, .recv ha hq (.of_quiet hquiet hps), ?_⟩
      rw [List.length_drop] at hle
      rw [List.length_cons, Nat.succ_mul]
      omega

/-- **Framing.**  The packets a handler acts on are the complete frames of the stream exactly when
the stream consists of complete frames. -/
theorem framed_iff (e : ByteOrder) (stream : List UInt8) :
    Framed e stream ↔ packetSize ∣ stream.length := by
  refine ⟨fun h => ?_, fun hdvd sock ps rest hh => frames_of_handles hh hdvd⟩
  obtain ⟨ps, hps, hle⟩ := exists_handles e stream (.login 5 .recv) (.inl ⟨5, rfl⟩)
  have hframes := congrArg List.length (h 5 ps [] hps)
  have hnil : frames e [] = [] := frames_of_lt packetSize_pos
  rw [length_frames, hnil, List.append_nil] at hframes
  have hmod := Nat.div_add_mod stream.length packetSize
  rw [← hframes, Nat.mul_comm] at hle
  exact Nat.dvd_of_mod_eq_zero (by omega)

/-- The beginning of a purchase of document 124, cut off after the number of the document. -/
def cutStream : List UInt8 := [0, 0, 0, 102, 0, 0, 0, 0, 0, 0, 0, 124]

/-- The handler of a logged-in player acts on the fragment as on a purchase. -/
theorem not_framed : ¬ Framed .little cutStream ∧ frames .little cutStream = [] ∧
    ∃ q, packetRecv .little cutStream = (some q, []) ∧ q.request .little = .buy 124 := by
  refine ⟨fun h => ?_, frames_of_lt (by decide +kernel), _,
    packetRecv_eq_some.2 ⟨nofun, rfl, by decide +kernel⟩, by decide +kernel⟩
  have hq : packetRecv .little cutStream = (some _, []) :=
    packetRecv_eq_some.2 ⟨nofun, rfl, by decide +kernel⟩
  have hframes := h 5 _ _ (.recv rfl hq .stop)
  rw [frames_of_lt (by decide +kernel)] at hframes
  cases hframes

end UnderFlow
