import UnderFlow.Client.Reading
import UnderFlow.Client.Answering
import UnderFlow.Server.Framing
import UnderFlow.Server.Entries

/-!
# From the keyboard to the handler

A client and its handler as two programs with a stream of bytes between them, on hosts of any byte
orders.

* `frames_append` : a packet that is sent is one frame of the stream.
* `frames_requests`, `frames_packets` : what is read from a stream is what was written to it.
* `sendable_sends` : every request of the client can be sent.
* `handled_of_sends` : a handler acts on what the client sends, in order.
* `dispatch_sellLine` : a sale that is typed reaches `handle_sell` with its numbers.
-/

namespace UnderFlow

variable {e e' : ByteOrder} {m : PacketImage} {t : PacketType} {b : Message}

/-! ### Streams -/

/-- The server reads the fields of the message. -/
theorem request_eq (ht : packetType e m = some t) : m.request e = (m.message e t).request := by
  unfold PacketImage.request
  rw [ht]
  cases t
  case reqSell =>
    have hids : (Vector.ofFn fun i : Fin maxInvenSize => m.int e (body + 8 + i * 4)) =
        (Vector.ofFn fun i : Fin maxInvenSize => load e (body + 8 + i * 4) m).map BitVec.toInt := by
      refine Vector.ext fun i hi => ?_
      rw [Vector.getElem_map, Vector.getElem_ofFn, Vector.getElem_ofFn]
      rfl
    exact congrArg (Request.sell _ _) hids
  all_goals rfl

theorem frames_nil : frames e [] = [] := frames_of_lt packetSize_pos

/-- A packet that is sent is one frame of the stream. -/
theorem frames_append (rest : List UInt8) : frames e' (b.bytes e ++ rest) =
    packetDecode e' (packetSend e (b.image e)) :: frames e' rest := by
  have hlen : (b.bytes e).length = packetSize := by simp [Message.bytes]
  have hle : packetSize ≤ (b.bytes e ++ rest).length := by
    rw [List.length_append, hlen]
    exact Nat.le_add_right _ _
  rw [frames_of_le hle, List.take_left' hlen, List.drop_left' hlen, Message.bytes,
    ofReceived_toList]

/-- The bytes the client writes for a request. -/
def Request.bytes (e : ByteOrder) (req : Request) : List UInt8 :=
  req.message.elim [] fun b => b.bytes e

/-- The bytes the server writes for a packet. -/
def Packet.bytes (e : ByteOrder) (pkt : Packet) : List UInt8 := pkt.message.bytes e

theorem request_decode {req : Request} (h : req.Sendable) (hb : req.message = some b)
    (hfits : b.Fits) : (packetDecode e' (packetSend e (b.image e))).request e' = req := by
  have hne : b.type ≠ .resLoginFail := by
    intro ht
    cases req <;> cases hb <;> cases ht
  rw [request_eq (packetType_decode packetType_image), value_arrives hfits hne,
    request_of_message h hb]

/-- **The requests read** from a stream are those written to it. -/
theorem frames_requests {reqs : List Request} (h : ∀ req ∈ reqs, req.Sendable) :
    (frames e' (reqs.flatMap (Request.bytes e))).map (·.request e') = reqs := by
  induction reqs with
  | nil => rw [List.flatMap_nil, frames_nil, List.map_nil]
  | cons req reqs ih =>
    obtain ⟨hreq, hreqs⟩ := List.forall_mem_cons.1 h
    obtain ⟨b, hb, hfits⟩ := hreq.fits
    rw [List.flatMap_cons, Request.bytes, hb, Option.elim_some, frames_append, List.map_cons,
      request_decode hreq hb hfits, ih hreqs]

/-- **The packets read** from a stream are those written to it. -/
theorem frames_packets {pkts : List Packet} (h : ∀ pkt ∈ pkts, pkt.Sendable) :
    (frames e' (pkts.flatMap (Packet.bytes e))).map (·.uiPacket e') = pkts.map Packet.received := by
  induction pkts with
  | nil => rw [List.flatMap_nil, frames_nil, List.map_nil, List.map_nil]
  | cons pkt pkts ih =>
    obtain ⟨hpkt, hpkts⟩ := List.forall_mem_cons.1 h
    rw [List.flatMap_cons, Packet.bytes, frames_append, List.map_cons, packet_arrives hpkt,
      List.map_cons, ih hpkts]

/-- What a player owns, and a scoreboard. -/
def shownPackets : List Packet :=
  [.invenInfo [⟨47, tagPersonal, utf8 "퇴직 요원 신상정보", true⟩] 600,
    .scoreboard 60 [⟨Key.ofBytes (utf8 "alice"), 10000, 1⟩]
      [⟨Key.ofBytes (utf8 "bob"), 1000⟩, ⟨Key.ofBytes (utf8 "carol"), -1⟩]]

/-- A big-endian client reads them from a little-endian server. -/
theorem frames_shown : (frames .big (shownPackets.flatMap (Packet.bytes .little))).map
    (·.uiPacket .big) = shownPackets.map Packet.received := frames_packets (by decide +kernel)

/-- Whole requests are whole frames. -/
theorem dvd_length_requests {reqs : List Request} :
    packetSize ∣ (reqs.flatMap (Request.bytes e)).length := by
  induction reqs with
  | nil => exact dvd_zero _
  | cons req reqs ih =>
    rw [List.flatMap_cons, List.length_append]
    refine Nat.dvd_add ?_ ih
    rw [Request.bytes]
    cases req.message with
    | none => exact dvd_zero _
    | some b => simp [Message.bytes]

/-! ### What the client sends -/

theorem inInt32_wrap (x : ℤ) : InInt32 (wrapInt32 x) := by
  rw [wrapInt32, InInt32]
  exact ⟨BitVec.le_toInt _, BitVec.toInt_lt⟩

theorem inInt32_atoi (s : Bytes) : InInt32 (atoi s) := inInt32_wrap _

theorem inInt32_length {l : List ℤ} (h : l.length ≤ maxInvenSize) : InInt32 l.length := by
  simp only [maxInvenSize] at h
  exact ⟨by omega, by omega⟩

theorem mem_padTo {k : ℕ} {l : List ℤ} {x : ℤ} (h : x ∈ (padTo k 0 l).toList) : x = 0 ∨ x ∈ l := by
  obtain ⟨i, hi, rfl⟩ := Vector.mem_iff_getElem.1 (Vector.mem_toList_iff.1 h)
  rw [padTo, Vector.getElem_ofFn, List.getD_eq_getElem?_getD]
  cases hx : l[i]? with
  | none => exact .inl rfl
  | some x => exact .inr (List.mem_of_getElem? hx)

theorem sendable_sellRequest (args : Bytes) : (UiLoop.sellRequest args).Sendable where
  ints := by
    have hatoi : ∀ x ∈ (words args).map atoi, InInt32 x := by
      intro x hx
      obtain ⟨s, -, rfl⟩ := List.mem_map.1 hx
      exact inInt32_atoi s
    refine List.forall_mem_cons.2 ⟨?_, List.forall_mem_cons.2 ⟨?_, fun x hx => ?_⟩⟩
    · cases hws : (words args).map atoi with
      | nil => exact ⟨by decide, by decide⟩
      | cons x xs => exact hatoi x (hws ▸ List.mem_cons_self)
    · exact inInt32_length (List.length_take_le _ _)
    · rcases mem_padTo hx with rfl | hx
      · exact ⟨by decide, by decide⟩
      · exact hatoi x (List.mem_of_mem_tail (List.mem_of_mem_take hx))
  fits := ⟨_, rfl, trivial, trivial, fun _ => trivial, trivial⟩

theorem cstr_fits {k : ℕ} (hk : 0 < k) (s : Bytes) : (cstr k s).length < k ∧ 0 ∉ cstr k s := by
  refine ⟨?_, fun h => ?_⟩
  · rw [cstr, List.length_take]
    omega
  · simpa using List.mem_takeWhile_imp (List.mem_of_mem_take h)

/-- A request without numbers. -/
theorem sendable_of_message {req : Request} (hints : req.ints = []) (hb : req.message = some b)
    (hfits : b.Fits) : req.Sendable :=
  ⟨by rw [hints]; exact List.forall_mem_nil _, b, hb, hfits⟩

/-- **The request of any line** can be sent. -/
theorem sendable_request (line : Bytes) : (UiLoop.request line).Sendable := by
  have hone : ∀ x : ℤ, InInt32 x → ∀ y ∈ [x], InInt32 y := fun x hx => by simpa using hx
  unfold UiLoop.request
  split_ifs
  · exact ⟨hone _ (inInt32_atoi _), _, rfl, trivial, trivial⟩
  · exact ⟨hone _ (inInt32_atoi _), _, rfl, trivial, trivial⟩
  · exact sendable_of_message rfl rfl trivial
  · exact sendable_of_message rfl rfl ⟨⟨Key.len _, Key.noNul _⟩, trivial⟩
  · exact sendable_sellRequest _
  · exact sendable_of_message rfl rfl ⟨cstr_fits (by decide) _, trivial⟩

namespace UiLoop

variable {s : UiLoop}

theorem sendable_command : ∀ req ∈ s.command.2, req.Sendable := by
  have hbare : ∀ {req : Request} {b : Message}, req.ints = [] → req.message = some b → b.Fits →
      ∀ r ∈ [req], r.Sendable := fun hints hb hfits =>
    List.forall_mem_singleton.2 (sendable_of_message hints hb hfits)
  unfold command
  split_ifs
  · exact List.forall_mem_nil _
  · exact hbare rfl rfl trivial
  · exact hbare rfl rfl trivial
  · exact hbare rfl rfl trivial
  · exact hbare rfl rfl trivial
  · exact List.forall_mem_nil _
  · exact List.forall_mem_nil _
  · exact List.forall_mem_singleton.2 (sendable_request _)

theorem sendable_submit : ∀ req ∈ s.submit.2, req.Sendable := by
  rcases s.submit_cases with ⟨-, heq⟩ | ⟨-, -, heq⟩ | ⟨-, -, heq⟩ | ⟨-, -, -, heq⟩ <;> rw [heq]
  · exact List.forall_mem_nil _
  · exact List.forall_mem_singleton.2
      (sendable_of_message rfl rfl ⟨cstr_fits (by decide) _, trivial⟩)
  · dsimp only
    split_ifs
    · exact List.forall_mem_nil _
    · exact List.forall_mem_singleton.2
        (sendable_of_message rfl rfl ⟨cstr_fits (by decide) _, trivial⟩)
  · exact sendable_command

theorem sendable_onByte (b : UInt8) : ∀ req ∈ (s.onByte b).2, req.Sendable := by
  unfold onByte
  split_ifs
  · exact sendable_submit
  all_goals exact List.forall_mem_nil _

theorem sendable_onPacket (pkt : UiPacket) : ∀ req ∈ (s.onPacket pkt).2, req.Sendable := by
  have hinven : ∀ req ∈ [Request.inven], req.Sendable :=
    List.forall_mem_singleton.2 (sendable_of_message rfl rfl trivial)
  cases pkt with
  | buyOk | sellOk | disposeOk => exact hinven
  | gameOver message =>
    simp only [onPacket]
    split_ifs <;> exact List.forall_mem_nil _
  | _ => exact List.forall_mem_nil _

theorem sendable_step (e : UiEvent) : ∀ req ∈ (s.step e).2, req.Sendable := by
  unfold step
  split_ifs
  · cases e with
    | packet pkt => exact sendable_onPacket pkt
    | byte b => exact sendable_onByte b
    | _ => exact List.forall_mem_nil _
  · exact List.forall_mem_nil _

/-- **Every request of the client** can be sent. -/
theorem sendable_sends (events : List UiEvent) : ∀ req ∈ s.sends events, req.Sendable := by
  induction events generalizing s with
  | nil => exact List.forall_mem_nil _
  | cons e events ih => exact List.forall_mem_append.2 ⟨sendable_step e, ih⟩

end UiLoop

/-! ### A session -/

/-- What a client sends from its login on. -/
def sessionRequests (key : Key) (s : UiLoop) (events : List UiEvent) : List Request :=
  .login key :: .inven :: s.sends events

/-- The bytes of it. -/
def sessionStream (e : ByteOrder) (key : Key) (s : UiLoop) (events : List UiEvent) : List UInt8 :=
  (sessionRequests key s events).flatMap (Request.bytes e)

variable {key : Key} {s : UiLoop} {events es : List UiEvent} {sock : ℕ} {ps : List PacketImage}
  {rest : List UInt8}

theorem sendable_session : ∀ req ∈ sessionRequests key s events, req.Sendable := by
  refine List.forall_mem_cons.2 ⟨?_, List.forall_mem_cons.2 ⟨?_, UiLoop.sendable_sends events⟩⟩
  · exact sendable_of_message rfl rfl ⟨⟨key.len, key.noNul⟩, trivial⟩
  · exact sendable_of_message rfl rfl trivial

/-- **A handler acts on what the client sends**, in order, and on all of it when it has read the
whole stream. -/
theorem handled_of_sends
    (h : Handles e' (.login sock .recv) (sessionStream e key s events) ps rest) :
    ∃ later, sessionRequests key s events = ps.map (·.request e') ++ later ∧
      (rest = [] → later = []) := by
  have hframes := frames_of_handles h dvd_length_requests
  have hread : (frames e' (sessionStream e key s events)).map (·.request e') =
      sessionRequests key s events := frames_requests sendable_session
  rw [hframes, List.map_append] at hread
  refine ⟨_, hread.symm, ?_⟩
  rintro rfl
  rw [frames_nil, List.map_nil]

/-- The handler of a client that buys document 124 and leaves acts on three requests. -/
theorem handled_purchase : ∃ ps, Handles .big (.login 5 .recv) (sessionStream .little
    (Key.ofBytes (utf8 "alice")) (.start 1000 10000 30 100)
      ((utf8 "/buy 124\n/quit\n").map .byte)) ps [] ∧
    ps.map (·.request .big) = [.login (Key.ofBytes (utf8 "alice")), .inven, .buy 124] := by
  obtain ⟨ps, hps, -⟩ := exists_handles .big (sessionStream .little (Key.ofBytes (utf8 "alice"))
    (.start 1000 10000 30 100) ((utf8 "/buy 124\n/quit\n").map .byte)) (.login 5 .recv)
    (.inl ⟨5, rfl⟩)
  obtain ⟨later, hread, hnil⟩ := handled_of_sends hps
  rw [hnil rfl, List.append_nil] at hread
  have hsent : (UiLoop.start 1000 10000 30 100).sends ((utf8 "/buy 124\n/quit\n").map .byte) =
      [.buy 124] := by decide +kernel
  exact ⟨ps, hps, by rw [← hread, sessionRequests, hsent]⟩

/-! ### Commands of the player -/

/-- What a player can ask for with one line. -/
inductive PlayerCommand where
  | buy (docId : ℤ)
  | sell (npcId : ℤ) (docIds : List ℤ)
  | dispose (docId : ℤ)
  | inventory
  | rumor (targetKey : Key)
  | payoff
  | chat (text : Bytes)

namespace PlayerCommand

/-- The line that asks for it. -/
def line : PlayerCommand → Bytes
  | buy d => utf8 "/buy " ++ decimal d
  | sell n ds => utf8 "/sell " ++ [32].intercalate ((n :: ds).map decimal)
  | dispose d => utf8 "/dispose " ++ decimal d
  | inventory => utf8 "/inventory"
  | rumor target => utf8 "/rumor " ++ target.bytes
  | payoff => utf8 "/payoff"
  | chat text => text

/-- Numbers are `int32_t`, a sale is of one to seven documents, and a chat is not a command. -/
def Valid : PlayerCommand → Prop
  | buy d | dispose d => InInt32 d
  | sell n ds => (∀ x ∈ n :: ds, InInt32 x) ∧ ds ≠ [] ∧ ds.length ≤ maxInvenSize
  | chat text => text.head? ≠ some 47
  | _ => True

/-- What the server does. -/
def served : PlayerCommand → Command
  | buy d => .buy d .find
  | sell n ds => .sell n (marketDocSortIds ds) .findNpc
  | dispose d => .dispose d .has
  | inventory => .inventory (.list .opendir)
  | rumor target => .rumor target .enter
  | payoff => .payoff .lookup
  | chat text => .chat (cstr maxTextLen text)

end PlayerCommand

/-- `atoi` reads what `%d` prints. -/
theorem atoi_decimal {x : ℤ} (h : InInt32 x) : atoi (decimal x) = x := by
  obtain ⟨hlo, hhi⟩ := h
  obtain ⟨ds, hne, hds, hprint, hvalue⟩ := decimalNat_numeral x.natAbs
  have hrest : ∀ b ∈ ([] : Bytes).head?, isDigit b = false := by rintro _ ⟨⟩
  rw [decimal, hprint, ← List.append_nil (ds.map digitByte)]
  split_ifs with hneg
  · rw [atoi_neg hds hrest (by omega), hvalue]
    omega
  · rw [atoi_digits hds hne hrest (by omega), hvalue]
    omega

theorem decimal_text (x : ℤ) : decimal x ≠ [] ∧ (32 : UInt8) ∉ decimal x := by
  obtain ⟨ds, hne, hds, hprint, -⟩ := decimalNat_numeral x.natAbs
  have hdigits : (32 : UInt8) ∉ ds.map digitByte := by
    intro hmem
    obtain ⟨d, hd, h32⟩ := List.mem_map.1 hmem
    have hdigit := isDigit_digitByte (hds d hd)
    rw [h32] at hdigit
    exact absurd hdigit (by decide)
  rw [decimal, hprint]
  split_ifs
  · exact ⟨List.cons_ne_nil _ _, by simpa using hdigits⟩
  · exact ⟨by simpa using hne, hdigits⟩

/-- The words of a line of numbers. -/
theorem words_decimals (x : ℤ) (xs : List ℤ) :
    words ([32].intercalate ((x :: xs).map decimal)) = (x :: xs).map decimal := by
  have hall : ∀ l ∈ (x :: xs).map decimal, l ≠ [] ∧ (32 : UInt8) ∉ l := by
    intro l hl
    obtain ⟨y, -, rfl⟩ := List.mem_map.1 hl
    exact decimal_text y
  rw [words, List.splitOn_intercalate _ (fun l hl => (hall l hl).2) (by simp),
    List.filter_eq_self]
  exact fun l hl => by simpa using (hall l hl).1

/-- A line begins with one command word only. -/
theorem not_isPrefixOf {p q : Bytes} (hp : p.isPrefixOf q = false) (hq : q.isPrefixOf p = false)
    (x : Bytes) : p.isPrefixOf (q ++ x) = false := by
  rw [Bool.eq_false_iff, Ne, List.isPrefixOf_iff_prefix] at hp hq ⊢
  exact fun h => (List.prefix_or_prefix_of_prefix h (List.prefix_append q x)).elim hp hq

theorem append_ne_word {q w : Bytes} (h : q.isPrefixOf w = false) (x : Bytes) : q ++ x ≠ w := by
  rintro rfl
  rw [Bool.eq_false_iff, Ne, List.isPrefixOf_iff_prefix] at h
  exact h (List.prefix_append q x)

theorem isPrefixOf_append (q x : Bytes) : q.isPrefixOf (q ++ x) = true :=
  List.isPrefixOf_iff_prefix.2 (List.prefix_append q x)

/-- The lines that the client does not send. -/
def localLines : List Bytes :=
  ["/quit", "/fake rumor", "/fake raid", "/fake leak", "/fake rich", "/fake endround", "/fake ok",
    "/fake over"].map utf8

/-- What is checked on the words of the commands: their lengths, that none begins another or a line
that stays with the client, and that all begin with a slash. -/
structure CommandWords : Prop where
  buy : (utf8 "/buy ").length = 5
  dispose : (utf8 "/dispose ").length = 9
  rumor : (utf8 "/rumor ").length = 7
  sell : (utf8 "/sell ").length = 6
  apart : [utf8 "/buy ", utf8 "/dispose ", utf8 "/rumor ", utf8 "/sell "].Pairwise fun p q =>
    p.isPrefixOf q = false ∧ q.isPrefixOf p = false
  inventory : ∀ q ∈ [utf8 "/rumor ", utf8 "/sell "],
    q.isPrefixOf (utf8 "/inventory") = false ∧ q.isPrefixOf (utf8 "/inv") = false
  slash : ∀ w ∈ [utf8 "/buy ", utf8 "/dispose ", utf8 "/inventory", utf8 "/inv", utf8 "/rumor ",
    utf8 "/sell "], w.head? = some 47
  inven : UiLoop.request (utf8 "/inventory") = .inven
  payoff : UiLoop.request (utf8 "/payoff") = .chat (utf8 "/payoff")
  payoffSlash : (utf8 "/payoff").head? = some 47
  sent : ∀ q ∈ [utf8 "/buy ", utf8 "/dispose ", utf8 "/rumor ", utf8 "/sell "],
    ∀ w ∈ localLines, q.isPrefixOf w = false
  whole : utf8 "/inventory" ∉ localLines ∧ utf8 "/payoff" ∉ localLines
  locally : ∀ w ∈ localLines, w.head? = some 47

theorem commandWords : CommandWords := by constructor <;> decide +kernel

theorem request_buy (x : Bytes) : UiLoop.request (utf8 "/buy " ++ x) = .buy (atoi x) := by
  rw [UiLoop.request, if_pos (isPrefixOf_append _ _),
    List.drop_left' (CommandWords.buy commandWords)]

theorem request_dispose (x : Bytes) :
    UiLoop.request (utf8 "/dispose " ++ x) = .dispose (atoi x) := by
  have hapart := CommandWords.apart commandWords
  simp only [List.pairwise_cons, List.forall_mem_cons] at hapart
  have hbuy := not_isPrefixOf hapart.1.1.1 hapart.1.1.2 x
  rw [UiLoop.request, if_neg (by rw [hbuy]; exact Bool.false_ne_true),
    if_pos (isPrefixOf_append _ _), List.drop_left' (CommandWords.dispose commandWords)]

/-- A command with an argument is not a command for the inventory. -/
theorem not_inventory {q : Bytes} (hq : q ∈ [utf8 "/rumor ", utf8 "/sell "]) (x : Bytes) :
    ¬(q ++ x = utf8 "/inventory" ∨ q ++ x = utf8 "/inv") :=
  not_or.2 ⟨append_ne_word (CommandWords.inventory commandWords q hq).1 x,
    append_ne_word (CommandWords.inventory commandWords q hq).2 x⟩

theorem request_rumor (x : Bytes) :
    UiLoop.request (utf8 "/rumor " ++ x) = .rumor (Key.ofBytes x) := by
  have hapart := CommandWords.apart commandWords
  simp only [List.pairwise_cons, List.forall_mem_cons] at hapart
  obtain ⟨⟨-, hbuy, -⟩, ⟨hdispose, -⟩, -⟩ := hapart
  rw [UiLoop.request,
    if_neg (by rw [not_isPrefixOf hbuy.1 hbuy.2]; exact Bool.false_ne_true),
    if_neg (by rw [not_isPrefixOf hdispose.1 hdispose.2]; exact Bool.false_ne_true),
    if_neg (not_inventory List.mem_cons_self x), if_pos (isPrefixOf_append _ _),
    List.drop_left' (CommandWords.rumor commandWords)]

theorem request_sell (x : Bytes) :
    UiLoop.request (utf8 "/sell " ++ x) = UiLoop.sellRequest x := by
  have hapart := CommandWords.apart commandWords
  simp only [List.pairwise_cons, List.forall_mem_cons] at hapart
  obtain ⟨⟨-, -, hbuy, -⟩, ⟨-, hdispose, -⟩, ⟨hrumor, -⟩, -⟩ := hapart
  rw [UiLoop.request,
    if_neg (by rw [not_isPrefixOf hbuy.1 hbuy.2]; exact Bool.false_ne_true),
    if_neg (by rw [not_isPrefixOf hdispose.1 hdispose.2]; exact Bool.false_ne_true),
    if_neg (not_inventory (List.mem_cons_of_mem _ List.mem_cons_self) x),
    if_neg (by rw [not_isPrefixOf hrumor.1 hrumor.2]; exact Bool.false_ne_true),
    if_pos (isPrefixOf_append _ _), List.drop_left' (CommandWords.sell commandWords)]

/-- A line that does not begin with a slash is a chat. -/
theorem request_chat {text : Bytes} (h : text.head? ≠ some 47) :
    UiLoop.request text = .chat (cstr maxTextLen text) := by
  have hno : ∀ w : Bytes, w.head? = some 47 → w.isPrefixOf text = false := by
    intro w hw
    rw [Bool.eq_false_iff, Ne, List.isPrefixOf_iff_prefix]
    rintro ⟨x, rfl⟩
    cases w with
    | nil => cases hw
    | cons b w => exact h hw
  have hne : ∀ w : Bytes, w.head? = some 47 → text ≠ w := fun w hw heq => h (heq ▸ hw)
  have hslash := CommandWords.slash commandWords
  simp only [List.forall_mem_cons] at hslash
  obtain ⟨hbuy, hdispose, hinventory, hinv, hrumor, hsell, -⟩ := hslash
  rw [UiLoop.request, if_neg (by rw [hno _ hbuy]; exact Bool.false_ne_true),
    if_neg (by rw [hno _ hdispose]; exact Bool.false_ne_true),
    if_neg (not_or.2 ⟨hne _ hinventory, hne _ hinv⟩),
    if_neg (by rw [hno _ hrumor]; exact Bool.false_ne_true),
    if_neg (by rw [hno _ hsell]; exact Bool.false_ne_true)]

theorem take_padTo {k : ℕ} {l : List ℤ} (h : l.length ≤ k) :
    (padTo k 0 l).toList.take l.length = l := by
  refine List.ext_getElem (by simp [h]) fun i h₁ h₂ => ?_
  have hi : i < k := h₂.trans_le h
  have hentry : (padTo k 0 l)[i] = l.getD i 0 := Vector.getElem_ofFn _
  rw [List.getElem_take, Vector.getElem_toList, hentry, List.getD_eq_getElem?_getD,
    List.getElem?_eq_getElem h₂, Option.getD_some]

/-- **A line that asks for a command** is read as this command by the server. -/
theorem dispatch_line {c : PlayerCommand} (h : c.Valid) :
    Command.dispatch (UiLoop.request c.line) = c.served := by
  cases c with
  | buy d =>
    rw [PlayerCommand.line, request_buy, atoi_decimal h]
    rfl
  | dispose d =>
    rw [PlayerCommand.line, request_dispose, atoi_decimal h]
    rfl
  | rumor target =>
    rw [PlayerCommand.line, request_rumor, ofBytes_bytes]
    rfl
  | inventory =>
    rw [PlayerCommand.line, CommandWords.inven commandWords]
    rfl
  | payoff =>
    rw [PlayerCommand.line, CommandWords.payoff commandWords]
    exact if_pos rfl
  | chat text =>
    rw [PlayerCommand.line, request_chat h]
    refine if_neg fun heq => h ?_
    have hpre : utf8 "/payoff" <+: text := by
      rw [← heq]
      exact (List.take_prefix _ _).trans (List.takeWhile_prefix _)
    obtain ⟨x, rfl⟩ := hpre
    rw [List.head?_append, CommandWords.payoffSlash commandWords]
    rfl
  | sell n ds =>
    obtain ⟨hints, hne, hlen⟩ := h
    have hread : ((n :: ds).map decimal).map atoi = n :: ds := by
      rw [List.map_map]
      exact (List.map_congr_left fun x hx => atoi_decimal (hints x hx)).trans (List.map_id _)
    have hreq : UiLoop.sellRequest ([32].intercalate ((n :: ds).map decimal)) =
        .sell n ds.length (padTo _ 0 ds) := by
      simp only [UiLoop.sellRequest, words_decimals, hread, List.headD_cons, List.tail_cons,
        List.take_of_length_le hlen]
    have hcount : ¬((ds.length : ℤ) ≤ 0 ∨ (maxInvenSize : ℤ) < ds.length) := by
      have hpos := List.length_pos_of_ne_nil hne
      omega
    rw [PlayerCommand.line, request_sell, hreq, Command.dispatch, if_neg hcount, Int.toNat_natCast,
      take_padTo hlen]
    rfl

/-! ### Typing -/

theorem line_not_local {c : PlayerCommand} (h : c.Valid) : ∀ w ∈ localLines, c.line ≠ w := by
  have hword : ∀ q : Bytes, (∀ w ∈ localLines, q.isPrefixOf w = false) → ∀ x, ∀ w ∈ localLines,
      q ++ x ≠ w := fun q hq x w hw => append_ne_word (hq w hw) x
  have hsent := CommandWords.sent commandWords
  simp only [List.forall_mem_cons] at hsent
  obtain ⟨hbuy, hdispose, hrumor, hsell, -⟩ := hsent
  cases c with
  | buy d => exact hword _ hbuy _
  | sell n ds => exact hword _ hsell _
  | dispose d => exact hword _ hdispose _
  | rumor target => exact hword _ hrumor _
  | inventory =>
    rintro w hw rfl
    exact (CommandWords.whole commandWords).1 hw
  | payoff =>
    rintro w hw rfl
    exact (CommandWords.whole commandWords).2 hw
  | chat text =>
    exact fun w hw heq => h (by rw [← CommandWords.locally commandWords w hw, ← heq]; rfl)

/-- **Entering the line of a command** in the normal mode sends its request. -/
theorem submit_line {c : PlayerCommand} (h : c.Valid) (hmode : s.client.mode = .normal)
    (hline : s.line = c.line) : s.submit = (s.clearLine, [UiLoop.request c.line]) := by
  have hno : ∀ w ∈ localLines, s.line ≠ w := by
    rw [hline]
    exact line_not_local h
  simp only [localLines, List.map_cons, List.map_nil, List.forall_mem_cons] at hno
  obtain ⟨hquit, hrumor, hraid, hleak, hrich, hend, hok, hover, -⟩ := hno
  rw [UiLoop.submit, if_neg hquit, hmode]
  show s.command = _
  rw [UiLoop.command, if_neg hrumor, if_neg hraid, if_neg hleak, if_neg hrich, if_neg hend,
    if_neg hok, if_neg hover, hline]

/-- **From the keyboard to the handler.**  A command that is typed at an empty line of the normal
mode, whatever packets come in between, is the last one that is served to the client. -/
theorem served_of_typed {c : PlayerCommand} (hc : c.Valid) (hs : s.Sound) (h0 : s.len = 0)
    (ht : UiLoop.Typing c.line es) (hsmooth : UiLoop.Smooth s.width c.line es)
    (hr : (s.run es).running = true) (hmode : (s.run es).client.mode = .normal)
    (h : Handles e' (.login sock .recv) (sessionStream e key s (es ++ [.byte 10])) ps []) :
    ∃ before q, ps = before ++ [q] ∧ Command.dispatch (q.request e') = c.served := by
  have htyped := UiLoop.typing_line hs h0 ht hr
  have hline : (s.run es).line = c.line := htyped.line_eq (htyped.smooth_iff.2 hsmooth)
  have hsent : s.sends (es ++ [.byte 10]) = s.sends es ++ [UiLoop.request c.line] := by
    have henter : (s.run es).step (.byte 10) = (s.run es).terminate.submit := if_pos hr
    rw [UiLoop.sends_append, UiLoop.sends, UiLoop.sends, henter, (hs.run es).terminate_eq,
      submit_line hc hmode hline, List.append_nil]
  obtain ⟨later, hread, hnil⟩ := handled_of_sends h
  rw [hnil rfl, List.append_nil, sessionRequests, hsent, ← List.cons_append,
    ← List.cons_append] at hread
  obtain ⟨before, last, rfl, -, hlast⟩ := List.append_eq_map_iff.1 hread
  obtain ⟨q, rfl, hq⟩ := List.map_eq_singleton_iff.1 hlast
  exact ⟨before, q, rfl, by rw [hq, dispatch_line hc]⟩

/-! ### An example -/

/-- A sale of the documents 111 and 70 to the order 102. -/
def typedSale : PlayerCommand := .sell 102 [111, 70]

/-- The keys pressed for it. -/
def saleKeys : List UiEvent := typedSale.line.map .byte

/-- A sale typed on a big-endian host is served by a little-endian one. -/
theorem served_sale : ∃ ps before q, Handles .little (.login 5 .recv)
    (sessionStream .big (Key.ofBytes (utf8 "alice")) (.start 1000 10000 30 100)
      (saleKeys ++ [.byte 10])) ps [] ∧ ps = before ++ [q] ∧
    Command.dispatch (q.request .little) = .sell 102 [70, 111] .findNpc := by
  obtain ⟨ps, hps, -⟩ := exists_handles .little (sessionStream .big (Key.ofBytes (utf8 "alice"))
    (.start 1000 10000 30 100) (saleKeys ++ [.byte 10])) (.login 5 .recv) (.inl ⟨5, rfl⟩)
  have hsmooth : UiLoop.Smooth (UiLoop.start 1000 10000 30 100).width typedSale.line saleKeys := by
    refine ⟨by decide +kernel, fun _ => by decide +kernel, fun before e after heq hraid => ?_⟩
    have hmem : e ∈ saleKeys := heq ▸ List.mem_append_right _ List.mem_cons_self
    obtain ⟨b, -, rfl⟩ := List.mem_map.1 hmem
    cases hraid
  have hsorted : marketDocSortIds [111, 70] = [70, 111] := by decide
  obtain ⟨before, q, hq, hserved⟩ := served_of_typed (c := typedSale)
    ⟨by decide, by decide, by decide⟩ (UiLoop.sound_start _ _ _ _) (by decide +kernel)
    (UiLoop.typing_map _) hsmooth (by decide +kernel) (by decide +kernel) hps
  exact ⟨ps, before, q, hps, hq, hserved.trans (congrArg (Command.sell 102 · .findNpc) hsorted)⟩

end UnderFlow
