import UnderFlow.Common.Protocol
import UnderFlow.Data.Memory
import Mathlib.Data.BitVec

/-!
# Packets on the wire

`src/common/protocol.c` and the structures of `src/common/protocol.h`: a packet in the memory of a
host of either byte order, and what `packet_send` and `packet_recv` do to its bytes.

* `packet_roundTrip` : a packet that is sent and received is the packet with its strings
  terminated.
* `PacketType.Portable` : hosts agree on every field of a type, and its strings are terminated.
  It holds of every type but one (`portable_iff`).
-/

namespace UnderFlow

/-! ### Types of packets -/

/-- `PacketType`. -/
inductive PacketType where
  | reqLogin | reqChat | reqBuy | reqSell | reqDispose | reqInven | reqRumor | reqMinigameSubmit
  | reqTriggerRaid | reqTriggerLeak | reqTriggerRich | reqTriggerEndround
  | resLoginOk | resLoginFail | resInvenInfo | resBuyOk | resSellOk | resDisposeOk | resError
  | resMinigameOk
  | evtChat | evtMarketSpawn | evtMarketRemove | evtNpcSpawn | evtNpcDespawn | evtNewsLeak
  | evtNewsRecover | evtRumorGlitch | evtPoliceRaid | evtGameOver | evtVictory | evtScoreboard
  | evtGoalUpdate
  deriving DecidableEq

namespace PacketType

/-- The three blocks of the enumeration: from 100, from 200 and from 300. -/
def requests : List PacketType :=
  [reqLogin, reqChat, reqBuy, reqSell, reqDispose, reqInven, reqRumor, reqMinigameSubmit,
    reqTriggerRaid, reqTriggerLeak, reqTriggerRich, reqTriggerEndround]

/-- The types a server answers with. -/
def responses : List PacketType :=
  [resLoginOk, resLoginFail, resInvenInfo, resBuyOk, resSellOk, resDisposeOk, resError,
    resMinigameOk]

/-- The types a server sends unasked. -/
def events : List PacketType :=
  [evtChat, evtMarketSpawn, evtMarketRemove, evtNpcSpawn, evtNpcDespawn, evtNewsLeak,
    evtNewsRecover, evtRumorGlitch, evtPoliceRaid, evtGameOver, evtVictory, evtScoreboard,
    evtGoalUpdate]

/-- Every type of `PacketType`. -/
def all : List PacketType := requests ++ responses ++ events

theorem mem_all (t : PacketType) : t ∈ all := by
  cases t <;> decide

/-- The type with the given value, if there is one. -/
def ofCode (v : BitVec 32) : Option PacketType :=
  if 300 ≤ v.toNat then events[v.toNat - 300]?
  else if 200 ≤ v.toNat then responses[v.toNat - 200]?
  else if 100 ≤ v.toNat then requests[v.toNat - 100]?
  else none

end PacketType

/-! ### Layouts -/

/-- The members of `InvenItem`. -/
def invenItemLayout : CType := .struct [.int32, .int32, .chars maxNameLen, .int32]

/-- The members of `ScoreEscaped`. -/
def scoreEscapedLayout : CType := .struct [.chars maxKeyLen, .int32, .int32]

/-- The members of `ScoreRemaining`. -/
def scoreRemainingLayout : CType := .struct [.chars maxKeyLen, .int32]

/-- The member of the union that the senders of a type fill and its receivers read. -/
def PacketType.layout : PacketType → CType
  | reqLogin => .struct [.chars maxKeyLen]
  | reqChat => .struct [.chars maxTextLen]
  | reqBuy => .struct [.int32]
  | reqSell => .struct [.int32, .int32, .array maxInvenSize .int32]
  | reqDispose => .struct [.int32]
  | reqMinigameSubmit => .struct [.chars maxTextLen]
  | reqRumor => .struct [.chars maxKeyLen]
  | resLoginOk => .struct [.int32, .int32, .int32]
  -- a refused login fills `error`
  | resLoginFail => .struct [.int32, .chars maxTextLen]
  | resInvenInfo => .struct [.int32, .array maxInvenSize invenItemLayout, .int32]
  | resBuyOk => .struct [.int32, .int32, .int32, .chars maxNameLen]
  | resSellOk => .struct [.int32, .int32]
  | resError => .struct [.int32, .chars maxTextLen]
  | evtChat => .struct [.chars maxKeyLen, .chars maxTextLen]
  | evtMarketSpawn => .struct [.int32, .int32, .int32, .chars maxNameLen]
  | evtMarketRemove => .struct [.int32]
  | evtNpcSpawn => .struct [.int32, .int32, .int32]
  | evtNpcDespawn => .struct [.int32]
  | evtNewsLeak => .struct [.int32, .int32, .chars maxTextLen]
  | evtNewsRecover => .struct [.int32]
  | evtPoliceRaid => .struct [.chars maxTextLen, .int32]
  | evtGameOver => .struct [.chars maxTextLen]
  | evtVictory => .struct [.chars maxTextLen]
  | evtScoreboard => .struct [.int32, .int32, .array maxScoreEscaped scoreEscapedLayout, .int32,
      .array maxScoreRemaining scoreRemainingLayout]
  | evtGoalUpdate => .struct [.int32]
  | reqInven | reqTriggerRaid | reqTriggerLeak | reqTriggerRich | reqTriggerEndround
  | resDisposeOk | resMinigameOk | evtRumorGlitch => .empty

/-- The offset of `body`, after `type` and `session_id`. -/
def body : ℕ := 8

/-- `sizeof(Packet)`. -/
def packetSize : ℕ := body + ((PacketType.all.map fun t => t.layout.size).foldl max 0)

/-- The memory of a packet. -/
abbrev PacketImage := Vector UInt8 packetSize

/-- `type`. -/
def packetType (e : ByteOrder) (m : PacketImage) : Option PacketType :=
  PacketType.ofCode (load e 0 m)

/-! ### protocol.c -/

/-- The words `swap_packet_endian` turns for a type. -/
def PacketType.swapped : PacketType → List ℕ
  -- buy.doc_id
  | reqBuy => [body]
  -- sell.npc_id, sell.count, sell.doc_ids[i]
  | reqSell => [body, body + 4] ++ (List.range maxInvenSize).map fun i => body + 8 + i * 4
  -- dispose.doc_id
  | reqDispose => [body]
  -- login_ok.assigned_session_id, login_ok.money, login_ok.goal_money
  | resLoginOk => [body, body + 4, body + 8]
  -- inven_info.count, inven_info.money; doc_id, tags and is_frozen of inven_info.items[i]
  | resInvenInfo => [body, body + 4 + maxInvenSize * 76] ++
      (List.range maxInvenSize).flatMap fun i =>
        [body + 4 + i * 76, body + 4 + i * 76 + 4, body + 4 + i * 76 + 72]
  -- buy_ok.doc_id, buy_ok.remaining_money, buy_ok.tags
  | resBuyOk => [body, body + 4, body + 8]
  -- sell_ok.bounty, sell_ok.new_money
  | resSellOk => [body, body + 4]
  -- error.error_code
  | resError => [body]
  -- market_spawn.doc_id, market_spawn.tags, market_spawn.base_price
  | evtMarketSpawn => [body, body + 4, body + 8]
  -- market_remove.doc_id
  | evtMarketRemove => [body]
  -- npc_spawn.npc_id, npc_spawn.required_tags, npc_spawn.bounty
  | evtNpcSpawn => [body, body + 4, body + 8]
  -- npc_despawn.npc_id
  | evtNpcDespawn => [body]
  -- news_leak.frozen_tags, news_leak.duration_sec
  | evtNewsLeak => [body, body + 4]
  -- news_recover.recovered_tags
  | evtNewsRecover => [body]
  -- police_raid.time_limit_sec
  | evtPoliceRaid => [body + maxTextLen]
  -- scoreboard.countdown_sec, escaped_count, remaining_count; money_at_escape and escape_order of
  -- escaped[i]; money of remaining[i]
  | evtScoreboard => [body, body + 4, body + 8 + maxScoreEscaped * 40] ++
      ((List.range maxScoreEscaped).flatMap fun i =>
        [body + 8 + i * 40 + maxKeyLen, body + 8 + i * 40 + maxKeyLen + 4]) ++
      (List.range maxScoreRemaining).map fun i =>
        body + 12 + maxScoreEscaped * 40 + i * 36 + maxKeyLen
  -- goal_update.goal_money
  | evtGoalUpdate => [body]
  | _ => []

/-- The bytes `enforce_null_termination` clears for a type. -/
def PacketType.terminators : PacketType → List ℕ
  -- login.key
  | reqLogin => [body + maxKeyLen - 1]
  -- chat.text
  | reqChat => [body + maxTextLen - 1]
  -- minigame.passcode
  | reqMinigameSubmit => [body + maxTextLen - 1]
  -- rumor.target_key
  | reqRumor => [body + maxKeyLen - 1]
  -- buy_ok.name
  | resBuyOk => [body + 12 + maxNameLen - 1]
  -- error.reason
  | resError => [body + 4 + maxTextLen - 1]
  -- chat_evt.sender_key, chat_evt.text
  | evtChat => [body + maxKeyLen - 1, body + maxKeyLen + maxTextLen - 1]
  -- market_spawn.name
  | evtMarketSpawn => [body + 12 + maxNameLen - 1]
  -- news_leak.headline
  | evtNewsLeak => [body + 8 + maxTextLen - 1]
  -- police_raid.passcode
  | evtPoliceRaid => [body + maxTextLen - 1]
  -- endgame.message
  | evtGameOver | evtVictory => [body + maxTextLen - 1]
  -- inven_info.items[i].name
  | resInvenInfo => (List.range maxInvenSize).map fun i => body + 4 + i * 76 + 8 + maxNameLen - 1
  -- scoreboard.escaped[i].key, scoreboard.remaining[i].key
  | evtScoreboard =>
      ((List.range maxScoreEscaped).map fun i => body + 8 + i * 40 + maxKeyLen - 1) ++
      (List.range maxScoreRemaining).map fun i =>
        body + 12 + maxScoreEscaped * 40 + i * 36 + maxKeyLen - 1
  | _ => []

/-- `swap_packet_endian`: the numbers of the type are turned between host and network order. -/
def swapPacketEndian (e : ByteOrder) (m : PacketImage) : PacketImage :=
  swapWords e ((packetType e m).elim [] PacketType.swapped) m

/-- `enforce_null_termination`: the last byte of every text of the type is zero. -/
def enforceNullTermination (e : ByteOrder) (m : PacketImage) : PacketImage :=
  terminate ((packetType e m).elim [] PacketType.terminators) m

/-- The header: `type` and `session_id`. -/
def swapHeader (e : ByteOrder) (m : PacketImage) : PacketImage := swapWords e [0, 4] m

/-- The bytes that `packet_send` hands to `send`. -/
def packetSend (e : ByteOrder) (m : PacketImage) : PacketImage :=
  swapHeader e (swapPacketEndian e (enforceNullTermination e m))

/-- What `packet_recv` makes of the bytes in its buffer. -/
def packetDecode (e : ByteOrder) (m : PacketImage) : PacketImage :=
  enforceNullTermination e (swapPacketEndian e (swapHeader e m))

/-- `recv` with `MSG_WAITALL` into a buffer of `n` bytes: the bytes received, and those left on the
stream.  It returns fewer bytes than asked for only when the stream ends. -/
def recvWaitall (n : ℕ) (stream : List UInt8) : List UInt8 × List UInt8 :=
  (stream.take n, stream.drop n)

/-- The zeroed buffer with the received bytes at its beginning. -/
def PacketImage.ofReceived (bytes : List UInt8) : PacketImage :=
  Vector.ofFn fun i => bytes.getD i 0

/-- `packet_recv`: `none` when it returns no positive number. -/
def packetRecv (e : ByteOrder) (stream : List UInt8) : Option PacketImage × List UInt8 :=
  let (bytes, rest) := recvWaitall packetSize stream
  if bytes.length = 0 then (none, rest) else (some (packetDecode e (.ofReceived bytes)), rest)

/-! ### The tables -/

variable {e : ByteOrder} {m : PacketImage} {t : PacketType} {off : ℕ}

/-- A fact about every entry of `PacketType` is checked on the list of them. -/
theorem forall_packetType {P : PacketType → Prop} (h : ∀ t ∈ PacketType.all, P t) (t : PacketType) :
    P t := h t t.mem_all

/-- What is checked on the tables of every type. -/
theorem tables_checked (t : PacketType) : WordsApart packetSize ([0, 4] ++ t.swapped) ∧
    ((∀ off ∈ t.swapped, body ≤ off) ∧ ∀ i ∈ t.terminators, body ≤ i) ∧
    (∀ off ∈ [0, 4] ++ t.layout.words body, ∀ k < 4, off + k ∉ t.terminators) ∧
    (t ≠ .resLoginFail → (∀ off ∈ t.layout.words body, off ∈ t.swapped) ∧
      ∀ x ∈ t.layout.strings body, 0 < x.2 ∧ x.1 + x.2 - 1 ∈ t.terminators) := by
  have hall : ∀ t ∈ PacketType.all, WordsApart packetSize ([0, 4] ++ t.swapped) ∧
      ((∀ off ∈ t.swapped, body ≤ off) ∧ ∀ i ∈ t.terminators, body ≤ i) ∧
      (∀ off ∈ [0, 4] ++ t.layout.words body, ∀ k < 4, off + k ∉ t.terminators) ∧
      (t ≠ .resLoginFail → (∀ off ∈ t.layout.words body, off ∈ t.swapped) ∧
        ∀ x ∈ t.layout.strings body, 0 < x.2 ∧ x.1 + x.2 - 1 ∈ t.terminators) := by
    decide +kernel
  exact forall_packetType hall t

/-- The words of the header and those turned for a type do not overlap. -/
theorem swapped_apart (t : PacketType) : WordsApart packetSize ([0, 4] ++ t.swapped) :=
  (tables_checked t).1

/-- The tables of a type leave the header alone. -/
theorem body_le (t : PacketType) :
    (∀ off ∈ t.swapped, body ≤ off) ∧ ∀ i ∈ t.terminators, body ≤ i := (tables_checked t).2.1

/-- No terminator lies in a word of the layout. -/
theorem terminators_out (t : PacketType) : ∀ off ∈ [0, 4] ++ t.layout.words body,
    ∀ k < 4, off + k ∉ t.terminators := (tables_checked t).2.2.1

/-- The words of every layout but one are turned, and its strings are terminated. -/
theorem tables_complete (t : PacketType) : t ≠ .resLoginFail →
    (∀ off ∈ t.layout.words body, off ∈ t.swapped) ∧
      ∀ x ∈ t.layout.strings body, 0 < x.2 ∧ x.1 + x.2 - 1 ∈ t.terminators :=
  (tables_checked t).2.2.2

/-! ### Round trips -/

theorem elim_words_body (x : Option PacketType) : ∀ off ∈ x.elim [] PacketType.swapped,
    body ≤ off ∧ off + 4 ≤ packetSize := by
  cases x with
  | none => exact nofun
  | some t =>
    exact fun off hoff => ⟨(body_le t).1 off hoff,
      (swapped_apart t).fits off (List.mem_append_right _ hoff)⟩

/-- The type of a packet is read from its header. -/
theorem packetType_congr {m' : PacketImage} (h : ∀ i < body, byteAt m i = byteAt m' i) :
    packetType e m = packetType e m' := by
  rw [packetType, packetType, load_congr fun k hk => h (0 + k) (by simp only [body]; omega)]

@[simp] theorem packetType_enforce :
    packetType e (enforceNullTermination e m) = packetType e m := by
  refine packetType_congr fun i hi => ?_
  rw [enforceNullTermination, byteAt_terminate, if_neg]
  intro hmem
  cases ht : packetType e m with
  | none =>
    rw [ht] at hmem
    cases hmem
  | some t =>
    rw [ht] at hmem
    have := (body_le t).2 i hmem
    omega

@[simp] theorem packetType_swap : packetType e (swapPacketEndian e m) = packetType e m := by
  refine packetType_congr fun i hi => ?_
  refine byteAt_swapWords_of_out (fun off hoff => (elim_words_body _ off hoff).2) fun off hoff => ?_
  have := (elim_words_body _ off hoff).1
  omega

/-- The words of the header do not overlap. -/
theorem header_apart : WordsApart packetSize [0, 4] := by
  have hsize : body ≤ packetSize := Nat.le_add_right _ _
  simp only [body] at hsize
  refine ⟨fun off hoff => ?_, by decide⟩
  simp only [List.mem_cons, List.not_mem_nil, or_false] at hoff
  omega

theorem swapHeader_swapHeader : swapHeader e (swapHeader e m) = m :=
  swapWords_swapWords header_apart

theorem swapPacketEndian_swapPacketEndian : swapPacketEndian e (swapPacketEndian e m) = m := by
  rw [swapPacketEndian, packetType_swap, swapPacketEndian]
  cases packetType e m with
  | none => rfl
  | some t =>
    have happart := swapped_apart t
    exact swapWords_swapWords ⟨fun off hoff => happart.fits off (List.mem_append_right _ hoff),
      (List.pairwise_append.1 happart.apart).2.1⟩

theorem enforce_enforce : enforceNullTermination e (enforceNullTermination e m) =
    enforceNullTermination e m := by
  rw [enforceNullTermination, packetType_enforce, enforceNullTermination, terminate_terminate]

/-- Decoding undoes sending, up to the terminators. -/
theorem packetDecode_packetSend : packetDecode e (packetSend e m) = enforceNullTermination e m := by
  rw [packetDecode, packetSend, swapHeader_swapHeader, swapPacketEndian_swapPacketEndian,
    enforce_enforce]

theorem ofReceived_toList : PacketImage.ofReceived m.toList = m := by
  refine Vector.ext fun i hi => ?_
  rw [PacketImage.ofReceived, Vector.getElem_ofFn]
  simp [Vector.getElem?_eq_getElem hi]

/-- Receiving a whole frame. -/
theorem packetRecv_frame {rest : List UInt8} :
    packetRecv e (m.toList ++ rest) = (some (packetDecode e m), rest) := by
  have hlen : m.toList.length = packetSize := by simp
  have hpos : packetSize ≠ 0 := by simp [packetSize, body]
  simp only [packetRecv, recvWaitall, List.take_left' hlen, List.drop_left' hlen, hlen, hpos,
    ↓reduceIte, ofReceived_toList]

/-- What a successful `packet_recv` returns. -/
theorem packetRecv_eq_some {stream rest : List UInt8} {q : PacketImage} :
    packetRecv e stream = (some q, rest) ↔ stream ≠ [] ∧
      q = packetDecode e (.ofReceived (stream.take packetSize)) ∧
        rest = stream.drop packetSize := by
  have hpos : packetSize ≠ 0 := by simp [packetSize, body]
  have hlen : (stream.take packetSize).length = 0 ↔ stream = [] := by
    rw [List.length_eq_zero_iff, List.take_eq_nil_iff]
    simp [hpos]
  by_cases hs : stream = []
  · simp [packetRecv, recvWaitall, hs]
  · have hne : (stream.take packetSize).length ≠ 0 := fun h => hs (hlen.1 h)
    have hval : packetRecv e stream = (some (packetDecode e (.ofReceived
        (stream.take packetSize))), stream.drop packetSize) := if_neg hne
    rw [hval, Prod.mk.injEq, Option.some.injEq]
    exact ⟨fun h => ⟨hs, h.1.symm, h.2.symm⟩, fun h => ⟨h.2.1.symm, h.2.2.symm⟩⟩

theorem packetRecv_nil : packetRecv e [] = (none, []) := rfl

/-- A received packet has its strings terminated. -/
theorem enforce_of_packetRecv {stream rest : List UInt8} {q : PacketImage}
    (h : packetRecv e stream = (some q, rest)) : enforceNullTermination e q = q := by
  obtain ⟨-, rfl, -⟩ := packetRecv_eq_some.1 h
  rw [packetDecode, enforce_enforce]

/-- **Packet round trip.**  A packet that is sent and received is the packet with a NUL at the
terminators of its type; sending and receiving it again changes nothing. -/
theorem packet_roundTrip (e : ByteOrder) (p : PacketImage) :
    (∀ rest, packetRecv e ((packetSend e p).toList ++ rest) =
      (some (enforceNullTermination e p), rest)) ∧
    (∀ i, byteAt (enforceNullTermination e p) i =
      if i ∈ (packetType e p).elim [] PacketType.terminators then 0 else byteAt p i) ∧
    ∀ stream q rest, packetRecv e stream = (some q, rest) →
      ∀ rest', packetRecv e ((packetSend e q).toList ++ rest') = (some q, rest') := by
  refine ⟨fun rest => ?_, fun i => byteAt_terminate, fun stream q rest h rest' => ?_⟩
  · rw [packetRecv_frame, packetDecode_packetSend]
  · rw [packetRecv_frame, packetDecode_packetSend, enforce_of_packetRecv h]

/-! ### Fields -/

/-- Hosts of any byte order agree on every field of the type, and its strings are terminated. -/
structure PacketType.Portable (t : PacketType) : Prop where
  /-- Every word is big-endian on the wire. -/
  network : ∀ (e : ByteOrder) (p : PacketImage), packetType e p = some t →
    ∀ off ∈ [0, 4] ++ t.layout.words body, load .big off (packetSend e p) = load e off p
  /-- A receiver of any byte order reads what the sender wrote. -/
  agree : ∀ (e e' : ByteOrder) (p : PacketImage), packetType e p = some t →
    ∀ off ∈ [0, 4] ++ t.layout.words body,
      load e' off (packetDecode e' (packetSend e p)) = load e off p
  /-- Every string contains a NUL, whatever bytes were received. -/
  terminated : ∀ (e : ByteOrder) (stream : List UInt8) (q : PacketImage) (rest : List UInt8),
    packetRecv e stream = (some q, rest) → packetType e q = some t →
      ∀ x ∈ t.layout.strings body, ∃ i < x.2, byteAt q (x.1 + i) = 0

theorem load_enforce (ht : packetType e m = some t) (hoff : off ∈ [0, 4] ++ t.layout.words body) :
    load e off (enforceNullTermination e m) = load e off m := by
  refine load_congr fun k hk => ?_
  rw [enforceNullTermination, ht, byteAt_terminate, if_neg]
  exact terminators_out t off hoff k hk

/-- A word of the tables is turned once on its way to the wire. -/
theorem load_packetSend (ht : packetType e m = some t) (hoff : off ∈ [0, 4] ++ t.swapped) :
    load .big off (packetSend e m) = load e off (enforceNullTermination e m) := by
  have happart := swapped_apart t
  have hsend : packetSend e m =
      swapWords e (t.swapped ++ [0, 4]) (enforceNullTermination e m) := by
    rw [packetSend, swapHeader, swapPacketEndian, packetType_enforce, ht, swapWords_append]
    rfl
  have hperm : WordsApart packetSize (t.swapped ++ [0, 4]) := by
    refine ⟨fun o ho => happart.fits o ?_, ?_⟩
    · exact List.mem_append.2 (List.mem_append.1 ho).symm
    · exact (List.perm_append_comm.pairwise_iff fun h => h.symm).1 happart.apart
  rw [← load_big_swapWord (m := enforceNullTermination e m) (happart.fits off hoff), hsend]
  exact load_congr fun k hk =>
    byteAt_swapWords_of_mem hperm (List.mem_append.2 (List.mem_append.1 hoff).symm) hk

/-- A word of the tables is turned once on its way from the wire. -/
theorem load_packetDecode (ht : packetType e (swapHeader e m) = some t)
    (hoff : off ∈ [0, 4] ++ t.swapped) (hword : off ∈ [0, 4] ++ t.layout.words body) :
    load e off (packetDecode e m) = load .big off m := by
  have happart := swapped_apart t
  have hdecode : swapPacketEndian e (swapHeader e m) = swapWords e ([0, 4] ++ t.swapped) m := by
    rw [swapPacketEndian, ht, swapHeader, swapWords_append]
    rfl
  have ht' : packetType e (swapPacketEndian e (swapHeader e m)) = some t := by
    rw [packetType_swap, ht]
  rw [packetDecode, load_enforce ht' hword, hdecode,
    ← load_swapWord (e := e) (happart.fits off hoff)]
  exact load_congr fun k hk => byteAt_swapWords_of_mem happart hoff hk

/-- Every string of a type whose terminators are in the table is terminated. -/
theorem nul_of_packetRecv {stream rest : List UInt8} {q : PacketImage}
    (h : packetRecv e stream = (some q, rest)) (ht : packetType e q = some t) {i : ℕ}
    (hi : i ∈ t.terminators) : byteAt q i = 0 := by
  rw [← enforce_of_packetRecv h, enforceNullTermination, ht, byteAt_terminate, if_pos]
  exact hi

theorem portable_of_ne (ht : t ≠ .resLoginFail) : t.Portable := by
  obtain ⟨hwords, hstrings⟩ := tables_complete t ht
  have hmem : ∀ off ∈ [0, 4] ++ t.layout.words body, off ∈ [0, 4] ++ t.swapped := by
    intro off hoff
    rcases List.mem_append.1 hoff with hhead | hbody
    · exact List.mem_append_left _ hhead
    · exact List.mem_append_right _ (hwords off hbody)
  have hnet : ∀ (e : ByteOrder) (p : PacketImage), packetType e p = some t →
      ∀ off ∈ [0, 4] ++ t.layout.words body, load .big off (packetSend e p) = load e off p := by
    intro e p hp off hoff
    rw [load_packetSend hp (hmem off hoff), load_enforce hp hoff]
  refine ⟨hnet, fun e e' p hp off hoff => ?_, fun e stream q rest h hq x hx => ?_⟩
  · have hhead : ∀ o ∈ [0, 4], load e' o (swapHeader e' (packetSend e p)) = load e o p := by
      intro o ho
      have happart := header_apart
      rw [← hnet e p hp o (List.mem_append_left _ ho),
        ← load_swapWord (e := e') (happart.fits o ho)]
      exact load_congr fun k hk => byteAt_swapWords_of_mem happart ho hk
    have htype : packetType e' (swapHeader e' (packetSend e p)) = some t := by
      rw [packetType, hhead 0 (by decide)]
      exact hp
    rw [load_packetDecode htype (hmem off hoff) hoff, hnet e p hp off hoff]
  · obtain ⟨hpos, hterm⟩ := hstrings x hx
    refine ⟨x.2 - 1, by omega, ?_⟩
    have hlast : x.1 + (x.2 - 1) = x.1 + x.2 - 1 := by omega
    rw [hlast]
    exact nul_of_packetRecv h hq hterm

/-! ### A refused login -/

/-- A refusal because of a duplicate login, in the memory of a little-endian host. -/
def loginFailImage : PacketImage :=
  store .little body 10 (store .little 0 201 (Vector.replicate _ 0))

/-- A frame of the type of a refused login without any NUL in its body. -/
def loginFailStream : List UInt8 := [0, 0, 0, 201] ++ List.replicate (packetSize - 4) 65

/-- The body of a refused login is in neither table. -/
theorem byteAt_decode_loginFail (ht : packetType e (swapHeader e m) = some .resLoginFail) {i : ℕ}
    (hi : body ≤ i) : byteAt (packetDecode e m) i = byteAt m i := by
  have htables : PacketType.resLoginFail.swapped = [] ∧ PacketType.resLoginFail.terminators = [] :=
    ⟨rfl, rfl⟩
  have hswap : swapPacketEndian e (swapHeader e m) = swapHeader e m := by
    rw [swapPacketEndian, ht, Option.elim_some, htables.1, swapWords, List.foldl_nil]
  rw [packetDecode, hswap, enforceNullTermination, ht, Option.elim_some, htables.2, terminate,
    List.foldl_nil, swapHeader]
  refine byteAt_swapWords_of_out header_apart.fits fun off hoff => ?_
  simp only [body] at hi
  simp only [List.mem_cons, List.not_mem_nil, or_false] at hoff
  omega

theorem byteAt_loginFailStream {i : ℕ} (hi : 4 ≤ i) (hlt : i < packetSize) :
    byteAt (PacketImage.ofReceived (loginFailStream.take packetSize)) i = 65 := by
  rw [byteAt_of_lt hlt, PacketImage.ofReceived, Vector.getElem_ofFn]
  have hlen : loginFailStream.length ≤ packetSize := by decide +kernel
  show (loginFailStream.take packetSize).getD i 0 = 65
  have hhead : ([0, 0, 0, 201] : List UInt8).length = 4 := rfl
  rw [List.take_of_length_le hlen, loginFailStream, List.getD_eq_getElem?_getD,
    List.getElem?_append_right hi, List.getElem?_replicate, hhead, if_pos (by omega),
    Option.getD_some]

/-- **Hosts agree on every type but the refused login**, whose layout is in neither table. -/
theorem portable_iff (t : PacketType) : t.Portable ↔ t ≠ .resLoginFail := by
  refine ⟨fun h ht => ?_, portable_of_ne⟩
  subst ht
  have hnet := h.network .little loginFailImage (by decide +kernel) body (by decide +kernel)
  revert hnet
  decide +kernel

/-- The error code of a refused login arrives in the wrong byte order, and its reason may be
without a NUL. -/
theorem not_portable : ¬ PacketType.resLoginFail.Portable ∧
    load .little body loginFailImage = 10 ∧
    load .big body (packetDecode .big (packetSend .little loginFailImage)) = 10 * 2 ^ 24 ∧
    ∃ q rest, packetRecv .little loginFailStream = (some q, rest) ∧
      packetType .little q = some .resLoginFail ∧
        ∀ i < maxTextLen, byteAt q (body + 4 + i) ≠ 0 := by
  refine ⟨fun h => ?_, by decide +kernel, by decide +kernel, _, _,
    packetRecv_eq_some.2 ⟨nofun, rfl, rfl⟩, by decide +kernel, fun i hi => ?_⟩
  · have hnet := h.network .little loginFailImage (by decide +kernel) body (by decide +kernel)
    revert hnet
    decide +kernel
  · have hsize : body + 4 + maxTextLen ≤ packetSize := by decide +kernel
    rw [byteAt_decode_loginFail (by decide +kernel) (by omega),
      byteAt_loginFailStream (by omega) (by omega)]
    decide

end UnderFlow
