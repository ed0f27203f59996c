import UnderFlow.Common.Wire
import UnderFlow.Data.Numeral
import UnderFlow.Data.Layout

/-!
# Packets and their bytes

What the senders of a type fill in, and what its receivers read: the data of
`UnderFlow.Common.Protocol` in the memory of `UnderFlow.Common.Wire`.

* `Message` : the type of a packet, and a value of its layout.
* `Message.image` : the memory of a packet that is filled after `memset`.
* `value_arrives` : a host of any byte order reads the value another one has sent.
* `request_of_message` : the server reads the request a client has filled in.
-/

namespace UnderFlow

/-! ### Messages -/

/-- The number of a type. -/
def PacketType.code (t : PacketType) : BitVec 32 :=
  if t ∈ PacketType.events then BitVec.ofNat 32 (300 + PacketType.events.idxOf t)
  else if t ∈ PacketType.responses then BitVec.ofNat 32 (200 + PacketType.responses.idxOf t)
  else BitVec.ofNat 32 (100 + PacketType.requests.idxOf t)

/-- A packet as it is filled: its type, and the member of the union. -/
structure Message where
  /-- The type. -/
  type : PacketType
  /-- The members of the body. -/
  value : type.layout.Val

namespace Message

variable (b : Message)

/-- Every string of the message leaves room for its NUL. -/
def Fits : Prop := b.type.layout.Fits b.value

/-- The memory of a packet: zeroed, then the type and the member of the union are stored. -/
def image (e : ByteOrder) : PacketImage :=
  b.type.layout.put e body b.value (store e 0 b.type.code (Vector.replicate _ 0))

/-- The bytes of the packet on the wire. -/
def bytes (e : ByteOrder) : List UInt8 := (packetSend e (b.image e)).toList

end Message

/-- The message in a packet of a known type. -/
def PacketImage.message (e : ByteOrder) (t : PacketType) (m : PacketImage) : Message :=
  ⟨t, t.layout.get e body m⟩

/-! ### What arrives -/

variable {e e' : ByteOrder} {m : PacketImage} {t : PacketType} {b : Message} {i : ℕ}

/-- What is checked on all types: their codes, their sizes, and where their strings lie. -/
theorem types_checked (t : PacketType) : PacketType.ofCode t.code = some t ∧
    body + t.layout.size ≤ packetSize ∧ ∀ x ∈ t.layout.strings body, body ≤ x.1 ∧
      (∀ off ∈ t.swapped, x.1 + x.2 ≤ off ∨ off + 4 ≤ x.1) ∧
        ∀ i ∈ t.terminators, i < x.1 ∨ x.1 + x.2 ≤ i + 1 :=
  forall_packetType (P := fun t => PacketType.ofCode t.code = some t ∧
    body + t.layout.size ≤ packetSize ∧ ∀ x ∈ t.layout.strings body, body ≤ x.1 ∧
      (∀ off ∈ t.swapped, x.1 + x.2 ≤ off ∨ off + 4 ≤ x.1) ∧
        ∀ i ∈ t.terminators, i < x.1 ∨ x.1 + x.2 ≤ i + 1) (by decide +kernel) t

theorem ofCode_code (t : PacketType) : PacketType.ofCode t.code = some t := (types_checked t).1

theorem layout_le (t : PacketType) : body + t.layout.size ≤ packetSize := (types_checked t).2.1

/-- No word that is turned, and no terminator but the last byte, lies in a string. -/
theorem strings_apart (t : PacketType) : ∀ x ∈ t.layout.strings body, body ≤ x.1 ∧
    (∀ off ∈ t.swapped, x.1 + x.2 ≤ off ∨ off + 4 ≤ x.1) ∧
      ∀ i ∈ t.terminators, i < x.1 ∨ x.1 + x.2 ≤ i + 1 := (types_checked t).2.2

theorem packetType_image : packetType e (b.image e) = some b.type := by
  have hsize := layout_le b.type
  have hload : load e 0 (b.image e) = b.type.code := by
    refine load_eq fun k hk => ?_
    rw [Message.image, CType.byteAt_put hsize (.inl (by simp only [body]; omega)),
      byteAt_store (by simp only [body] at hsize; omega), if_pos (by omega),
      Nat.add_sub_cancel_left]
  rw [packetType, hload, ofCode_code]

/-- The type arrives, whatever the byte orders. -/
theorem packetType_arrives (h : packetType e m = some t) :
    packetType e' (swapHeader e' (packetSend e m)) = some t := by
  have hload : load e' 0 (swapHeader e' (packetSend e m)) = load e 0 m := by
    rw [← load_enforce h (List.mem_append_left _ List.mem_cons_self),
      ← load_packetSend h (List.mem_append_left _ List.mem_cons_self),
      ← load_swapWord (e := e') (header_apart.fits 0 List.mem_cons_self)]
    exact load_congr fun k hk => byteAt_swapWords_of_mem header_apart List.mem_cons_self hk
  rw [packetType, hload]
  exact h

theorem packetType_decode (h : packetType e m = some t) :
    packetType e' (packetDecode e' (packetSend e m)) = some t := by
  rw [packetDecode, packetType_enforce, packetType_swap, packetType_arrives h]

/-- A byte outside of the words arrives, unless it is a terminator. -/
theorem byteAt_arrives (h : packetType e m = some t) (hi : body ≤ i)
    (hout : ∀ off ∈ t.swapped, i < off ∨ off + 4 ≤ i) :
    byteAt (packetDecode e' (packetSend e m)) i =
      if i ∈ t.terminators then 0 else byteAt m i := by
  have hfits : ∀ off ∈ t.swapped, off + 4 ≤ packetSize := fun off hoff =>
    (swapped_apart t).fits off (List.mem_append_right _ hoff)
  have hhead : ∀ (e : ByteOrder) (m : PacketImage), byteAt (swapHeader e m) i = byteAt m i := by
    intro e m
    refine byteAt_swapWords_of_out header_apart.fits fun off hoff => ?_
    simp only [body] at hi
    simp only [List.mem_cons, List.not_mem_nil, or_false] at hoff
    omega
  have hsent : byteAt (packetSend e m) i = if i ∈ t.terminators then 0 else byteAt m i := by
    rw [packetSend, hhead, swapPacketEndian, packetType_enforce, h, Option.elim_some,
      byteAt_swapWords_of_out hfits hout, enforceNullTermination, h, Option.elim_some,
      byteAt_terminate]
  have hdecoded : byteAt (swapPacketEndian e' (swapHeader e' (packetSend e m))) i =
      byteAt (packetSend e m) i := by
    rw [swapPacketEndian, packetType_arrives h, Option.elim_some,
      byteAt_swapWords_of_out hfits hout, hhead]
  rw [packetDecode, enforceNullTermination, packetType_swap, packetType_arrives h,
    Option.elim_some, byteAt_terminate, hdecoded, hsent]
  split_ifs <;> rfl

/-- **A value arrives** as it was sent, at a host of any byte order. -/
theorem value_arrives (hb : b.Fits) (ht : b.type ≠ .resLoginFail) :
    (packetDecode e' (packetSend e (b.image e))).message e' b.type = b := by
  have htype : packetType e (b.image e) = some b.type := packetType_image
  have hput : b.type.layout.get e body (b.image e) = b.value := CType.get_put (layout_le _) hb
  have hfits : b.type.layout.Fits (b.type.layout.get e body (b.image e)) := by
    rw [hput]
    exact hb
  have hget : b.type.layout.get e' body (packetDecode e' (packetSend e (b.image e))) =
      b.type.layout.get e body (b.image e) := by
    refine CType.get_agree (fun off hoff => ?_) fun x hx => ?_
    · exact (portable_of_ne ht).agree e e' _ htype off (List.mem_append_right _ hoff)
    · obtain ⟨hbody, hwords, hlast⟩ := strings_apart b.type x hx
      refine getStr_terminated (CType.short_of_fits hfits x hx) fun i hi => ?_
      rw [byteAt_arrives htype (by omega) fun off hoff => by have := hwords off hoff; omega]
      split_ifs with hterm
      · refine .inr ⟨?_, rfl⟩
        have := hlast _ hterm
        omega
      · exact .inl rfl
  rw [PacketImage.message, hget, hput]

/-! ### Fields -/

/-- An `int32_t` as it is stored. -/
def int32 (x : ℤ) : BitVec 32 := BitVec.ofInt 32 x

theorem toInt_int32 {x : ℤ} (h : InInt32 x) : (int32 x).toInt = x := wrapInt32_eq h

/-! ### Requests -/

/-- What the client fills in for a request. -/
def Request.message : Request → Option Message
  | .login key => some ⟨.reqLogin, key.bytes, ()⟩
  | .chat text => some ⟨.reqChat, text, ()⟩
  | .buy d => some ⟨.reqBuy, int32 d, ()⟩
  | .sell n count ds => some ⟨.reqSell, int32 n, int32 count, ds.map int32, ()⟩
  | .dispose d => some ⟨.reqDispose, int32 d, ()⟩
  | .inven => some ⟨.reqInven, ()⟩
  | .rumor key => some ⟨.reqRumor, key.bytes, ()⟩
  | .minigameSubmit passcode => some ⟨.reqMinigameSubmit, passcode, ()⟩
  | .triggerRaid => some ⟨.reqTriggerRaid, ()⟩
  | .triggerLeak => some ⟨.reqTriggerLeak, ()⟩
  | .triggerRich => some ⟨.reqTriggerRich, ()⟩
  | .triggerEndround => some ⟨.reqTriggerEndround, ()⟩
  | .other => none

/-- The request the server reads in a message. -/
def Message.request : Message → Request
  | ⟨.reqLogin, v⟩ => .login (Key.ofBytes v.1)
  | ⟨.reqChat, v⟩ => .chat v.1
  | ⟨.reqBuy, v⟩ => .buy v.1.toInt
  | ⟨.reqSell, v⟩ => .sell v.1.toInt v.2.1.toInt (v.2.2.1.map BitVec.toInt)
  | ⟨.reqDispose, v⟩ => .dispose v.1.toInt
  | ⟨.reqInven, _⟩ => .inven
  | ⟨.reqRumor, v⟩ => .rumor (Key.ofBytes v.1)
  | ⟨.reqMinigameSubmit, v⟩ => .minigameSubmit v.1
  | ⟨.reqTriggerRaid, _⟩ => .triggerRaid
  | ⟨.reqTriggerLeak, _⟩ => .triggerLeak
  | ⟨.reqTriggerRich, _⟩ => .triggerRich
  | ⟨.reqTriggerEndround, _⟩ => .triggerEndround
  | _ => .other

/-- The numbers of a request. -/
def Request.ints : Request → List ℤ
  | .buy d | .dispose d => [d]
  | .sell n count ds => n :: count :: ds.toList
  | _ => []

/-- The client can fill the request in: it has a type, its numbers are `int32_t`, and its strings
leave room for their NUL. -/
structure Request.Sendable (req : Request) : Prop where
  ints : ∀ x ∈ req.ints, InInt32 x
  fits : ∃ b, req.message = some b ∧ b.Fits

theorem cstr_eq_self {k : ℕ} {s : Bytes} (hlen : s.length < k) (hnul : 0 ∉ s) : cstr k s = s := by
  have hall : ∀ x ∈ s, decide (x ≠ 0) = true := fun x hx => by
    have hne : x ≠ 0 := fun h0 => hnul (h0 ▸ hx)
    simpa using hne
  rw [cstr, List.takeWhile_eq_self_iff.2 hall, List.take_of_length_le (by omega)]

theorem ofBytes_bytes (key : Key) : Key.ofBytes key.bytes = key :=
  Key.ext (cstr_eq_self key.len key.noNul)

theorem map_int32 {k : ℕ} {xs : Vector ℤ k} (h : ∀ x ∈ xs.toList, InInt32 x) :
    (xs.map int32).map BitVec.toInt = xs := by
  refine Vector.ext fun i hi => ?_
  rw [Vector.getElem_map, Vector.getElem_map, toInt_int32]
  exact h _ (Vector.mem_toList_iff.2 (Vector.getElem_mem hi))

/-- **The server reads the request** the client has filled in. -/
theorem request_of_message {req : Request} (h : req.Sendable) (hb : req.message = some b) :
    b.request = req := by
  have hint := h.ints
  cases req <;> cases hb
  case login key => exact congrArg Request.login (ofBytes_bytes key)
  case rumor key => exact congrArg Request.rumor (ofBytes_bytes key)
  case buy d => exact congrArg Request.buy (toInt_int32 (hint d List.mem_cons_self))
  case dispose d => exact congrArg Request.dispose (toInt_int32 (hint d List.mem_cons_self))
  case sell n count ds =>
    obtain ⟨hn, hrest⟩ := List.forall_mem_cons.1 hint
    obtain ⟨hcount, hds⟩ := List.forall_mem_cons.1 hrest
    simp only [Message.request, toInt_int32 hn, toInt_int32 hcount, map_int32 hds]
  all_goals rfl

end UnderFlow
