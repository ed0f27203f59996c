import UnderFlow.Common.Codec
import UnderFlow.Client.Board

/-!
# What a client reads

A packet of the server in the memory of the client.

* `Packet.message` : what the server fills in.
* `Message.uiPacket` : what the client reads.
* `packet_arrives` : the client reads what the server has sent.
-/

namespace UnderFlow

/-! ### Packets of the server -/

/-- A document of the inventory, member by member. -/
def InvenItem.fields (item : InvenItem) : invenItemLayout.Val :=
  (int32 item.docId, item.tags, item.name, if item.isFrozen then 1 else 0, ())

/-- The document the client reads from the members. -/
def InvenItem.ofFields (v : invenItemLayout.Val) : InvenItem :=
  ⟨v.1.toInt, v.2.1, v.2.2.1, v.2.2.2.1 != 0⟩

/-- An escape of the scoreboard, member by member. -/
def ScoreEscaped.fields (x : ScoreEscaped) : scoreEscapedLayout.Val :=
  (x.key.bytes, int32 x.moneyAtEscape, int32 x.escapeOrder, ())

/-- The escape the client reads from the members. -/
def ScoreEscaped.ofFields (v : scoreEscapedLayout.Val) : ScoreEscaped :=
  ⟨Key.ofBytes v.1, v.2.1.toInt, v.2.2.1.toInt.toNat⟩

/-- A remaining player of the scoreboard, member by member. -/
def ScoreRemaining.fields (x : ScoreRemaining) : scoreRemainingLayout.Val :=
  (x.key.bytes, int32 x.money, ())

/-- The player the client reads from the members. -/
def ScoreRemaining.ofFields (v : scoreRemainingLayout.Val) : ScoreRemaining :=
  ⟨Key.ofBytes v.1, v.2.1.toInt⟩

/-- What the server fills in for a packet. -/
def Packet.message : Packet → Message
  | .loginOk session money goal => ⟨.resLoginOk, int32 session, int32 money, int32 goal, ()⟩
  | .loginFail code reason => ⟨.resLoginFail, int32 code.code, reason, ()⟩
  | .invenInfo items money => ⟨.resInvenInfo, int32 items.length,
      (padTo _ ⟨0, 0, [], false⟩ items).map InvenItem.fields, int32 money, ()⟩
  | .buyOk d money tags name => ⟨.resBuyOk, int32 d, int32 money, tags, name, ()⟩
  | .sellOk bounty money => ⟨.resSellOk, int32 bounty, int32 money, ()⟩
  | .disposeOk => ⟨.resDisposeOk, ()⟩
  | .error code reason => ⟨.resError, int32 code.code, reason, ()⟩
  | .minigameOk => ⟨.resMinigameOk, ()⟩
  | .chat sender text => ⟨.evtChat, sender, text, ()⟩
  | .marketSpawn d tags price name => ⟨.evtMarketSpawn, int32 d, tags, int32 price, name, ()⟩
  | .marketRemove d => ⟨.evtMarketRemove, int32 d, ()⟩
  | .npcSpawn n tags bounty => ⟨.evtNpcSpawn, int32 n, tags, int32 bounty, ()⟩
  | .npcDespawn n => ⟨.evtNpcDespawn, int32 n, ()⟩
  | .newsLeak tags dur headline => ⟨.evtNewsLeak, tags, int32 dur, headline, ()⟩
  | .newsRecover tags => ⟨.evtNewsRecover, tags, ()⟩
  | .rumorGlitch => ⟨.evtRumorGlitch, ()⟩
  | .policeRaid passcode limit => ⟨.evtPoliceRaid, passcode, int32 limit, ()⟩
  | .gameOver message => ⟨.evtGameOver, message, ()⟩
  | .victory message => ⟨.evtVictory, message, ()⟩
  | .scoreboard countdown escaped remaining => ⟨.evtScoreboard, int32 countdown,
      int32 escaped.length, (padTo _ ⟨Key.empty, 0, 0⟩ escaped).map ScoreEscaped.fields,
      int32 remaining.length, (padTo _ ⟨Key.empty, 0⟩ remaining).map ScoreRemaining.fields, ()⟩
  | .goalUpdate goal => ⟨.evtGoalUpdate, int32 goal, ()⟩

/-- What the client reads in a message. -/
def Message.uiPacket : Message → UiPacket
  | ⟨.resLoginOk, v⟩ => .loginOk v.2.1.toInt v.2.2.1.toInt
  | ⟨.resInvenInfo, v⟩ => .invenInfo v.1.toInt (v.2.1.map InvenItem.ofFields) v.2.2.1.toInt
  | ⟨.resBuyOk, v⟩ => .buyOk v.1.toInt v.2.1.toInt v.2.2.2.1
  | ⟨.resSellOk, v⟩ => .sellOk v.1.toInt v.2.1.toInt
  | ⟨.resDisposeOk, _⟩ => .disposeOk
  | ⟨.resError, v⟩ => .error v.1.toInt v.2.1
  | ⟨.resMinigameOk, _⟩ => .minigameOk
  | ⟨.evtChat, v⟩ => .chat v.1 v.2.1
  | ⟨.evtMarketSpawn, v⟩ => .marketSpawn v.1.toInt v.2.1 v.2.2.1.toInt v.2.2.2.1
  | ⟨.evtMarketRemove, v⟩ => .marketRemove v.1.toInt
  | ⟨.evtNpcSpawn, v⟩ => .npcSpawn v.1.toInt v.2.1 v.2.2.1.toInt
  | ⟨.evtNpcDespawn, v⟩ => .npcDespawn v.1.toInt
  | ⟨.evtNewsLeak, v⟩ => .newsLeak v.1 v.2.1.toInt v.2.2.1
  | ⟨.evtNewsRecover, v⟩ => .newsRecover v.1
  | ⟨.evtRumorGlitch, _⟩ => .rumorGlitch
  | ⟨.evtPoliceRaid, v⟩ => .policeRaid v.1 v.2.1.toInt
  | ⟨.evtGameOver, v⟩ => .gameOver v.1
  | ⟨.evtVictory, v⟩ => .victory v.1
  | ⟨.evtScoreboard, v⟩ => .scoreboard v.1.toInt v.2.1.toInt (v.2.2.1.map ScoreEscaped.ofFields)
      v.2.2.2.1.toInt (v.2.2.2.2.1.map ScoreRemaining.ofFields)
  | ⟨.evtGoalUpdate, v⟩ => .goalUpdate v.1.toInt
  | _ => .other

/-- The packet in the memory of the client. -/
def PacketImage.uiPacket (e : ByteOrder) (m : PacketImage) : UiPacket :=
  match packetType e m with
  | some t => (m.message e t).uiPacket
  | none => .other

/-! ### What arrives -/

/-- The numbers of a packet. -/
def Packet.ints : Packet → List ℤ
  | .loginOk session money goal => [session, money, goal]
  | .invenInfo items money => items.length :: money :: items.map (·.docId)
  | .buyOk d money _ _ => [d, money]
  | .sellOk bounty money => [bounty, money]
  | .marketSpawn d _ price _ => [d, price]
  | .marketRemove d => [d]
  | .npcSpawn n _ bounty => [n, bounty]
  | .npcDespawn n => [n]
  | .newsLeak _ dur _ => [dur]
  | .policeRaid _ limit => [limit]
  | .scoreboard countdown escaped remaining =>
    (countdown : ℤ) :: (escaped.length : ℤ) :: (remaining.length : ℤ) ::
      ((escaped.flatMap fun x => [x.moneyAtEscape, (x.escapeOrder : ℤ)]) ++
        remaining.map (·.money))
  | .goalUpdate goal => [goal]
  | _ => []

/-- The server can fill the packet in: its numbers are `int32_t`, and its strings leave room for
their NUL. -/
structure Packet.Sendable (pkt : Packet) : Prop where
  ints : ∀ x ∈ pkt.ints, InInt32 x
  fits : pkt.message.Fits

instance (pkt : Packet) : Decidable pkt.Sendable :=
  have : Decidable pkt.message.Fits := inferInstanceAs (Decidable (CType.Fits _ _))
  decidable_of_iff (_ ∧ _) ⟨fun h => ⟨h.1, h.2⟩, fun h => ⟨h.ints, h.fits⟩⟩

theorem invenItem_ofFields {item : InvenItem} (h : InInt32 item.docId) :
    InvenItem.ofFields item.fields = item := by
  obtain ⟨d, tags, name, frozen⟩ := item
  cases frozen <;> simp [InvenItem.ofFields, InvenItem.fields, toInt_int32 h]

theorem scoreEscaped_ofFields {x : ScoreEscaped} (hmoney : InInt32 x.moneyAtEscape)
    (horder : InInt32 x.escapeOrder) : ScoreEscaped.ofFields x.fields = x := by
  obtain ⟨key, money, order⟩ := x
  simp only [ScoreEscaped.ofFields, ScoreEscaped.fields, toInt_int32 hmoney, toInt_int32 horder,
    ofBytes_bytes, Int.toNat_natCast]

theorem scoreRemaining_ofFields {x : ScoreRemaining} (h : InInt32 x.money) :
    ScoreRemaining.ofFields x.fields = x := by
  obtain ⟨key, money⟩ := x
  simp only [ScoreRemaining.ofFields, ScoreRemaining.fields, toInt_int32 h, ofBytes_bytes]

/-- An array that is filled and read entry by entry. -/
theorem map_padTo {α β : Type} {k : ℕ} {zero : α} {l : List α} {f : α → β} {g : β → α}
    (hzero : g (f zero) = zero) (h : ∀ x ∈ l, g (f x) = x) :
    ((padTo k zero l).map f).map g = padTo k zero l := by
  refine Vector.ext fun i hi => ?_
  rw [Vector.getElem_map, Vector.getElem_map, padTo, Vector.getElem_ofFn,
    List.getD_eq_getElem?_getD]
  cases hx : l[i]? with
  | none => exact hzero
  | some x => exact h x (List.mem_of_getElem? hx)

/-- The client reads the packet that the server has filled in. -/
theorem uiPacket_message {pkt : Packet} (h : ∀ x ∈ pkt.ints, InInt32 x) :
    pkt.message.uiPacket = pkt.received := by
  cases pkt with
  | invenInfo items money =>
    obtain ⟨hcount, hrest⟩ := List.forall_mem_cons.1 h
    obtain ⟨hmoney, hitems⟩ := List.forall_mem_cons.1 hrest
    have hzero : InvenItem.ofFields (InvenItem.fields ⟨0, 0, [], false⟩) = ⟨0, 0, [], false⟩ := by
      decide
    simp only [Packet.message, Message.uiPacket, Packet.received, toInt_int32 hcount,
      toInt_int32 hmoney,
      map_padTo hzero fun x hx => invenItem_ofFields (hitems _ (List.mem_map_of_mem hx))]
  | scoreboard countdown escaped remaining =>
    obtain ⟨hcountdown, hrest⟩ := List.forall_mem_cons.1 h
    obtain ⟨hcount, hrest⟩ := List.forall_mem_cons.1 hrest
    obtain ⟨hcount', hrest⟩ := List.forall_mem_cons.1 hrest
    obtain ⟨hpairs, hmoney⟩ := List.forall_mem_append.1 hrest
    have hescaped : ∀ x ∈ escaped, ScoreEscaped.ofFields x.fields = x := by
      intro x hx
      have hpair : ∀ y ∈ [x.moneyAtEscape, (x.escapeOrder : ℤ)], InInt32 y := fun y hy =>
        hpairs y (List.mem_flatMap.2 ⟨x, hx, hy⟩)
      obtain ⟨hm, ho⟩ := List.forall_mem_cons.1 hpair
      exact scoreEscaped_ofFields hm (ho _ List.mem_cons_self)
    have hremaining : ∀ x ∈ remaining, ScoreRemaining.ofFields x.fields = x := fun x hx =>
      scoreRemaining_ofFields (hmoney _ (List.mem_map_of_mem hx))
    have hzero : ScoreEscaped.ofFields (ScoreEscaped.fields ⟨Key.empty, 0, 0⟩) =
        ⟨Key.empty, 0, 0⟩ := by decide
    have hzero' : ScoreRemaining.ofFields (ScoreRemaining.fields ⟨Key.empty, 0⟩) =
        ⟨Key.empty, 0⟩ := by decide
    simp only [Packet.message, Message.uiPacket, Packet.received, toInt_int32 hcountdown,
      toInt_int32 hcount, toInt_int32 hcount', map_padTo hzero hescaped,
      map_padTo hzero' hremaining]
  | error code reason =>
    have hcode : InInt32 code.code := by cases code <;> decide
    simp only [Packet.message, Message.uiPacket, Packet.received, toInt_int32 hcode]
  | _ =>
    simp only [Packet.ints, List.forall_mem_cons, List.not_mem_nil, false_imp_iff, implies_true,
      and_true] at h
    simp_all only [Packet.message, Message.uiPacket, Packet.received, toInt_int32]

/-- **The client reads what the server has sent**, whatever the byte orders of their hosts. -/
theorem packet_arrives {e e' : ByteOrder} {pkt : Packet} (h : pkt.Sendable) :
    (packetDecode e' (packetSend e (pkt.message.image e))).uiPacket e' = pkt.received := by
  have htype : packetType e' (packetDecode e' (packetSend e (pkt.message.image e))) = _ :=
    packetType_decode packetType_image
  rw [PacketImage.uiPacket, htype]
  by_cases ht : pkt.message.type = .resLoginFail
  -- the client does not read the member of a refused login
  · cases pkt <;> first | rfl | cases ht
  · simp only [value_arrives h.fits ht, uiPacket_message h.ints]

end UnderFlow
