import UnderFlow.Server.Trade
import UnderFlow.Server.Events

/-!
# Client handlers

`client_handler` of `server_main.c`: the login, the synchronisation of a late client, the command
loop and the disconnect.
-/

namespace UnderFlow

/-! ### The login -/

/-- The program points of `client_handler` before its command loop. -/
inductive Login where
  | recv
  | duplicate (key : Key)
  | lookup (key : Key)
  | append (key : Key) (rec : UserRecord)
  | register (key : Key) (rec : UserRecord)
  | mkdir (key : Key) (rec : UserRecord)
  | goal (key : Key) (rec : UserRecord)
  | reply (key : Key) (rec : UserRecord) (goal : ℤ)
  | marketSnapshot (key : Key)
  | marketSend (key : Key) (slot : MarketSlot) (todo : List MarketSlot)
  | npcSnapshot (key : Key)
  | npcSend (key : Key) (npc : NPCSlot) (todo : List NPCSlot)
  | frozenMask (key : Key)
  | frozenSend (key : Key) (mask : Tags)
  | refuse (code : ErrorCode) (reason : Bytes)

/-- The next listing is sent to the new client. -/
def Login.marketSendNext (key : Key) : List MarketSlot → Login
  | [] => .npcSnapshot key
  | slot :: todo => .marketSend key slot todo

/-- The next order is sent to the new client. -/
def Login.npcSendNext (key : Key) : List NPCSlot → Login
  | [] => .frozenMask key
  | npc :: todo => .npcSend key npc todo

/-- Returns the key of the session, or `none` when the connection is to be closed. -/
def clientLogin (sock : ℕ) : Login → Action (Next Login (Option Key))
  | .recv => ⟨.packetRecv sock, fun
      | none => .ret none
      | some (.login key) => .cont (.duplicate key)
      | some _ => .cont .recv⟩
  | .duplicate key => ⟨.clientDuplicate sock key, fun duplicate =>
      if duplicate then .cont (.refuse .duplicateLogin (utf8 "이미 접속 중인 계정입니다."))
      else .cont (.lookup key)⟩
  | .lookup key => ⟨.userdbFind key, fun
      | .error _ => .cont (.append key { key := key, money := initialMoney })
      | .ok (rec, _) =>
        if userdbIsBurned rec then .cont (.refuse .keyBurned (utf8 "파산/소각된 계정입니다."))
        else .cont (.register key rec)⟩
  -- the result of the append is not tested
  | .append key rec => ⟨.userdbAppend rec, fun _ => .cont (.register key rec)⟩
  -- the second critical section of `clients_mutex`: no look at the other slots
  | .register key rec => ⟨.clientRegister sock key, fun _ => .cont (.mkdir key rec)⟩
  | .mkdir key rec => ⟨.mkdir (.user key), fun _ => .cont (.goal key rec)⟩
  | .goal key rec => ⟨.roundGoal, fun goal => .cont (.reply key rec goal)⟩
  | .reply key rec goal => ⟨.packetSend sock (.loginOk sock rec.money goal), fun _ =>
      .cont (.marketSnapshot key)⟩
  | .marketSnapshot key => ⟨.marketSnapshot, fun slots => .cont (Login.marketSendNext key slots)⟩
  | .marketSend key slot todo => ⟨.packetSend sock slot.spawnPacket, fun _ =>
      .cont (Login.marketSendNext key todo)⟩
  | .npcSnapshot key => ⟨.npcSnapshot, fun npcs => .cont (Login.npcSendNext key npcs)⟩
  | .npcSend key npc todo => ⟨.packetSend sock npc.spawnPacket, fun _ =>
      .cont (Login.npcSendNext key todo)⟩
  | .frozenMask key => ⟨.marketFrozenMask, fun mask =>
      if mask = 0 then .ret (some key) else .cont (.frozenSend key mask)⟩
  | .frozenSend key mask => ⟨.packetSend sock (.newsLeak mask 0
      (utf8 "현재 동결 상태 동기화 (진행 중인 공중파 유출)")), fun _ => .ret (some key)⟩
  | .refuse code reason => ⟨.packetSend sock (.loginFail code reason), fun _ => .ret none⟩

/-! ### The command loop -/

/-- The program points of the command loop of `client_handler`. -/
inductive Command where
  | recv
  /-- `send_error`; `check` says whether `check_bankruptcy` follows. -/
  | error (code : ErrorCode) (reason : Bytes) (check : Bool)
  | bankruptcy (pc : Bankruptcy)
  | buy (docId : ℤ) (pc : Buy)
  | sell (npcId : ℤ) (docIds : List ℤ) (pc : Sell)
  | dispose (docId : ℤ) (pc : Dispose)
  | inventory (pc : Inventory)
  | rumor (targetKey : Key) (pc : Rumoring)
  | payoff (pc : Payoff)
  | chat (text : Bytes)
  | minigame (passcode : Bytes) (pc : Minigame)
  | selfRaid (pc : SelfRaid)
  | leak (pc : Leak)
  | fakeRich (pc : FakeRich)
  | endround (pc : RoundEnd)

/-- How the loop goes on while or after a handler runs. -/
def Command.resume {α : Type} (f : α → Command) (check : Bool) : Next α → Next Command
  | .cont pc => .cont (f pc)
  | .ret () => .cont (if check then .bankruptcy .lookup else .recv)
  | .fail code reason => .cont (.error code reason check)

/-- The dispatch of a request. -/
def Command.dispatch : Request → Command
  | .chat text => if text = utf8 "/payoff" then .payoff .lookup else .chat text
  | .minigameSubmit passcode => .minigame passcode .lookup
  | .triggerRaid => .selfRaid .launch
  | .triggerLeak => .leak .mask
  | .triggerRich => .fakeRich .lookup
  | .triggerEndround => .endround .claim
  | .buy docId => .buy docId .find
  | .sell npcId count docIds =>
    if count ≤ 0 ∨ (maxInvenSize : ℤ) < count then
      .error .tagMismatch (utf8 "잘못된 매각 요청 (개수 오류)") false
    else .sell npcId (marketDocSortIds (docIds.toList.take count.toNat)) .findNpc
  | .dispose docId => .dispose docId .has
  | .inven => .inventory (.list .opendir)
  | .rumor targetKey => .rumor targetKey .enter
  | .login _ => .recv
  | .other => .recv

/-- Returns when the connection is to be closed. -/
def clientLoop (sock : ℕ) (key : Key) : Command → Action (Next Command)
  | .recv => ⟨.packetRecv sock, fun
      | none => .ret ()
      | some req => .cont (Command.dispatch req)⟩
  | .error code reason check => ⟨.packetSend sock (.error code (cstr maxTextLen reason)), fun _ =>
      .cont (if check then .bankruptcy .lookup else .recv)⟩
  | .bankruptcy pc => (checkBankruptcy sock key pc).map fun
      | .cont pc => .cont (.bankruptcy pc)
      -- bankrupt: the loop is left
      | .ret true => .ret ()
      | .ret false => .cont .recv
      | .fail code reason => .cont (.error code reason false)
  | .buy docId pc => (handleBuy sock key docId pc).map (Command.resume (.buy docId) true)
  | .sell npcId docIds pc =>
      (handleSell sock key npcId docIds pc).map (Command.resume (.sell npcId docIds) false)
  | .dispose docId pc =>
      (handleDispose sock key docId pc).map (Command.resume (.dispose docId) false)
  | .inventory pc => (handleInventory sock key pc).map (Command.resume .inventory false)
  | .rumor targetKey pc =>
      (handleRumor sock key targetKey pc).map (Command.resume (.rumor targetKey) true)
  | .payoff pc => (handlePayoff sock key pc).map (Command.resume .payoff false)
  | .chat text => ⟨.broadcast (.chat key.bytes (cstr maxTextLen text)), fun _ => .cont .recv⟩
  | .minigame passcode pc =>
      (handleMinigameSubmit sock key passcode pc).map (Command.resume (.minigame passcode) false)
  | .selfRaid pc => (fireSelfPoliceRaid sock key pc).map (Command.resume .selfRaid false)
  | .leak pc => (firePublicLeak pc).map fun
      | .cont pc => .cont (.leak pc)
      | .ret true => .cont .recv
      | .ret false => .cont (.error .docNotFound
          (utf8 "동결할 매물 태그가 없습니다 (매물이 없거나 이미 전부 동결).") false)
      | .fail code reason => .cont (.error code reason false)
  | .fakeRich pc => (handleFakeRich sock key pc).map (Command.resume .fakeRich false)
  | .endround pc => (fireRoundEndCountdown (utf8
      "(DEBUG) 강제 라운드 종료가 발동되었습니다! 60초 뒤 라운드가 리셋됩니다.") pc).map
        (Command.resume .endround false)

/-! ### The disconnect -/

/-- The program points of the end of `client_handler`. -/
inductive Disconnect where
  | remove
  | close

/-- The end of `client_handler`: the slot is cleared and the socket closed. -/
def clientDisconnect (sock : ℕ) : Disconnect → Action (Next Disconnect)
  | .remove => ⟨.clientRemove sock, fun _ => .cont .close⟩
  | .close => ⟨.close sock, fun _ => .ret ()⟩

end UnderFlow
