import UnderFlow.Data.Numeral
import UnderFlow.Server.Op
import Mathlib.Data.List.Sort

/-!
# Trade: the commands of one player

`handle_buy`, `handle_sell`, `handle_dispose`, `handle_inventory`, `handle_rumor`,
`handle_fake_rich` and `check_bankruptcy` of `server_main.c`.

A handler is a type of *points*, each carrying the local variables that are live there, and a
function giving the operation at every point and how it goes on.  The points follow the numbered
steps of the source; local computations belong to the operation before them.
-/

namespace UnderFlow

/-! ### Buying -/

/-- The program points of `handle_buy`. -/
inductive Buy where
  | find
  | count (slot : MarketSlot)
  | lookup (slot : MarketSlot)
  | take (rec : UserRecord) (offset : ℕ)
  | stat (slot : MarketSlot) (rec : UserRecord) (offset : ℕ)
  | move (slot : MarketSlot) (rec : UserRecord) (offset : ℕ)
  | rollback (slot : MarketSlot)
  | charge (slot : MarketSlot) (rec : UserRecord) (offset : ℕ)
  | reply (slot : MarketSlot) (rec : UserRecord)
  | announce

/-- `handle_buy`: the listing is looked at, paid for and moved, in separate critical sections. -/
def handleBuy (sock : ℕ) (key : Key) (docId : ℤ) : Buy → Action (Next Buy)
  | .find => ⟨.marketFind docId, fun
      | none => .fail .docNotFound (utf8 "매물이 존재하지 않습니다.")
      | some slot =>
        if slot.isFrozen then .fail .docFrozen (utf8 "동결된 매물입니다.") else .cont (.count slot)⟩
  | .count slot => ⟨.sandboxCount key, fun
      -- an unreadable sandbox counts as -1
      | none => .cont (.lookup slot)
      | some n =>
        if maxInvenSize ≤ n then .fail .inventoryFull (utf8 "인벤토리가 가득 찼습니다 (최대 7칸).")
        else .cont (.lookup slot)⟩
  -- the price of the copy is compared, the price of the slot taken below is charged
  | .lookup slot => ⟨.userdbFind key, fun
      | .error _ => .fail .invalidSession (utf8 "유저 정보 조회 실패")
      | .ok (rec, offset) =>
        if rec.money < slot.basePrice then .fail .notEnoughMoney (utf8 "잔액 부족")
        else .cont (.take rec offset)⟩
  | .take rec offset => ⟨.marketTake docId, fun
      | .error .frozen => .fail .docFrozen (utf8 "동결된 매물입니다.")
      | .error .missing => .fail .docNotFound (utf8 "이미 다른 유저가 구매했습니다.")
      | .ok slot => .cont (.stat slot rec offset)⟩
  -- sandbox_buy
  | .stat slot rec offset => ⟨.stat .master docId, fun ok =>
      if ok then .cont (.move slot rec offset) else .cont (.rollback slot)⟩
  | .move slot rec offset => ⟨.rename .master (.user key) docId, fun ok =>
      if ok then .cont (.charge slot rec offset) else .cont (.rollback slot)⟩
  -- the listing comes back with a new age, and the result is not tested
  | .rollback slot => ⟨.marketAdd slot.docId slot.tags slot.basePrice slot.name, fun _ =>
      .fail .docNotFound (utf8 "파일 이동 실패 (시스템 에러)")⟩
  | .charge slot rec offset =>
      -- prices are positive and the balance was at least one of them: no `int32_t` overflows
      ⟨.userdbUpdateAt offset { rec with money := rec.money - slot.basePrice }, fun _ =>
        .cont (.reply slot { rec with money := rec.money - slot.basePrice })⟩
  | .reply slot rec => ⟨.packetSend sock (.buyOk docId rec.money slot.tags slot.name), fun _ =>
      .cont .announce⟩
  | .announce => ⟨.broadcast (.marketRemove docId), fun _ => .ret ()⟩

/-! ### Selling -/

/-- `market_doc_sort_ids`. -/
def marketDocSortIds (ids : List ℤ) : List ℤ := ids.insertionSort (· ≤ ·)

/-- From `take` on, `npc` is the slot `npc_take` returned.  `sold` collects the files the sale
removed and `old` is the record its update replaced: the code looks at neither. -/
inductive Sell where
  | findNpc
  | has (npc : NPCSlot) (docId : ℤ) (todo : List ℤ) (tagUnion : Tags)
  | read (npc : NPCSlot) (docId : ℤ) (todo : List ℤ) (tagUnion : Tags)
  | frozen (npc : NPCSlot) (df : DocFile) (todo : List ℤ) (tagUnion : Tags)
  | take
  | dispose (npc : NPCSlot) (docId : ℤ) (todo : List ℤ) (sold : List DocFile)
  | lookup (npc : NPCSlot) (sold : List DocFile)
  | credit (npc : NPCSlot) (sold : List DocFile) (rec : UserRecord) (offset : ℕ)
  | creditIndeterminate (npc : NPCSlot) (sold : List DocFile) (rec : UserRecord)
  | reply (npc : NPCSlot) (sold : List DocFile) (rec : UserRecord) (old : Option UserRecord)
  | announce

/-- The next document to check, or the subset test after the last one. -/
def Sell.check (npc : NPCSlot) (tagUnion : Tags) : List ℤ → Next Sell
  | [] =>
    if tagUnion &&& npc.requiredTags ≠ npc.requiredTags then
      .fail .tagMismatch (utf8 "태그 조합이 요구 사항을 충족하지 않습니다.")
    else .cont .take
  | d :: todo => .cont (.has npc d todo tagUnion)

/-- The next document to remove. -/
def Sell.disposeNext (npc : NPCSlot) (sold : List DocFile) : List ℤ → Sell
  | [] => .lookup npc sold
  | d :: todo => .dispose npc d todo sold

/-- `handle_sell`: the documents are checked, the order taken, and the documents given up for the
bounty. -/
def handleSell (sock : ℕ) (key : Key) (npcId : ℤ) (docIds : List ℤ) : Sell → Action (Next Sell)
  | .findNpc => ⟨.npcFind npcId, fun
      | none => .fail .npcNotFound (utf8 "NPC 의뢰가 존재하지 않습니다.")
      | some npc => Sell.check npc 0 docIds⟩
  -- a document named twice is found twice
  | .has npc d todo tagUnion => ⟨.stat (.user key) d, fun ok =>
      if ok then .cont (.read npc d todo tagUnion)
      else .fail .docNotFound (utf8 "보유하지 않은 문서가 포함됨")⟩
  | .read npc d todo tagUnion => ⟨.read (.user key) d, fun
      | none => .fail .docNotFound (utf8 "문서 메타 읽기 실패")
      | some df => .cont (.frozen npc df todo tagUnion)⟩
  | .frozen npc df todo tagUnion => ⟨.isTagFrozen df.tags, fun frozen =>
      if frozen then .fail .docFrozen (utf8 "동결 태그 문서는 매각할 수 없습니다.")
      else Sell.check npc (tagUnion ||| df.tags) todo⟩
  -- the order is looked up again: it is the one taken now that pays
  | .take => ⟨.npcTake npcId, fun
      | none => .fail .npcAlreadyTaken (utf8 "다른 유저가 먼저 매각했습니다.")
      | some npc => .cont (Sell.disposeNext npc [] docIds)⟩
  -- the result of `sandbox_dispose` is not tested
  | .dispose npc d todo sold => ⟨.unlink (.user key) d, fun df =>
      .cont (Sell.disposeNext npc (sold ++ df.toList) todo)⟩
  | .lookup npc sold => ⟨.userdbFind key, fun
      -- the result is not tested: after a failure `rec` and `offset` are indeterminate
      | .error rec => .cont (.creditIndeterminate npc sold rec)
      | .ok (rec, offset) => .cont (.credit npc sold rec offset)⟩
  | .credit npc sold rec offset =>
      -- `rec.money` is an `int32_t`, and nothing bounds the sum
      ⟨.userdbUpdateAt offset { rec with money := wrapInt32 (rec.money + npc.bounty) }, fun old =>
        .cont (.reply npc sold { rec with money := wrapInt32 (rec.money + npc.bounty) } old)⟩
  | .creditIndeterminate npc sold rec => ⟨.userdbUpdateIndeterminate, fun _ =>
      .cont (.reply npc sold { rec with money := wrapInt32 (rec.money + npc.bounty) } none)⟩
  | .reply npc _ rec _ => ⟨.packetSend sock (.sellOk npc.bounty rec.money), fun _ =>
      .cont .announce⟩
  | .announce => ⟨.broadcast (.npcDespawn npcId), fun _ => .ret ()⟩

/-! ### Disposing -/

/-- The program points of `handle_dispose`. -/
inductive Dispose where
  | has
  | unlink
  | reply

/-- `handle_dispose`. -/
def handleDispose (sock : ℕ) (key : Key) (docId : ℤ) : Dispose → Action (Next Dispose)
  | .has => ⟨.stat (.user key) docId, fun ok =>
      if ok then .cont .unlink else .fail .docNotFound (utf8 "보유하지 않은 문서입니다.")⟩
  | .unlink => ⟨.unlink (.user key) docId, fun df =>
      if df.isSome then .cont .reply else .fail .docNotFound (utf8 "파기 실패 (시스템 에러)")⟩
  | .reply => ⟨.packetSend sock .disposeOk, fun _ => .ret ()⟩

/-! ### The inventory -/

/-- `sandbox_list` and the marking of frozen items. -/
inductive SandboxList where
  | opendir
  | read (docId : ℤ) (todo : List ℤ) (items : List InvenItem)
  | mark (item : InvenItem) (todo marked : List InvenItem)

/-- The next item to mark. -/
def SandboxList.markNext (marked : List InvenItem) :
    List InvenItem → Next SandboxList (List InvenItem)
  | [] => .ret marked
  | item :: todo => .cont (.mark item todo marked)

/-- The next file to read, while there is room for another item. -/
def SandboxList.readNext (items : List InvenItem) : List ℤ → Next SandboxList (List InvenItem)
  | [] => SandboxList.markNext [] items
  | d :: todo =>
    if items.length < maxInvenSize then .cont (.read d todo items)
    else SandboxList.markNext [] items

/-- `sandbox_list`, with the marks of the frozen tags that its callers add. -/
def sandboxList (key : Key) : SandboxList → Action (Next SandboxList (List InvenItem))
  | .opendir => ⟨.opendir (.user key), fun
      | none => .ret []
      | some ids => SandboxList.readNext [] ids⟩
  | .read d todo items => ⟨.read (.user key) d, fun
      -- a file that cannot be read is left out
      | none => SandboxList.readNext items todo
      | some df => SandboxList.readNext
          (items ++ [⟨df.docId, df.tags, cstr maxNameLen df.name, false⟩]) todo⟩
  | .mark item todo marked => ⟨.isTagFrozen item.tags, fun frozen =>
      SandboxList.markNext (marked ++ [{ item with isFrozen := frozen }]) todo⟩

/-- The program points of `handle_inventory`. -/
inductive Inventory where
  | list (pc : SandboxList)
  | lookup (items : List InvenItem)
  | send (items : List InvenItem) (money : ℤ)

/-- `handle_inventory`. -/
def handleInventory (sock : ℕ) (key : Key) : Inventory → Action (Next Inventory)
  | .list pc => (sandboxList key pc).map fun
      | .cont pc => .cont (.list pc)
      | .ret items => .cont (.lookup items)
      | .fail code reason => .fail code reason
  | .lookup items => ⟨.userdbFind key, fun
      -- the balance of an unknown account is shown as 0
      | .error _ => .cont (.send items 0)
      | .ok (rec, _) => .cont (.send items rec.money)⟩
  | .send items money => ⟨.packetSend sock (.invenInfo items money), fun _ => .ret ()⟩

/-! ### Rumors -/

/-- The program points of `handle_rumor`. -/
inductive Rumoring where
  | enter
  | lookup (now : ℕ)
  | leave (code : ErrorCode) (reason : Bytes)
  | update (now : ℕ) (rec : UserRecord) (offset : ℕ)
  | commit (now : ℕ)
  | glitch
  | inventory (pc : Inventory)

/-- `handle_rumor`: the fee is charged under `g_rumor_mutex`. -/
def handleRumor (sock : ℕ) (key targetKey : Key) : Rumoring → Action (Next Rumoring)
  | .enter => ⟨.rumorEnter, fun
      | .error remain => .fail .rumorCooldown
          (utf8 "사보타주 쿨다운 중입니다. " ++ decimal remain ++ utf8 "초 후 다시 시도하십시오.")
      | .ok now => .cont (.lookup now)⟩
  | .lookup now => ⟨.userdbFind key, fun
      | .error _ => .cont (.leave .invalidSession (utf8 "유저 정보 조회 실패"))
      | .ok (rec, offset) =>
        if rec.money < rumorFee then
          .cont (.leave .notEnoughMoney (utf8 "사보타주 수수료가 부족합니다."))
        else .cont (.update now rec offset)⟩
  | .leave code reason => ⟨.rumorLeave none, fun _ => .fail code reason⟩
  | .update now rec offset =>
      ⟨.userdbUpdateAt offset { rec with money := rec.money - rumorFee }, fun _ =>
        .cont (.commit now)⟩
  -- the cooldown starts even if the charge was not written
  | .commit now => ⟨.rumorLeave (some (now + rumorCooldownSec)), fun _ => .cont .glitch⟩
  | .glitch => ⟨.unicastToKey targetKey .rumorGlitch, fun _ =>
      .cont (.inventory (.list .opendir))⟩
  | .inventory pc => (handleInventory sock key pc).map fun
      | .cont pc => .cont (.inventory pc)
      | .ret () => .ret ()
      | .fail code reason => .fail code reason

/-! ### Debugging: a full purse -/

/-- The program points of `handle_fake_rich`. -/
inductive FakeRich where
  | lookup
  | goal (rec : UserRecord) (offset : ℕ)
  | update (rec : UserRecord) (offset : ℕ)
  | list (rec : UserRecord) (pc : SandboxList)
  | send (rec : UserRecord) (items : List InvenItem)
  | note (rec : UserRecord)

/-- `handle_fake_rich`: the balance becomes the goal. -/
def handleFakeRich (sock : ℕ) (key : Key) : FakeRich → Action (Next FakeRich)
  | .lookup => ⟨.userdbFind key, fun
      | .error _ => .fail .invalidSession (utf8 "유저 정보 조회 실패")
      | .ok (rec, offset) => .cont (.goal rec offset)⟩
  | .goal rec offset => ⟨.roundGoal, fun goal =>
      .cont (.update { rec with money := goal } offset)⟩
  -- nothing asks whether the record is burned
  | .update rec offset => ⟨.userdbUpdateAt offset rec, fun _ => .cont (.list rec .opendir)⟩
  | .list rec pc => (sandboxList key pc).map fun
      | .cont pc => .cont (.list rec pc)
      | .ret items => .cont (.send rec items)
      | .fail code reason => .fail code reason
  | .send rec items => ⟨.packetSend sock (.invenInfo items rec.money), fun _ =>
      .cont (.note rec)⟩
  | .note rec => ⟨.packetSend sock (.chat (utf8 "[DEBUG]") (cstr (maxTextLen - 1)
      (utf8 "잔액을 $" ++ decimal rec.money ++ utf8 "로 채웠습니다. /payoff 로 탈출을 테스트하세요."))),
      fun _ => .ret ()⟩

/-! ### Bankruptcy -/

/-- The program points of `check_bankruptcy`. -/
inductive Bankruptcy where
  | lookup
  | count (offset : ℕ)
  | burn (offset : ℕ)
  | send

/-- Returns whether the session ends. -/
def checkBankruptcy (sock : ℕ) (key : Key) : Bankruptcy → Action (Next Bankruptcy Bool)
  | .lookup => ⟨.userdbFind key, fun
      | .error _ => .ret false
      -- a negative balance is not spared
      | .ok (rec, offset) => if 0 < rec.money then .ret false else .cont (.count offset)⟩
  -- an unreadable sandbox puts the bankruptcy off
  | .count offset => ⟨.sandboxCount key, fun
      | none => .ret false
      | some n => if 0 < n then .ret false else .cont (.burn offset)⟩
  | .burn offset => ⟨.userdbBurnAt offset, fun _ => .cont .send⟩
  | .send => ⟨.packetSend sock (.gameOver (utf8 "파산했습니다. 약속을 지키지 못했군.")), fun _ =>
      .ret true⟩

end UnderFlow
