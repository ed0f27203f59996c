import UnderFlow.Server.Op

/-!
# Rounds: escapes, the countdown and the reset

`handle_payoff`, `fire_round_end_countdown`, `round_end_timer_thread`, `trigger_round_reset` and
`seed_market_and_npc` of `server_main.c`, and the purge of a directory of `sandbox.c`.
-/

namespace UnderFlow

/-! ### Purging a directory -/

/-- The program points of `purge_docs_in`. -/
inductive Purge where
  | opendir
  | unlink (docId : ℤ) (todo : List ℤ)

/-- The next file to remove. -/
def Purge.unlinkNext : List ℤ → Next Purge
  | [] => .ret ()
  | d :: todo => .cont (.unlink d todo)

/-- `purge_docs_in`: every document of a directory is deleted. -/
def purgeDocsIn (f : Folder) : Purge → Action (Next Purge)
  | .opendir => ⟨.opendir f, fun
      | none => .ret ()
      | some ids => Purge.unlinkNext ids⟩
  | .unlink d todo => ⟨.unlink f d, fun _ => Purge.unlinkNext todo⟩

/-! ### The seeds -/

/-- The documents of `seed_market_and_npc`. -/
def seedDocs : List DocFile :=
  [(124, tagCorpB ||| tagFinance, utf8 "바이오젠 기밀폐기 재무제표"),
    (111, tagGovernment ||| tagMilitary, utf8 "연방정부 전술 드론 설계도"),
    (47, tagPersonal ||| tagCustomer, utf8 "퇴직 요원 신상정보"),
    (70, tagCorpA ||| tagPersonal, utf8 "아사사카 임직원 비리 증거")].map
    fun (docId, tags, name) => ⟨docId, tags, countBits tags * 400, cstr maxNameLen name⟩

/-- The orders of `seed_market_and_npc`: id, required tags and bounty. -/
def seedNpcs : List (ℤ × Tags × ℤ) :=
  [(102, tagCorpB ||| tagFinance, 1200), (356, tagGovernment ||| tagMilitary, 2500)]

/-- The program points of `seed_market_and_npc`. -/
inductive Seed where
  | write (doc : DocFile) (todo : List DocFile)
  | add (doc : DocFile) (todo : List DocFile)
  | npc (n : ℤ × Tags × ℤ) (todo : List (ℤ × Tags × ℤ))

/-- The next order to put up. -/
def Seed.npcNext : List (ℤ × Tags × ℤ) → Next Seed
  | [] => .ret ()
  | n :: todo => .cont (.npc n todo)

/-- The next document to put up; the orders follow the last one. -/
def Seed.docNext : List DocFile → Next Seed
  | [] => Seed.npcNext seedNpcs
  | doc :: todo => .cont (.write doc todo)

/-- `seed_market_and_npc`: the documents and orders of a fresh round. -/
def seedMarketAndNpc : Seed → Action (Next Seed)
  | .write doc todo => ⟨.writeMaster doc, fun _ => .cont (.add doc todo)⟩
  | .add doc todo => ⟨.marketAdd doc.docId doc.tags doc.basePrice doc.name, fun _ =>
      Seed.docNext todo⟩
  | .npc n todo => ⟨.npcAdd n.1 n.2.1 n.2.2, fun _ => Seed.npcNext todo⟩

/-! ### The reset -/

/-- The program points of `trigger_round_reset`. -/
inductive Reset where
  | masterPurge (pc : Purge)
  | users
  | userPurge (name : Bytes) (todo : List Bytes) (pc : Purge)
  | records
  | market
  | npcs
  | round
  | rumor
  | seed (pc : Seed)
  | marker
  | marketSnapshot
  | marketSend (slot : MarketSlot) (todo : List MarketSlot)
  | npcSnapshot
  | npcSend (npc : NPCSlot) (todo : List NPCSlot)

/-- The next sandbox to purge; the records follow the last one. -/
def Reset.userNext : List Bytes → Reset
  | [] => .records
  | name :: todo => .userPurge name todo .opendir

/-- The next order is broadcast. -/
def Reset.npcSendNext : List NPCSlot → Next Reset
  | [] => .ret ()
  | npc :: todo => .cont (.npcSend npc todo)

/-- The next listing is broadcast. -/
def Reset.marketSendNext : List MarketSlot → Reset
  | [] => .npcSnapshot
  | slot :: todo => .marketSend slot todo

/-- The announcement of a listing. -/
def MarketSlot.spawnPacket (slot : MarketSlot) : Packet :=
  .marketSpawn slot.docId slot.tags slot.basePrice slot.name

/-- The announcement of an order. -/
def NPCSlot.spawnPacket (npc : NPCSlot) : Packet := .npcSpawn npc.npcId npc.requiredTags npc.bounty

/-- `trigger_round_reset`: files, records, boards and round start anew, and everybody is told. -/
def triggerRoundReset : Reset → Action (Next Reset)
  -- 1. sandbox_global_reset
  | .masterPurge pc => (purgeDocsIn .master pc).map fun
      | .cont pc => .cont (.masterPurge pc)
      | _ => .cont .users
  | .users => ⟨.opendirUsers, fun names => .cont (Reset.userNext names)⟩
  | .userPurge name todo pc => (purgeDocsIn (.entry name) pc).map fun
      | .cont pc => .cont (.userPurge name todo pc)
      | _ => .cont (Reset.userNext todo)
  -- 2. userdb_reset_round
  | .records => ⟨.userdbResetRound initialMoney, fun _ => .cont .market⟩
  -- 3. market_init
  | .market => ⟨.marketInit, fun _ => .cont .npcs⟩
  | .npcs => ⟨.npcInit, fun _ => .cont .round⟩
  -- 4. the round variables and the rumor cooldown
  | .round => ⟨.roundReset, fun _ => .cont .rumor⟩
  | .rumor => ⟨.rumorReset, fun _ =>
      match Seed.docNext seedDocs with
      | .cont pc => .cont (.seed pc)
      | _ => .cont .marker⟩
  -- 5. the seeds
  | .seed pc => (seedMarketAndNpc pc).map fun
      | .cont pc => .cont (.seed pc)
      | _ => .cont .marker
  -- 6., 7. the announcements
  | .marker => ⟨.broadcast (.gameOver (cstr maxTextLen (utf8
      "__ROUND_RESET__|새 라운드가 시작되었습니다. 모든 자산이 초기 상태로 복원되었습니다."))),
      fun _ => .cont .marketSnapshot⟩
  | .marketSnapshot => ⟨.marketSnapshot, fun slots => .cont (Reset.marketSendNext slots)⟩
  | .marketSend slot todo => ⟨.broadcast slot.spawnPacket, fun _ =>
      .cont (Reset.marketSendNext todo)⟩
  | .npcSnapshot => ⟨.npcSnapshot, fun npcs => Reset.npcSendNext npcs⟩
  | .npcSend npc todo => ⟨.broadcast npc.spawnPacket, fun _ => Reset.npcSendNext todo⟩

/-- The program points of `round_end_timer_thread`. -/
inductive RoundEndTimer where
  | start
  | sleep (wake : ℕ)
  | check
  | reset (pc : Reset)

/-- `round_end_timer_thread`: the round is reset when the countdown is over. -/
def roundEndTimerThread : RoundEndTimer → Action (Next RoundEndTimer)
  | .start => ⟨.time, fun now => .cont (.sleep (now + roundEndCountdownSec))⟩
  | .sleep wake => ⟨.wait wake, fun _ => .cont .check⟩
  -- the flag is only read: it is the reset that clears it
  | .check => ⟨.roundEndActive, fun active =>
      if active then .cont (.reset (.masterPurge .opendir)) else .ret ()⟩
  | .reset pc => (triggerRoundReset pc).map fun
      | .cont pc => .cont (.reset pc)
      | .ret () => .ret ()
      | .fail code reason => .fail code reason

/-! ### The countdown -/

/-- The first position of a largest balance, by strict comparisons from the left. -/
def maxIdx : List ScoreRemaining → ℕ → ℤ → ℕ → ℕ
  | [], best, _, _ => best
  | r :: rs, best, money, i =>
    if money < r.money then maxIdx rs i r.money (i + 1) else maxIdx rs best money (i + 1)

/-- The selection sort of the scoreboard: each pass swaps the richest of the rest to its front. -/
def selectionSort : ℕ → List ScoreRemaining → List ScoreRemaining
  | 0, l => l
  | _, [] => []
  | n + 1, r :: rs =>
    match maxIdx rs 0 r.money 1 with
    | 0 => r :: selectionSort n rs
    | k + 1 => (rs.getD k r) :: selectionSort n (rs.set k r)

/-- The program points of `fire_round_end_countdown`. -/
inductive RoundEnd where
  | claim
  | log
  | keys (escaped : List ScoreEscaped)
  | lookup (escaped : List ScoreEscaped) (key : Key) (todo : List Key) (rank : List ScoreRemaining)
  | scoreboard (escaped : List ScoreEscaped) (rank : List ScoreRemaining)
  | hint
  | timer
  | release

/-- The next key to look up: those of the logged escapees are skipped. -/
def RoundEnd.lookupNext (escaped : List ScoreEscaped) (rank : List ScoreRemaining) :
    List Key → RoundEnd
  | [] => .scoreboard escaped rank
  | key :: todo =>
    if escaped.any fun e => e.key == key then RoundEnd.lookupNext escaped rank todo
    else .lookup escaped key todo rank

/-- `fire_round_end_countdown`: the scoreboard is made and shown, and a timer started. -/
def fireRoundEndCountdown (announceText : Bytes) : RoundEnd → Action (Next RoundEnd)
  | .claim => ⟨.roundEndClaim, fun first => if first then .cont .log else .ret ()⟩
  | .log => ⟨.roundLog, fun escaped => .cont (.keys escaped)⟩
  | .keys escaped => ⟨.clientKeys, fun keys => .cont (RoundEnd.lookupNext escaped [] keys)⟩
  | .lookup escaped key todo rank => ⟨.userdbFind key, fun
      | .error _ => .cont (RoundEnd.lookupNext escaped rank todo)
      | .ok (rec, _) =>
        if userdbIsBurned rec then .cont (RoundEnd.lookupNext escaped rank todo)
        else .cont (RoundEnd.lookupNext escaped (rank ++ [⟨key, rec.money⟩]) todo)⟩
  | .scoreboard escaped rank => ⟨.broadcast (.scoreboard roundEndCountdownSec escaped
      ((selectionSort rank.length rank).take maxScoreRemaining)), fun _ => .cont .hint⟩
  | .hint => ⟨.broadcast (.chat (utf8 "[ALERT]") (cstr maxTextLen announceText)), fun _ =>
      .cont .timer⟩
  -- without a timer the flag is given back, or no countdown could start again
  | .timer => ⟨.pthreadCreate .roundEndTimer, fun ok => if ok then .ret () else .cont .release⟩
  | .release => ⟨.roundEndRelease, fun _ => .ret ()⟩

/-! ### Paying off -/

/-- What `handle_payoff` keeps of its critical section. -/
structure Escape where
  /-- The goal that was paid off. -/
  prevGoal : ℤ
  /-- The goal after it. -/
  nextGoal : ℤ
  /-- The escapes of the round, this one included. -/
  escapedNow : ℕ

/-- The program points of `handle_payoff`. -/
inductive Payoff where
  | lookup
  | commit (rec : UserRecord) (offset : ℕ)
  | purge (e : Escape) (rec : UserRecord) (offset : ℕ) (pc : Purge)
  | update (e : Escape) (rec : UserRecord) (offset : ℕ)
  | victory (e : Escape)
  | announce (e : Escape)
  | goalUpdate (e : Escape)
  | roundEnd (pc : RoundEnd)

/-- `handle_payoff`: the goal is paid off, and the player escapes. -/
def handlePayoff (sock : ℕ) (key : Key) : Payoff → Action (Next Payoff)
  | .lookup => ⟨.userdbFind key, fun
      | .error _ => .fail .invalidSession (utf8 "유저 정보 조회 실패")
      | .ok (rec, offset) => .cont (.commit rec offset)⟩
  -- the balance is the one read before `g_round_mutex` was taken
  | .commit rec offset => ⟨.roundPayoff key rec.money, fun
      | .error goal => .fail .notEnoughMoney (cstr maxTextLen (utf8 "상환금 부족: 목표 청산액은 $" ++
          decimal goal ++ utf8 " 이나, 당신은 $" ++ decimal rec.money ++ utf8 " 보유하고 있습니다."))
      | .ok (prevGoal, nextGoal, escapedNow) =>
        .cont (.purge ⟨prevGoal, nextGoal, escapedNow⟩ rec offset .opendir)⟩
  | .purge e rec offset pc => (purgeDocsIn (.user key) pc).map fun
      | .cont pc => .cont (.purge e rec offset pc)
      | _ => .cont (.update e rec offset)
  -- who escapes starts over, whatever was paid in since the lookup
  | .update e rec offset => ⟨.userdbUpdateAt offset { rec with money := initialMoney }, fun _ =>
      .cont (.victory e)⟩
  | .victory e => ⟨.packetSend sock (.victory (cstr maxTextLen (utf8 "축하합니다! $" ++
      decimal e.prevGoal ++ utf8 "의 채무를 성공적으로 청산하고 다크웹을 탈출하셨습니다."))), fun _ =>
      .cont (.announce e)⟩
  | .announce e => ⟨.broadcast (.chat (utf8 "[SYSTEM]") (cstr (maxTextLen - 1) (utf8 "해커 '" ++
      key.bytes ++ utf8 "'님이 $" ++ decimal e.prevGoal ++
      if e.nextGoal = e.prevGoal then
        utf8 "의 빚을 갚고 탈출했습니다! 목표 상환액은 상한선 $" ++ decimal debtCap ++ utf8 "에 고정됩니다."
      else
        utf8 "의 빚을 갚고 탈출했습니다! 은행 보안 강화로 다음 목표 상환액이 $" ++ decimal e.nextGoal ++
          utf8 "로 인상됩니다."))), fun _ => .cont (.goalUpdate e)⟩
  | .goalUpdate e => ⟨.broadcast (.goalUpdate e.nextGoal), fun _ =>
      if 3 ≤ e.escapedNow then .cont (.roundEnd .claim) else .ret ()⟩
  | .roundEnd pc => (fireRoundEndCountdown (utf8 ("누적 3명 탈출로 라운드가 종료됩니다! " ++
      "60초 뒤 라운드가 강제 리셋됩니다. 마지막 에필로그를 나누십시오.")) pc).map fun
      | .cont pc => .cont (.roundEnd pc)
      | .ret () => .ret ()
      | .fail code reason => .fail code reason

end UnderFlow
