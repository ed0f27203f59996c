import UnderFlow.Server.Raids

/-!
# The event thread

`src/server/events.c`: the spawning and ageing of listings and orders, the public leak, and the
loop that drives them.  The texts of names, headlines and hints are `Op.compose`.
-/

namespace UnderFlow

/-- `EVT_TICK_SEC`. -/
def evtTickSec : ℕ := 5
/-- `EVT_NPC_EVERY`, in ticks. -/
def evtNpcEvery : ℕ := 3
/-- `EVT_NPC_HINT_DELAY`: the seconds between a hint and its order. -/
def evtNpcHintDelay : ℕ := 8
/-- `EVT_NPC_MAX_AGE_SEC`. -/
def evtNpcMaxAgeSec : ℤ := 140
/-- `EVT_NPC_AGE_STEP_SEC`. -/
def evtNpcAgeStepSec : ℤ := 30
/-- `MARKET_PRICE_PER_TAG`. -/
def marketPricePerTag : ℤ := 400
/-- `EVT_LEAK_EVERY`, in ticks. -/
def evtLeakEvery : ℕ := 24
/-- `LEAK_PROB_PCT`. -/
def leakProbPct : ℕ := 35
/-- `LEAK_DUR_MIN_SEC`. -/
def leakDurMinSec : ℕ := 180
/-- `LEAK_DUR_MAX_SEC`. -/
def leakDurMaxSec : ℕ := 300
/-- `PERIODIC_RAID_MIN_INTERVAL`. -/
def periodicRaidMinInterval : ℕ := 360
/-- `PERIODIC_RAID_MAX_INTERVAL`. -/
def periodicRaidMaxInterval : ℕ := 600
/-- `CAP_GRACE_SEC`: how long the goal stays at its cap before the round ends. -/
def capGraceSec : ℕ := 300

/-! ### Random tags -/

/-- Exchange two entries. -/
def swapAt (l : List Tags) (i j : ℕ) : List Tags := (l.set i (l.getD j 0)).set j (l.getD i 0)

/-- The first `k` rounds of the shuffle of a pool; `r` is the stream of `rand()`. -/
def shufflePool (r : ℕ → ℕ) (pool : List Tags) : ℕ → List Tags
  | 0 => pool
  | k + 1 => swapAt (shufflePool r pool k) k (k + r k % (pool.length - k))

/-- `event_random_tags`; `r` is the stream of `rand()`. -/
def eventRandomTags (frozen : Tags) (r : ℕ → ℕ) : Tags :=
  let avail := tagList.filter fun t => !t.meets frozen
  if avail = [] then 0
  else
    let pick := min (r 0 % 3 + 1) avail.length
    ((shufflePool (fun i => r (i + 1)) avail pick).take pick).foldl (fun acc t => acc ||| t) 0

/-! ### Spawning listings -/

/-- The program points of `event_spawn_market`. -/
inductive Spawn where
  | full
  | mask
  | tags (frozen : Tags)
  | docId (tags : Tags)
  | price (tags : Tags) (docId : ℤ)
  | name (tags : Tags) (docId price : ℤ)
  | write (doc : DocFile)
  | add (doc : DocFile)
  | remove (doc : DocFile)
  | announce (doc : DocFile)

/-- `event_spawn_market`: a document is written, listed and announced. -/
def eventSpawnMarket : Spawn → Action (Next Spawn)
  | .full => ⟨.marketIsFull, fun full => if full then .ret () else .cont .mask⟩
  | .mask => ⟨.marketFrozenMask, fun frozen => .cont (.tags frozen)⟩
  | .tags frozen => ⟨.rand, fun r =>
      if eventRandomTags frozen r = 0 then .ret () else .cont (.docId (eventRandomTags frozen r))⟩
  | .docId tags => ⟨.nextDocId, fun d => .cont (.price tags d)⟩
  | .price tags d => ⟨.rand, fun r =>
      .cont (.name tags d (countBits tags * marketPricePerTag + (r 0 % 4 : ℕ) * 100))⟩
  | .name tags d price => ⟨.compose maxNameLen, fun name => .cont (.write ⟨d, tags, price, name⟩)⟩
  | .write doc => ⟨.writeMaster doc, fun ok => if ok then .cont (.add doc) else .ret ()⟩
  | .add doc => ⟨.marketAdd doc.docId doc.tags doc.basePrice doc.name, fun ok =>
      if ok then .cont (.announce doc) else .cont (.remove doc)⟩
  | .remove doc => ⟨.unlink .master doc.docId, fun _ => .ret ()⟩
  | .announce doc => ⟨.broadcast (.marketSpawn doc.docId doc.tags doc.basePrice doc.name), fun _ =>
      .ret ()⟩

/-! ### Spawning orders -/

/-- The program points of `event_do_npc_sequence`. -/
inductive NpcSequence where
  | full
  | mask
  | tags (frozen : Tags)
  | hint (tags : Tags)
  | hintSend (tags : Tags) (text : Bytes)
  | start (tags : Tags)
  | sleep (tags : Tags) (wake : ℕ)
  | npcId (tags : Tags)
  | bounty (tags : Tags) (npcId : ℤ)
  | add (tags : Tags) (npcId bounty : ℤ)
  | announce (tags : Tags) (npcId bounty : ℤ)

/-- The bounty of an order, with `r` the value of `rand()`. -/
def npcBounty (tags : Tags) (r : ℕ) : ℤ :=
  let tagn := countBits tags
  let roll := if tagn = 1 ∧ 2 < r % 5 then 2 else r % 5
  ((roll + tagn) * 500 : ℕ) + if 3 ≤ tagn then 1500 else 0

/-- `event_do_npc_sequence`: a hint, and the order it promises some seconds later. -/
def eventDoNpcSequence : NpcSequence → Action (Next NpcSequence)
  | .full => ⟨.npcIsFull, fun full => if full then .ret () else .cont .mask⟩
  | .mask => ⟨.marketFrozenMask, fun frozen => .cont (.tags frozen)⟩
  | .tags frozen => ⟨.rand, fun r =>
      if eventRandomTags frozen r = 0 then .ret () else .cont (.hint (eventRandomTags frozen r))⟩
  | .hint tags => ⟨.compose maxTextLen, fun text => .cont (.hintSend tags text)⟩
  | .hintSend tags text => ⟨.broadcast (.chat (utf8 "[속보]") text), fun _ => .cont (.start tags)⟩
  | .start tags => ⟨.time, fun now => .cont (.sleep tags (now + evtNpcHintDelay))⟩
  | .sleep tags wake => ⟨.wait wake, fun _ => .cont (.npcId tags)⟩
  | .npcId tags => ⟨.nextNpcId, fun n => .cont (.bounty tags n)⟩
  | .bounty tags n => ⟨.rand, fun r => .cont (.add tags n (npcBounty tags (r 0)))⟩
  | .add tags n bounty => ⟨.npcAdd n tags bounty, fun ok =>
      if ok then .cont (.announce tags n bounty) else .ret ()⟩
  | .announce tags n bounty => ⟨.broadcast (.npcSpawn n tags bounty), fun _ => .ret ()⟩

/-! ### Ageing -/

/-- The program points of `event_age_npcs`. -/
inductive AgeNpcs where
  | despawn
  | announce (npcId : ℤ) (todo : List ℤ)

/-- The next expired order is announced. -/
def AgeNpcs.announceNext : List ℤ → Next AgeNpcs
  | [] => .ret ()
  | n :: todo => .cont (.announce n todo)

/-- `event_age_npcs`. -/
def eventAgeNpcs : AgeNpcs → Action (Next AgeNpcs)
  | .despawn => ⟨.npcDespawnAged evtNpcMaxAgeSec evtNpcAgeStepSec, fun ids =>
      AgeNpcs.announceNext ids⟩
  | .announce n todo => ⟨.broadcast (.npcDespawn n), fun _ => AgeNpcs.announceNext todo⟩

/-- The program points of `event_age_market`. -/
inductive AgeMarket where
  | despawn
  | remove (docId : ℤ) (todo : List ℤ)
  | announce (docId : ℤ) (todo : List ℤ)

/-- The file of the next expired listing is deleted. -/
def AgeMarket.removeNext : List ℤ → Next AgeMarket
  | [] => .ret ()
  | d :: todo => .cont (.remove d todo)

/-- `event_age_market`. -/
def eventAgeMarket : AgeMarket → Action (Next AgeMarket)
  | .despawn => ⟨.marketDespawnAged, fun ids => AgeMarket.removeNext ids⟩
  | .remove d todo => ⟨.unlink .master d, fun _ => .cont (.announce d todo)⟩
  | .announce d todo => ⟨.broadcast (.marketRemove d), fun _ => AgeMarket.removeNext todo⟩

/-! ### The public leak -/

/-- The program points of `fire_public_leak`. -/
inductive Leak where
  | mask
  | present (frozen : Tags)
  | pick (avail : List Tags)
  | freeze (mask : Tags) (durationSec : ℕ)
  | headline (mask : Tags) (durationSec : ℕ)
  | announce (mask : Tags) (durationSec : ℕ) (headline : Bytes)
  | malloc (mask : Tags) (durationSec : ℕ)
  | thread (mask : Tags) (durationSec : ℕ)
  | unfreeze (mask : Tags)

/-- Returns whether a leak was fired. -/
def firePublicLeak : Leak → Action (Next Leak Bool)
  | .mask => ⟨.marketFrozenMask, fun frozen => .cont (.present frozen)⟩
  | .present frozen => ⟨.marketActiveTags, fun present =>
      match tagList.filter fun t => t.meets present && !t.meets frozen with
      | [] => .ret false
      | avail => .cont (.pick avail)⟩
  | .pick avail => ⟨.rand, fun r =>
      .cont (.freeze (avail.getD (r 0 % avail.length) 0)
        (leakDurMinSec + r 1 % (leakDurMaxSec - leakDurMinSec + 1)))⟩
  -- the snapshot of the frozen tags can be out of date here
  | .freeze mask dur => ⟨.freezeTags mask, fun _ => .cont (.headline mask dur)⟩
  | .headline mask dur => ⟨.compose maxTextLen, fun text => .cont (.announce mask dur text)⟩
  | .announce mask dur text => ⟨.broadcast (.newsLeak mask dur text), fun _ =>
      .cont (.malloc mask dur)⟩
  | .malloc mask dur => ⟨.malloc, fun ok =>
      if ok then .cont (.thread mask dur) else .cont (.unfreeze mask)⟩
  | .thread mask dur => ⟨.pthreadCreate (.leakRecovery mask dur), fun ok =>
      if ok then .ret true else .cont (.unfreeze mask)⟩
  -- without its thread nobody would give the tags back
  | .unfreeze mask => ⟨.unfreezeTags mask, fun _ => .ret false⟩

/-- The program points of `leak_recovery_thread`. -/
inductive LeakRecovery where
  | start
  | sleep (wake : ℕ)
  | unfreeze
  | announce

/-- `leak_recovery_thread`: the tags are given back when their time is over. -/
def leakRecoveryThread (mask : Tags) (durationSec : ℕ) : LeakRecovery → Action (Next LeakRecovery)
  | .start => ⟨.time, fun now => .cont (.sleep (now + durationSec))⟩
  | .sleep wake => ⟨.wait wake, fun _ => .cont .unfreeze⟩
  | .unfreeze => ⟨.unfreezeTags mask, fun _ => .cont .announce⟩
  | .announce => ⟨.broadcast (.newsRecover mask), fun _ => .ret ()⟩

/-! ### The loop -/

/-- The points of `event_thread_func`, in the order of one tick. -/
inductive Event where
  | start
  | schedule (now : ℕ)
  | tick
  | sleep (wake : ℕ)
  | cap
  | roundEnd (pc : RoundEnd)
  | ageNpcs (pc : AgeNpcs)
  | ageMarket (pc : AgeMarket)
  | raidDue
  | raid (pc : PeriodicRaid)
  | raidNext
  | raidSchedule (now : ℕ)
  | leakDice
  | leak (pc : Leak)
  | spawn (pc : Spawn)
  | npcThread
  | news
  | newsSend (text : Bytes)

/-- The variables of the loop. -/
structure EventVars where
  /-- `tick`: the ticks so far. -/
  tick : ℕ := 0
  /-- `next_periodic_raid_at`. -/
  nextPeriodicRaidAt : ℕ := 0

/-- The time to the next raid, with `r` the value of `rand()`. -/
def raidInterval (r : ℕ) : ℕ :=
  periodicRaidMinInterval + r % (periodicRaidMaxInterval - periodicRaidMinInterval + 1)

namespace Event

/-- What follows the raid: the leak, when it is due. -/
def afterRaid (v : EventVars) : Event :=
  if v.tick % evtLeakEvery = 0 then .leakDice else .spawn .full

/-- Where a tick goes on after the orders. -/
def afterNpc (v : EventVars) : Event := if v.tick % 8 = 0 then .news else .tick

/-- Where a tick goes on after the listings. -/
def afterSpawn (v : EventVars) : Event :=
  if v.tick % evtNpcEvery = 0 then .npcThread else afterNpc v

end Event

/-- `event_thread_func`. -/
def eventThreadFunc (v : EventVars) : Event → Action (EventVars × Event)
  | .start => ⟨.time, fun now => (v, .schedule now)⟩
  | .schedule now => ⟨.rand, fun r =>
      ({ v with nextPeriodicRaidAt := now + raidInterval (r 0) }, .tick)⟩
  | .tick => ⟨.time, fun now => (v, .sleep (now + evtTickSec))⟩
  | .sleep wake => ⟨.wait wake, fun _ => ({ v with tick := v.tick + 1 }, .cap)⟩
  | .cap => ⟨.capGraceExpired capGraceSec, fun expired =>
      (v, if expired then .roundEnd .claim else .ageNpcs .despawn)⟩
  | .roundEnd pc => (fireRoundEndCountdown (utf8 ("사채업자의 전면 압류 시한(5분)이 만료되었습니다! " ++
      "60초 뒤 넷 대역이 강제 초기화(리셋)됩니다.")) pc).map fun
      | .cont pc => (v, .roundEnd pc)
      | _ => (v, .ageNpcs .despawn)
  | .ageNpcs pc => (eventAgeNpcs pc).map fun
      | .cont pc => (v, .ageNpcs pc)
      | _ => (v, .ageMarket .despawn)
  | .ageMarket pc => (eventAgeMarket pc).map fun
      | .cont pc => (v, .ageMarket pc)
      | _ => (v, .raidDue)
  | .raidDue => ⟨.time, fun now =>
      (v, if v.nextPeriodicRaidAt ≤ now then .raid .launch else Event.afterRaid v)⟩
  | .raid pc => (firePeriodicPoliceRaid pc).map fun
      | .cont pc => (v, .raid pc)
      | _ => (v, .raidNext)
  | .raidNext => ⟨.time, fun now => (v, .raidSchedule now)⟩
  | .raidSchedule now => ⟨.rand, fun r =>
      ({ v with nextPeriodicRaidAt := now + raidInterval (r 0) }, Event.afterRaid v)⟩
  | .leakDice => ⟨.rand, fun r =>
      (v, if r 0 % 100 < leakProbPct then .leak .mask else .spawn .full)⟩
  | .leak pc => (firePublicLeak pc).map fun
      | .cont pc => (v, .leak pc)
      | _ => (v, .spawn .full)
  | .spawn pc => (eventSpawnMarket pc).map fun
      | .cont pc => (v, .spawn pc)
      | _ => (v, Event.afterSpawn v)
  -- the sequence sleeps between hint and order, so it has a thread of its own
  | .npcThread => ⟨.pthreadCreate .npcSequence, fun _ => (v, Event.afterNpc v)⟩
  | .news => ⟨.compose maxTextLen, fun text => (v, .newsSend text)⟩
  | .newsSend text => ⟨.broadcast (.chat (utf8 "[넷-피드]") text), fun _ => (v, .tick)⟩

end UnderFlow
