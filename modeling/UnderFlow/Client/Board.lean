import UnderFlow.Common.Protocol
import UnderFlow.Data.Numeral
import Mathlib.Data.Vector.Basic

/-!
# The client

`src/client/ui_client.c`: the boards a client keeps in memory and what a received packet does to
them.  Arrays are vectors, used up to a count that is kept beside them.

The counts inside a received packet are whatever the peer has sent (`UiPacket`); a packet of the
server is one of them (`Packet.received`).
-/

namespace UnderFlow

/-- `UI_MAX_MARKET`. -/
def uiMaxMarket : ℕ := 32
/-- `UI_MAX_NPC`. -/
def uiMaxNpc : ℕ := 16
/-- `SB_CHAT_LINES`: the chat lines below a scoreboard. -/
def sbChatLines : ℕ := 5

/-- A listing on the board of the client. -/
structure UiMarket where
  /-- The document. -/
  docId : ℤ := 0
  /-- Its tags. -/
  tags : Tags := 0
  /-- Its price. -/
  basePrice : ℤ := 0
  /-- Its name. -/
  name : Bytes := []
  /-- It is shown as frozen. -/
  isFrozen : Bool := false
  deriving DecidableEq

/-- An order on the board of the client. -/
structure UiNPC where
  /-- The order. -/
  npcId : ℤ := 0
  /-- The tags it asks for. -/
  requiredTags : Tags := 0
  /-- What it pays. -/
  bounty : ℤ := 0
  deriving DecidableEq

/-- The variables of `ui_client.c` that packets change and screens show. -/
structure ClientState where
  /-- The listings, up to `mktCount`. -/
  mkt : Vector UiMarket uiMaxMarket := Vector.replicate _ {}
  /-- The number of listings. -/
  mktCount : ℤ := 0
  /-- The orders, up to `npcCount`. -/
  npc : Vector UiNPC uiMaxNpc := Vector.replicate _ {}
  /-- The number of orders. -/
  npcCount : ℤ := 0
  /-- The documents of the player, up to `invCount`. -/
  inv : Vector InvenItem maxInvenSize := Vector.replicate _ ⟨0, 0, [], false⟩
  /-- The number of documents. -/
  invCount : ℤ := 0
  /-- The balance shown. -/
  myMoney : ℤ := 0
  /-- The goal shown. -/
  myGoal : ℤ := 0
  /-- The tags known to be frozen. -/
  frozenMask : Tags := 0
  /-- The headline. -/
  lastNews : Bytes := []
  /-- The number of escapes on the scoreboard. -/
  sbEscapedCount : ℤ := 0
  /-- The escapes on the scoreboard. -/
  sbEscaped : Vector ScoreEscaped maxScoreEscaped := Vector.replicate _ ⟨Key.empty, 0, 0⟩
  /-- The number of players that remain. -/
  sbRemainingCount : ℤ := 0
  /-- The players that remain. -/
  sbRemaining : Vector ScoreRemaining maxScoreRemaining := Vector.replicate _ ⟨Key.empty, 0⟩
  /-- The last lines of chat below the scoreboard, round and round. -/
  sbChat : Vector Bytes sbChatLines := Vector.replicate _ []
  /-- The number of lines so far. -/
  sbChatCount : ℤ := 0

/-- `ClientMode`: what the client takes keys for. -/
inductive ClientMode where
  | normal
  | panic
  | roundEnd
  | gameOver
  deriving DecidableEq

/-- The client in its main loop. -/
structure UiClient where
  /-- What is shown. -/
  state : ClientState := {}
  /-- What keys are taken for. -/
  mode : ClientMode := .normal

/-! ### Packets -/

/-- A packet as `packet_recv` hands it over, with the members that the client reads of it. -/
inductive UiPacket where
  | loginOk (money goalMoney : ℤ)
  | chat (senderKey text : Bytes)
  | rumorGlitch
  | policeRaid (passcode : Bytes) (timeLimitSec : ℤ)
  | minigameOk
  | gameOver (message : Bytes)
  | victory (message : Bytes)
  | scoreboard (countdownSec escapedCount : ℤ) (escaped : Vector ScoreEscaped maxScoreEscaped)
      (remainingCount : ℤ) (remaining : Vector ScoreRemaining maxScoreRemaining)
  | marketSpawn (docId : ℤ) (tags : Tags) (basePrice : ℤ) (name : Bytes)
  | marketRemove (docId : ℤ)
  | npcSpawn (npcId : ℤ) (requiredTags : Tags) (bounty : ℤ)
  | npcDespawn (npcId : ℤ)
  | newsLeak (frozenTags : Tags) (durationSec : ℤ) (headline : Bytes)
  | newsRecover (recoveredTags : Tags)
  | buyOk (docId remainingMoney : ℤ) (name : Bytes)
  | sellOk (bounty newMoney : ℤ)
  | disposeOk
  | error (code : ℤ) (reason : Bytes)
  | invenInfo (count : ℤ) (items : Vector InvenItem maxInvenSize) (money : ℤ)
  | goalUpdate (goalMoney : ℤ)
  /-- A type of which the client reads no member: a refused login, or one it does not know. -/
  | other

/-- An array of the packet, zeroed behind the given elements. -/
def padTo {α : Type} (n : ℕ) (zero : α) (l : List α) : Vector α n :=
  Vector.ofFn fun i => l.getD i zero

/-- What the client reads of a packet of the server: everything but the session id of a login, the
tags of a purchase, and the reason of a refused login. -/
def Packet.received : Packet → UiPacket
  | .loginOk _ money goal => .loginOk money goal
  | .chat key text => .chat key text
  | .rumorGlitch => .rumorGlitch
  | .policeRaid passcode limit => .policeRaid passcode limit
  | .minigameOk => .minigameOk
  | .gameOver message => .gameOver message
  | .victory message => .victory message
  | .scoreboard countdown escaped remaining =>
    .scoreboard countdown escaped.length (padTo _ ⟨Key.empty, 0, 0⟩ escaped)
      remaining.length (padTo _ ⟨Key.empty, 0⟩ remaining)
  | .marketSpawn d t p n => .marketSpawn d t p n
  | .marketRemove d => .marketRemove d
  | .npcSpawn n t b => .npcSpawn n t b
  | .npcDespawn n => .npcDespawn n
  | .newsLeak t dur headline => .newsLeak t dur headline
  | .newsRecover t => .newsRecover t
  | .buyOk d money _ name => .buyOk d money name
  | .sellOk bounty money => .sellOk bounty money
  | .invenInfo items money => .invenInfo items.length (padTo _ ⟨0, 0, [], false⟩ items) money
  | .goalUpdate goal => .goalUpdate goal
  | .disposeOk => .disposeOk
  | .error code reason => .error code.code reason
  | .loginFail _ _ => .other

/-! ### Arrays -/

/-- Store at an index; a store outside of the array is not followed. -/
def setAt {α : Type} {n : ℕ} (v : Vector α n) (i : ℤ) (x : α) : Vector α n :=
  if 0 ≤ i then v.setIfInBounds i.toNat x else v

/-- The indices of `for (i = 0; i < count; i++)`. -/
def indices (count : ℤ) : List ℕ := List.range count.toNat

/-- Change the entries before a count. -/
def mapBefore {α : Type} {n : ℕ} (count : ℤ) (f : α → α) (v : Vector α n) : Vector α n :=
  Vector.ofFn fun i => if (i : ℤ) < count then f v[i] else v[i]

/-- Copy the entries before a count, and before `n`, from another array. -/
def copyBefore {α : Type} {n : ℕ} (count : ℤ) (src v : Vector α n) : Vector α n :=
  Vector.ofFn fun i => if (i : ℤ) < count then src[i] else v[i]

/-! ### The packets of the main loop -/

/-- The message that marks a round reset. -/
def roundResetMark : Bytes := utf8 "__ROUND_RESET__"

/-- Whether `sub` occurs in `s`. -/
def strstr (s sub : Bytes) : Bool := s.tails.any fun t => sub.isPrefixOf t

/-- The senders whose chats are shown as news. -/
def isNewsSender (sender : Bytes) : Bool :=
  strstr sender (utf8 "속보") || strstr sender (utf8 "ALERT") || strstr sender (utf8 "SYSTEM")

namespace ClientState

variable (st : ClientState)

/-- `EVT_MARKET_SPAWN`: a listing is added while there is room. -/
def onMarketSpawn (docId : ℤ) (tags : Tags) (basePrice : ℤ) (name : Bytes) : ClientState :=
  if st.mktCount < uiMaxMarket then
    { st with
      mkt := setAt st.mkt st.mktCount
        ⟨docId, tags, basePrice, cstr maxNameLen name, tags.meets st.frozenMask⟩
      mktCount := st.mktCount + 1 }
  else st

/-- The first entry of the market list with the number. -/
def findMarket (docId : ℤ) : Option ℕ :=
  (indices st.mktCount).find? fun i => (st.mkt[i]?.getD {}).docId == docId

/-- The last entry takes the place of the removed one. -/
def onMarketRemove (docId : ℤ) : ClientState :=
  match st.findMarket docId with
  | none => st
  | some i =>
    { st with
      mkt := setAt st.mkt i (st.mkt[(st.mktCount - 1).toNat]?.getD {})
      mktCount := st.mktCount - 1 }

/-- `EVT_NPC_SPAWN`: an order is added while there is room. -/
def onNpcSpawn (npcId : ℤ) (requiredTags : Tags) (bounty : ℤ) : ClientState :=
  if st.npcCount < uiMaxNpc then
    { st with
      npc := setAt st.npc st.npcCount ⟨npcId, requiredTags, bounty⟩
      npcCount := st.npcCount + 1 }
  else st

/-- The first order of a number. -/
def findNpc (npcId : ℤ) : Option ℕ :=
  (indices st.npcCount).find? fun i => (st.npc[i]?.getD {}).npcId == npcId

/-- `EVT_NPC_DESPAWN`: the last order takes the place of the one that goes. -/
def onNpcDespawn (npcId : ℤ) : ClientState :=
  match st.findNpc npcId with
  | none => st
  | some i =>
    { st with
      npc := setAt st.npc i (st.npc[(st.npcCount - 1).toNat]?.getD {})
      npcCount := st.npcCount - 1 }

/-- `EVT_NEWS_LEAK`: tags are frozen, and the headline is shown. -/
def onNewsLeak (frozenTags : Tags) (headline : Bytes) : ClientState :=
  let mask := st.frozenMask ||| frozenTags
  { st with
    frozenMask := mask
    mkt := mapBefore st.mktCount
      (fun m => if m.tags.meets mask then { m with isFrozen := true } else m) st.mkt
    inv := mapBefore st.invCount (fun it => { it with isFrozen := it.tags.meets mask }) st.inv
    lastNews := cstr maxTextLen headline }

/-- `EVT_NEWS_RECOVER`: tags are free again. -/
def onNewsRecover (recoveredTags : Tags) : ClientState :=
  let mask := st.frozenMask &&& ~~~recoveredTags
  { st with
    frozenMask := mask
    mkt := mapBefore st.mktCount (fun m => { m with isFrozen := m.tags.meets mask }) st.mkt
    inv := mapBefore st.invCount (fun it => { it with isFrozen := it.tags.meets mask }) st.inv }

/-- The count is stored as it came; the loop over the items goes up to it. -/
def onInvenInfo (count : ℤ) (items : Vector InvenItem maxInvenSize) (money : ℤ) : ClientState :=
  { st with
    invCount := count
    inv := copyBefore count items st.inv
    myMoney := money }

/-- Only the copying loops are bounded, not the stored counts. -/
def onScoreboard (escapedCount : ℤ) (escaped : Vector ScoreEscaped maxScoreEscaped)
    (remainingCount : ℤ) (remaining : Vector ScoreRemaining maxScoreRemaining) : ClientState :=
  { st with
    sbEscapedCount := escapedCount
    sbEscaped := copyBefore escapedCount escaped st.sbEscaped
    sbRemainingCount := remainingCount
    sbRemaining := copyBefore remainingCount remaining st.sbRemaining
    sbChatCount := 0 }

/-- `EVT_CHAT`: news go to the headline, and after a round every line is kept. -/
def onChat (mode : ClientMode) (sender text : Bytes) : ClientState :=
  let st := if isNewsSender sender then { st with lastNews := cstr maxTextLen text } else st
  if mode = .roundEnd then
    { st with
      sbChat := setAt st.sbChat (st.sbChatCount.tmod sbChatLines)
        (cstr (maxTextLen + maxKeyLen + 8) (91 :: sender ++ 93 :: 32 :: text))
      sbChatCount := wrapInt32 (st.sbChatCount + 1) }
  else st

/-- A round reset empties the boards. -/
def onRoundReset : ClientState :=
  { st with
    mktCount := 0
    npcCount := 0
    invCount := 0
    frozenMask := 0
    myMoney := initialMoney
    myGoal := goalMoney
    lastNews := []
    sbEscapedCount := 0
    sbRemainingCount := 0
    sbChatCount := 0 }

end ClientState

/-- The client before the main loop has begun, after its login was accepted. -/
def UiClient.start (money goal : ℤ) : UiClient := { state := { myMoney := money, myGoal := goal } }

/-- One packet in the main loop; after a game over the client has exited. -/
def UiClient.receive (c : UiClient) (pkt : UiPacket) : UiClient :=
  if c.mode = .gameOver then c
  else
    match pkt with
    | .chat sender text => { c with state := c.state.onChat c.mode sender text }
    | .policeRaid _ _ => { c with mode := .panic }
    | .minigameOk => { c with mode := .normal }
    | .gameOver message =>
      if roundResetMark.isPrefixOf message then ⟨c.state.onRoundReset, .normal⟩
      else { c with mode := .gameOver }
    | .victory _ => { c with mode := .gameOver }
    | .scoreboard _ e es r rs => ⟨c.state.onScoreboard e es r rs, .roundEnd⟩
    | .marketSpawn d t p n => { c with state := c.state.onMarketSpawn d t p n }
    | .marketRemove d => { c with state := c.state.onMarketRemove d }
    | .npcSpawn n t b => { c with state := c.state.onNpcSpawn n t b }
    | .npcDespawn n => { c with state := c.state.onNpcDespawn n }
    | .newsLeak t _ h => { c with state := c.state.onNewsLeak t h }
    | .newsRecover t => { c with state := c.state.onNewsRecover t }
    | .buyOk _ money _ => { c with state := { c.state with myMoney := money } }
    | .sellOk _ money => { c with state := { c.state with myMoney := money } }
    | .invenInfo count items money => { c with state := c.state.onInvenInfo count items money }
    | .goalUpdate goal => { c with state := { c.state with myGoal := goal } }
    | .loginOk _ _ | .rumorGlitch | .disposeOk | .error _ _ | .other => c

end UnderFlow
