import Mathlib.Data.List.Basic
import Mathlib.Data.Int.Notation
import Mathlib.Data.List.TakeWhile

/-!
# The vocabulary of the protocol

Constants, tags, error codes, and the packets exchanged by server and client
(`src/common/protocol.h`), as data.  A `Request` is what a client sends, a `Packet` what the server
sends; the array of a list-like body is a list.

C strings are lists of non-zero bytes (`Bytes`), and a bounded buffer of `n` bytes keeps the first
`n - 1` bytes of what is copied into it (`cstr`).  `Key` carries its own bound: the receiver
terminates a key at `MAX_KEY_LEN - 1`.
-/

namespace UnderFlow

/-- The bytes of a C string, without the terminating NUL. -/
abbrev Bytes := List UInt8

/-- The bytes of a string literal. -/
def utf8 (s : String) : Bytes := s.toUTF8.toList

/-- What a buffer of `n` bytes holds after a bounded copy of `s`. -/
def cstr (n : ℕ) (s : Bytes) : Bytes := (s.takeWhile (· ≠ 0)).take (n - 1)

/-- `MAX_KEY_LEN`: the size of a key with its NUL. -/
def maxKeyLen : ℕ := 32
/-- `MAX_TEXT_LEN`: the size of a text with its NUL. -/
def maxTextLen : ℕ := 256
/-- `MAX_NAME_LEN`: the size of a document name with its NUL. -/
def maxNameLen : ℕ := 64
/-- `MAX_INVEN_SIZE`: the documents a sandbox may hold. -/
def maxInvenSize : ℕ := 7
/-- `MAX_SCORE_ESCAPED`: the escapes on a scoreboard. -/
def maxScoreEscaped : ℕ := 3
/-- `MAX_SCORE_REMAINING`: the remaining players on a scoreboard. -/
def maxScoreRemaining : ℕ := 7
/-- `INITIAL_MONEY`: the balance of a new account. -/
def initialMoney : ℤ := 1000
/-- `GOAL_MONEY`: the goal of a fresh round. -/
def goalMoney : ℤ := 10000

/-- A key as the login receives it: at most 31 bytes, none of them NUL. -/
structure Key where
  /-- The bytes before the NUL. -/
  bytes : Bytes
  /-- The NUL has room. -/
  len : bytes.length < maxKeyLen
  /-- No byte before the NUL is one. -/
  noNul : 0 ∉ bytes
  deriving DecidableEq

namespace Key

@[ext] theorem ext {k₁ k₂ : Key} (h : k₁.bytes = k₂.bytes) : k₁ = k₂ := by
  cases k₁; cases k₂; cases h; rfl

/-- The empty string, which also marks a cleared key buffer. -/
def empty : Key := ⟨[], by decide, by decide⟩

instance : Inhabited Key := ⟨empty⟩

/-- The key held by a `MAX_KEY_LEN` buffer after a bounded copy of the bytes. -/
def ofBytes (b : Bytes) : Key where
  bytes := cstr maxKeyLen b
  len := by simp only [cstr, List.length_take, maxKeyLen]; omega
  noNul h := by simpa using List.mem_takeWhile_imp (List.mem_of_mem_take h)

end Key

/-! ### Tags -/

/-- A set of tags, as a bit mask. -/
abbrev Tags := BitVec 32

/-- `TAG_CORP_A`. -/
def tagCorpA : Tags := 1#32 <<< 0
/-- `TAG_CORP_B`. -/
def tagCorpB : Tags := 1#32 <<< 1
/-- `TAG_CORP_C`. -/
def tagCorpC : Tags := 1#32 <<< 2
/-- `TAG_CUSTOMER`. -/
def tagCustomer : Tags := 1#32 <<< 3
/-- `TAG_FINANCE`. -/
def tagFinance : Tags := 1#32 <<< 4
/-- `TAG_MILITARY`. -/
def tagMilitary : Tags := 1#32 <<< 5
/-- `TAG_GOVERNMENT`. -/
def tagGovernment : Tags := 1#32 <<< 6
/-- `TAG_MEDICAL`. -/
def tagMedical : Tags := 1#32 <<< 7
/-- `TAG_RESEARCH`. -/
def tagResearch : Tags := 1#32 <<< 8
/-- `TAG_PERSONAL`. -/
def tagPersonal : Tags := 1#32 <<< 9
/-- `TAG_CORP_D`. -/
def tagCorpD : Tags := 1#32 <<< 10
/-- `TAG_CORP_E`. -/
def tagCorpE : Tags := 1#32 <<< 11

/-- `TAG_LIST` of `events.c`. -/
def tagList : List Tags :=
  [tagCorpA, tagCorpB, tagCorpC, tagCustomer, tagFinance, tagMilitary, tagGovernment, tagMedical,
    tagResearch, tagPersonal, tagCorpD, tagCorpE]

/-- `(tags & mask) ? 1 : 0`. -/
def Tags.meets (t mask : Tags) : Bool := t &&& mask != 0

/-- `count_bits`: the number of bits set. -/
def countBits (v : Tags) : ℕ := ((List.range 32).filter v.getLsbD).length

/-! ### Errors and packets -/

/-- `ErrorCode`: why a request is refused. -/
inductive ErrorCode where
  | none | notEnoughMoney | inventoryFull | docNotFound | tagMismatch | npcNotFound
  | npcAlreadyTaken | docFrozen | rumorCooldown | invalidSession | duplicateLogin | keyBurned
  deriving DecidableEq

/-- The number of an error. -/
def ErrorCode.code : ErrorCode → ℤ
  | .none => 0
  | .notEnoughMoney => 1
  | .inventoryFull => 2
  | .docNotFound => 3
  | .tagMismatch => 4
  | .npcNotFound => 5
  | .npcAlreadyTaken => 6
  | .docFrozen => 7
  | .rumorCooldown => 8
  | .invalidSession => 9
  | .duplicateLogin => 10
  | .keyBurned => 11

/-- `DocFile`: the content of a `doc_<id>.dat` file. -/
structure DocFile where
  /-- The document. -/
  docId : ℤ
  /-- Its tags. -/
  tags : Tags
  /-- Its price. -/
  basePrice : ℤ
  /-- Its name. -/
  name : Bytes
  deriving DecidableEq

/-- `InvenItem`. -/
structure InvenItem where
  /-- The document. -/
  docId : ℤ
  /-- Its tags. -/
  tags : Tags
  /-- Its name. -/
  name : Bytes
  /-- A tag of it is frozen. -/
  isFrozen : Bool
  deriving DecidableEq

/-- `ScoreEscaped`, and the server's `EscapeLogEntry` with the same fields. -/
structure ScoreEscaped where
  /-- The player. -/
  key : Key
  /-- `money_at_escape`. -/
  moneyAtEscape : ℤ
  /-- Which escape of the round it was. -/
  escapeOrder : ℕ
  deriving DecidableEq, Inhabited

/-- `ScoreRemaining`. -/
structure ScoreRemaining where
  /-- The player. -/
  key : Key
  /-- The balance. -/
  money : ℤ
  deriving DecidableEq

/-- Requests of a client (`PKT_REQ_*`); `other` is a type the server does not know. -/
inductive Request where
  | login (key : Key)
  | chat (text : Bytes)
  | buy (docId : ℤ)
  | sell (npcId count : ℤ) (docIds : Vector ℤ maxInvenSize)
  | dispose (docId : ℤ)
  | inven
  | rumor (targetKey : Key)
  | minigameSubmit (passcode : Bytes)
  | triggerRaid
  | triggerLeak
  | triggerRich
  | triggerEndround
  | other
  deriving DecidableEq

/-- Packets of the server (`PKT_RES_*` and `PKT_EVT_*`). -/
inductive Packet where
  | loginOk (assignedSessionId : ℕ) (money goalMoney : ℤ)
  | loginFail (code : ErrorCode) (reason : Bytes)
  | invenInfo (items : List InvenItem) (money : ℤ)
  | buyOk (docId remainingMoney : ℤ) (tags : Tags) (name : Bytes)
  | sellOk (bounty newMoney : ℤ)
  | disposeOk
  | error (code : ErrorCode) (reason : Bytes)
  | minigameOk
  | chat (senderKey text : Bytes)
  | marketSpawn (docId : ℤ) (tags : Tags) (basePrice : ℤ) (name : Bytes)
  | marketRemove (docId : ℤ)
  | npcSpawn (npcId : ℤ) (requiredTags : Tags) (bounty : ℤ)
  | npcDespawn (npcId : ℤ)
  | newsLeak (frozenTags : Tags) (durationSec : ℕ) (headline : Bytes)
  | newsRecover (recoveredTags : Tags)
  | rumorGlitch
  | policeRaid (passcode : Bytes) (timeLimitSec : ℕ)
  | gameOver (message : Bytes)
  | victory (message : Bytes)
  | scoreboard (countdownSec : ℕ) (escaped : List ScoreEscaped) (remaining : List ScoreRemaining)
  | goalUpdate (goalMoney : ℤ)
  deriving DecidableEq

end UnderFlow
