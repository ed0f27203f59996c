import UnderFlow.Common.Protocol
import UnderFlow.Data.FirstFit

/-!
# The market and the NPC board

`src/server/market.c`.  Both boards are tables of slots scanned from the first slot; a slot keeps
its old fields after it is given up, and `active` says whether it is in use.  The market caches in
every slot whether one of its tags is frozen.  Each function is one critical section.
-/

namespace UnderFlow

/-- `MAX_MARKET_SLOTS`. -/
def maxMarketSlots : ℕ := 32
/-- `MAX_NPC_SLOTS`. -/
def maxNpcSlots : ℕ := 16
/-- `MARKET_LIFE_MIN_SEC`. -/
def marketLifeMinSec : ℕ := 40
/-- `MARKET_LIFE_MAX_SEC`. -/
def marketLifeMaxSec : ℕ := 90

/-- `MarketSlot`: a listing. -/
structure MarketSlot where
  /-- `doc_id`. -/
  docId : ℤ := 0
  /-- `tags`. -/
  tags : Tags := 0
  /-- `base_price`. -/
  basePrice : ℤ := 0
  /-- `name`. -/
  name : Bytes := []
  /-- The slot is in use. -/
  active : Bool := false
  /-- The cache of the frozen mask. -/
  isFrozen : Bool := false
  /-- When it was listed. -/
  spawnTime : ℕ := 0
  /-- How long it stays, in seconds. -/
  lifespanSec : ℕ := 0
  deriving DecidableEq

/-- `NPCSlot`: an order. -/
structure NPCSlot where
  /-- `npc_id`. -/
  npcId : ℤ := 0
  /-- `required_tags`. -/
  requiredTags : Tags := 0
  /-- `bounty`. -/
  bounty : ℤ := 0
  /-- The slot is in use. -/
  active : Bool := false
  /-- When it was put up. -/
  spawnTime : ℕ := 0
  deriving DecidableEq

/-- `g_market` and `g_frozen_tags`. -/
structure Market where
  /-- The slots of `g_market`. -/
  slots : List MarketSlot
  /-- The mask of the frozen tags. -/
  frozenTags : Tags

/-- The slot is an active listing of the document. -/
def MarketSlot.lists (docId : ℤ) (s : MarketSlot) : Bool := s.active && s.docId == docId

/-- The slot is an active order of the NPC. -/
def NPCSlot.orders (npcId : ℤ) (s : NPCSlot) : Bool := s.active && s.npcId == npcId

/-- The first critical section of `market_init`. -/
def marketInit : Market := ⟨List.replicate maxMarketSlots {}, 0⟩

/-- The second critical section of `market_init`. -/
def npcInit : List NPCSlot := List.replicate maxNpcSlots {}

/-- `market_add` at time `now`, with `r` the value of `rand()`; `none` when the board is full. -/
def marketAdd (m : Market) (now r : ℕ) (docId : ℤ) (tags : Tags) (price : ℤ) (name : Bytes) :
    Option Market :=
  (updateFirst (fun s => !s.active) (fun _ =>
    { docId := docId
      tags := tags
      basePrice := price
      name := cstr maxNameLen name
      active := true
      isFrozen := tags.meets m.frozenTags
      spawnTime := now
      lifespanSec := marketLifeMinSec + r % (marketLifeMaxSec - marketLifeMinSec + 1) })
    m.slots).map fun p => { m with slots := p.2 }

/-- `market_find`: the first active listing of an id. -/
def marketFind (m : Market) (docId : ℤ) : Option MarketSlot := m.slots.find? (·.lists docId)

/-- The failures of `market_take`: `-2` for a frozen listing, `-1` for a missing one. -/
inductive TakeError where
  | frozen
  | missing
  deriving DecidableEq

/-- `market_take`: the listing is taken off the market, unless it is frozen. -/
def marketTake (m : Market) (docId : ℤ) : Except TakeError MarketSlot × Market :=
  match updateFirst (·.lists docId) (fun s => { s with active := false }) m.slots with
  | none => (.error .missing, m)
  | some (slot, slots) =>
    if slot.isFrozen then (.error .frozen, m) else (.ok slot, { m with slots := slots })

/-- `npc_add`: the order is put into the first free slot. -/
def npcAdd (npcs : List NPCSlot) (now : ℕ) (npcId : ℤ) (requiredTags : Tags) (bounty : ℤ) :
    Option (List NPCSlot) :=
  (updateFirst (fun s => !s.active) (fun _ =>
    { npcId := npcId
      requiredTags := requiredTags
      bounty := bounty
      active := true
      spawnTime := now }) npcs).map Prod.snd

/-- `npc_find`. -/
def npcFind (npcs : List NPCSlot) (npcId : ℤ) : Option NPCSlot := npcs.find? (·.orders npcId)

/-- `npc_take`: the order is taken off the board. -/
def npcTake (npcs : List NPCSlot) (npcId : ℤ) : Option (NPCSlot × List NPCSlot) :=
  updateFirst (·.orders npcId) (fun s => { s with active := false }) npcs

/-- `freeze_tags`. -/
def freezeTags (m : Market) (tags : Tags) : Market where
  slots := m.slots.map fun s =>
    if s.active && s.tags.meets tags then { s with isFrozen := true } else s
  frozenTags := m.frozenTags ||| tags

/-- `unfreeze_tags`: the bits are cleared, whoever has set them. -/
def unfreezeTags (m : Market) (tags : Tags) : Market where
  slots := m.slots.map fun s =>
    if s.active && s.tags.meets tags && !s.tags.meets (m.frozenTags &&& ~~~tags)
    then { s with isFrozen := false } else s
  frozenTags := m.frozenTags &&& ~~~tags

/-- `is_tag_frozen`. -/
def isTagFrozen (m : Market) (tags : Tags) : Bool := tags.meets m.frozenTags

/-- `market_is_full`. -/
def marketIsFull (m : Market) : Bool := m.slots.all (·.active)

/-- `npc_is_full`. -/
def npcIsFull (npcs : List NPCSlot) : Bool := npcs.all (·.active)

/-- An order past its age: the more tags it asks for, the shorter it stays. -/
def NPCSlot.expired (now : ℕ) (baseAgeSec stepSec : ℤ) (s : NPCSlot) : Bool :=
  s.active &&
    decide (max 60 (baseAgeSec - ((countBits s.requiredTags : ℤ) - 1) * stepSec) <
      (now : ℤ) - s.spawnTime)

/-- `npc_despawn_aged`: the ids reported and the board after it. -/
def npcDespawnAged (npcs : List NPCSlot) (now : ℕ) (baseAgeSec stepSec : ℤ) (maxOut : ℕ) :
    List ℤ × List NPCSlot :=
  (((npcs.filter (·.expired now baseAgeSec stepSec)).map (·.npcId)).take maxOut,
    npcs.map fun s => if s.expired now baseAgeSec stepSec then { s with active := false } else s)

/-- A listing past its lifespan; a frozen one does not age. -/
def MarketSlot.expired (now : ℕ) (s : MarketSlot) : Bool :=
  s.active && !s.isFrozen && decide (s.spawnTime + s.lifespanSec < now)

/-- `market_despawn_aged`: the ids reported and the market after it. -/
def marketDespawnAged (m : Market) (now maxOut : ℕ) : List ℤ × Market :=
  (((m.slots.filter (·.expired now)).map (·.docId)).take maxOut,
    { m with slots := m.slots.map fun s => if s.expired now then
      { s with active := false } else s })

/-- `market_active_tags`: the tags of all listings. -/
def marketActiveTags (m : Market) : Tags :=
  (m.slots.filter (·.active)).foldl (fun mask s => mask ||| s.tags) 0

/-- `market_snapshot`: the active listings, up to a number. -/
def marketSnapshot (m : Market) (maxSize : ℕ) : List MarketSlot :=
  (m.slots.filter (·.active)).take maxSize

/-- `npc_snapshot`: the active orders, up to a number. -/
def npcSnapshot (npcs : List NPCSlot) (maxSize : ℕ) : List NPCSlot :=
  (npcs.filter (·.active)).take maxSize

/-! ### Masks -/

theorem meets_eq_false {t mask : Tags} : t.meets mask = false ↔ t &&& mask = 0#32 := by
  simp [Tags.meets]

@[simp] theorem meets_zero (t : Tags) : t.meets 0 = false := by
  simp [Tags.meets]

theorem meets_or (t m₁ m₂ : Tags) : t.meets (m₁ ||| m₂) = (t.meets m₁ || t.meets m₂) := by
  rw [← Bool.not_inj_iff, Bool.not_or, Bool.eq_iff_iff, Bool.and_eq_true]
  simp only [Bool.not_eq_true', meets_eq_false]
  rw [BitVec.and_or_distrib_left, BitVec.or_eq_zero_iff]

/-- A smaller mask meets less. -/
theorem meets_and_left {t m₁ m₂ : Tags} (h : t.meets m₁ = false) : t.meets (m₁ &&& m₂) = false := by
  rw [meets_eq_false] at h ⊢
  rw [← BitVec.and_assoc, h, BitVec.zero_and]

/-- What is frozen after some tags are given back. -/
theorem meets_and_not {t m₁ m₂ : Tags} (h : t.meets m₂ = false) :
    t.meets (m₁ &&& ~~~m₂) = t.meets m₁ := by
  rw [meets_eq_false] at h
  have hsub : t &&& ~~~m₂ = t := by
    have hsplit : t &&& m₂ ||| t &&& ~~~m₂ = t := by
      ext i hi
      rw [BitVec.getElem_or, BitVec.getElem_and, BitVec.getElem_and, BitVec.getElem_not]
      cases t[i] <;> cases m₂[i] <;> rfl
    rwa [h, BitVec.zero_or] at hsplit
  have hcomm : t &&& (m₁ &&& ~~~m₂) = t &&& ~~~m₂ &&& m₁ := by
    rw [BitVec.and_comm m₁, BitVec.and_assoc]
  rw [Tags.meets, Tags.meets, hcomm, hsub]

end UnderFlow
