import UnderFlow.Server.Listings

/-!
# The cached freeze

Every slot of the market caches whether one of its tags is frozen.

* `Coherent` : the flag of every listing agrees with the frozen mask; each function of `market.c`
  keeps it (`coherent_step` for the steps of the server).
* `MarketCall` : a call of one of these functions, with any arguments.
* `cacheAgrees_calls` : after any calls the buyer's answer is the seller's answer, and no frozen
  listing ages.
-/

namespace UnderFlow

variable {th : Thread} {m m' : Market}

/-! ### The cached flag -/

/-- The flag of every listing says whether one of its tags is frozen. -/
def Coherent (m : Market) : Prop :=
  ∀ slot ∈ m.slots, slot.active = true → slot.isFrozen = slot.tags.meets m.frozenTags

theorem coherent_init : Coherent marketInit := by
  intro slot hs hact
  rw [List.eq_of_mem_replicate hs] at hact
  cases hact

theorem coherent_add {now r : ℕ} {doc : DocFile} (h : Coherent m)
    (hm : marketAdd m now r doc.docId doc.tags doc.basePrice doc.name = some m') : Coherent m' := by
  obtain ⟨slot, new, hu, hmask, hshow, -, hfrozen⟩ := marketAdd_eq_some hm
  intro slot' hs hact
  rw [hmask]
  rcases mem_updateFirst hu hs with rfl | hs
  · rw [hfrozen, hshow.2.1]
  · exact h slot' hs hact

theorem coherent_take (h : Coherent m) (docId : ℤ) : Coherent (marketTake m docId).2 := by
  rcases marketTake_cases m docId with ⟨e, he⟩ | ⟨slot, slots, hu, -, he⟩ <;> rw [he]
  · exact h
  · intro slot' hs hact
    rcases mem_updateFirst hu hs with rfl | hs
    · cases hact
    · exact h slot' hs hact

theorem coherent_despawn (h : Coherent m) (now maxOut : ℕ) :
    Coherent (marketDespawnAged m now maxOut).2 := by
  intro slot' hs hact
  obtain ⟨slot, hslot, rfl⟩ := List.mem_map.1 hs
  split_ifs at hact ⊢
  exact h slot hslot hact

theorem coherent_freeze (h : Coherent m) (tags : Tags) : Coherent (freezeTags m tags) := by
  intro slot' hs hact
  obtain ⟨slot, hslot, rfl⟩ := List.mem_map.1 hs
  have hmask : (freezeTags m tags).frozenTags = m.frozenTags ||| tags := rfl
  rw [hmask]
  split_ifs at hact ⊢ with hc
  · rw [Bool.and_eq_true] at hc
    simp only [meets_or, hc.2, Bool.or_true]
  · have hmeets : slot.tags.meets tags = false := by simpa [hact] using hc
    rw [meets_or, hmeets, Bool.or_false]
    exact h slot hslot hact

theorem coherent_unfreeze (h : Coherent m) (tags : Tags) : Coherent (unfreezeTags m tags) := by
  intro slot' hs hact
  obtain ⟨slot, hslot, rfl⟩ := List.mem_map.1 hs
  have hmask : (unfreezeTags m tags).frozenTags = m.frozenTags &&& ~~~tags := rfl
  rw [hmask]
  split_ifs at hact ⊢ with hc
  · simp only [Bool.and_eq_true, Bool.not_eq_true'] at hc
    exact hc.2.symm
  · rw [h slot hslot hact]
    by_cases hmeets : slot.tags.meets tags = true
    · have hstill : slot.tags.meets (m.frozenTags &&& ~~~tags) = true := by
        simpa [hact, hmeets] using hc
      by_cases hold : slot.tags.meets m.frozenTags = true
      · rw [hold, hstill]
      · rw [meets_and_left (by simpa using hold)] at hstill
        cases hstill
    · exact (meets_and_not (by simpa using hmeets)).symm

/-- **The cache is kept coherent** by every step of the server. -/
theorem coherent_step (h : Coherent m) (hstep : MarketStep m th m') : Coherent m' := by
  cases hstep with
  | same hm => rwa [hm]
  | take docId _ hm => exact hm ▸ coherent_take h docId
  | add doc _ now r hm => exact coherent_add h hm
  | age now hm => exact hm ▸ coherent_despawn h now maxMarketSlots
  | freeze tags _ hm => exact hm ▸ coherent_freeze h tags
  | unfreeze tags hm => exact hm ▸ coherent_unfreeze h tags
  | init hm => exact hm ▸ coherent_init

/-- A listing that is taken has no frozen tag. -/
theorem meets_of_take {docId : ℤ} {slot : MarketSlot} (h : Coherent m)
    (ht : marketTake m docId = (.ok slot, m')) : slot.tags.meets m.frozenTags = false := by
  rcases marketTake_cases m docId with ⟨e, he⟩ | ⟨slot', slots, hu, hf, he⟩ <;> rw [he] at ht <;>
    cases ht
  obtain ⟨hmem, htest⟩ := mem_of_updateFirst hu
  have hact : slot.active = true := by
    simp only [MarketSlot.lists, Bool.and_eq_true] at htest
    exact htest.1
  rw [← h slot hmem hact, hf]

/-! ### Calls -/

/-- A call of `market.c` that writes the market. -/
inductive MarketCall where
  | init
  | add (now r : ℕ) (doc : DocFile)
  | take (docId : ℤ)
  | despawnAged (now maxOut : ℕ)
  | freeze (tags : Tags)
  | unfreeze (tags : Tags)

/-- The market after a call; `market_add` leaves a full market as it is. -/
def MarketCall.run (m : Market) : MarketCall → Market
  | init => marketInit
  | add now r doc => (marketAdd m now r doc.docId doc.tags doc.basePrice doc.name).getD m
  | take docId => (marketTake m docId).2
  | despawnAged now maxOut => (marketDespawnAged m now maxOut).2
  | freeze tags => freezeTags m tags
  | unfreeze tags => unfreezeTags m tags

theorem coherent_call (h : Coherent m) (call : MarketCall) : Coherent (call.run m) := by
  cases call with
  | init => exact coherent_init
  | add now r doc =>
    show Coherent ((marketAdd m now r doc.docId doc.tags doc.basePrice doc.name).getD m)
    rcases hm : marketAdd m now r doc.docId doc.tags doc.basePrice doc.name with _ | m'
    · exact h
    · exact coherent_add h hm
  | take docId => exact coherent_take h docId
  | despawnAged now maxOut => exact coherent_despawn h now maxOut
  | freeze tags => exact coherent_freeze h tags
  | unfreeze tags => exact coherent_unfreeze h tags

theorem coherent_calls (calls : List MarketCall) (h : Coherent m) :
    Coherent (calls.foldl MarketCall.run m) := by
  induction calls generalizing m with
  | nil => exact h
  | cons call calls ih => exact ih (coherent_call h call)

/-! ### Mask and cache agree -/

/-- The cached flags and the frozen mask give the same answers. -/
structure CacheAgrees (m : Market) : Prop where
  flag : ∀ slot ∈ m.slots, slot.active = true → slot.isFrozen = isTagFrozen m slot.tags
  /-- What a buyer is told of a listing is what a seller is told of its tags. -/
  find : ∀ (docId : ℤ) (slot : MarketSlot), marketFind m docId = some slot →
    slot.isFrozen = isTagFrozen m slot.tags
  /-- `market_take` refuses a listing as frozen exactly when its tags are. -/
  take : ∀ (docId : ℤ) (slot : MarketSlot), marketFind m docId = some slot →
    ((marketTake m docId).1 = .error .frozen ↔ isTagFrozen m slot.tags = true)
  /-- A listing with a frozen tag stays in its slot when the market ages. -/
  aged : ∀ (now maxOut i : ℕ) (slot : MarketSlot), m.slots[i]? = some slot → slot.active = true →
    isTagFrozen m slot.tags = true → (marketDespawnAged m now maxOut).2.slots[i]? = some slot

theorem marketTake_frozen_iff {docId : ℤ} {slot : MarketSlot}
    (hf : marketFind m docId = some slot) :
    (marketTake m docId).1 = .error .frozen ↔ slot.isFrozen = true := by
  have hfst := updateFirst_fst (p := (·.lists docId)) (f := fun s => { s with active := false })
    (l := m.slots)
  rw [show m.slots.find? (·.lists docId) = some slot from hf] at hfst
  obtain ⟨⟨slot', slots⟩, hu, rfl⟩ := Option.map_eq_some_iff.1 hfst
  rw [marketTake, hu]
  by_cases hfrozen : slot'.isFrozen = true <;> simp [hfrozen]

theorem Coherent.agrees (h : Coherent m) : CacheAgrees m where
  flag := h
  find docId slot hf := by
    have htest := List.find?_some hf
    simp only [MarketSlot.lists, Bool.and_eq_true] at htest
    exact h slot (List.mem_of_find?_eq_some hf) htest.1
  take docId slot hf := by
    have htest := List.find?_some hf
    simp only [MarketSlot.lists, Bool.and_eq_true] at htest
    have hflag := h slot (List.mem_of_find?_eq_some hf) htest.1
    rw [marketTake_frozen_iff hf, hflag]
    rfl
  aged now maxOut i slot hi hact hfrozen := by
    have hflag : slot.isFrozen = true := (h slot (List.mem_of_getElem? hi) hact).trans hfrozen
    have hkept : slot.expired now = false := by simp [MarketSlot.expired, hflag]
    simp [marketDespawnAged, List.getElem?_map, hi, hkept]

/-- **The cached flags agree with the frozen mask** after any sequence of calls. -/
theorem cacheAgrees_calls (calls : List MarketCall) :
    CacheAgrees (calls.foldl MarketCall.run marketInit) :=
  (coherent_calls calls coherent_init).agrees

end UnderFlow
