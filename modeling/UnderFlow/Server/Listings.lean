import UnderFlow.Server.Origin

/-!
# Listings

* `market_step` : what a step can do to the market.
* `Thread.adds` : the document a thread is about to list.
* `Priced` : no price is negative, and neither is the goal (`priced_step`).
-/

namespace UnderFlow

variable {s s' : Shared} {c : Choice} {th th' : Thread} {a : Action Thread}

/-! ### Writes -/

/-- The document described by a slot. -/
def MarketSlot.doc (slot : MarketSlot) : DocFile :=
  ⟨slot.docId, slot.tags, slot.basePrice, slot.name⟩

/-- The document a purchase gives back to the market. -/
def Buy.adds : Buy → Option DocFile
  | .rollback slot => some slot.doc
  | _ => none

/-- The document a spawn is about to list. -/
def Spawn.adds : Spawn → Option DocFile
  | .add doc => some doc
  | _ => none

/-- The document the seeding is about to list. -/
def Seed.adds : Seed → Option DocFile
  | .add doc _ => some doc
  | _ => none

/-- The document the next action of a thread lists. -/
def Thread.adds : Thread → Option DocFile
  | .main (.seed pc) => pc.adds
  | .session _ _ (.buy _ pc) => pc.adds
  | .event _ (.spawn pc) => pc.adds
  | .roundEndTimer (.reset (.seed pc)) => pc.adds
  | _ => none

/-- The document the next action of a thread takes off the market, for a buyer. -/
def Thread.takes : Thread → Option ℤ
  | .session _ _ (.buy docId (.take _ _)) => some docId
  | _ => none

/-- The tags the next action of a thread freezes. -/
def Thread.freezes : Thread → Option Tags
  | .session _ _ (.leak (.freeze mask _)) => some mask
  | .event _ (.leak (.freeze mask _)) => some mask
  | _ => none

/-- What a step can do to the market. -/
inductive MarketStep (m : Market) (th : Thread) (m' : Market) : Prop
  | same (h : m' = m)
  | take (docId : ℤ) (hth : th.takes = some docId) (h : m' = (marketTake m docId).2)
  | add (doc : DocFile) (hth : th.adds = some doc) (now r : ℕ)
      (h : marketAdd m now r doc.docId doc.tags doc.basePrice doc.name = some m')
  | age (now : ℕ) (h : m' = (marketDespawnAged m now maxMarketSlots).2)
  | freeze (tags : Tags) (hth : th.freezes = some tags) (h : m' = freezeTags m tags)
  | unfreeze (tags : Tags) (h : m' = unfreezeTags m tags)
  | init (h : m' = marketInit)

theorem Action.Steps.market_eq {β : Type} {a : Action β} {b : β} {l : List Store} {fd : Option ℕ}
    (h : a.Steps s c s' b) (hw : a.Within l fd) (hl : Store.market ∉ l) : s'.market = s.market :=
  h.frame.market (hw.store_ne hl)

/-- The effect of `market_add`. -/
theorem exec_marketAdd {d : ℤ} {t : Tags} {p : ℤ} {n : Bytes} {r}
    (h : (Op.marketAdd d t p n).exec s c = some (s', r)) :
    (s' = s ∧ r = false) ∨
      (r = true ∧ ∃ m, s' = { s with market := m } ∧
        marketAdd s.market s.clock (c.rand.getD 0 0) d t p n = some m) := by
  simp only [Op.exec] at h
  split at h <;> cases h
  · exact .inl ⟨rfl, rfl⟩
  · exact .inr ⟨rfl, _, rfl, ‹_›⟩

theorem exec_marketAdd_market {th : Thread} (doc : DocFile) {r} (hth : th.adds = some doc)
    (h : (Op.marketAdd doc.docId doc.tags doc.basePrice doc.name).exec s c = some (s', r)) :
    MarketStep s.market th s'.market := by
  obtain ⟨rfl, -⟩ | ⟨-, m, rfl, hm⟩ := exec_marketAdd h
  · exact .same rfl
  · exact .add doc hth _ _ hm

theorem seedMarketAndNpc_market {pc : Seed} {b} (h : (seedMarketAndNpc pc).Steps s c s' b)
    (hth : th.adds = pc.adds) : MarketStep s.market th s'.market := by
  cases pc with
  | add doc todo =>
    obtain ⟨r, hr, -⟩ := h
    exact exec_marketAdd_market doc hth hr
  | _ => exact .same (h.frame.market (by simp [seedMarketAndNpc, Op.store]))

theorem firePublicLeak_market {pc : Leak} {b} (h : (firePublicLeak pc).Steps s c s' b)
    (hth : ∀ mask dur, pc = .freeze mask dur → th.freezes = some mask) :
    MarketStep s.market th s'.market := by
  cases pc with
  | freeze mask dur =>
    obtain ⟨r, hr, -⟩ := h
    cases hr
    exact .freeze mask (hth mask dur rfl) rfl
  | unfreeze mask =>
    obtain ⟨r, hr, -⟩ := h
    cases hr
    exact .unfreeze mask rfl
  | _ => exact .same (h.frame.market (by simp [firePublicLeak, Op.store]))

theorem clientLoop_market {sock : ℕ} {key : Key} {pc : Command} {b}
    (h : (clientLoop sock key pc).Steps s c s' b) :
    MarketStep s.market (.session sock key pc) s'.market := by
  cases pc with
  | buy d q =>
    cases q with
    | take rec off =>
      obtain ⟨r, hr, -⟩ := h
      cases hr
      exact .take d rfl rfl
    | rollback slot =>
      obtain ⟨r, hr, -⟩ := h
      exact exec_marketAdd_market slot.doc rfl hr
    | _ => exact .same (h.frame.market (by simp [clientLoop, Action.map, handleBuy, Op.store]))
  | leak q =>
    obtain ⟨n, hn, -⟩ := Action.steps_map.1 h
    exact firePublicLeak_market hn fun mask dur hq => by subst hq; rfl
  | bankruptcy q => exact .same (h.market_eq (checkBankruptcy_within sock key q) (by simp))
  | sell n ds q => exact .same (h.market_eq (handleSell_within sock key n ds q) (by simp))
  | dispose d q => exact .same (h.market_eq (handleDispose_within sock key d q) (by simp))
  | inventory q => exact .same (h.market_eq (handleInventory_within sock key q) (by simp))
  | rumor k q => exact .same (h.market_eq (handleRumor_within sock key k q) (by simp))
  | payoff q => exact .same (h.market_eq (handlePayoff_within sock key q) (by simp))
  | minigame code q =>
    exact .same (h.market_eq (handleMinigameSubmit_within sock key code q) (by simp))
  | selfRaid q => exact .same (h.market_eq (fireSelfPoliceRaid_within sock key q) (by simp))
  | fakeRich q => exact .same (h.market_eq (handleFakeRich_within sock key q) (by simp))
  | endround q => exact .same (h.market_eq (fireRoundEndCountdown_within _ q) (by simp))
  | _ => exact .same (h.frame.market (by simp [clientLoop, Op.store]))

theorem triggerRoundReset_market {pc : Reset} {b} (h : (triggerRoundReset pc).Steps s c s' b) :
    MarketStep s.market (.roundEndTimer (.reset pc)) s'.market := by
  cases pc with
  | market =>
    obtain ⟨r, hr, -⟩ := h
    cases hr
    exact .init rfl
  | masterPurge pc => exact .same (h.market_eq (purgeDocsIn_within .master pc) (by simp))
  | userPurge name todo pc =>
    exact .same (h.market_eq (purgeDocsIn_within (.entry name) pc) (by simp))
  | seed pc =>
    obtain ⟨n, hn, -⟩ := Action.steps_map.1 h
    exact seedMarketAndNpc_market hn rfl
  | _ => exact .same (h.frame.market (by simp [triggerRoundReset, Op.store]))

theorem eventThreadFunc_market {v : EventVars} {pc : Event} {b}
    (h : (eventThreadFunc v pc).Steps s c s' b) :
    MarketStep s.market (.event v pc) s'.market := by
  cases pc with
  | ageMarket q =>
    cases q with
    | despawn =>
      obtain ⟨r, hr, -⟩ := h
      cases hr
      exact .age s.clock rfl
    | _ =>
      exact .same (h.frame.market (by simp [eventThreadFunc, Action.map, eventAgeMarket, Op.store]))
  | leak q =>
    obtain ⟨n, hn, -⟩ := Action.steps_map.1 h
    exact firePublicLeak_market hn fun mask dur hq => by subst hq; rfl
  | spawn q =>
    cases q with
    | add doc =>
      obtain ⟨r, hr, -⟩ := h
      exact exec_marketAdd_market doc rfl hr
    | _ =>
      exact .same
        (h.frame.market (by simp [eventThreadFunc, Action.map, eventSpawnMarket, Op.store]))
  | roundEnd q => exact .same (h.market_eq (fireRoundEndCountdown_within _ q) (by simp))
  | ageNpcs q => exact .same (h.market_eq (eventAgeNpcs_within q) (by simp))
  | raid q => exact .same (h.market_eq (firePeriodicPoliceRaid_within q) (by simp))
  | _ => exact .same (h.frame.market (by simp [eventThreadFunc, Op.store]))

/-- **What a step can do to the market.** -/
theorem market_step (ha : th.action = some a) (h : a.Steps s c s' th') :
    MarketStep s.market th s'.market := by
  cases th with
  | main pc =>
    cases ha
    cases pc with
    | marketInit =>
      obtain ⟨r, hr, -⟩ := h
      cases hr
      exact .init rfl
    | seed pc =>
      obtain ⟨n, hn, -⟩ := Action.steps_map.1 h
      obtain ⟨m, hm, -⟩ := Action.steps_map.1 hn
      exact seedMarketAndNpc_market hm rfl
    | _ => exact .same (h.frame.market (by simp [Action.map, mainThread, Op.store]))
  | session sock key pc =>
    cases ha
    obtain ⟨n, hn, -⟩ := Action.steps_map.1 h
    exact clientLoop_market hn
  | event v pc =>
    cases ha
    obtain ⟨n, hn, -⟩ := Action.steps_map.1 h
    exact eventThreadFunc_market hn
  | leakRecovery mask dur pc =>
    cases ha
    cases pc with
    | unfreeze =>
      obtain ⟨r, hr, -⟩ := h
      cases hr
      exact .unfreeze mask rfl
    | _ => exact .same (h.frame.market (by simp [Action.map, leakRecoveryThread, Op.store]))
  | roundEndTimer pc =>
    cases ha
    cases pc with
    | reset pc =>
      obtain ⟨n, hn, -⟩ := Action.steps_map.1 h
      obtain ⟨m, hm, -⟩ := Action.steps_map.1 hn
      exact triggerRoundReset_market hm
    | _ => exact .same (h.frame.market (by simp [Action.map, roundEndTimerThread, Op.store]))
  | login sock pc => cases ha; exact .same (h.market_eq (clientLogin_within sock pc) (by simp))
  | disconnect sock pc =>
    cases ha; exact .same (h.market_eq (clientDisconnect_within sock pc) (by simp))
  | npcSequence pc => cases ha; exact .same (h.market_eq (eventDoNpcSequence_within pc) (by simp))
  | raidTimeout serial pc =>
    cases ha; exact .same (h.market_eq (periodicRaidTimeoutThread_within pc) (by simp))
  | finished => cases ha

/-! ### Slots -/

/-- The slot describes the document. -/
def MarketSlot.Shows (slot : MarketSlot) (doc : DocFile) : Prop :=
  slot.docId = doc.docId ∧ slot.tags = doc.tags ∧ slot.basePrice = doc.basePrice ∧
    slot.name = cstr maxNameLen doc.name

/-- The new slot of `market_add`. -/
theorem marketAdd_eq_some {m m' : Market} {now r : ℕ} {doc : DocFile}
    (h : marketAdd m now r doc.docId doc.tags doc.basePrice doc.name = some m') :
    ∃ slot slot', updateFirst (fun s => !s.active) (fun _ => slot') m.slots = some
    (slot, m'.slots) ∧
      m'.frozenTags = m.frozenTags ∧ slot'.Shows doc ∧ slot'.active = true ∧
      slot'.isFrozen = doc.tags.meets m.frozenTags := by
  obtain ⟨⟨slot, slots⟩, hp, rfl⟩ := Option.map_eq_some_iff.1 h
  exact ⟨slot, _, hp, rfl, ⟨rfl, rfl, rfl, rfl⟩, rfl, rfl⟩

/-- The two results of `market_take`. -/
theorem marketTake_cases (m : Market) (docId : ℤ) :
    (∃ e, marketTake m docId = (.error e, m)) ∨
      ∃ slot slots, updateFirst (·.lists docId) (fun s => { s with active := false }) m.slots =
        some (slot, slots) ∧ slot.isFrozen = false ∧
        marketTake m docId = (.ok slot, { m with slots := slots }) := by
  unfold marketTake
  split
  · exact .inl ⟨_, rfl⟩
  · rename_i slot slots hu
    split_ifs with hf
    · exact .inl ⟨_, rfl⟩
    · exact .inr ⟨slot, slots, hu, by simpa using hf, rfl⟩

/-- The slots agree on the document; the second is active only if the first is. -/
def MarketSlot.SameDoc (slot slot' : MarketSlot) : Prop :=
  slot'.docId = slot.docId ∧ slot'.tags = slot.tags ∧ slot'.basePrice = slot.basePrice ∧
    slot'.name = slot.name ∧ (slot'.active = true → slot.active = true)

theorem MarketSlot.SameDoc.refl (slot : MarketSlot) : slot.SameDoc slot :=
  ⟨rfl, rfl, rfl, rfl, id⟩

/-- Every slot after a step is an old slot, the slot of the document just listed, or a slot that was
never used. -/
theorem slot_step {m m' : Market} (h : MarketStep m th m') {slot' : MarketSlot}
    (hs : slot' ∈ m'.slots) : (∃ slot ∈ m.slots, slot.SameDoc slot') ∨
      (∃ doc, th.adds = some doc ∧ slot'.Shows doc) ∨ slot' = {} := by
  cases h with
  | same h => exact .inl ⟨slot', h ▸ hs, .refl slot'⟩
  | take docId _ h =>
    subst h
    rcases marketTake_cases m docId with ⟨e, he⟩ | ⟨slot, slots, hu, -, he⟩ <;> rw [he] at hs
    · exact .inl ⟨slot', hs, .refl slot'⟩
    · rcases mem_updateFirst hu hs with rfl | hs
      · exact .inl ⟨slot, (mem_of_updateFirst hu).1, rfl, rfl, rfl, rfl, nofun⟩
      · exact .inl ⟨slot', hs, .refl slot'⟩
  | add doc hth now r h =>
    obtain ⟨slot, new, hu, -, hshow, -⟩ := marketAdd_eq_some h
    rcases mem_updateFirst hu hs with rfl | hs
    · exact .inr (.inl ⟨doc, hth, hshow⟩)
    · exact .inl ⟨slot', hs, .refl slot'⟩
  | age now h =>
    subst h
    obtain ⟨slot, hslot, rfl⟩ := List.mem_map.1 hs
    refine .inl ⟨slot, hslot, ?_⟩
    split_ifs
    · exact ⟨rfl, rfl, rfl, rfl, nofun⟩
    · exact .refl slot
  | freeze tags _ h | unfreeze tags h =>
    subst h
    obtain ⟨slot, hslot, rfl⟩ := List.mem_map.1 hs
    refine .inl ⟨slot, hslot, ?_⟩
    split_ifs
    · exact ⟨rfl, rfl, rfl, rfl, id⟩
    · exact .refl slot
  | init h =>
    subst h
    exact .inr (.inr (List.eq_of_mem_replicate hs))

/-! ### Prices -/

/-- The slot a buyer works with. -/
def Buy.slot : Buy → Option MarketSlot
  | .count slot | .lookup slot | .stat slot _ _ | .move slot _ _ | .rollback slot
  | .charge slot _ _ | .reply slot _ => some slot
  | _ => none

/-- The price of the document being spawned. -/
def Spawn.price? : Spawn → Option ℤ
  | .name _ _ p => some p
  | .write doc | .add doc | .remove doc | .announce doc => some doc.basePrice
  | _ => none

/-- The documents left to be seeded. -/
def Seed.docs : Seed → List DocFile
  | .write doc todo | .add doc todo => doc :: todo
  | .npc _ _ => []

/-- The prices a thread works with are not negative. -/
def Thread.Priced : Thread → Prop
  | .main (.seed pc) => pc.docs ⊆ seedDocs
  | .session _ _ (.buy _ pc) => ∀ slot, pc.slot = some slot → 0 ≤ slot.basePrice
  | .event _ (.spawn pc) => ∀ price, pc.price? = some price → 0 ≤ price
  | .roundEndTimer (.reset (.seed pc)) => pc.docs ⊆ seedDocs
  | _ => True

/-- No price is negative, and neither is the goal. -/
abbrev Priced : Server → Prop := Pool.Inv
  (fun s => (∀ slot ∈ s.market.slots, 0 ≤ slot.basePrice) ∧ 0 ≤ s.round.goalMoney)
  (fun _ th => th.Priced)

theorem seedDocs_price : ∀ doc ∈ seedDocs, 0 ≤ doc.basePrice := by
  intro doc h
  obtain ⟨⟨d, t, n⟩, -, rfl⟩ := List.mem_map.1 h
  simp only
  omega

theorem Thread.Priced.adds {doc : DocFile} (h : th.Priced) (hadds : th.adds = some doc) :
    0 ≤ doc.basePrice := by
  have hseed : ∀ q : Seed, q.docs ⊆ seedDocs → q.adds = some doc → 0 ≤ doc.basePrice := by
    intro q hq hadds
    cases q <;> cases hadds
    exact seedDocs_price doc (hq List.mem_cons_self)
  cases th with
  | main pc =>
    cases pc with
    | seed q => exact hseed q h hadds
    | _ => cases hadds
  | session sock key pc =>
    cases pc with
    | buy d q =>
      cases q <;> cases hadds
      exact h _ rfl
    | _ => cases hadds
  | event v pc =>
    cases pc with
    | spawn q =>
      cases q <;> cases hadds
      exact h _ rfl
    | _ => cases hadds
  | roundEndTimer pc =>
    cases pc with
    | reset pc =>
      cases pc with
      | seed q => exact hseed q h hadds
      | _ => cases hadds
    | _ => cases hadds
  | _ => cases hadds

theorem exec_goal {o : Op} {r : o.Ret} (h : o.exec s c = some (s', r))
    (hg : 0 ≤ s.round.goalMoney) : 0 ≤ s'.round.goalMoney := by
  by_cases ho : o.store = some .round
  · cases o <;> simp only [Op.store, Option.some.injEq, reduceCtorEq] at ho
    · cases h
      rw [roundPayoff_goal]
      simp only [debtRaiseStep, debtCap]
      split_ifs <;> omega
    · simp only [Op.exec] at h
      split_ifs at h <;> cases h <;> exact hg
    · cases h
      exact hg
    · cases h
      exact (by decide : (0 : ℤ) ≤ goalMoney)
  · rw [(exec_frame h).round ho]
    exact hg

theorem handleBuy_slot {sock : ℕ} {key : Key} {d : ℤ} {q q' : Buy} {slot : MarketSlot}
    (h : (handleBuy sock key d q).Steps s c s' (.cont q')) (hs : q'.slot = some slot) :
    q.slot = some slot ∨ slot ∈ s.market.slots := by
  cases q with
  | find =>
    obtain ⟨r, hr, hn⟩ := h
    cases hr
    simp only [handleBuy] at hn
    split at hn
    · cases hn
    · rename_i slot hf
      split_ifs at hn
      cases hn
      cases hs
      exact .inr (List.mem_of_find?_eq_some hf)
  | count slot | lookup slot =>
    obtain ⟨r, -, hn⟩ := h
    simp only [handleBuy] at hn
    split at hn <;> (try split_ifs at hn) <;> cases hn <;> first | exact .inl hs | cases hs
  | take rec off =>
    obtain ⟨r, hr, hn⟩ := h
    cases hr
    rcases marketTake_cases s.market d with ⟨e, he⟩ | ⟨slot', slots, hu, -, he⟩
    · simp only [handleBuy, he] at hn
      cases e <;> cases hn
    · simp only [handleBuy, he] at hn
      cases hn
      cases hs
      exact .inr (mem_of_updateFirst hu).1
  | stat slot rec off | move slot rec off =>
    obtain ⟨r, -, hn⟩ := h
    simp only [handleBuy] at hn
    split_ifs at hn <;> cases hn <;> exact .inl hs
  | _ =>
    obtain ⟨r, -, hn⟩ := h
    cases hn
    try first | exact .inl hs | cases hs

theorem eventSpawnMarket_price {q q' : Spawn} {price : ℤ}
    (h : (eventSpawnMarket q).Steps s c s' (.cont q')) (hp : q'.price? = some price) :
    q.price? = some price ∨ 0 ≤ price := by
  cases q with
  | full | tags frozen =>
    obtain ⟨r, -, hn⟩ := h
    simp only [eventSpawnMarket] at hn
    split_ifs at hn
    cases hn
    cases hp
  | price tags d =>
    obtain ⟨r, -, hn⟩ := h
    cases hn
    cases hp
    right
    simp only [marketPricePerTag]
    omega
  | write doc | add doc =>
    obtain ⟨r, -, hn⟩ := h
    simp only [eventSpawnMarket] at hn
    split_ifs at hn <;> cases hn <;> exact .inl hp
  | _ =>
    obtain ⟨r, -, hn⟩ := h
    cases hn
    try first | exact .inl hp | cases hp

theorem docNext_docs {todo : List DocFile} {q' : Seed} (h : .cont q' = Seed.docNext todo) :
    q'.docs ⊆ todo := by
  cases todo with
  | nil => cases h; exact List.nil_subset _
  | cons doc todo => cases h; exact List.Subset.refl _

theorem seedMarketAndNpc_docs {q q' : Seed} (h : (seedMarketAndNpc q).Steps s c s' (.cont q')) :
    q'.docs ⊆ q.docs := by
  obtain ⟨r, -, hn⟩ := h
  cases q with
  | write doc todo => cases hn; exact List.Subset.refl _
  | add doc todo => exact List.Subset.trans (docNext_docs hn) (List.subset_cons_self _ _)
  | npc n todo => cases todo <;> cases hn; exact List.nil_subset _

theorem triggerRoundReset_docs {pc : Reset} {q' : Seed}
    (h : (triggerRoundReset pc).Steps s c s' (.cont (.seed q'))) :
    q'.docs ⊆ seedDocs ∨ ∃ q, pc = .seed q ∧ q'.docs ⊆ q.docs := by
  cases pc with
  | rumor =>
    obtain ⟨r, -, hn⟩ := h
    cases hn
    exact .inl (List.Subset.refl _)
  | seed q =>
    obtain ⟨n, hn, he⟩ := Action.steps_map.1 h
    rcases n with q' | _ | _ <;> cases he
    exact .inr ⟨q, rfl, seedMarketAndNpc_docs hn⟩
  | masterPurge q =>
    obtain ⟨n, -, he⟩ := Action.steps_map.1 h
    rcases n with q' | _ | _ <;> cases he
  | userPurge name todo q =>
    obtain ⟨n, -, he⟩ := Action.steps_map.1 h
    rcases n with q' | _ | _ <;> cases todo <;> cases he
  | users | marketSnapshot | npcSnapshot =>
    obtain ⟨r, -, hn⟩ := h
    cases r <;> cases hn
  | marketSend slot todo | npcSend slot todo =>
    obtain ⟨r, -, hn⟩ := h
    cases todo <;> cases hn
  | _ =>
    obtain ⟨r, -, hn⟩ := h
    cases hn

theorem priced_own (hG : ∀ slot ∈ s.market.slots, 0 ≤ slot.basePrice) (hP : th.Priced)
    (ha : th.action = some a) (h : a.Steps s c s' th') : th'.Priced := by
  have ho := thread_origin ha h
  cases th' with
  | main pc' =>
    obtain ⟨pc, rfl, hs⟩ := ho
    cases pc' with
    | seed q' =>
      cases pc with
      | npcInit =>
        obtain ⟨r, -, hn⟩ := hs
        cases hn
        exact List.Subset.refl _
      | seed q =>
        obtain ⟨n, hn, he⟩ := Action.steps_map.1 hs
        rcases n with q' | _ | _ <;> cases he
        exact List.Subset.trans (seedMarketAndNpc_docs hn) hP
      | startEvents | add sock =>
        obtain ⟨r, -, hn⟩ := hs
        simp only [mainThread] at hn
        split_ifs at hn <;> cases hn
      | _ =>
        obtain ⟨r, -, hn⟩ := hs
        cases hn
    | _ => trivial
  | session sock key pc' =>
    obtain ⟨pc, rfl, hs⟩ | ⟨rfl, -⟩ := ho
    · cases pc' with
      | buy d q' =>
        intro slot hslot
        obtain ⟨rfl, -⟩ | ⟨q, rfl, hq⟩ := session_origin hs
        · cases hslot
        · exact (handleBuy_slot hq hslot).elim (hP slot) (hG slot)
      | _ => trivial
    · trivial
  | event v' pc' =>
    obtain ⟨v, pc, rfl, hs⟩ := ho
    cases pc' with
    | spawn q' =>
      intro price hp
      obtain rfl | ⟨q, rfl, hq⟩ := event_origin hs
      · cases hp
      · exact (eventSpawnMarket_price hq hp).elim (hP price) id
    | _ => trivial
  | roundEndTimer pc' =>
    obtain ⟨pc, rfl, hs⟩ := ho
    cases pc' with
    | reset r' =>
      cases r' with
      | seed q' =>
        cases pc with
        | reset pc =>
          obtain ⟨n, hn, he⟩ := Action.steps_map.1 hs
          rcases n with pc' | _ | _ <;> cases he
          rcases triggerRoundReset_docs hn with hd | ⟨q, rfl, hd⟩
          · exact hd
          · exact List.Subset.trans hd hP
        | check =>
          obtain ⟨r, -, hn⟩ := hs
          simp only [roundEndTimerThread] at hn
          split_ifs at hn
          cases hn
        | _ =>
          obtain ⟨r, -, hn⟩ := hs
          cases hn
      | _ => trivial
    | _ => trivial
  | _ => trivial

/-- **Prices stay non-negative.** -/
theorem priced_step {p p' : Server} {l : Label} (hI : Priced p) (h : server.next p l = some p') :
    Priced p' := by
  cases l with
  | env e => exact Pool.inv_env hI h hI.shared fun _ hth => hth
  | run t c =>
    refine Pool.inv_run hI h (fun th sh th' new hth hs => ?_) fun _ _ _ _ _ _ _ _ _ _ hu => hu
    obtain ⟨a, r, ha, hr, rfl, rfl⟩ := threadStep_eq_some.1 hs
    refine ⟨⟨fun slot' hslot' => ?_, exec_goal hr hI.shared.2⟩,
      priced_own hI.shared.1 (hI.thread t th hth) ha ⟨r, hr, rfl⟩, fun u hu => ?_⟩
    · rcases slot_step (market_step ha ⟨r, hr, rfl⟩) hslot' with
        ⟨slot, hslot, hsame⟩ | ⟨doc, hadds, hshow⟩ | rfl
      · exact hsame.2.2.1 ▸ hI.shared.1 slot hslot
      · exact hshow.2.2.1 ▸ (hI.thread t th hth).adds hadds
      · exact le_rfl
    · obtain ⟨n, rfl⟩ | ⟨sock, -, rfl⟩ := spawned_start hu
      · cases n <;> trivial
      · trivial

theorem priced_boot (cwd : Dir) (files : Files) (users : UserDb) (clock : ℕ) :
    Priced (boot cwd files users clock) where
  shared := ⟨nofun, (by decide : (0 : ℤ) ≤ goalMoney)⟩
  thread t th h := by
    obtain rfl := List.mem_singleton.1 (List.mem_of_getElem? h)
    trivial

end UnderFlow
