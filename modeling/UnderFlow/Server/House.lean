import UnderFlow.LTS.Exchange
import UnderFlow.Server.Placement
import UnderFlow.Server.Sales
import UnderFlow.Server.Bankruptcy

/-!
# The server as a trading house

What the server is for: players buy documents from a market and sell them to orders, and each of
these trades is one deal.  The handlers make a trade in many operations, with those of other threads
in between.  A trade counts from `market_take` and from `npc_take` on; what its thread still has to
do (a file to move or to remove, a balance to write) is in the *hands* of the thread.

* `Server.house` : the trading house that a state of the server stands for.
* `Thread.deal` : the deal an operation of a thread makes, if it makes one.
* `dealServer` : the server with a record of its deals.
* `shelf_step`, `orders_step` : the market and the board after a step.
-/

namespace UnderFlow

/-! ### The house -/

/-- The documents on the market. -/
def Market.docs (m : Market) : Set DocFile := {doc | ∃ slot ∈ m.slots, slot.active = true ∧
  slot.doc = doc}

/-- The order in a slot. -/
def NPCSlot.order (npc : NPCSlot) : Order := (npc.npcId, npc.requiredTags, npc.bounty)

/-- The order in a place of the board. -/
def orderAt (npcs : List NPCSlot) (i : ℕ) : Option Order :=
  (npcs[i]?.filter (·.active)).map (·.order)

/-- A document costs its price, an order pays its bounty for documents with its tags, and a burned
record has the marker for its balance. -/
def houseTerms : Terms DocFile Order where
  price := (·.basePrice)
  reward o := o.2.2
  suits o docs := Covers (unionOf (docs.map (·.tags))) o.2.1
  ruined := -1

/-- The document that is bought and not in the sandbox yet. -/
def Thread.taking : Thread → Option (Key × ℤ)
  | .session _ key (.buy d (.stat _ _ _)) | .session _ key (.buy d (.move _ _ _)) => some (key, d)
  | _ => none

/-- The documents that are sold and in the sandbox still. -/
def Thread.giving : Thread → List (Key × ℤ)
  | .session _ key (.sell _ _ (.dispose _ d todo _)) => (d :: todo).map fun e => (key, e)
  | _ => []

/-- What is traded and not in the database yet. -/
def Command.float : Command → ℤ
  | .buy _ (.stat slot _ _) | .buy _ (.move slot _ _) | .buy _ (.charge slot _ _) => -slot.basePrice
  | .sell _ _ (.dispose npc _ _ _) | .sell _ _ (.lookup npc _) | .sell _ _ (.credit npc _ _ _) =>
    npc.bounty
  | _ => 0

/-- What a trade in the hands of a thread is still to change in the purse of a key. -/
def Thread.float (k : Key) : Thread → ℤ
  | .session _ key pc => if key = k then pc.float else 0
  | _ => 0

/-- The documents that somebody is about to get. -/
def Server.taken (p : Server) : Set (Key × ℤ) := {x | ∃ th ∈ p.threads, th.taking = some x}

/-- The documents that are about to go. -/
def Server.sold (p : Server) : Set (Key × ℤ) := {x | ∃ th ∈ p.threads, x ∈ th.giving}

/-- The documents of a key: those in the sandbox that are not sold, and what it has bought. -/
def Server.ownedBy (p : Server) (k : Key) : Set DocFile := {doc | k.Plain ∧
  (p.shared.files.get (userDir p.shared.cwd k.bytes) doc.docId = some doc ∧
      (k, doc.docId) ∉ p.sold ∨
    (k, doc.docId) ∈ p.taken ∧
      p.shared.files.get (masterDir p.shared.cwd) doc.docId = some doc)}

/-- The balance of a key, with the trade under way. -/
def Server.purseOf (p : Server) (k : Key) : Option ℤ :=
  (balanceOf p.shared.users k).map (· + (p.threads.map (Thread.float k)).sum)

/-- **The trading house** that a state of the server stands for. -/
def Server.house (p : Server) : Exchange Key DocFile ℕ Order where
  shelf := p.shared.market.docs
  owns := p.ownedBy
  purse := p.purseOf
  board := orderAt p.shared.npcs

/-! ### Deals -/

/-- A deal of the server. -/
abbrev ServerDeal := Deal Key DocFile ℕ Order

/-- The deal made by an update of a record, unless it settles a trade. -/
def Thread.updates (rec : UserRecord) : Thread → Option ServerDeal
  | .session _ key (.rumor _ _) => some (.pay key rumorFee)
  | .session _ key (.fakeRich _) | .session _ key (.payoff _) => some (.assign key rec.money)
  | _ => none

/-- The documents that a sale is for. -/
def Thread.selling (s : Shared) : Thread → List DocFile
  | .session _ key (.sell _ ds _) => ds.filterMap (s.files.get (userDir s.cwd key.bytes))
  | _ => []

/-- The deal an operation of a thread makes. -/
def Thread.deal (s : Shared) (c : Choice) (th : Thread) : Op → Option ServerDeal
  | .marketAdd d t price n =>
    if marketIsFull s.market then none else some (.offer ⟨d, t, price, cstr maxNameLen n⟩)
  | .marketTake d => match (marketTake s.market d).1 with
    | .ok slot => th.player.map fun key => .buy key slot.doc
    | .error _ => none
  | .marketDespawnAged =>
    some (.expire ((s.market.slots.filter (·.expired s.clock)).map (·.doc)))
  | .npcAdd n tags bounty =>
    (s.npcs.findIdx? fun npc => !npc.active).map fun i => .post i (n, tags, bounty)
  | .npcTake n => (s.npcs.findIdx? (·.orders n)).bind fun i =>
    (orderAt s.npcs i).bind fun o => th.player.map fun key => .sell key i o (th.selling s)
  | .npcDespawnAged base step => some (.withdraw ((List.range s.npcs.length).filter fun i =>
      s.npcs[i]?.any (·.expired s.clock base step)))
  | .npcInit => some (.withdraw ((List.range s.npcs.length).filter fun i =>
      s.npcs[i]?.any (·.active)))
  | .unlink (.user key) d =>
    if c.ok = true ∧ (key, d) ∉ th.giving then
      (s.files.get (userDir s.cwd key.bytes) d).map (.discard key)
    else none
  | .userdbAppend rec => if c.ok then some (.join rec.key rec.money) else none
  | .userdbUpdateAt _ rec => th.updates rec
  | .userdbBurnAt off => if c.ok then (keyAt s.users off).map .ruin else none
  | _ => none

/-- What a deal, if there is one, does. -/
def houseAfter (E : Exchange Key DocFile ℕ Order) (a : Option ServerDeal) :
    Exchange Key DocFile ℕ Order := a.elim E (E.after houseTerms)

/-- The deal a step makes. -/
def dealAt (p : Server) : Label → Option ServerDeal
  | .run t c => p.threads[t]?.bind fun th => th.action.bind fun a => th.deal p.shared c a.op
  | .env _ => none

/-- The server with a record of documents and of deals. -/
def dealServer : System ((Server × List PlaceEvent) × List ServerDeal) Label :=
  placeServer.withHistory fun x l => (dealAt x.1 l).toList

variable {s s' : Shared} {c : Choice} {o : Op} {th th' : Thread} {a : Action Thread} {sock off : ℕ}
  {key k : Key} {d n : ℤ} {doc : DocFile} {m : Market} {npcs : List NPCSlot} {i t : ℕ}

/-! ### The deals of operations -/

/-- **What an operation deals.** -/
inductive DealOf (s : Shared) (th : Thread) : Op → ServerDeal → Prop
  | offer (d : ℤ) (tags : Tags) (price : ℤ) (n : Bytes) (hroom : marketIsFull s.market = false) :
    DealOf s th (.marketAdd d tags price n) (.offer ⟨d, tags, price, cstr maxNameLen n⟩)
  | expire :
    DealOf s th .marketDespawnAged
      (.expire ((s.market.slots.filter (·.expired s.clock)).map (·.doc)))
  | buy (d : ℤ) (slot : MarketSlot) (key : Key) (htake : (marketTake s.market d).1 = .ok slot)
      (hplayer : th.player = some key) : DealOf s th (.marketTake d) (.buy key slot.doc)
  | post (i : ℕ) (n : ℤ) (tags : Tags) (bounty : ℤ)
      (hfree : s.npcs.findIdx? (fun npc => !npc.active) = some i) :
    DealOf s th (.npcAdd n tags bounty) (.post i (n, tags, bounty))
  | withdraw (o : Op) (f : NPCSlot → Bool) (ho : o.store = some .npcs)
      (hf : ∀ npc, f npc = true → npc.active = true) :
    DealOf s th o (.withdraw ((List.range s.npcs.length).filter fun i => s.npcs[i]?.any f))
  | sell (n : ℤ) (key : Key) (i : ℕ) (order : Order) (hboard : orderAt s.npcs i = some order) :
    DealOf s th (.npcTake n) (.sell key i order (th.selling s))
  | discard (key : Key) (d : ℤ) (doc : DocFile)
      (hget : s.files.get (userDir s.cwd key.bytes) d = some doc) :
    DealOf s th (.unlink (.user key) d) (.discard key doc)
  | join (rec : UserRecord) : DealOf s th (.userdbAppend rec) (.join rec.key rec.money)
  | pay (off : ℕ) (rec : UserRecord) (key : Key) :
    DealOf s th (.userdbUpdateAt off rec) (.pay key rumorFee)
  | assign (off : ℕ) (rec : UserRecord) (key : Key) :
    DealOf s th (.userdbUpdateAt off rec) (.assign key rec.money)
  | ruin (off : ℕ) (key : Key) (hkey : keyAt s.users off = some key) :
    DealOf s th (.userdbBurnAt off) (.ruin key)

theorem deal_cases {b : ServerDeal} (h : th.deal s c o = some b) : DealOf s th o b := by
  cases o
  case marketAdd d tags price n =>
    simp only [Thread.deal] at h
    split_ifs at h with hfull
    cases h
    exact .offer d tags price n (Bool.eq_false_of_not_eq_true hfull)
  case marketTake d =>
    simp only [Thread.deal] at h
    split at h
    · rename_i slot htake
      obtain ⟨key, hkey, rfl⟩ := Option.map_eq_some_iff.1 h
      exact .buy d slot key htake hkey
    · cases h
  case marketDespawnAged =>
    cases h
    exact .expire
  case npcAdd n tags bounty =>
    obtain ⟨i, hfree, rfl⟩ := Option.map_eq_some_iff.1 h
    exact .post i n tags bounty hfree
  case npcTake n =>
    obtain ⟨i, -, h⟩ := Option.bind_eq_some_iff.1 h
    obtain ⟨order, hboard, h⟩ := Option.bind_eq_some_iff.1 h
    obtain ⟨key, -, rfl⟩ := Option.map_eq_some_iff.1 h
    exact .sell n key i order hboard
  case npcDespawnAged base step =>
    cases h
    refine .withdraw _ (·.expired s.clock base step) rfl fun npc hexp => ?_
    simp only [NPCSlot.expired, Bool.and_eq_true] at hexp
    exact hexp.1
  case npcInit =>
    cases h
    exact .withdraw _ (·.active) rfl fun npc hactive => hactive
  case unlink f d =>
    cases f <;> simp only [Thread.deal, reduceCtorEq] at h
    split_ifs at h
    obtain ⟨doc, hget, rfl⟩ := Option.map_eq_some_iff.1 h
    exact .discard _ d doc hget
  case userdbAppend rec =>
    simp only [Thread.deal] at h
    split_ifs at h
    cases h
    exact .join rec
  case userdbUpdateAt off rec =>
    simp only [Thread.deal, Thread.updates] at h
    split at h <;> cases h
    · exact .pay off rec _
    · exact .assign off rec _
    · exact .assign off rec _
  case userdbBurnAt off =>
    simp only [Thread.deal] at h
    split_ifs at h
    obtain ⟨key, hkey, rfl⟩ := Option.map_eq_some_iff.1 h
    exact .ruin off key hkey
  all_goals cases h

/-! ### The market -/

theorem mem_docs : doc ∈ m.docs ↔ ∃ slot ∈ m.slots, slot.active = true ∧ slot.doc = doc := Iff.rfl

/-- A change of the slots that changes no document. -/
theorem docs_map {f : MarketSlot → MarketSlot} {tags : Tags}
    (hf : ∀ slot, (f slot).active = slot.active ∧ (f slot).doc = slot.doc) :
    Market.docs ⟨m.slots.map f, tags⟩ = m.docs := by
  ext doc
  simp only [mem_docs, List.mem_map]
  constructor
  · rintro ⟨_, ⟨slot, hslot, rfl⟩, hactive, rfl⟩
    exact ⟨slot, hslot, (hf slot).1 ▸ hactive, (hf slot).2.symm⟩
  · rintro ⟨slot, hslot, hactive, rfl⟩
    exact ⟨f slot, ⟨slot, hslot, rfl⟩, (hf slot).1.trans hactive, (hf slot).2⟩

theorem docs_freeze (tags : Tags) : (freezeTags m tags).docs = m.docs :=
  docs_map fun slot => by split_ifs <;> exact ⟨rfl, rfl⟩

theorem docs_unfreeze (tags : Tags) : (unfreezeTags m tags).docs = m.docs :=
  docs_map fun slot => by split_ifs <;> exact ⟨rfl, rfl⟩

theorem docs_of_ids (h : activeIds m = []) : m.docs = ∅ := by
  ext doc
  simp only [mem_docs, Set.mem_empty_iff_false, iff_false]
  rintro ⟨slot, hslot, hactive, -⟩
  have hmem : slot.docId ∈ activeIds m :=
    List.mem_map_of_mem (List.mem_filter.2 ⟨hslot, hactive⟩)
  rw [h] at hmem
  cases hmem

/-- A listing more. -/
theorem docs_add {now r : ℕ} {tags : Tags} {price : ℤ} {name : Bytes} {m' : Market}
    (h : marketAdd m now r d tags price name = some m') :
    m'.docs = insert ⟨d, tags, price, cstr maxNameLen name⟩ m.docs := by
  obtain ⟨⟨slot, slots⟩, hu, rfl⟩ := Option.map_eq_some_iff.1 h
  obtain ⟨l₁, l₂, hm, rfl, hfree, -⟩ := updateFirst_eq_some.1 hu
  have hfree : slot.active = false := by simpa using hfree
  ext doc
  simp only [mem_docs, hm, List.mem_append, List.mem_cons, Set.mem_insert_iff]
  constructor
  · rintro ⟨new, hnew | rfl | hnew, hactive, rfl⟩
    · exact .inr ⟨new, .inl hnew, hactive, rfl⟩
    · exact .inl rfl
    · exact .inr ⟨new, .inr (.inr hnew), hactive, rfl⟩
  · rintro (rfl | ⟨old, hold | rfl | hold, hactive, rfl⟩)
    · exact ⟨_, .inr (.inl rfl), rfl, rfl⟩
    · exact ⟨old, .inl hold, hactive, rfl⟩
    · rw [hfree] at hactive
      cases hactive
    · exact ⟨old, .inr (.inr hold), hactive, rfl⟩

/-- Two active slots with the same id are the same. -/
theorem docId_inj (hids : (activeIds m).Nodup) {slot slot' : MarketSlot} (hs : slot ∈ m.slots)
    (hs' : slot' ∈ m.slots) (ha : slot.active = true) (ha' : slot'.active = true)
    (h : slot.docId = slot'.docId) : slot = slot' :=
  List.inj_on_of_nodup_map hids (List.mem_filter.2 ⟨hs, ha⟩) (List.mem_filter.2 ⟨hs', ha'⟩) h

/-- A listing less. -/
theorem docs_take (hids : (activeIds m).Nodup) {slot : MarketSlot} {slots : List MarketSlot}
    (h : updateFirst (·.lists d) (fun s => { s with active := false }) m.slots =
      some (slot, slots)) :
    Market.docs { m with slots := slots } = {doc ∈ m.docs | doc ≠ slot.doc} := by
  have hperm := activeIds_take h
  obtain ⟨l₁, l₂, hm, rfl, hlists, -⟩ := updateFirst_eq_some.1 h
  obtain ⟨hactive, rfl⟩ : slot.active = true ∧ slot.docId = d := by
    simpa [MarketSlot.lists] using hlists
  have hgone := (List.nodup_cons.1 (hperm.nodup_iff.1 hids)).1
  ext doc
  simp only [mem_docs, Set.mem_ofPred_eq]
  constructor
  · rintro ⟨new, hnew, hon, rfl⟩
    have hmem : new.docId ∈ activeIds { m with
        slots := l₁ ++ { slot with active := false } :: l₂ } :=
      List.mem_map_of_mem (List.mem_filter.2 ⟨hnew, hon⟩)
    refine ⟨⟨new, ?_, hon, rfl⟩, fun heq => hgone ?_⟩
    · simp only [List.mem_append, List.mem_cons] at hnew
      rcases hnew with hnew | rfl | hnew
      · rw [hm]
        exact List.mem_append_left _ hnew
      · cases hon
      · rw [hm]
        exact List.mem_append_right _ (List.mem_cons_of_mem _ hnew)
    · rwa [show new.docId = slot.docId from congrArg DocFile.docId heq] at hmem
  · rintro ⟨⟨old, hold, hon, rfl⟩, hne⟩
    refine ⟨old, ?_, hon, rfl⟩
    rw [hm] at hold
    simp only [List.mem_append, List.mem_cons] at hold ⊢
    rcases hold with hold | rfl | hold
    · exact .inl hold
    · exact absurd rfl hne
    · exact .inr (.inr hold)

/-- The listings that are left. -/
theorem docs_age (hids : (activeIds m).Nodup) (now r : ℕ) :
    (marketDespawnAged m now r).2.docs =
      {doc ∈ m.docs | doc ∉ (m.slots.filter (·.expired now)).map (·.doc)} := by
  ext doc
  simp only [mem_docs, marketDespawnAged, List.mem_map, Set.mem_ofPred_eq, List.mem_filter,
    not_exists, not_and]
  constructor
  · rintro ⟨_, ⟨slot, hslot, rfl⟩, hactive, rfl⟩
    split_ifs at hactive with hexp
    rw [if_neg hexp]
    refine ⟨⟨slot, hslot, hactive, rfl⟩, fun old hold heq => hexp ?_⟩
    obtain ⟨hold, hexp'⟩ := hold
    have hon : old.active = true := by
      simp only [MarketSlot.expired, Bool.and_eq_true] at hexp'
      exact hexp'.1.1
    rw [← docId_inj hids hold hslot hon hactive (congrArg DocFile.docId heq)]
    exact hexp'
  · rintro ⟨⟨slot, hslot, hactive, rfl⟩, hkept⟩
    have hexp : ¬ slot.expired now = true := fun hexp => hkept slot ⟨hslot, hexp⟩ rfl
    exact ⟨_, ⟨slot, hslot, rfl⟩, by rwa [if_neg hexp], by rw [if_neg hexp]⟩

/-- An operation on another store makes no deal on the market. -/
theorem shelf_of_store (ho : o.store ≠ some .market) {b : ServerDeal} (h : th.deal s c o = some b)
    (S : Set DocFile) : b.shelf S = S := by
  cases deal_cases h <;> first | rfl | exact absurd rfl ho

/-- **The market after a step.** -/
theorem shelf_step (th : Thread) (hids : (activeIds s.market).Nodup)
    (hinit : o = .marketInit → activeIds s.market = [])
    (hplayer : ∀ d, o = .marketTake d → ∃ key, th.player = some key) {r : o.Ret}
    (hr : o.exec s c = some (s', r)) :
    s'.market.docs = (th.deal s c o).elim s.market.docs fun b => b.shelf s.market.docs := by
  by_cases ho : o.store = some .market
  · cases o <;> simp only [Op.store, Option.some.injEq, reduceCtorEq] at ho
    case marketTake d =>
      obtain ⟨key, hkey⟩ := hplayer d rfl
      cases hr
      rcases marketTake_cases s.market d with ⟨e, he⟩ | ⟨slot, slots, hu, -, he⟩
      · simp only [Thread.deal, he, Option.elim_none]
      · simp only [Thread.deal, he, hkey, Option.map_some, Option.elim_some]
        exact docs_take hids hu
    case marketAdd d tags price name =>
      rcases exec_marketAdd hr with ⟨rfl, rfl⟩ | ⟨rfl, m', rfl, hadd⟩
      · rcases marketAdd_ids hr with ⟨-, -, hfull⟩ | ⟨hr', -, -⟩
        · simp only [Thread.deal, hfull, ↓reduceIte, Option.elim_none]
        · cases hr'
      · rcases marketAdd_ids hr with ⟨hr', -, -⟩ | ⟨-, -, hids'⟩
        · cases hr'
        · have hroom : marketIsFull s.market = false := by
            obtain ⟨⟨slot, slots⟩, hu, -⟩ := Option.map_eq_some_iff.1 hadd
            obtain ⟨hmem, hfree⟩ := mem_of_updateFirst hu
            rw [marketIsFull, List.all_eq_false]
            exact ⟨slot, hmem, by simpa using hfree⟩
          simp only [Thread.deal, hroom, Bool.false_eq_true, ↓reduceIte, Option.elim_some]
          exact docs_add hadd
    case marketDespawnAged =>
      cases hr
      exact docs_age hids s.clock maxMarketSlots
    case freezeTags tags =>
      cases hr
      exact docs_freeze tags
    case unfreezeTags tags =>
      cases hr
      exact docs_unfreeze tags
    case marketInit =>
      cases hr
      rw [docs_of_ids (hinit rfl)]
      exact docs_of_ids activeIds_marketInit
  · rw [(exec_frame hr).market ho]
    rcases hb : th.deal s c o with _ | b
    · rfl
    · exact (shelf_of_store ho hb _).symm

/-! ### The board -/

/-- An operation on another store makes no deal on the board. -/
theorem board_of_store (ho : o.store ≠ some .npcs) {b : ServerDeal} (h : th.deal s c o = some b)
    (B : ℕ → Option Order) : b.board B = B := by
  cases deal_cases h with
  | withdraw _ f hnpcs hf => exact absurd hnpcs ho
  | _ => first | rfl | exact absurd rfl ho

theorem orderAt_of_getElem? {npc : NPCSlot} (h : npcs[i]? = some npc) :
    orderAt npcs i = if npc.active then some npc.order else none := by
  rw [orderAt, h]
  cases hactive : npc.active <;> simp [hactive]

theorem orderAt_eq_some {x : Order} : orderAt npcs i = some x ↔
    ∃ npc, npcs[i]? = some npc ∧ npc.active = true ∧ npc.order = x := by
  simp only [orderAt, Option.map_eq_some_iff, Option.filter_eq_some_iff]
  tauto

theorem orderAt_set {npc : NPCSlot} (hi : i < npcs.length) :
    orderAt (npcs.set i npc) = Function.update (orderAt npcs) i
      (if npc.active then some npc.order else none) := by
  funext j
  by_cases hj : j = i
  · subst hj
    rw [Function.update_self, orderAt_of_getElem? (List.getElem?_set_self hi)]
  · rw [Function.update_of_ne hj, orderAt, List.getElem?_set_ne (Ne.symm hj), orderAt]

/-- The orders that are left when some are taken off the board. -/
theorem orderAt_drop (f : NPCSlot → Bool) : orderAt (npcs.map fun npc =>
      if f npc then { npc with active := false } else npc) = fun i =>
    if i ∈ (List.range npcs.length).filter (fun i => npcs[i]?.any f) then none
    else orderAt npcs i := by
  funext i
  simp only [List.mem_filter, List.mem_range]
  rcases hi : npcs[i]? with _ | npc
  · have hnone : orderAt npcs i = none := by rw [orderAt, hi]; rfl
    rw [hnone, ite_self, orderAt, List.getElem?_map, hi]
    rfl
  · have hlt := (List.getElem?_eq_some_iff.1 hi).1
    have hmap : (npcs.map fun npc => if f npc then { npc with active := false } else npc)[i]? =
        some (if f npc then { npc with active := false } else npc) := by
      rw [List.getElem?_map, hi]
      rfl
    rw [orderAt_of_getElem? hmap, orderAt_of_getElem? hi]
    cases hf : f npc <;> simp [hf, hlt]

theorem orderAt_empty (h : ∀ npc ∈ npcs, npc.active = false) : orderAt npcs = fun _ => none := by
  funext i
  rcases hi : npcs[i]? with _ | npc
  · rw [orderAt, hi]
    rfl
  · rw [orderAt_of_getElem? hi, h npc (List.mem_of_getElem? hi)]
    rfl

theorem npcInit_inactive : ∀ npc ∈ npcInit, npc.active = false := by
  intro npc h
  rw [List.eq_of_mem_replicate h]

theorem npcs_cleared (npcs : List NPCSlot) : ∀ npc ∈ npcs.map fun npc =>
    if npc.active then { npc with active := false } else npc, npc.active = false := by
  intro npc h
  obtain ⟨old, -, rfl⟩ := List.mem_map.1 h
  cases hactive : old.active <;> simp [hactive]

/-- **The board after a step.** -/
theorem orders_step (th : Thread)
    (hplayer : ∀ n, o = .npcTake n → ∃ key, th.player = some key) {r : o.Ret}
    (hr : o.exec s c = some (s', r)) :
    orderAt s'.npcs = (th.deal s c o).elim (orderAt s.npcs) fun b => b.board (orderAt s.npcs) := by
  by_cases ho : o.store = some .npcs
  · cases o <;> simp only [Op.store, Option.some.injEq, reduceCtorEq] at ho
    case npcTake n =>
      obtain ⟨key, hkey⟩ := hplayer n rfl
      rcases exec_npcTake hr with ⟨rfl, -, hnone⟩ | ⟨npc, npcs, rfl, -, htake⟩
      · simp only [Thread.deal, findIdx?_of_updateFirst_eq_none hnone, Option.bind_none,
          Option.elim_none]
      · obtain ⟨i, hfind, hi, horders, rfl⟩ := findIdx?_of_updateFirst htake
        obtain ⟨hlt, -⟩ := List.getElem?_eq_some_iff.1 hi
        have horder : orderAt s.npcs i = some npc.order := by
          rw [orderAt_of_getElem? hi, if_pos ((Bool.and_eq_true _ _).mp horders).1]
        simp only [Thread.deal, hfind, horder, hkey, Option.bind_some, Option.map_some,
          Option.elim_some]
        exact orderAt_set hlt
    case npcAdd n tags bounty =>
      simp only [Op.exec] at hr
      split at hr
      · rename_i hnone
        cases hr
        simp only [Thread.deal, findIdx?_of_updateFirst_eq_none (Option.map_eq_none_iff.1 hnone),
          Option.map_none, Option.elim_none]
      · rename_i npcs hadd
        cases hr
        obtain ⟨i, hfree, hi, rfl⟩ := npcAdd_slot hadd
        simp only [Thread.deal, hfree, Option.map_some, Option.elim_some]
        exact orderAt_set hi
    case npcDespawnAged base step =>
      cases hr
      exact orderAt_drop _
    case npcInit =>
      cases hr
      refine Eq.trans ?_ (orderAt_drop (·.active))
      exact (orderAt_empty npcInit_inactive).trans (orderAt_empty (npcs_cleared s.npcs)).symm
  · rw [(exec_frame hr).npcs ho]
    rcases hb : th.deal s c o with _ | b
    · rfl
    · exact (board_of_store ho hb _).symm

end UnderFlow
